import Mathlib.Data.List.Basic
import Mathlib.Order.Basic

/-!
# Fields joined by separators

When a text is put together from fields of variable length, the fields can be read off again if the
separators do not occur in them.  A field that can contain separators may still stand at one place: at
the front, if the fields behind it are free of them.
-/

namespace Nix.Fields

variable {τ : Type*} {c : τ} {x y s t : List τ}

/-- The front field ends at the first separator. -/
theorem front_inj (hx : c ∉ x) (hy : c ∉ y) (h : x ++ c :: s = y ++ c :: t) : x = y ∧ s = t := by
  induction x generalizing y with
  | nil =>
    cases y with
    | nil => exact ⟨rfl, List.tail_eq_of_cons_eq h⟩
    | cons d y =>
      have hd : c = d := List.head_eq_of_cons_eq h
      exact absurd (hd ▸ List.mem_cons_self) hy
  | cons d x ih =>
    cases y with
    | nil =>
      have hd : d = c := List.head_eq_of_cons_eq h
      exact absurd (hd ▸ List.mem_cons_self) hx
    | cons e y =>
      obtain ⟨rfl, htail⟩ := List.cons_eq_cons.mp h
      have hrest := ih (fun hc => hx (List.mem_cons_of_mem _ hc))
        (fun hc => hy (List.mem_cons_of_mem _ hc)) htail
      exact ⟨congrArg _ hrest.1, hrest.2⟩

/-- The last field begins behind the last separator. -/
theorem last_inj (hs : c ∉ s) (ht : c ∉ t) (h : x ++ c :: s = y ++ c :: t) : x = y ∧ s = t := by
  have hrev : s.reverse ++ c :: x.reverse = t.reverse ++ c :: y.reverse := by
    simpa using congrArg List.reverse h
  have hfields := front_inj (by simpa using hs) (by simpa using ht) hrev
  exact ⟨List.reverse_inj.mp hfields.2, List.reverse_inj.mp hfields.1⟩

/-- The fields of a list, each behind a separator. -/
def joined (c : τ) (fields : List (List τ)) : List τ := fields.flatMap fun f => c :: f

/-- A field behind a fixed opening: `opening`, then a body without the character that `opening` begins
with. -/
def Opened (opening : List τ) (f : List τ) : Prop :=
  ∃ d body, opening.head? = some d ∧ d ∉ body ∧ f = opening ++ body

/-- The body of a field ends where nothing follows, or where the separator and the next opening do. -/
theorem body_inj {d : τ} (hdc : d ≠ c) (hx : d ∉ x) (hy : d ∉ y)
    (hs : s = [] ∨ ∃ u, s = c :: d :: u) (ht : t = [] ∨ ∃ u, t = c :: d :: u)
    (h : x ++ s = y ++ t) : x = y ∧ s = t := by
  rcases hs with rfl | ⟨u, rfl⟩
  · rcases ht with rfl | ⟨v, rfl⟩
    · exact ⟨by simpa using h, rfl⟩
    · have hd : d ∈ x ++ [] := by simp [h]
      exact absurd (by simpa using hd) hx
  · rcases ht with rfl | ⟨v, rfl⟩
    · have hd : d ∈ y ++ [] := by simp [← h]
      exact absurd (by simpa using hd) hy
    · have hsep : (x ++ [c]) ++ d :: u = (y ++ [c]) ++ d :: v := by simpa using h
      obtain ⟨hxy, rfl⟩ := front_inj (by simp [hx, hdc]) (by simp [hy, hdc]) hsep
      exact ⟨List.append_cancel_right hxy, rfl⟩

/-- A text of joined fields is empty, or it begins with the separator and the opening. -/
theorem joined_shape {opening : List τ} {d : τ} (hd : opening.head? = some d) {l : List (List τ)}
    (hl : ∀ f ∈ l, Opened opening f) : joined c l = [] ∨ ∃ u, joined c l = c :: d :: u := by
  cases l with
  | nil => exact Or.inl rfl
  | cons f l =>
    obtain ⟨-, body, -, -, rfl⟩ := hl f List.mem_cons_self
    obtain ⟨rest, rfl⟩ := List.head?_eq_some_iff.mp hd
    exact Or.inr ⟨_, rfl⟩

/-- Fields with the same opening can be joined by any other character, also by one that occurs in
them. -/
theorem joined_injOn {opening : List τ} (hc : opening.head? ≠ some c) {l l' : List (List τ)}
    (hl : ∀ f ∈ l, Opened opening f) (hl' : ∀ f ∈ l', Opened opening f)
    (h : joined c l = joined c l') : l = l' := by
  induction l generalizing l' with
  | nil =>
    cases l' with
    | nil => rfl
    | cons f l' => simp [joined] at h
  | cons f l ih =>
    cases l' with
    | nil => simp [joined] at h
    | cons g l' =>
      obtain ⟨d, body, hd, hbody, rfl⟩ := hl f List.mem_cons_self
      obtain ⟨d', body', hd', hbody', rfl⟩ := hl' g List.mem_cons_self
      obtain rfl : d = d' := Option.some.inj (hd.symm.trans hd')
      have hdc : d ≠ c := fun hdc => hc (hdc ▸ hd)
      have hrest : ∀ f ∈ l, Opened opening f := fun f hf => hl f (List.mem_cons_of_mem _ hf)
      have hrest' : ∀ f ∈ l', Opened opening f := fun f hf => hl' f (List.mem_cons_of_mem _ hf)
      have htail : body ++ joined c l = body' ++ joined c l' := by simpa [joined] using h
      obtain ⟨rfl, hjoined⟩ :=
        body_inj hdc hbody hbody' (joined_shape hd hrest) (joined_shape hd hrest') htail
      rw [ih hrest hrest' hjoined]

end Nix.Fields
