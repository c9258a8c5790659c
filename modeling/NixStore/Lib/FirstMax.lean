import Mathlib

/-!
# The first element of greatest rank

A loop that keeps an element until a strictly better one comes along ends with the first element of
greatest rank, as long as the comparison that it makes is the comparison of ranks in a linear order.
-/

namespace Nix

variable {α β : Type*} [LinearOrder β]

/-- Of the elements of greatest rank in a list, the first one. -/
def IsFirstMax (rank : α → β) (l : List α) (w : α) : Prop :=
  ∃ before after, l = before ++ w :: after ∧
    (∀ a ∈ before, rank a < rank w) ∧ ∀ a ∈ after, rank a ≤ rank w

/-- One round of a loop that replaces the best element so far by a better one. -/
def keepBetter (better : α → α → Bool) : Option α → α → Option α
  | none, a => some a
  | some b, a => if better a b then some a else some b

namespace IsFirstMax

variable {rank : α → β} {l : List α} {w w' : α}

/-- The first best element is in the list. -/
theorem mem (h : IsFirstMax rank l w) : w ∈ l := by
  obtain ⟨before, after, rfl, -, -⟩ := h
  simp

/-- No element is better. -/
theorem rank_le (h : IsFirstMax rank l w) : ∀ a ∈ l, rank a ≤ rank w := by
  obtain ⟨before, after, rfl, hbefore, hafter⟩ := h
  intro a ha
  rcases List.mem_append.mp ha with ha | ha
  · exact (hbefore a ha).le
  · rcases List.mem_cons.mp ha with rfl | ha
    · exact le_rfl
    · exact hafter a ha

/-- A single element is the best. -/
theorem singleton (rank : α → β) (a : α) : IsFirstMax rank [a] a :=
  ⟨[], [], rfl, by simp, by simp⟩

/-- A later element that is not better changes nothing. -/
theorem concat_of_le {a : α} (h : IsFirstMax rank l w) (ha : rank a ≤ rank w) :
    IsFirstMax rank (l ++ [a]) w := by
  obtain ⟨before, after, rfl, hbefore, hafter⟩ := h
  refine ⟨before, after ++ [a], by simp, hbefore, fun b hb => ?_⟩
  rcases List.mem_append.mp hb with hb | hb
  · exact hafter b hb
  · rwa [List.mem_singleton.mp hb]

/-- A later element that is better takes the place. -/
theorem concat_of_lt {a : α} (h : IsFirstMax rank l w) (ha : rank w < rank a) :
    IsFirstMax rank (l ++ [a]) a :=
  ⟨l, [], rfl, fun b hb => (h.rank_le b hb).trans_lt ha, by simp⟩

/-- There is only one first element of greatest rank. -/
theorem unique (h : IsFirstMax rank l w) (h' : IsFirstMax rank l w') : w = w' := by
  have heq : rank w = rank w' := le_antisymm (h'.rank_le w h.mem) (h.rank_le w' h'.mem)
  obtain ⟨before, after, rfl, hbefore, -⟩ := h
  obtain ⟨before', after', hl, hbefore', -⟩ := h'
  rcases List.append_eq_append_iff.mp hl with ⟨mid, rfl, hmid⟩ | ⟨mid, rfl, hmid⟩
  · cases mid with
    | nil => exact (List.cons.inj hmid).1
    | cons b mid =>
      obtain ⟨rfl, -⟩ := List.cons.inj hmid
      exact absurd heq (hbefore' w (by simp)).ne
  · cases mid with
    | nil => exact (List.cons.inj hmid).1.symm
    | cons b mid =>
      obtain ⟨rfl, -⟩ := List.cons.inj hmid
      exact absurd heq.symm (hbefore w' (by simp)).ne

/-- The first element of greatest rank is still that if other ones are dropped. -/
theorem filter {p : α → Bool} (h : IsFirstMax rank l w) (hw : p w = true) :
    IsFirstMax rank (l.filter p) w := by
  obtain ⟨before, after, rfl, hbefore, hafter⟩ := h
  refine ⟨before.filter p, after.filter p, by simp [hw], fun a ha => ?_, fun a ha => ?_⟩
  · exact hbefore a (List.mem_filter.mp ha).1
  · exact hafter a (List.mem_filter.mp ha).1

end IsFirstMax

section

variable {rank : α → β} {better : α → α → Bool} {l : List α}

/-- The loop finds an element if there is one. -/
theorem exists_foldl_keepBetter (hl : l ≠ [])
    (hbetter : ∀ a ∈ l, ∀ b ∈ l, better a b = true ↔ rank b < rank a) :
    ∃ w, l.foldl (keepBetter better) none = some w ∧ IsFirstMax rank l w := by
  induction l using List.reverseRecOn with
  | nil => exact absurd rfl hl
  | append_singleton l a ih =>
    rw [List.foldl_append, List.foldl_cons, List.foldl_nil]
    by_cases hnil : l = []
    · subst hnil
      exact ⟨a, rfl, .singleton rank a⟩
    · obtain ⟨w, hw, hmax⟩ := ih hnil fun b hb c hc =>
        hbetter b (List.mem_append_left _ hb) c (List.mem_append_left _ hc)
      have hiff := hbetter a (by simp) w (List.mem_append_left _ hmax.mem)
      rw [hw, keepBetter]
      split_ifs with ha
      · exact ⟨a, rfl, hmax.concat_of_lt (hiff.mp ha)⟩
      · exact ⟨w, rfl, hmax.concat_of_le (not_lt.mp fun hlt => ha (hiff.mpr hlt))⟩

/-- A nonempty list has a first best element. -/
theorem exists_isFirstMax (rank : α → β) (hl : l ≠ []) : ∃ w, IsFirstMax rank l w := by
  obtain ⟨w, -, hmax⟩ := @exists_foldl_keepBetter _ _ _ rank (fun a b => decide (rank b < rank a)) l hl
    (by simp)
  exact ⟨w, hmax⟩

/-- What the loop finds is the first element of greatest rank. -/
theorem foldl_keepBetter_eq_some_iff
    (hbetter : ∀ a ∈ l, ∀ b ∈ l, better a b = true ↔ rank b < rank a) {w : α} :
    l.foldl (keepBetter better) none = some w ↔ IsFirstMax rank l w := by
  constructor
  · intro h
    by_cases hl : l = []
    · rw [hl] at h
      cases h
    · obtain ⟨w', hw', hmax⟩ := exists_foldl_keepBetter hl hbetter
      rw [h, Option.some.injEq] at hw'
      exact hw' ▸ hmax
  · intro h
    obtain ⟨w', hw', hmax⟩ := exists_foldl_keepBetter (List.ne_nil_of_mem h.mem) hbetter
    rw [hw', hmax.unique h]

/-- The loop ends with nothing only for the empty list. -/
theorem foldl_keepBetter_eq_none_iff
    (hbetter : ∀ a ∈ l, ∀ b ∈ l, better a b = true ↔ rank b < rank a) :
    l.foldl (keepBetter better) none = none ↔ l = [] := by
  constructor
  · intro h
    by_contra hl
    obtain ⟨w, hw, -⟩ := exists_foldl_keepBetter hl hbetter
    rw [h] at hw
    cases hw
  · rintro rfl
    rfl

end

end Nix
