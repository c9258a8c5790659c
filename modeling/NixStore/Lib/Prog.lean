import Mathlib

/-!
# Programs with a state that survives exceptions

A program takes a state and ends with a result or an exception, and with a state in both cases: what
it did before it threw stays done.  `Ends m s Q E` says that `m`, started in `s`, ends in a result
and a state that satisfy `Q` or in an exception and a state that satisfy `E`; there is one rule for
each way to build a program.  `Both` compares two programs that return.
-/

namespace Nix

/-- A program over states `σ` with exceptions `ε`. -/
def Prog (σ ε α : Type) := σ → Except ε α × σ

namespace Prog

variable {σ ε α β : Type}

instance : Monad (Prog σ ε) where
  pure a s := (.ok a, s)
  bind m f s := match m s with
    | (.ok a, s') => f a s'
    | (.error e, s') => (.error e, s')

/-- Throw an exception. -/
def throw (e : ε) : Prog σ ε α := fun s => (.error e, s)

/-- Read the state. -/
def get : Prog σ ε σ := fun s => (.ok s, s)

/-- Change the state. -/
def modify (f : σ → σ) : Prog σ ε Unit := fun s => (.ok (), f s)

/-- A loop over a list. -/
def each (f : α → Prog σ ε Unit) : List α → Prog σ ε Unit
  | [] => pure ()
  | a :: l => do
    f a
    each f l

/-- A loop over a list that stops when the body returns `false`. -/
def all (f : α → Prog σ ε Bool) : List α → Prog σ ε Bool
  | [] => pure true
  | a :: l => do
    if ← f a then all f l else return false

/-- Go on when a program throws one of certain exceptions. -/
def catching (p : ε → Prop) [DecidablePred p] (m : Prog σ ε Unit) : Prog σ ε Unit := fun s =>
  match m s with
  | (.ok a, s') => (.ok a, s')
  | (.error e, s') => if p e then (.ok (), s') else (.error e, s')

@[simp] theorem pure_apply (a : α) (s : σ) : (pure a : Prog σ ε α) s = (.ok a, s) := rfl

@[simp] theorem throw_apply (e : ε) (s : σ) : (throw e : Prog σ ε α) s = (.error e, s) := rfl

@[simp] theorem get_apply (s : σ) : (get : Prog σ ε σ) s = (.ok s, s) := rfl

@[simp] theorem modify_apply (f : σ → σ) (s : σ) :
    (modify f : Prog σ ε Unit) s = (.ok (), f s) := rfl

theorem bind_apply (m : Prog σ ε α) (f : α → Prog σ ε β) (s : σ) :
    (m >>= f) s = match m s with
      | (.ok a, s') => f a s'
      | (.error e, s') => (.error e, s') := rfl

/-- How a program ends when it is started in a state. -/
def Ends (m : Prog σ ε α) (s : σ) (Q : α → σ → Prop) (E : ε → σ → Prop) : Prop :=
  match m s with
  | (.ok a, s') => Q a s'
  | (.error e, s') => E e s'

variable {m : Prog σ ε α} {s : σ} {Q : α → σ → Prop} {E : ε → σ → Prop}

theorem ends_pure {a : α} (h : Q a s) : Ends (pure a : Prog σ ε α) s Q E := h

theorem ends_pure_bind {a : α} {f : α → Prog σ ε β} {Q : β → σ → Prop} (h : Ends (f a) s Q E) :
    Ends ((pure a : Prog σ ε α) >>= f) s Q E := h

theorem ends_throw {e : ε} (h : E e s) : Ends (throw e : Prog σ ε α) s Q E := h

theorem ends_modify {f : σ → σ} {Q : Unit → σ → Prop} (h : Q () (f s)) :
    Ends (modify f : Prog σ ε Unit) s Q E := h

theorem ends_modify_bind {f : σ → σ} {g : Unit → Prog σ ε β} {Q : β → σ → Prop}
    (h : Ends (g ()) (f s) Q E) : Ends (modify f >>= g) s Q E := h

theorem ends_get_bind {f : σ → Prog σ ε β} {Q : β → σ → Prop} (h : Ends (f s) s Q E) :
    Ends (get >>= f) s Q E := h

/-- Every computation ends somehow. -/
theorem ends_true : Ends m s (fun _ _ => True) fun _ _ => True := by
  unfold Ends
  split <;> trivial

/-- A program that can only end in one exception, and does not, returns. -/
theorem fst_eq_ok {m : Prog σ ε Unit} {Q : Unit → σ → Prop} {e₀ : ε}
    (h : Ends m s Q fun e _ => e = e₀) (hne : (m s).1 ≠ .error e₀) : (m s).1 = .ok () := by
  rw [Ends] at h
  rcases hm : m s with ⟨e | a, s'⟩
  · rw [hm] at h hne
    exact absurd (congrArg _ h) hne
  · rfl

/-- A program that cannot end in an exception returns. -/
theorem Ends.exists_ok (h : Ends m s Q fun _ _ => False) : ∃ a s', m s = (.ok a, s') ∧ Q a s' := by
  rw [Ends] at h
  rcases hm : m s with ⟨e | a, s'⟩
  · rw [hm] at h
    exact h.elim
  · rw [hm] at h
    exact ⟨a, s', rfl, h⟩

/-- A program ends as it does. -/
theorem ends_self : Ends m s (fun a s' => m s = (.ok a, s')) fun e s' => m s = (.error e, s') := by
  rw [Ends]
  rcases m s with ⟨e | a, s'⟩ <;> rfl

/-- Weaker conditions at the end. -/
theorem Ends.mono {Q' : α → σ → Prop} {E' : ε → σ → Prop} (h : Ends m s Q E)
    (hQ : ∀ a s', Q a s' → Q' a s') (hE : ∀ e s', E e s' → E' e s') : Ends m s Q' E' := by
  unfold Ends at h ⊢
  split <;> simp_all

/-- Two facts about how a program ends. -/
theorem Ends.and {Q' : α → σ → Prop} {E' : ε → σ → Prop} (h : Ends m s Q E) (h' : Ends m s Q' E') :
    Ends m s (fun a s' => Q a s' ∧ Q' a s') fun e s' => E e s' ∧ E' e s' := by
  unfold Ends at h h' ⊢
  split <;> simp_all

/-- The rule for two computations in a row. -/
theorem Ends.bind {f : α → Prog σ ε β} {Q' : β → σ → Prop} {E' : ε → σ → Prop} (h : Ends m s Q E)
    (hf : ∀ a s', Q a s' → Ends (f a) s' Q' E') (hE : ∀ e s', E e s' → E' e s') :
    Ends (m >>= f) s Q' E' := by
  unfold Ends at h ⊢
  rw [bind_apply]
  rcases hm : m s with ⟨e | a, s'⟩
  · simp only [hm] at h ⊢
    exact hE e s' h
  · simp only [hm] at h ⊢
    exact hf a s' h

/-- The rule for a function applied to the result. -/
theorem Ends.map {f : α → β} {Q : β → σ → Prop} (h : Ends m s (fun a s' => Q (f a) s') E) :
    Ends (f <$> m) s Q E :=
  Ends.bind (f := fun a => pure (f a)) h (fun _ _ => ends_pure) fun _ _ => id

/-- The rule for a handler of some exceptions. -/
theorem Ends.catching {p : ε → Prop} [DecidablePred p] {m : Prog σ ε Unit} {Q : Unit → σ → Prop}
    (h : Ends m s Q E) :
    Ends (Prog.catching p m) s (fun _ s' => Q () s' ∨ ∃ e, p e ∧ E e s')
      fun e s' => ¬ p e ∧ E e s' := by
  unfold Ends Prog.catching at *
  rcases hm : m s with ⟨e | a, s'⟩
  · simp only [hm] at h ⊢
    by_cases hp : p e
    · rw [if_pos hp]
      exact Or.inr ⟨e, hp, h⟩
    · rw [if_neg hp]
      exact ⟨hp, h⟩
  · simp only [hm] at h ⊢
    exact Or.inl h

/-- The facts about the end, in terms of the end. -/
theorem Ends.of_ok (h : Ends m s Q E) {a : α} {s' : σ} (hm : m s = (.ok a, s')) : Q a s' := by
  rw [Ends, hm] at h
  exact h

/-- A fact about the final state, however a program ends. -/
theorem Ends.state_of {P : σ → Prop} (h : Ends m s Q E) (hQ : ∀ a s', Q a s' → P s')
    (hE : ∀ e s', E e s' → P s') : P (m s).2 := by
  unfold Ends at h
  rcases hm : m s with ⟨e | a, s'⟩
  · rw [hm] at h
    exact hE e s' h
  · rw [hm] at h
    exact hQ a s' h

/-- What holds when an exception is thrown. -/
theorem Ends.of_error (h : Ends m s Q E) {e : ε} {s' : σ} (hm : m s = (.error e, s')) : E e s' := by
  rw [Ends, hm] at h
  exact h

/-- The invariant of a loop over a list: `I` speaks about the part that is done. -/
theorem Ends.each {f : α → Prog σ ε Unit} {I : List α → σ → Prop} (l : List α)
    (hstep : ∀ done a rest s, l = done ++ a :: rest → I done s →
      Ends (f a) s (fun _ s' => I (done ++ [a]) s') E) (hinit : I [] s) :
    Ends (Prog.each f l) s (fun _ s' => I l s') E := by
  have hloop : ∀ (rest done : List α) (s : σ), l = done ++ rest → I done s →
      Ends (Prog.each f rest) s (fun _ s' => I l s') E := by
    intro rest
    induction rest with
    | nil =>
      intro done s hl hs
      rw [List.append_nil] at hl
      exact ends_pure (hl ▸ hs)
    | cons a rest ih =>
      intro done s hl hs
      refine (hstep done a rest s hl hs).bind (fun _ s' hs' => ?_) fun _ _ => id
      exact ih (done ++ [a]) s' (by simp [hl]) hs'
  exact hloop l [] s rfl hinit

/-- A loop over two lists is two loops in a row. -/
theorem each_append (f : α → Prog σ ε Unit) (l l' : List α) :
    each f (l ++ l') = each f l >>= fun _ => each f l' := by
  induction l with
  | nil => rfl
  | cons a l ih =>
    funext s
    rw [List.cons_append, each, each, ih]
    simp only [bind_apply]
    rcases f a s with ⟨e | a, s'⟩ <;> rfl

/-- A loop over a list, and then over another one. -/
theorem Ends.each_append {f : α → Prog σ ε Unit} {l l' : List α} {Q Q' : Unit → σ → Prop}
    (h : Ends (Prog.each f l) s Q E) (hl' : ∀ a s', Q a s' → Ends (Prog.each f l') s' Q' E) :
    Ends (Prog.each f (l ++ l')) s Q' E := by
  rw [Prog.each_append]
  exact h.bind hl' fun _ _ => id

/-- The invariant of a loop that can stop: `I` speaks about the part on which the body returned
`true`, and `F` holds when the loop stops. -/
theorem Ends.all {f : α → Prog σ ε Bool} {I : List α → σ → Prop} {F : α → σ → Prop} (l : List α)
    (hstep : ∀ done a rest s, l = done ++ a :: rest → I done s →
      Ends (f a) s (fun b s' => if b then I (done ++ [a]) s' else F a s') E) (hinit : I [] s) :
    Ends (Prog.all f l) s (fun b s' => if b then I l s' else ∃ a ∈ l, F a s') E := by
  have hloop : ∀ (rest done : List α) (s : σ), l = done ++ rest → I done s →
      Ends (Prog.all f rest) s (fun b s' => if b then I l s' else ∃ a ∈ l, F a s') E := by
    intro rest
    induction rest with
    | nil =>
      intro done s hl hs
      rw [List.append_nil] at hl
      exact ends_pure (by simpa [hl] using hs)
    | cons a rest ih =>
      intro done s hl hs
      refine (hstep done a rest s hl hs).bind (fun b s' hs' => ?_) fun _ _ => id
      cases b with
      | true => exact ih (done ++ [a]) s' (by simp [hl]) hs'
      | false => exact ends_pure ⟨a, by simp [hl], hs'⟩
  exact hloop l [] s rfl hinit

/-! ### Two programs -/

/-- If two programs return, their results and states are related. -/
def Both {α' : Type} (m : Prog σ ε α) (m' : Prog σ ε α') (s s' : σ) (R : α → σ → α' → σ → Prop) :
    Prop :=
  Ends m s (fun a t => Ends m' s' (R a t) fun _ _ => True) fun _ _ => True

section

variable {α' β' : Type} {m' : Prog σ ε α'} {s' : σ} {R : α → σ → α' → σ → Prop}

/-- Two computations are related when their results are, in case both return. -/
theorem both_iff : Both m m' s s' R ↔
    ∀ a t a' t', m s = (.ok a, t) → m' s' = (.ok a', t') → R a t a' t' := by
  unfold Both Ends
  constructor
  · intro h a t a' t' hm hm'
    simpa only [hm, hm'] using h
  · intro h
    rcases hm : m s with ⟨e | a, t⟩
    · trivial
    · rcases hm' : m' s' with ⟨e | a', t'⟩
      · trivial
      · exact h a t a' t' hm hm'

/-- The relation, in terms of the two ends. -/
theorem Both.of_ok (h : Both m m' s s' R) {a : α} {t : σ} {a' : α'} {t' : σ}
    (hm : m s = (.ok a, t)) (hm' : m' s' = (.ok a', t')) : R a t a' t' :=
  both_iff.mp h a t a' t' hm hm'

theorem both_pure {a : α} {a' : α'} (h : R a s a' s') :
    Both (pure a : Prog σ ε α) (pure a' : Prog σ ε α') s s' R := h

theorem both_throw_left {e : ε} : Both (throw e : Prog σ ε α) m' s s' R := trivial

/-- Nothing is asked where one side throws. -/
theorem both_throw_right {e : ε} : Both m (throw e : Prog σ ε α') s s' R :=
  both_iff.mpr fun _ _ _ _ _ hm' => by simp at hm'

theorem both_get_bind {f : σ → Prog σ ε β} {f' : σ → Prog σ ε β'} {R : β → σ → β' → σ → Prop}
    (h : Both (f s) (f' s') s s' R) : Both (get >>= f) (get >>= f') s s' R := h

/-- A weaker relation at the end. -/
theorem Both.mono {R' : α → σ → α' → σ → Prop} (h : Both m m' s s' R)
    (hR : ∀ a t a' t', R a t a' t' → R' a t a' t') : Both m m' s s' R' :=
  Ends.mono h (fun a t ht => Ends.mono ht (hR a t) fun _ _ => id) fun _ _ => id

/-- What holds when one program returns and what holds when the other one does. -/
theorem Both.of_ends {Q' : α' → σ → Prop} {E' : ε → σ → Prop} (h : Ends m s Q E)
    (h' : Ends m' s' Q' E') (hR : ∀ a t a' t', Q a t → Q' a' t' → R a t a' t') :
    Both m m' s s' R :=
  both_iff.mpr fun a t a' t' hm hm' => hR a t a' t' (h.of_ok hm) (h'.of_ok hm')

/-- Two computations in a row return when both do. -/
theorem bind_eq_ok {f : α → Prog σ ε β} {b : β} {t : σ} :
    (m >>= f) s = (.ok b, t) ↔ ∃ a s₁, m s = (.ok a, s₁) ∧ f a s₁ = (.ok b, t) := by
  rw [bind_apply]
  rcases m s with ⟨e | a, s₁⟩ <;> simp

/-- The rule for two computations in a row on both sides. -/
theorem Both.bind {f : α → Prog σ ε β} {f' : α' → Prog σ ε β'} {R' : β → σ → β' → σ → Prop}
    (h : Both m m' s s' R) (hf : ∀ a t a' t', R a t a' t' → Both (f a) (f' a') t t' R') :
    Both (m >>= f) (m' >>= f') s s' R' := by
  refine both_iff.mpr fun b u b' u' hu hu' => ?_
  obtain ⟨a, t, hm, hfa⟩ := bind_eq_ok.mp hu
  obtain ⟨a', t', hm', hfa'⟩ := bind_eq_ok.mp hu'
  exact (hf a t a' t' (h.of_ok hm hm')).of_ok hfa hfa'

/-- The first program does something more. -/
theorem Both.bind_left {f : α → Prog σ ε β} {R' : β → σ → α' → σ → Prop} (h : Ends m s Q E)
    (hf : ∀ a t, Q a t → Both (f a) m' t s' R') : Both (m >>= f) m' s s' R' := by
  refine both_iff.mpr fun b u b' u' hu hu' => ?_
  obtain ⟨a, t, hm, hfa⟩ := bind_eq_ok.mp hu
  exact (hf a t (h.of_ok hm)).of_ok hfa hu'

/-- Two loops over a list in lockstep. -/
theorem Both.each {f f' : α → Prog σ ε Unit} {I : σ → σ → Prop} {l : List α}
    (hstep : ∀ a ∈ l, ∀ s s', I s s' → Both (f a) (f' a) s s' fun _ t _ t' => I t t') :
    ∀ s s', I s s' → Both (Prog.each f l) (Prog.each f' l) s s' fun _ t _ t' => I t t' := by
  induction l with
  | nil => exact fun s s' hI => hI
  | cons a l ih =>
    intro s s' hI
    refine (hstep a List.mem_cons_self s s' hI).bind fun _ t _ t' ht => ?_
    exact ih (fun b hb => hstep b (List.mem_cons_of_mem a hb)) t t' ht

/-- Two loops that stop at the same place, where the second one leaves out elements on which the body
of the first one returns `true`. -/
theorem Both.all_filter {f f' : α → Prog σ ε Bool} {p : α → Bool} {I : σ → σ → Prop} {l : List α}
    (hskip : ∀ a ∈ l, p a = false → ∀ s s', I s s' →
      Ends (f a) s (fun b t => b = true ∧ I t s') fun _ _ => True)
    (hstep : ∀ a ∈ l, p a = true → ∀ s s', I s s' →
      Both (f a) (f' a) s s' fun b t b' t' => b = b' ∧ I t t') :
    ∀ s s', I s s' → Both (Prog.all f l) (Prog.all f' (l.filter p)) s s'
      fun b t b' t' => b = b' ∧ I t t' := by
  induction l with
  | nil => exact fun s s' hI => ⟨rfl, hI⟩
  | cons a l ih =>
    intro s s' hI
    have hrest := ih (fun b hb => hskip b (List.mem_cons_of_mem a hb))
      fun b hb => hstep b (List.mem_cons_of_mem a hb)
    cases hp : p a with
    | false =>
      rw [List.filter_cons_of_neg (by simp [hp])]
      refine Both.bind_left (hskip a List.mem_cons_self hp s s' hI) ?_
      rintro b t ⟨rfl, ht⟩
      exact hrest t s' ht
    | true =>
      rw [List.filter_cons_of_pos hp]
      refine (hstep a List.mem_cons_self hp s s' hI).bind ?_
      rintro b t b' t' ⟨rfl, ht⟩
      cases b with
      | true => exact hrest t t' ht
      | false => exact both_pure ⟨rfl, ht⟩

end

end Prog

end Nix
