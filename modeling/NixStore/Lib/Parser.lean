import Mathlib

/-!
# Readers on a stream

A reader takes the rest of a stream and either returns a value with what is left of the stream,
throws an error, or never returns.  `Reads p w a` says that `p` turns the text `w` into the value
`a` and leaves whatever follows `w` untouched; such facts compose along `bind`, and two texts that
one reader reads can be cancelled from the front of an equation (`Reads.cancel`), which is how the
injectivity of a printer is obtained from a reader for it.
-/

namespace Nix

/-- What a call of a reader can end in. -/
inductive Outcome (ε α : Type) where
  /-- The call returns. -/
  | ok (a : α)
  /-- The call throws. -/
  | error (e : ε)
  /-- The call never returns. -/
  | diverge
deriving DecidableEq

namespace Outcome

variable {ε α β : Type}

/-- What follows a call happens only if the call returns. -/
protected def bind : Outcome ε α → (α → Outcome ε β) → Outcome ε β
  | .ok a, f => f a
  | .error e, _ => .error e
  | .diverge, _ => .diverge

instance : Monad (Outcome ε) where
  pure := .ok
  bind := Outcome.bind

@[simp] theorem pure_eq (a : α) : (pure a : Outcome ε α) = .ok a := rfl

@[simp] theorem ok_bind (a : α) (f : α → Outcome ε β) : (Outcome.ok a >>= f) = f a := rfl

@[simp] theorem error_bind (e : ε) (f : α → Outcome ε β) : (Outcome.error e >>= f) = .error e := rfl

@[simp] theorem diverge_bind (f : α → Outcome ε β) :
    ((Outcome.diverge : Outcome ε α) >>= f) = .diverge := rfl

/-- The call returns. -/
def isOk : Outcome ε α → Bool
  | .ok _ => true
  | _ => false

/-- A computation is fine when it returns. -/
theorem isOk_iff {x : Outcome ε α} : x.isOk = true ↔ ∃ a, x = .ok a := by
  cases x <;> simp [isOk]

/-- What the call returns, or a default. -/
def getD : Outcome ε α → α → α
  | .ok a, _ => a
  | _, b => b

/-- A sequence returns exactly when both of its parts do. -/
theorem bind_eq_ok {x : Outcome ε α} {f : α → Outcome ε β} {b : β} :
    (x >>= f) = .ok b ↔ ∃ a, x = .ok a ∧ f a = .ok b := by
  cases x <;> simp

/-- Two computations in a row run for ever when one of them does. -/
theorem bind_eq_diverge {x : Outcome ε α} {f : α → Outcome ε β} :
    (x >>= f) = .diverge ↔ x = .diverge ∨ ∃ a, x = .ok a ∧ f a = .diverge := by
  cases x <;> simp

theorem bind_assoc {γ : Type} (x : Outcome ε α) (f : α → Outcome ε β) (g : β → Outcome ε γ) :
    (x >>= f >>= g) = x >>= fun a => f a >>= g := by
  cases x <;> rfl

/-- Two computations in a row throw when one of them does. -/
theorem bind_eq_error {x : Outcome ε α} {f : α → Outcome ε β} {e : ε} :
    (x >>= f) = .error e ↔ x = .error e ∨ ∃ a, x = .ok a ∧ f a = .error e := by
  cases x <;> simp

/-- The error of a loop is the error of a round. -/
theorem exists_of_foldlM_eq_error {f : β → α → Outcome ε β} {l : List α} {b : β} {e : ε}
    (h : l.foldlM f b = .error e) : ∃ a ∈ l, ∃ b', f b' a = .error e := by
  induction l generalizing b with
  | nil => cases h
  | cons a l ih =>
    rw [List.foldlM_cons] at h
    rcases bind_eq_error.mp h with h | ⟨b', -, h⟩
    · exact ⟨a, List.mem_cons_self, b, h⟩
    · obtain ⟨a', ha', h⟩ := ih h
      exact ⟨a', List.mem_cons_of_mem a ha', h⟩

/-- A loop of calls of which each only lets the state grow and does something that stays done. -/
theorem foldlM_grows {R : β → β → Prop} {Q : α → β → Prop} {f : β → α → Outcome ε β}
    (hrefl : ∀ s, R s s) (htrans : ∀ {s t u}, R s t → R t u → R s u)
    (hstays : ∀ {a s t}, Q a s → R s t → Q a t)
    (hf : ∀ s a t, f s a = .ok t → R s t ∧ Q a t) {l : List α} {s t : β}
    (h : l.foldlM f s = .ok t) : R s t ∧ ∀ a ∈ l, Q a t := by
  induction l generalizing s with
  | nil =>
    cases h
    exact ⟨hrefl _, by simp⟩
  | cons a l ih =>
    rw [List.foldlM_cons] at h
    obtain ⟨s₁, hs₁, h⟩ := bind_eq_ok.mp h
    obtain ⟨hR, hQ⟩ := hf s a s₁ hs₁
    obtain ⟨hR', hQ'⟩ := ih h
    refine ⟨htrans hR hR', fun b hb => ?_⟩
    rcases List.mem_cons.mp hb with rfl | hb
    · exact hstays hQ hR'
    · exact hQ' b hb

/-- A loop keeps what every round keeps. -/
theorem foldlM_preserves {P : β → Prop} {f : β → α → Outcome ε β} {l : List α} {b b' : β}
    (hf : ∀ b, ∀ a ∈ l, ∀ b', P b → f b a = .ok b' → P b') (hb : P b) (h : l.foldlM f b = .ok b') :
    P b' := by
  induction l generalizing b with
  | nil =>
    cases h
    exact hb
  | cons a l ih =>
    rw [List.foldlM_cons] at h
    obtain ⟨b₁, hb₁, h⟩ := bind_eq_ok.mp h
    exact ih (fun b a' ha' => hf b a' (List.mem_cons_of_mem a ha'))
      (hf b a List.mem_cons_self b₁ hb hb₁) h

/-- A loop ends if every round does, as long as an invariant holds. -/
theorem foldlM_ne_diverge {P : β → Prop} {f : β → α → Outcome ε β} {l : List α}
    (hf : ∀ b, ∀ a ∈ l, P b → f b a ≠ .diverge ∧ ∀ b', f b a = .ok b' → P b') {b : β} (hb : P b) :
    l.foldlM f b ≠ .diverge := by
  induction l generalizing b with
  | nil => simp
  | cons a l ih =>
    obtain ⟨hround, hP⟩ := hf b a List.mem_cons_self hb
    rw [List.foldlM_cons, ne_eq, bind_eq_diverge]
    rintro (h | ⟨b', hb', h⟩)
    · exact hround h
    · exact ih (fun b a ha => hf b a (List.mem_cons_of_mem _ ha)) (hP b' hb') h

/-- The first call never returns, or it ends like the second: this is how a recursion with a bound
approaches the recursion with a larger bound. -/
def Approx (x y : Outcome ε α) : Prop := x = .diverge ∨ x = y

namespace Approx

variable {x y z : Outcome ε α}

/-- An outcome approximates itself. -/
theorem refl (x : Outcome ε α) : x.Approx x := Or.inr rfl

/-- Approximation is transitive. -/
theorem trans (h : x.Approx y) (h' : y.Approx z) : x.Approx z := by
  rcases h with h | rfl
  · exact Or.inl h
  · exact h'

/-- What returns stays. -/
theorem eq_of_ok (h : x.Approx y) {a : α} (hx : x = .ok a) : y = .ok a := by
  rcases h with h | rfl
  · rw [h] at hx
    cases hx
  · exact hx

/-- What throws stays. -/
theorem eq_of_error (h : x.Approx y) {e : ε} (hx : x = .error e) : y = .error e := by
  rcases h with h | rfl
  · rw [h] at hx
    cases hx
  · exact hx

/-- Approximation of two computations in a row. -/
theorem bind {f g : α → Outcome ε β} (h : x.Approx y) (hfg : ∀ a, (f a).Approx (g a)) :
    (x >>= f).Approx (y >>= g) := by
  rcases h with rfl | rfl
  · exact Or.inl rfl
  · cases x with
    | ok a => exact hfg a
    | error e => exact Or.inr rfl
    | diverge => exact Or.inl rfl

/-- Approximation of a loop. -/
theorem foldlM {f g : β → α → Outcome ε β} (hfg : ∀ b a, (f b a).Approx (g b a)) (l : List α)
    (b : β) : (l.foldlM f b).Approx (l.foldlM g b) := by
  induction l generalizing b with
  | nil => exact refl _
  | cons a l ih =>
    rw [List.foldlM_cons, List.foldlM_cons]
    exact (hfg b a).bind ih

end Approx

/-- A family of calls, one for each bound on the recursion, of which the later approach more. -/
def Mono (o : ℕ → Outcome ε α) : Prop := ∀ n k, n ≤ k → (o n).Approx (o k)

end Outcome

/-- A reader on streams of `τ`. -/
def Reader (ε τ α : Type) := List τ → Outcome ε (α × List τ)

namespace Reader

variable {ε τ α β σ : Type}

/-- The reader that consumes nothing. -/
protected def pure (a : α) : Reader ε τ α := fun s => .ok (a, s)

/-- One reader after the other. -/
protected def bind (p : Reader ε τ α) (f : α → Reader ε τ β) : Reader ε τ β := fun s =>
  match p s with
  | .ok (a, s) => f a s
  | .error e => .error e
  | .diverge => .diverge

instance : Monad (Reader ε τ) where
  pure := Reader.pure
  bind := Reader.bind

/-- The reader that throws. -/
def throw (e : ε) : Reader ε τ α := fun _ => .error e

/-- `p` reads the text `w` as the value `a`, whatever follows. -/
def Reads (p : Reader ε τ α) (w : List τ) (a : α) : Prop :=
  ∀ rest, p (w ++ rest) = .ok (a, rest)

/-- Returning a value reads nothing. -/
theorem Reads.pure (a : α) : Reads (pure a : Reader ε τ α) [] a := fun _ => rfl

/-- Two readers in a row. -/
theorem Reads.bind {p : Reader ε τ α} {f : α → Reader ε τ β} {w v : List τ} {a : α} {b : β}
    (hp : Reads p w a) (hf : Reads (f a) v b) : Reads (p >>= f) (w ++ v) b := by
  intro rest
  change Reader.bind p f (w ++ v ++ rest) = _
  rw [Reader.bind, List.append_assoc, hp (v ++ rest)]
  exact hf rest

/-- A reader for the whole of a text, followed by one that consumes nothing. -/
theorem Reads.bind_nil {p : Reader ε τ α} {f : α → Reader ε τ β} {w : List τ} {a : α} {b : β}
    (hp : Reads p w a) (hf : Reads (f a) [] b) : Reads (p >>= f) w b := by
  simpa using hp.bind hf

/-- What one reader reads can be cancelled from the front of an equation. -/
theorem Reads.cancel {p : Reader ε τ α} {w w' r r' : List τ} {a a' : α} (h : Reads p w a)
    (h' : Reads p w' a') (heq : w ++ r = w' ++ r') : a = a' ∧ r = r' := by
  have hr := h r
  rw [heq, h' r'] at hr
  simpa [eq_comm] using hr

/-! ### Loops over a list of items

`loop stop item step n acc` reads items into an accumulator until `stop` says so.  The bound `n` is
on the number of iterations; running out of it counts as not returning. -/

/-- `while (!stop(str)) acc = step(acc, item(str));` -/
def loop (stop : Reader ε τ Bool) (item : Reader ε τ α) (step : σ → α → σ) :
    ℕ → σ → Reader ε τ σ
  | 0, _ => fun _ => .diverge
  | n + 1, acc => do
    if ← stop then return acc
    else
      let a ← item
      loop stop item step n (step acc a)

/-- One round of a loop that does not stop here. -/
theorem Reads.loop_step {stop : Reader ε τ Bool} {item : Reader ε τ α} {step : σ → α → σ} {n : ℕ}
    {acc res : σ} {u w v : List τ} {a : α} (hu : Reads stop u false) (hw : Reads item w a)
    (hv : Reads (loop stop item step n (step acc a)) v res) :
    Reads (loop stop item step (n + 1) acc) (u ++ (w ++ v)) res :=
  hu.bind (hw.bind hv)

/-- The last round of a loop. -/
theorem Reads.loop_stop {stop : Reader ε τ Bool} {item : Reader ε τ α} {step : σ → α → σ} {n : ℕ}
    {acc : σ} {u : List τ} (hu : Reads stop u true) :
    Reads (loop stop item step (n + 1) acc) u acc :=
  hu.bind_nil (Reads.pure acc)

end Reader

end Nix
