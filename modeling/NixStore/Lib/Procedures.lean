import Mathlib

/-!
# Programs that call procedures

A program is a tree of operations on a state and of calls of procedures, and it ends in a value or an
error.  The meaning of the operations and the bodies of the procedures are parameters; a call may
lead to any other call, so a run has a bound on the depth of its calls.

A contract gives an invariant of the states, an order in which they only grow, and what an operation
or a call needs; `Triple` is the judgement of programs under a contract, with one rule for each way to
build a program.  If the bodies of all procedures satisfy their triples, then all runs satisfy the contract
(`run_spec`), and two meanings of the operations that agree wherever the contract lets them be
performed have the same runs (`run_congr`).
-/

namespace Nix

/-- What programs are made of: operations with their answers and procedures with their results. -/
structure Interface where
  Op : Type
  Answer : Op → Type
  Proc : Type
  Result : Proc → Type

/-- A program with errors in `ε`. -/
inductive Code (I : Interface) (ε α : Type) : Type where
  | ret (a : α)
  | fail (e : ε)
  /-- An operation, and what follows its answer. -/
  | op (o : I.Op) (k : I.Answer o → Code I ε α)
  /-- A call, and what follows it if it returns and if it throws. -/
  | call (p : I.Proc) (k : Except ε (I.Result p) → Code I ε α)

namespace Code

variable {I : Interface} {ε α β : Type}

/-- Go on after a program, whether it returns or throws. -/
def handle : Code I ε α → (Except ε α → Code I ε β) → Code I ε β
  | ret a, k => k (.ok a)
  | fail e, k => k (.error e)
  | op o c, k => op o fun x => (c x).handle k
  | call p c, k => call p fun r => (c r).handle k

/-- Go on if a program has returned, and throw what it has thrown. -/
def andThen (f : α → Code I ε β) : Except ε α → Code I ε β
  | .ok a => f a
  | .error e => fail e

instance : Monad (Code I ε) where
  pure := ret
  bind c f := c.handle (andThen f)

/-- The answer to an operation. -/
def perform (o : I.Op) : Code I ε (I.Answer o) := op o ret

/-- The result of a call. -/
def invoke (p : I.Proc) : Code I ε (I.Result p) := call p (andThen ret)

/-- Change the errors of a program. -/
def mapError (f : ε → ε) (c : Code I ε α) : Code I ε α :=
  c.handle fun
    | .ok a => ret a
    | .error e => fail (f e)

/-- A loop over a list. -/
def each (f : α → Code I ε Unit) : List α → Code I ε Unit
  | [] => ret ()
  | a :: l => do
    f a
    each f l

/-- A loop over a list that collects results. -/
def collect (f : α → Code I ε β) : List α → Code I ε (List β)
  | [] => ret []
  | a :: l => do
    let b ← f a
    let bs ← collect f l
    return b :: bs

end Code

/-- A meaning of the operations. -/
abbrev Meaning (I : Interface) (σ : Type) := (o : I.Op) → σ → I.Answer o × σ

/-- A meaning of the calls; a call that goes too deep has no result. -/
abbrev Calls (I : Interface) (σ ε : Type) := (p : I.Proc) → σ → Option (Except ε (I.Result p) × σ)

/-- The bodies of the procedures. -/
abbrev Bodies (I : Interface) (ε : Type) := (p : I.Proc) → Code I ε (I.Result p)

section

variable {I : Interface} {σ ε α β : Type}

/-- A run of a program. -/
def Code.exec (meaning : Meaning I σ) (calls : Calls I σ ε) :
    Code I ε α → σ → Option (Except ε α × σ)
  | ret a, s => some (.ok a, s)
  | fail e, s => some (.error e, s)
  | op o k, s => (k (meaning o s).1).exec meaning calls (meaning o s).2
  | call p k, s => (calls p s).bind fun r => (k r.1).exec meaning calls r.2

/-- A run of a procedure, with a bound on the depth of its calls. -/
def run (meaning : Meaning I σ) (body : Bodies I ε) : ℕ → Calls I σ ε
  | 0 => fun _ _ => none
  | n + 1 => fun p => (body p).exec meaning (run meaning body n)

/-! ### Contracts -/

/-- What holds of the states between the steps of a program, and what operations and calls need. -/
structure Contract (I : Interface) (σ ε : Type) where
  /-- The invariant of the states. -/
  inv : σ → Prop
  /-- How states grow. -/
  le : σ → σ → Prop
  /-- When an operation may be performed. -/
  allowed : I.Op → σ → Prop
  /-- When a procedure may be called. -/
  pre : I.Proc → σ → Prop
  /-- The errors that may be thrown. -/
  fine : ε → Prop
  le_refl : ∀ s, le s s
  le_trans : ∀ {s t u}, le s t → le t u → le s u

namespace Contract

variable (K : Contract I σ ε) (meaning : Meaning I σ)

/-- What holds after a program: the state is good and has grown, a value satisfies `R`, and an error may
be thrown. -/
def After (R : α → σ → Prop) (s : σ) (r : Except ε α) (s' : σ) : Prop :=
  K.inv s' ∧ K.le s s' ∧ (∀ a, r = .ok a → R a s') ∧ ∀ e, r = .error e → K.fine e

/-- A weakest precondition: the program performs and calls only what it may, and what follows holds in
the end. -/
def Meets : Code I ε α → (Except ε α → σ → Prop) → σ → Prop
  | .ret a, Q, s => Q (.ok a) s
  | .fail e, Q, s => Q (.error e) s
  | .op o k, Q, s => K.allowed o s ∧ Meets (k (meaning o s).1) Q (meaning o s).2
  | .call p k, Q, s => (K.inv s ∧ K.pre p s) ∧
      ∀ r s', K.After (fun _ _ => True) s r s' → Meets (k r) Q s'

/-- From a good state with `P`, the program leads to a good state and a value with `R`. -/
def Triple (P : σ → Prop) (c : Code I ε α) (R : α → σ → Prop) : Prop :=
  ∀ s, K.inv s → P s → K.Meets meaning c (K.After R s) s

/-- A property that is not lost as states grow. -/
def Stable (P : σ → Prop) : Prop := ∀ {s s'}, K.le s s' → P s → P s'

variable {K} {meaning} {P P' : σ → Prop} {c : Code I ε α} {R R' : α → σ → Prop}

/-- A weaker condition at the end. -/
theorem Meets.mono {Q Q' : Except ε α → σ → Prop} (hQ : ∀ r s, Q r s → Q' r s) {s : σ}
    (h : K.Meets meaning c Q s) : K.Meets meaning c Q' s := by
  induction c generalizing s with
  | ret a => exact hQ _ _ h
  | fail e => exact hQ _ _ h
  | op o k ih => exact ⟨h.1, ih _ h.2⟩
  | call p k ih => exact ⟨h.1, fun r s' hr => ih r (h.2 r s' hr)⟩

/-- The rule for a handler. -/
theorem meets_handle {k : Except ε α → Code I ε β} {Q : Except ε β → σ → Prop} {s : σ} :
    K.Meets meaning (c.handle k) Q s ↔
      K.Meets meaning c (fun r s' => K.Meets meaning (k r) Q s') s := by
  induction c generalizing s with
  | ret a => exact Iff.rfl
  | fail e => exact Iff.rfl
  | op o c ih => exact and_congr_right' (ih _)
  | call p c ih => exact and_congr_right' (forall₂_congr fun r s' => imp_congr_right fun _ => ih r)

/-- What a program does after another one. -/
theorem After.trans {R : β → σ → Prop} {s t u : σ} {r : Except ε β} (hle : K.le s t)
    (h : K.After R t r u) : K.After R s r u :=
  ⟨h.1, K.le_trans hle h.2.1, h.2.2⟩

namespace Triple

/-- A stronger condition before and a weaker one after. -/
theorem mono (h : K.Triple meaning P c R) (hP : ∀ s, P' s → P s) (hR : ∀ a s, R a s → R' a s) :
    K.Triple meaning P' c R' := by
  intro s hs hP'
  exact (h s hs (hP s hP')).mono fun r s' ⟨hinv, hle, hok, hfine⟩ =>
    ⟨hinv, hle, fun a ha => hR a s' (hok a ha), hfine⟩

/-- Returning a value. -/
protected theorem pure {a : α} (h : ∀ s, K.inv s → P s → R a s) :
    K.Triple meaning P (pure a) R := by
  intro s hs hP
  exact ⟨hs, K.le_refl s, fun b hb => Except.ok.inj hb ▸ h s hs hP, nofun⟩

/-- Failing in an allowed way. -/
protected theorem fail {e : ε} (h : K.fine e) : K.Triple meaning P (.fail e : Code I ε α) R := by
  intro s hs _
  exact ⟨hs, K.le_refl s, nofun, fun e' he => Except.error.inj he ▸ h⟩

/-- A program, and what follows it whether it returns or throws. -/
theorem handle {k : Except ε α → Code I ε β} {R' : β → σ → Prop} (hP : K.Stable P)
    (h : K.Triple meaning P c R)
    (hok : ∀ a, K.Triple meaning (fun s => P s ∧ R a s) (k (.ok a)) R')
    (herror : ∀ e, K.fine e → K.Triple meaning P (k (.error e)) R') :
    K.Triple meaning P (c.handle k) R' := by
  intro s hs hPs
  rw [meets_handle]
  refine (h s hs hPs).mono fun r s' ⟨hinv, hle, hR, hfine⟩ => ?_
  cases r with
  | ok a =>
    exact (hok a s' hinv ⟨hP hle hPs, hR a rfl⟩).mono fun _ _ => After.trans hle
  | error e =>
    exact (herror e (hfine e rfl) s' hinv (hP hle hPs)).mono fun _ _ => After.trans hle

/-- Two computations in a row. -/
protected theorem bind {f : α → Code I ε β} {R' : β → σ → Prop} (hP : K.Stable P)
    (h : K.Triple meaning P c R) (hf : ∀ a, K.Triple meaning (fun s => P s ∧ R a s) (f a) R') :
    K.Triple meaning P (c >>= f) R' :=
  handle hP h hf fun _ he => .fail he

/-- A program whose value does not matter for what follows. -/
theorem seq {f : α → Code I ε β} {R' : β → σ → Prop} (hP : K.Stable P)
    (h : K.Triple meaning P c fun _ _ => True) (hf : ∀ a, K.Triple meaning P (f a) R') :
    K.Triple meaning P (c >>= f) R' :=
  Triple.bind hP h fun a => (hf a).mono (fun _ hs => hs.1) fun _ _ => id

/-- Changing the errors. -/
theorem mapError {f : ε → ε} (hP : K.Stable P) (hf : ∀ e, K.fine e → K.fine (f e))
    (h : K.Triple meaning P c R) : K.Triple meaning P (c.mapError f) R :=
  handle hP h (fun _ => Triple.pure fun _ _ hs => hs.2) fun e he => .fail (hf e he)

/-- An operation. -/
protected theorem perform {o : I.Op} {R : I.Answer o → σ → Prop}
    (h : ∀ s, K.inv s → P s → K.allowed o s ∧ K.inv (meaning o s).2 ∧ K.le s (meaning o s).2 ∧
      R (meaning o s).1 (meaning o s).2) : K.Triple meaning P (.perform o) R := by
  intro s hs hPs
  obtain ⟨hallowed, hinv, hle, hR⟩ := h s hs hPs
  exact ⟨hallowed, hinv, hle, fun a ha => Except.ok.inj ha ▸ hR, nofun⟩

/-- A call, and what follows it whether it returns or throws. -/
theorem call {p : I.Proc} {k : Except ε (I.Result p) → Code I ε α} (hP : K.Stable P)
    (h : ∀ s, K.inv s → P s → K.pre p s)
    (hk : ∀ r, (∀ e, r = .error e → K.fine e) → K.Triple meaning P (k r) R) :
    K.Triple meaning P (.call p k) R := by
  intro s hs hPs
  refine ⟨⟨hs, h s hs hPs⟩, fun r s' ⟨hinv, hle, _, hfine⟩ => ?_⟩
  exact (hk r hfine s' hinv (hP hle hPs)).mono fun _ _ => After.trans hle

/-- A call of a procedure whose precondition holds. -/
protected theorem invoke {p : I.Proc} (hP : K.Stable P) (h : ∀ s, K.inv s → P s → K.pre p s) :
    K.Triple meaning P (.invoke p) fun _ _ => True := by
  refine call hP h fun r hr => ?_
  cases r with
  | ok a => exact Triple.pure fun _ _ _ => trivial
  | error e => exact .fail (hr e rfl)

/-- A loop. -/
theorem each {f : β → Code I ε Unit} (hP : K.Stable P) (l : List β)
    (h : ∀ b ∈ l, K.Triple meaning P (f b) fun _ _ => True) :
    K.Triple meaning P (.each f l) fun _ _ => True := by
  induction l with
  | nil => exact Triple.pure fun _ _ _ => trivial
  | cons b l ih =>
    exact seq hP (h b List.mem_cons_self) fun _ => ih fun b hb => h b (List.mem_cons_of_mem _ hb)

/-- A loop that collects results. -/
theorem collect {f : β → Code I ε α} (hP : K.Stable P) (l : List β)
    (h : ∀ b ∈ l, K.Triple meaning P (f b) fun _ _ => True) :
    K.Triple meaning P (.collect f l) fun _ _ => True := by
  induction l with
  | nil => exact Triple.pure fun _ _ _ => trivial
  | cons b l ih =>
    refine seq hP (h b List.mem_cons_self) fun _ => ?_
    exact seq hP (ih fun b hb => h b (List.mem_cons_of_mem _ hb)) fun _ =>
      Triple.pure fun _ _ _ => trivial

end Triple

/-! ### Runs -/

/-- The calls of a program satisfy the contract. -/
def Obeys (K : Contract I σ ε) (calls : Calls I σ ε) : Prop :=
  ∀ p s r s', K.inv s → K.pre p s → calls p s = some (r, s') → K.After (fun _ _ => True) s r s'

/-- What a computation meets holds of its run, when the calls obey their contracts. -/
theorem exec_of_meets {calls : Calls I σ ε} {Q : Except ε α → σ → Prop} {s s' : σ} {r : Except ε α}
    (hcalls : K.Obeys calls) (h : K.Meets meaning c Q s) (hexec : c.exec meaning calls s = some (r, s')) :
    Q r s' := by
  induction c generalizing s with
  | ret a =>
    cases hexec
    exact h
  | fail e =>
    cases hexec
    exact h
  | op o k ih => exact ih _ h.2 hexec
  | call p k ih =>
    obtain ⟨⟨r₁, s₁⟩, hcall, hexec⟩ := Option.bind_eq_some_iff.mp hexec
    exact ih r₁ (h.2 r₁ s₁ (hcalls p s r₁ s₁ h.1.1 h.1.2 hcall)) hexec

/-- If the body of every procedure satisfies the contract, then so does every run. -/
theorem run_spec {body : Bodies I ε}
    (hbody : ∀ p, K.Triple meaning (K.pre p) (body p) fun _ _ => True) (n : ℕ) :
    K.Obeys (run meaning body n) := by
  induction n with
  | zero => exact fun p s r s' _ _ h => by cases h
  | succ n ih => exact fun p s r s' hs hp h => exec_of_meets ih (hbody p s hs hp) h

/-- Two meanings and two families of calls that agree where they are used give the same run. -/
theorem exec_congr {meaning' : Meaning I σ} {calls calls' : Calls I σ ε} {Q : Except ε α → σ → Prop} {s : σ}
    (hmeaning : ∀ o s, K.allowed o s → meaning o s = meaning' o s)
    (hcalls : ∀ p s, K.inv s → K.pre p s → calls p s = calls' p s) (hobeys : K.Obeys calls)
    (h : K.Meets meaning c Q s) : c.exec meaning calls s = c.exec meaning' calls' s := by
  induction c generalizing s with
  | ret a => rfl
  | fail e => rfl
  | op o k ih =>
    rw [Code.exec, Code.exec, ← hmeaning o s h.1]
    exact ih _ h.2
  | call p k ih =>
    rw [Code.exec, Code.exec, ← hcalls p s h.1.1 h.1.2]
    refine Option.bind_congr fun r hr => ?_
    exact ih r.1 (h.2 r.1 r.2 (hobeys p s r.1 r.2 h.1.1 h.1.2 hr))

/-- Meanings that agree on what is allowed have the same runs. -/
theorem run_congr {meaning' : Meaning I σ} {body : Bodies I ε}
    (hbody : ∀ p, K.Triple meaning (K.pre p) (body p) fun _ _ => True)
    (hmeaning : ∀ o s, K.allowed o s → meaning o s = meaning' o s) (n : ℕ) (p : I.Proc) (s : σ)
    (hs : K.inv s) (hp : K.pre p s) : run meaning body n p s = run meaning' body n p s := by
  induction n generalizing p s with
  | zero => rfl
  | succ n ih => exact exec_congr hmeaning ih (run_spec hbody n) (hbody p s hs hp)

end Contract

end

end Nix
