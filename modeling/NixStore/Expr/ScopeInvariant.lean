import NixStore.Expr.Lookups

/-!
# The invariant of scopes

Every closure in the memory of the evaluator is an expression that has been bound in the scopes of its
environment.  This is the invariant of a contract, under which an expression may be evaluated where it has
been bound and a variable may be looked up where it has been bound.  `Steady` says that a program keeps to
the contract in the environments that it uses; here are the rules for it and the operations on the
memory.
-/

namespace Nix.Lang

/-! ### The invariant -/

/-- An expression has been bound in an environment. -/
def Bound (σ : StaticEnv) (e : Expr) : Prop := e.bindVars σ = .ok e

/-- The `newEnv` of `ExprLambda::bindVars`. -/
def Lambda.newEnv (fn : Lambda) (σ : StaticEnv) : StaticEnv :=
  scopeOf (lambdaNames fn.arg fn.matchAttrs fn.formals) :: σ

/-- A function has been bound in an environment. -/
structure Lambda.Bound (σ : StaticEnv) (fn : Lambda) : Prop where
  formals : fn.matchAttrs = true → bindFormals (fn.newEnv σ) fn.formals = .ok fn.formals
  body : Lang.Bound (fn.newEnv σ) fn.body

/-- A closure has been bound in the scopes of its environment. -/
def Value.Good (h : Heap) : Value → Prop
  | .tThunk env e => ∃ σ, h.Fits σ env ∧ Bound σ e
  | .tLambda env fn => ∃ σ, h.Fits σ env ∧ fn.Bound σ
  | _ => True

/-- A tree has been bound in the scopes of its environment. -/
def Heap.HasBound (h : Heap) (tree : Expr × Env) : Prop := ∃ σ, h.Fits σ tree.2 ∧ Bound σ tree.1

/-- All closures and all trees of files in the memory are good. -/
structure Heap.Good (settings : Settings) (h : Heap) : Prop where
  values : ∀ n, (h.values n).Good h
  cached : ∀ path v, h.fileEvalCache.find? path = some v → v.Good h
  parsed : ∀ path tree, h.parseTrees.find? path = some tree → h.HasBound tree
  base : h.Fits settings.staticBaseEnv baseEnv

/-- The faults that the scopes exclude. -/
def Failure.LeavesScope : Failure → Prop
  | .fault .noEnv => True
  | .fault .noSlot => True
  | .fault .wrongFrame => True
  | _ => False

/-- When an operation may be performed: variables and attributes are bound. -/
def Op.Allowed (h : Heap) : Op → Prop
  | .lookupVar env var => ∃ σ, h.Fits σ env ∧ var.bind σ = .ok var
  | .displ attrs _ => ∃ σ σ', bindDefs σ σ' (some 0) attrs = .ok attrs
  | _ => True

/-- When a procedure may be called: expressions are bound. -/
def Proc.Pre (h : Heap) : Proc → Prop
  | .eval e env _ => ∃ σ, h.Fits σ env ∧ Bound σ e
  | _ => True

/-- What every step of the evaluator keeps. -/
def contract (settings : Settings) : Contract evaluator Heap Failure where
  inv h := h.Good settings
  le := Heap.Le
  allowed o h := o.Allowed h
  pre p h := p.Pre h
  fine e := ¬e.LeavesScope
  le_refl := Heap.Le.refl
  le_trans := Heap.Le.trans

/-- Environments are known to fit. -/
def Knows (facts : List (StaticEnv × Env)) (h : Heap) : Prop := ∀ x ∈ facts, h.Fits x.1 x.2

/-- A program that keeps to the contract wherever the environments fit. -/
def Steady {α : Type} (settings : Settings) (facts : List (StaticEnv × Env)) (c : Eval α) : Prop :=
  (contract settings).Triple (Op.perform settings .byIndex) (Knows facts) c fun _ _ => True

section

variable {settings : Settings} {facts facts' : List (StaticEnv × Env)} {α β : Type} {c : Eval α}
  {σ : StaticEnv} {env : Env}

/-- A value that is good stays good in every larger heap. -/
theorem Value.Good.mono {h h' : Heap} {v : Value} (hv : v.Good h) (hle : h.Le h') : v.Good h' := by
  cases v with
  | tThunk env e =>
    obtain ⟨σ, hfits, hbound⟩ := hv
    exact ⟨σ, hfits.mono hle, hbound⟩
  | tLambda env fn =>
    obtain ⟨σ, hfits, hbound⟩ := hv
    exact ⟨σ, hfits.mono hle, hbound⟩
  | _ => trivial

/-- Trees stay bound as the memory grows. -/
theorem Heap.HasBound.mono {h h' : Heap} {tree : Expr × Env} (htree : h.HasBound tree) (hle : h.Le h') :
    h'.HasBound tree := by
  obtain ⟨σ, hfits, hbound⟩ := htree
  exact ⟨σ, hfits.mono hle, hbound⟩

/-- The memory stays good as it grows, if the new values and trees are good. -/
theorem Heap.Good.mono {h h' : Heap} (hgood : h.Good settings) (hle : h.Le h')
    (hvalues : ∀ n, h'.values n = h.values n ∨ (h'.values n).Good h')
    (hcached : ∀ path v, h'.fileEvalCache.find? path = some v →
      h.fileEvalCache.find? path = some v ∨ v.Good h')
    (hparsed : ∀ path tree, h'.parseTrees.find? path = some tree →
      h.parseTrees.find? path = some tree ∨ h'.HasBound tree) : h'.Good settings where
  values n := by
    rcases hvalues n with heq | hv
    · rw [heq]
      exact (hgood.values n).mono hle
    · exact hv
  cached path v hfind := (hcached path v hfind).elim (fun h => (hgood.cached path v h).mono hle) id
  parsed path tree hfind := (hparsed path tree hfind).elim (fun h => (hgood.parsed path tree h).mono hle) id
  base := hgood.base.mono hle

/-- The memory stays good when nothing is written but frames and sets. -/
theorem Heap.Good.of_values {h h' : Heap} (hgood : h.Good settings) (hle : h.Le h')
    (hvalues : h'.values = h.values) (hcached : h'.fileEvalCache = h.fileEvalCache)
    (hparsed : h'.parseTrees = h.parseTrees) : h'.Good settings :=
  hgood.mono hle (fun n => Or.inl (by rw [hvalues])) (fun path v h => Or.inl (by rw [← hcached, h]))
    fun path tree h => Or.inl (by rw [← hparsed, h])

/-- Known environments stay known: the contract lets the heap only grow. -/
theorem stable_knows : (contract settings).Stable (Knows facts) :=
  fun hle hknows x hx => (hknows x hx).mono hle

/-- Reading gives a good value, also at an address where nothing was written. -/
theorem Heap.Good.read {h : Heap} (hgood : h.Good settings) (c : Cell) : (h.read c).Good h := by
  cases c with
  | heap n => exact hgood.values n
  | literal v => cases v <;> trivial

/-! ### Rules -/

namespace Steady

/-- A computation that is steady with few known environments is so with more. -/
theorem mono (h : Steady settings facts c) (hsub : facts ⊆ facts') : Steady settings facts' c :=
  Contract.Triple.mono h (fun _ hs x hx => hs x (hsub hx)) fun _ _ => id

/-- Returning a value changes nothing. -/
protected theorem pure (a : α) : Steady settings facts (pure a : Eval α) :=
  Contract.Triple.pure fun _ _ _ => trivial

/-- Two steady computations in a row are steady. -/
protected theorem bind {f : α → Eval β} (h : Steady settings facts c)
    (hf : ∀ a, Steady settings facts (f a)) : Steady settings facts (c >>= f) :=
  Contract.Triple.seq stable_knows h hf

/-- A loop of steady bodies is steady. -/
protected theorem each {f : α → Eval Unit} {l : List α} (h : ∀ a ∈ l, Steady settings facts (f a)) :
    Steady settings facts (.each f l) := Contract.Triple.each stable_knows l h

/-- A loop that collects the results of steady bodies is steady. -/
protected theorem collect {f : α → Eval β} {l : List α} (h : ∀ a ∈ l, Steady settings facts (f a)) :
    Steady settings facts (.collect f l) := Contract.Triple.collect stable_knows l h

/-- A handler sees only failures that stay within scope, and is steady if it is so for those. -/
protected theorem handle {k : Except Failure α → Eval β} (h : Steady settings facts c)
    (hk : ∀ r, (∀ e, r = .error e → ¬e.LeavesScope) → Steady settings facts (k r)) :
    Steady settings facts (c.handle k) := by
  refine Contract.Triple.handle stable_knows h (fun a => ?_) fun e he => ?_
  · exact Contract.Triple.mono (hk (.ok a) nofun) (fun _ hs => hs.1) fun _ _ => id
  · exact hk (.error e) fun e' he' => Except.error.inj he' ▸ he

/-- A choice between two programs. -/
protected theorem ite {p : Prop} [Decidable p] {c' : Eval α} (h : Steady settings facts c)
    (h' : Steady settings facts c') : Steady settings facts (if p then c else c') := by
  split_ifs
  · exact h
  · exact h'

/-- Throwing an error stays within scope. -/
protected theorem thrown (type : ErrorClass) (msg : Str) :
    Steady settings facts (.fail (.thrown type msg) : Eval α) := Contract.Triple.fail id

/-- An `EvalError` stays within scope. -/
theorem evalError (msg : Str) : Steady settings facts (.fail (evalError msg) : Eval α) :=
  Steady.thrown _ _

/-- A fault other than a variable out of scope may be raised. -/
theorem undefined {fault : Fault} (h : ¬Failure.LeavesScope (.fault fault)) :
    Steady settings facts (Lang.undefined fault : Eval α) := Contract.Triple.fail h

/-- An error text becomes an exception, a result is returned. -/
theorem ofExcept (x : Except Str α) : Steady settings facts (Lang.ofExcept x) := by
  cases x with
  | ok a => exact Steady.pure a
  | error msg => exact Steady.evalError msg

/-- Putting a prefix before the messages of the exceptions. -/
theorem mapError (h : Steady settings facts c) (pre : Str) :
    Steady settings facts (c.mapError (addErrorPrefix pre)) := by
  refine Contract.Triple.mapError stable_knows (fun e he => ?_) h
  cases e with
  | thrown type msg => exact id
  | fault fault => exact he

/-- A call that does not evaluate an expression. -/
theorem invoke {p : Proc} (hp : ∀ h, p.Pre h) : Steady settings facts (invoke p) :=
  Contract.Triple.invoke stable_knows fun h _ _ => hp h

/-- What a call that does not evaluate anything returns. -/
theorem triple_ofOutcome {x : Outcome Str α} {Q : α → Prop} (h : ∀ a, x = .ok a → Q a) :
    (contract settings).Triple (Op.perform settings .byIndex) (Knows facts) (Lang.ofOutcome x)
      fun a _ => Q a := by
  cases x with
  | ok a => exact Contract.Triple.pure fun _ _ _ => h a rfl
  | error msg => exact Contract.Triple.fail id
  | diverge =>
    have hdiverge : Steady settings facts (Lang.invoke .diverge) := .invoke fun _ => trivial
    exact Contract.Triple.seq stable_knows hdiverge fun _ => Contract.Triple.fail id

/-- A call that does not evaluate anything. -/
theorem ofOutcome (x : Outcome Str α) : Steady settings facts (Lang.ofOutcome x) :=
  triple_ofOutcome fun _ _ => trivial

/-- The evaluation of a bound expression. -/
theorem eval {e : Expr} {v : Cell} (hmem : (σ, env) ∈ facts) (hbound : Bound σ e) :
    Steady settings facts (Lang.invoke (.eval e env v)) :=
  Contract.Triple.invoke stable_knows fun _ _ hknows => ⟨σ, hknows _ hmem, hbound⟩

/-- An operation that leaves values and frames alone. -/
theorem perform {o : Op} (hallowed : ∀ h, o.Allowed h)
    (hvalues : ∀ h, ((o.perform settings .byIndex h).2).values = h.values)
    (hcached : ∀ h, ((o.perform settings .byIndex h).2).fileEvalCache = h.fileEvalCache)
    (hparsed : ∀ h, ((o.perform settings .byIndex h).2).parseTrees = h.parseTrees)
    (hframes : ∀ h, ((o.perform settings .byIndex h).2).frames = h.frames)
    (hnext : ∀ h, ((o.perform settings .byIndex h).2).nextFrame = h.nextFrame) :
    Steady settings facts (perform o) := by
  refine Contract.Triple.perform fun h hgood _ => ?_
  have hle : h.Le (o.perform settings .byIndex h).2 := Heap.le_of_frames (hframes h) (hnext h)
  exact ⟨hallowed h, Heap.Good.of_values hgood hle (hvalues h) (hcached h) (hparsed h), hle, trivial⟩

end Steady

/-- What is known of a closure or a tree that is in the memory. -/
theorem triple_of_exists {Q : StaticEnv → Prop} (h : ∀ σ, Q σ → Steady settings ((σ, env) :: facts) c) :
    (contract settings).Triple (Op.perform settings .byIndex)
      (fun h => Knows facts h ∧ ∃ σ, h.Fits σ env ∧ Q σ) c fun _ _ => True := by
  intro m hgood ⟨hknows, σ, hfits, hσ⟩
  refine h σ hσ m hgood fun x hx => ?_
  rcases List.mem_cons.mp hx with rfl | hx
  · exact hfits
  · exact hknows x hx

/-! ### Reading and writing -/

/-- A value that is no closure. -/
def Value.Plain : Value → Prop
  | .tThunk _ _ => False
  | .tLambda _ _ => False
  | _ => True

/-- A plain value is good in every heap. -/
theorem Value.Plain.good {v : Value} (hv : v.Plain) (h : Heap) : v.Good h := by
  cases v with
  | tThunk env e => exact hv.elim
  | tLambda env fn => exact hv.elim
  | _ => trivial

/-- A heap stays good when one address gets a good value and the next free one moves on. -/
theorem Heap.Good.update {h : Heap} (hgood : h.Good settings) {v : Value} (hv : v.Good h) (n next : ℕ) :
    Heap.Good settings { h with values := Function.update h.values n v, nextValue := next } := by
  refine hgood.mono (Heap.le_of_frames rfl rfl) (fun m => ?_) (fun path v => Or.inl) fun path tree => Or.inl
  rcases eq_or_ne m n with rfl | hne
  · refine Or.inr ?_
    dsimp only
    rw [Function.update_self]
    exact hv.mono (Heap.le_of_frames rfl rfl)
  · exact Or.inl (Function.update_of_ne hne _ _)

/-- Writing a good value keeps the heap good and only grows it. -/
theorem Heap.Good.write {h : Heap} (hgood : h.Good settings) {v : Value} (hv : v.Good h) (c : Cell) :
    (h.write c v).Good settings ∧ h.Le (h.write c v) := by
  cases c with
  | heap n => exact ⟨hgood.update hv n h.nextValue, Heap.le_of_frames rfl rfl⟩
  | literal lit => exact ⟨hgood, Heap.Le.refl h⟩

/-- Allocation of a cell. -/
theorem steady_allocValue : Steady settings facts allocValue := by
  refine Contract.Triple.perform fun h hgood _ => ?_
  exact ⟨trivial, hgood.update (v := .unset) trivial _ _, Heap.le_of_frames rfl rfl, trivial⟩

/-- Reading a cell. -/
theorem steady_read (c : Cell) : Steady settings facts (read c) :=
  Steady.perform (fun _ => trivial) (fun _ => rfl) (fun _ => rfl) (fun _ => rfl) (fun _ => rfl) fun _ => rfl

/-- Questions leave values and frames alone. -/
theorem steady_ask (q : Query) : Steady settings facts (ask q) := by
  refine Steady.bind ?_ fun r => Steady.ofExcept r
  exact Steady.perform (fun _ => trivial) (fun _ => rfl) (fun _ => rfl) (fun _ => rfl) (fun _ => rfl)
    fun _ => rfl

/-- What is read is good. -/
theorem triple_read (c : Cell) : (contract settings).Triple (Op.perform settings .byIndex)
    (Knows facts) (read c) fun w h => w.Good h :=
  Contract.Triple.perform fun h hgood _ => ⟨trivial, hgood, Heap.Le.refl h, hgood.read c⟩

/-- A write of something that is good in every memory with what is known. -/
theorem steady_write_of {c : Cell} {v : Value} {P : Heap → Prop} (hv : ∀ h, P h → v.Good h) :
    (contract settings).Triple (Op.perform settings .byIndex) P (write c v) fun _ _ => True := by
  refine Contract.Triple.perform fun h hgood hP => ?_
  obtain ⟨hgood', hle⟩ := hgood.write (hv h hP) c
  exact ⟨trivial, hgood', hle, trivial⟩

/-- Writing a plain value. -/
theorem steady_write (c : Cell) {v : Value} (hv : v.Plain) : Steady settings facts (write c v) :=
  steady_write_of fun h _ => hv.good h

/-- Writing a thunk of a bound expression whose environment is known. -/
theorem steady_writeThunk (c : Cell) {e : Expr} (hmem : (σ, env) ∈ facts) (hbound : Bound σ e) :
    Steady settings facts (write c (.tThunk env e)) :=
  steady_write_of fun _ hknows => ⟨σ, hknows _ hmem, hbound⟩

/-- Copying what another cell holds. -/
theorem steady_copyValue (src dst : Cell) : Steady settings facts (copyValue src dst) :=
  Contract.Triple.bind stable_knows (triple_read src) fun _ => steady_write_of fun _ h => h.2

/-- Reading the attributes of a set. -/
theorem steady_attrsOf (b : ℕ) : Steady settings facts (attrsOf b) :=
  Steady.perform (fun _ => trivial) (fun _ => rfl) (fun _ => rfl) (fun _ => rfl) (fun _ => rfl) fun _ => rfl

/-- Replacing the attributes of a set; the cells in them are not followed here. -/
theorem steady_setBindings (b : ℕ) (attrs : List (Attr Cell)) :
    Steady settings facts (perform (.setBindings b attrs)) :=
  Steady.perform (fun _ => trivial) (fun _ => rfl) (fun _ => rfl) (fun _ => rfl) (fun _ => rfl) fun _ => rfl

/-- Making a set with the given attributes. -/
theorem steady_mkAttrs (v : Cell) (attrs : List (Attr Cell)) : Steady settings facts (mkAttrs v attrs) := by
  have halloc : Steady settings facts (perform (.allocBindings attrs)) :=
    Steady.perform (fun _ => trivial) (fun _ => rfl) (fun _ => rfl) (fun _ => rfl) (fun _ => rfl)
      fun _ => rfl
  exact halloc.bind fun b => (steady_write v (v := .tAttrs b) trivial).bind fun _ => .pure b

/-- Adding an attribute to a set. -/
theorem steady_pushAttr (b : ℕ) (a : Attr Cell) : Steady settings facts (pushAttr b a) :=
  (steady_attrsOf b).bind fun _ => steady_setBindings b _

/-- Sorting the attributes of a set. -/
theorem steady_sortAttrs (symbols : SymbolTable) (b : ℕ) :
    Steady settings facts (sortAttrs symbols b) :=
  (steady_attrsOf b).bind fun _ => steady_setBindings b _

/-- Adding an attribute with a fresh cell that holds a plain value. -/
theorem steady_allocAttr (b : ℕ) (name : Str) {v : Value} (hv : v.Plain) :
    Steady settings facts (allocAttr b name v) :=
  steady_allocValue.bind fun c => (steady_pushAttr b _).bind fun _ => steady_write c hv

/-- Writing a slot of an environment. -/
theorem steady_setSlot (f displ : ℕ) (c : Cell) : Steady settings facts (setSlot f displ c) := by
  refine Contract.Triple.perform fun h hgood _ => ?_
  have hle : h.Le (h.setSlot f displ c) := Heap.le_setSlot h f displ c
  exact ⟨trivial, hgood.of_values hle rfl rfl rfl, hle, trivial⟩

/-- A new environment, in which what follows is bound. -/
theorem steady_allocEnv {frame : Frame} {scope : StaticScope} {k : ℕ → Eval α} (hmem : (σ, env) ∈ facts)
    (hframe : frame.Fits scope (prevWith σ))
    (hk : ∀ f, Steady settings ((scope :: σ, f :: env) :: facts) (k f)) :
    Steady settings facts (perform (.allocEnv frame) >>= k) := by
  have halloc : (contract settings).Triple (Op.perform settings .byIndex) (Knows facts)
      (perform (.allocEnv frame)) fun f h => h.Fits (scope :: σ) (f :: env) := by
    refine Contract.Triple.perform fun h hgood hknows => ?_
    have hle : h.Le (h.allocEnv frame).2 := Heap.le_allocEnv h frame
    exact ⟨trivial, hgood.of_values hle rfl rfl rfl, hle, (hknows _ hmem).allocEnv hframe⟩
  refine Contract.Triple.bind stable_knows halloc fun f => ?_
  refine Contract.Triple.mono (hk f) (fun h hs x hx => ?_) fun _ _ => id
  rcases List.mem_cons.mp hx with rfl | hx
  · exact hs.2
  · exact hs.1 x hx

/-- A lookup of a bound variable, and what follows it. -/
theorem steady_lookup {var : VarRef} {k : Except Failure (Option Cell) → Eval α} (hmem : (σ, env) ∈ facts)
    (hvar : var.bind σ = .ok var) (hok : ∀ c, Steady settings facts (k (.ok c)))
    (herror : ∀ e, ¬e.LeavesScope → Steady settings facts (k (.error e))) :
    Steady settings facts (perform (.lookupVar env var) >>= k) := by
  have hlookup : (contract settings).Triple (Op.perform settings .byIndex) (Knows facts)
      (perform (.lookupVar env var)) fun r _ => ∀ e, r = .error e → ¬e.LeavesScope := by
    refine Contract.Triple.perform fun h hgood hknows => ?_
    have hfits : h.Fits σ env := hknows _ hmem
    refine ⟨⟨σ, hfits, hvar⟩, hgood, Heap.Le.refl h, fun e he => ?_⟩
    have he' : h.lookupName settings.symbols env var.name = .error e :=
      (lookupVar_eq_lookupName hfits hvar).symm.trans he
    rcases lookupName_error he' with rfl | rfl <;> exact id
  refine Contract.Triple.bind stable_knows hlookup fun r => ?_
  cases r with
  | ok c => exact Contract.Triple.mono (hok c) (fun _ hs => hs.1) fun _ _ => id
  | error e =>
    intro h hgood hs
    exact herror e (hs.2 e rfl) h hgood hs.1

/-- The displacement of an attribute of `rec` or `let` is found, since binding has stored it there. -/
theorem steady_displ {attrs : List AttrDef} {σ' : StaticEnv} (name : Str)
    (hattrs : bindDefs σ σ' (some 0) attrs = .ok attrs) :
    Steady settings facts (perform (.displ attrs name)) := by
  refine Contract.Triple.perform fun h hgood _ => ?_
  exact ⟨⟨σ, σ', hattrs⟩, hgood, Heap.Le.refl h, trivial⟩

end

end Nix.Lang
