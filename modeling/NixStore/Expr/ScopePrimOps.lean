import NixStore.Expr.ScopeInvariant

/-!
# The invariant of scopes for the functions of the evaluator

Forcing, coercion, equality, the primops and whatever else does not evaluate an expression on its own
keep the invariant: they make no closures, and they leave expressions to `forceValue` and `callFunction`.
-/

namespace Nix.Lang

section

variable {settings : Settings} {facts : List (StaticEnv × Env)} {α : Type}

/-- `&&` runs its second computation only when the first gives `true`; both have to be steady. -/
theorem steady_andAlso {c1 c2 : Eval Bool} (h1 : Steady settings facts c1)
    (h2 : Steady settings facts c2) : Steady settings facts (andAlso c1 c2) := by
  refine h1.bind fun b => ?_
  split_ifs
  · exact h2
  · exact .pure _

/-- `||` likewise. -/
theorem steady_orElse {c1 c2 : Eval Bool} (h1 : Steady settings facts c1)
    (h2 : Steady settings facts c2) : Steady settings facts (orElse c1 c2) := by
  refine h1.bind fun b => ?_
  split_ifs
  · exact .pure _
  · exact h2

/-! ### Forcing -/

/-- `force` hands the value to `forceValue`, which stays within the contract. -/
theorem steady_force (v : Cell) : Steady settings facts (force v) :=
  Steady.bind (.invoke fun _ => trivial) fun _ => steady_read v

/-- The test of a type either returns what the value holds or throws a `TypeError`. -/
theorem steady_ofType (expected : Str) (type? : Value → Option α) (w : Value) :
    Steady settings facts (ofType expected type? w) := by
  unfold ofType
  split
  · exact .pure _
  · exact .evalError _

/-- `forceInt` forces the value and tests its type. -/
theorem steady_forceInt (v : Cell) : Steady settings facts (forceInt v) :=
  (steady_force v).bind fun w => steady_ofType _ _ w

/-- `forceBool` forces the value and tests its type. -/
theorem steady_forceBool (v : Cell) : Steady settings facts (forceBool v) :=
  (steady_force v).bind fun w => steady_ofType _ _ w

/-- `forceAttrs` forces the value and tests its type. -/
theorem steady_forceAttrs (v : Cell) : Steady settings facts (forceAttrs v) :=
  (steady_force v).bind fun w => steady_ofType _ _ w

/-- `forceList` forces the value and tests its type. -/
theorem steady_forceList (v : Cell) : Steady settings facts (forceList v) :=
  (steady_force v).bind fun w => steady_ofType _ _ w

/-- `forceFunction` forces the value and tests its type. -/
theorem steady_forceFunction (v : Cell) : Steady settings facts (forceFunction v) :=
  (steady_force v).bind fun w => steady_ofType _ _ w

/-- `forceString` forces the value and tests its type. -/
theorem steady_forceString (v : Cell) : Steady settings facts (forceString v) :=
  (steady_force v).bind fun w => steady_ofType _ _ w

/-- A string with a context is an error, and every error of this kind leaves the heap alone. -/
theorem steady_forceStringNoCtx (v : Cell) : Steady settings facts (forceStringNoCtx v) := by
  refine (steady_forceString v).bind fun s => ?_
  dsimp only
  split
  · exact .pure _
  · exact .evalError _

/-- A string is a plain value: writing it asks nothing of the scopes. -/
theorem steady_mkString (c : Cell) (s : Str) (context : PathSet) :
    Steady settings facts (write c (mkString s context)) := steady_write c trivial

/-! ### Calls of primops -/

/-- Following the left operands of partial applications only reads. -/
theorem steady_primOpOf (fn : Cell) : Steady settings facts (primOpOf fn) := by
  refine (steady_read fn).bind fun w => ?_
  split
  · exact .pure _
  · exact Steady.bind (.invoke fun _ => trivial) fun _ => .pure _
  · exact .undefined id

/-- A primop that has got all its arguments is called through the contract of `callPrimOp`. -/
theorem steady_callPrimOpApp (fn arg v : Cell) : Steady settings facts (callPrimOpApp fn arg v) := by
  refine Steady.bind (.invoke fun _ => trivial) fun p => ?_
  rcases p with ⟨_, _⟩
  dsimp only
  split_ifs
  · refine Steady.mapError ?_ _
    exact .invoke fun _ => trivial
  · exact steady_allocValue.bind fun left => (steady_copyValue fn left).bind fun _ =>
      steady_write v (v := .tPrimOpApp left arg) trivial

/-- An argument that `autoCallFunction` finds for a formal is added as it stands. -/
theorem steady_autoArgs (symbols : SymbolTable) (args : List (Attr Cell)) (b : ℕ) (i : Formal) :
    Steady settings facts (autoArgs symbols args b i) := by
  unfold autoArgs
  split
  · exact steady_pushAttr b _
  · split
    · exact .pure _
    · exact .evalError _

/-- `autoCallFunction` writes an application of plain cells. -/
theorem steady_autoCallFunction (symbols : SymbolTable) (args : List (Attr Cell)) (fn res : Cell) :
    Steady settings facts (autoCallFunction symbols args fn res) := by
  refine (steady_force fn).bind fun w => ?_
  split
  · split_ifs
    · refine steady_allocValue.bind fun actualArgs => (steady_mkAttrs actualArgs []).bind fun b => ?_
      refine (Steady.each fun i _ => steady_autoArgs symbols args b i).bind fun _ => ?_
      exact (steady_sortAttrs symbols b).bind fun _ => .invoke fun _ => trivial
    · exact steady_copyValue fn res
  · exact steady_copyValue fn res

/-! ### Coercion and equality -/

/-- Copying a source asks the store and changes no value. -/
theorem steady_copySource (path : Path) (context : PathSet) :
    Steady settings facts (copySource path context) := by
  unfold copySource
  split_ifs
  · exact .evalError _
  · refine Steady.bind (.perform (fun _ => trivial) (fun _ => rfl) (fun _ => rfl) (fun _ => rfl)
      (fun _ => rfl) fun _ => rfl) fun r => ?_
    split
    · exact .pure _
    · refine (steady_ask _).bind fun dstPath => Steady.bind ?_ fun _ => .pure _
      exact .perform (fun _ => trivial) (fun _ => rfl) (fun _ => rfl) (fun _ => rfl) (fun _ => rfl)
        fun _ => rfl

/-- Coercion of a list goes from element to element, each coerced by a call of its own. -/
theorem steady_coerceElems (copyToStore : Bool) (elems : List Cell) (result : Str) (context : PathSet) :
    Steady settings facts (coerceElems copyToStore elems result context) := by
  induction elems generalizing result context with
  | nil => exact .pure _
  | cons e elems ih =>
    exact Steady.bind (.invoke fun _ => trivial) fun _ => (steady_read e).bind fun _ => ih _ _

/-- Coercion of a value to a string, by cases on its type. -/
theorem steady_coerceToString (symbols : SymbolTable) (v : Cell) (context : PathSet)
    (coerceMore copyToStore : Bool) :
    Steady settings facts (coerceToString symbols v context coerceMore copyToStore) := by
  refine (steady_force v).bind fun w => ?_
  split
  · exact .pure _
  · refine (Steady.ofOutcome _).bind fun path => ?_
    split_ifs
    · exact steady_copySource path context
    · exact .pure _
  · refine (steady_attrsOf _).bind fun attrs => ?_
    split
    · exact .invoke fun _ => trivial
    · exact .evalError _
  · split
    · exact .pure _
    · exact .pure _
    · exact .pure _
    · exact steady_coerceElems _ _ _ _
    · exact .evalError _

/-- `coerceToPath` is a coercion followed by a test of the first character. -/
theorem steady_coerceToPath (v : Cell) : Steady settings facts (coerceToPath v) := by
  refine Steady.bind (.invoke fun _ => trivial) fun p => ?_
  rcases p with ⟨_, _⟩
  dsimp only
  split_ifs
  · exact .pure _
  · exact .evalError _

/-- `isDerivation` looks up `type` and forces it. -/
theorem steady_isDerivationSet (symbols : SymbolTable) (b : ℕ) :
    Steady settings facts (isDerivationSet symbols b) := by
  refine (steady_attrsOf b).bind fun attrs => ?_
  split
  · exact .pure _
  · refine (steady_force _).bind fun w => ?_
    split
    · exact (steady_forceStringNoCtx _).bind fun _ => .pure _
    · exact .pure _

/-- Equality of lists compares in order and stops at the first difference. -/
theorem steady_eqElems (elems1 elems2 : List Cell) : Steady settings facts (eqElems elems1 elems2) := by
  induction elems1 generalizing elems2 with
  | nil => exact .pure _
  | cons v1 elems1 ih =>
    cases elems2 with
    | nil => exact .pure _
    | cons v2 elems2 =>
      refine Steady.bind (.invoke fun _ => trivial) fun eq => ?_
      split_ifs
      · exact ih elems2
      · exact .pure _

/-- Equality of the attributes of two sets, name by name. -/
theorem steady_eqAttrs (attrs1 attrs2 : List (Attr Cell)) :
    Steady settings facts (eqAttrs attrs1 attrs2) := by
  induction attrs1 generalizing attrs2 with
  | nil => exact .pure _
  | cons i attrs1 ih =>
    cases attrs2 with
    | nil => exact .pure _
    | cons j attrs2 =>
      unfold eqAttrs
      split_ifs
      · exact .pure _
      · refine Steady.bind (.invoke fun _ => trivial) fun eq => ?_
        split_ifs
        · exact ih attrs2
        · exact .pure _

/-- Two derivations are compared by their `outPath`. -/
theorem steady_eqOutPaths (symbols : SymbolTable) (b1 b2 : ℕ) :
    Steady settings facts (eqOutPaths symbols b1 b2) := by
  refine Steady.bind (steady_andAlso (steady_isDerivationSet symbols b1)
    (steady_isDerivationSet symbols b2)) fun both => ?_
  split_ifs
  · refine (steady_attrsOf b1).bind fun attrs1 => (steady_attrsOf b2).bind fun attrs2 => ?_
    split
    · exact Steady.bind (.invoke fun _ => trivial) fun _ => .pure _
    · exact .pure _
  · exact .pure _

/-- Equality of two sets: first as derivations, then attribute by attribute. -/
theorem steady_eqSets (symbols : SymbolTable) (b1 b2 : ℕ) :
    Steady settings facts (eqSets symbols b1 b2) := by
  refine (steady_eqOutPaths symbols b1 b2).bind fun eq => ?_
  split
  · exact .pure _
  · refine (steady_attrsOf b1).bind fun attrs1 => (steady_attrsOf b2).bind fun attrs2 => ?_
    split_ifs
    · exact .pure _
    · exact steady_eqAttrs attrs1 attrs2

/-- `eqValues`, by cases on the two types. -/
theorem steady_eqValues (symbols : SymbolTable) (v1 v2 : Cell) :
    Steady settings facts (eqValues symbols v1 v2) := by
  refine (steady_force v1).bind fun _ => (steady_force v2).bind fun w2 => ?_
  refine (steady_read v1).bind fun w1 => ?_
  split_ifs
  · exact .pure _
  · split <;> try exact .pure _
    · split_ifs
      · exact .pure _
      · exact steady_eqElems _ _
    · exact steady_eqSets symbols _ _
    all_goals exact .evalError _

/-- `strictForceValue` forces what it reaches, and writes nothing else. -/
theorem steady_strictForceValue (v : Cell) : Steady settings facts (strictForceValue v) := by
  refine (steady_force v).bind fun w => ?_
  split
  · exact (steady_attrsOf _).bind fun attrs => .each fun i _ => .invoke fun _ => trivial
  · exact .each fun e _ => .invoke fun _ => trivial
  · exact .pure _

/-! ### Files -/

/-- What binding in a file returns has been bound. -/
theorem bound_of_inFile {σ : StaticEnv} {path : Path} {e : Expr} (e' : Expr)
    (h : inFile path (e.bindVars σ) = .ok e') : Bound σ e' := by
  cases hbind : e.bindVars σ with
  | ok e₁ =>
    rw [hbind] at h
    cases h
    exact Expr.bindVars_bindVars hbind
  | error msg =>
    rw [hbind] at h
    cases h
  | diverge =>
    rw [hbind] at h
    cases h

/-- A tree that has been bound is kept. -/
theorem triple_setParseTree {σ : StaticEnv} {env : Env} {path : Path} {e : Expr} (hbound : Bound σ e)
    (hfits : ∀ h, h.Good settings → Knows facts h → h.Fits σ env) :
    (contract settings).Triple (Op.perform settings .byIndex) (Knows facts)
      (perform (.setParseTree path (e, env))) fun _ h => h.HasBound (e, env) := by
  refine Contract.Triple.perform fun h hgood hknows => ?_
  have hle : h.Le { h with parseTrees := h.parseTrees.insert path (e, env) } := Heap.le_of_frames rfl rfl
  have hnew : Heap.HasBound { h with parseTrees := h.parseTrees.insert path (e, env) } (e, env) :=
    ⟨σ, (hfits h hgood hknows).mono hle, hbound⟩
  refine ⟨trivial, hgood.mono hle (fun n => Or.inl rfl) (fun p u => Or.inl) fun p u hu => ?_, hle, hnew⟩
  change (h.parseTrees.insert path (e, env)).find? p = some u at hu
  rw [SortedMap.find?_insert] at hu
  split_ifs at hu
  · cases hu
    exact Or.inr hnew
  · exact Or.inl hu

/-- A file is parsed to a tree that has been bound. -/
theorem triple_parseExprFromFile {σ : StaticEnv} {env : Env}
    (hfits : ∀ h, h.Good settings → Knows facts h → h.Fits σ env) (path : Path) :
    (contract settings).Triple (Op.perform settings .byIndex) (Knows facts)
      (parseExprFromFile σ env path) fun tree h => h.HasBound tree := by
  unfold parseExprFromFile
  split_ifs
  · exact Contract.Triple.fail id
  refine Contract.Triple.seq stable_knows (steady_ask _) fun file => ?_
  have hfetch : (contract settings).Triple (Op.perform settings .byIndex) (Knows facts)
      (perform (.parseTree file)) fun r h => ∀ tree, r = some tree → h.HasBound tree :=
    Contract.Triple.perform fun h hgood _ =>
      ⟨trivial, hgood, Heap.Le.refl h, fun tree ht => hgood.parsed file tree ht⟩
  refine Contract.Triple.bind stable_knows hfetch fun r => ?_
  cases r with
  | some tree => exact Contract.Triple.pure fun h _ hs => hs.2 tree rfl
  | none =>
    refine Contract.Triple.mono (P := Knows facts) ?_ (fun _ hs => hs.1) fun _ _ => id
    refine Contract.Triple.seq stable_knows (steady_ask _) fun (e : Expr) => ?_
    refine Contract.Triple.bind stable_knows (Steady.triple_ofOutcome bound_of_inFile) fun e' => ?_
    intro h hgood ⟨hknows, hbound⟩
    refine Contract.Triple.bind stable_knows (triple_setParseTree hbound hfits) (fun _ => ?_) h hgood hknows
    exact Contract.Triple.pure fun h _ hs => hs.2

/-- What is done with a tree, in the scopes in which it has been bound. -/
theorem steady_parseExprFromFile {σ : StaticEnv} {env : Env} {path : Path} {k : Expr × Env → Eval α}
    (hfits : ∀ h, h.Good settings → Knows facts h → h.Fits σ env)
    (hk : ∀ e env' σ', Bound σ' e → Steady settings ((σ', env') :: facts) (k (e, env'))) :
    Steady settings facts (parseExprFromFile σ env path >>= k) :=
  Contract.Triple.bind stable_knows (triple_parseExprFromFile hfits path) fun tree =>
    triple_of_exists fun σ' hbound => hk tree.1 tree.2 σ' hbound

/-- `evalFile` parses, or finds in the cache, a closed expression and evaluates it in the base
environment. -/
theorem steady_evalFile (path : Path) (v : Cell) : Steady settings facts (evalFile settings path v) := by
  have hfetch : (contract settings).Triple (Op.perform settings .byIndex) (Knows facts)
      (perform (.fileEvalCache path)) fun r h => ∀ w, r = some w → w.Good h :=
    Contract.Triple.perform fun h hgood _ =>
      ⟨trivial, hgood, Heap.Le.refl h, fun w hw => hgood.cached path w hw⟩
  refine Contract.Triple.bind stable_knows hfetch fun r => ?_
  cases r with
  | some w => exact steady_write_of fun h hs => hs.2 w rfl
  | none =>
    refine Contract.Triple.mono (P := Knows facts) ?_ (fun _ hs => hs.1) fun _ _ => id
    refine steady_parseExprFromFile (fun h hgood _ => hgood.base) fun e env σ he => ?_
    refine ((Steady.eval List.mem_cons_self he).mapError _).bind fun _ => ?_
    refine Contract.Triple.bind stable_knows (triple_read v) fun w => ?_
    refine Contract.Triple.perform fun h hgood hs => ?_
    have hle : h.Le { h with fileEvalCache := h.fileEvalCache.insert path w } := Heap.le_of_frames rfl rfl
    refine ⟨trivial, hgood.mono hle (fun n => Or.inl rfl) (fun p u hu => ?_) fun p u => Or.inl, hle,
      trivial⟩
    change (h.fileEvalCache.insert path w).find? p = some u at hu
    rw [SortedMap.find?_insert] at hu
    split_ifs at hu
    · cases hu
      exact Or.inr (hs.2.mono hle)
    · exact Or.inl hu

/-- A thunk of a bound expression. -/
theorem steady_mkThunk {σ : StaticEnv} {env : Env} {e : Expr} (hmem : (σ, env) ∈ facts) (he : Bound σ e) :
    Steady settings facts (mkThunk env e) :=
  steady_allocValue.bind fun v => (steady_writeThunk v hmem he).bind fun _ => .pure v

/-! ### Primops -/

/-- The primops `isNull`, `isFunction` and so on force the argument and write a boolean. -/
theorem steady_typeTest (p : Value → Bool) (a v : Cell) : Steady settings facts (typeTest p a v) :=
  (steady_force a).bind fun _ => steady_write v trivial

/-- The argument of a primop is coerced by a call of its own. -/
theorem steady_coerceArg (a : Cell) : Steady settings facts (coerceArg a) := .invoke fun _ => trivial

/-- `addErrorContext` puts a prefix before the message and throws again. -/
theorem steady_primAddErrorContext (a0 a1 v : Cell) :
    Steady settings facts (primAddErrorContext a0 a1 v) := by
  refine Steady.handle (Steady.bind (.invoke fun _ => trivial) fun _ => steady_copyValue a1 v) ?_
  intro r hr
  cases r with
  | ok u => exact .pure ()
  | error e =>
    cases e with
    | fault fault => exact .undefined (hr _ rfl)
    | thrown type msg => exact (steady_coerceArg a0).bind fun _ => .thrown _ _

/-- `tryEval` catches what was thrown; a set of two attributes is made in either case. -/
theorem steady_primTryEval (symbols : SymbolTable) (a v : Cell) :
    Steady settings facts (primTryEval symbols a v) := by
  refine (steady_mkAttrs v []).bind fun b => ?_
  refine Steady.bind (.handle (.invoke fun _ => trivial) ?_) fun _ => steady_sortAttrs symbols b
  intro r hr
  have hbool (name : Str) (x : Bool) : Steady settings facts (allocAttr b name (.tBool x)) :=
    steady_allocAttr b name trivial
  rcases r with (⟨_ | _, msg⟩ | fault) | u
  · exact .thrown _ _
  · exact (hbool _ _).bind fun _ => hbool _ _
  · exact .undefined (hr _ rfl)
  · exact (steady_pushAttr b _).bind fun _ => hbool _ _

/-- The element of a list is forced and copied, or there is an error about the index. -/
theorem steady_elemAt (list : Cell) (n : ℤ) (v : Cell) : Steady settings facts (elemAt list n v) := by
  refine (steady_forceList list).bind fun elems => ?_
  split
  · exact Steady.bind (.invoke fun _ => trivial) fun _ => steady_copyValue _ v
  · exact .evalError _

/-- Fresh cells with plain values in them. -/
theorem steady_allocValues {vs : List Value} (hvs : ∀ w ∈ vs, w.Plain) :
    Steady settings facts (allocValues vs) :=
  .collect fun w hw => steady_allocValue.bind fun c => (steady_write c (hvs w hw)).bind fun _ => .pure c

/-- An attribute that has to be there: its cell, or the given error. -/
theorem steady_attrOf (symbols : SymbolTable) (v : Cell) (name msg : Str) :
    Steady settings facts (attrOf symbols v name (evalError msg)) := by
  refine (steady_forceAttrs v).bind fun b => (steady_attrsOf b).bind fun attrs => ?_
  split
  · exact .pure _
  · exact .evalError _

/-- The loop of `listToAttrs` adds attributes with the cells it found. -/
theorem steady_listToAttrsLoop (symbols : SymbolTable) (b : ℕ) (seen : List Str) (elems : List Cell) :
    Steady settings facts (listToAttrsLoop symbols b seen elems) := by
  induction elems generalizing seen with
  | nil => exact .pure _
  | cons v2 elems ih =>
    refine (steady_forceAttrs v2).bind fun b2 => (steady_attrsOf b2).bind fun attrs => ?_
    split
    · exact .evalError _
    · refine (steady_forceStringNoCtx _).bind fun name => (steady_attrsOf b2).bind fun attrs => ?_
      split
      · exact .evalError _
      · split_ifs
        · exact ih seen
        · exact (steady_pushAttr b _).bind fun _ => ih _

/-- `functionArgs` makes one boolean for each formal. -/
theorem steady_primFunctionArgs (symbols : SymbolTable) (a v : Cell) :
    Steady settings facts (primFunctionArgs symbols a v) := by
  refine (steady_force a).bind fun w => ?_
  split
  · refine (steady_mkAttrs v []).bind fun b => ?_
    split_ifs
    · exact Steady.bind (.each fun i _ => steady_allocAttr b i.name trivial) fun _ =>
        steady_sortAttrs symbols b
    · exact .pure _
  · exact .evalError _

/-- The loop of `filter` calls the predicate on each element. -/
theorem steady_filterLoop (pred : Cell) (elems : List Cell) :
    Steady settings facts (filterLoop pred elems) := by
  induction elems with
  | nil => exact .pure _
  | cons e elems ih =>
    exact steady_allocValue.bind fun res => Steady.bind (.invoke fun _ => trivial) fun _ =>
      (steady_forceBool res).bind fun _ => ih.bind fun _ => .pure _

/-- The loop of `elem` compares with each element until one is equal. -/
theorem steady_elemLoop (a : Cell) (elems : List Cell) : Steady settings facts (elemLoop a elems) := by
  induction elems with
  | nil => exact .pure _
  | cons e elems ih =>
    refine Steady.bind (.invoke fun _ => trivial) fun eq => ?_
    split_ifs
    · exact .pure _
    · exact ih

/-- The lists below `concatLists` are forced one by one. -/
theorem steady_forcedList (v : Cell) : Steady settings facts (forcedList v) := by
  refine (steady_read v).bind fun w => ?_
  split
  · exact .pure _
  · exact .undefined id

/-- `concatLists` writes the list of all the elements it has read. -/
theorem steady_concatLists (v : Cell) (lists : List Cell) :
    Steady settings facts (concatLists v lists) := by
  refine Steady.bind (.collect fun l _ => steady_forceList l) fun ls => ?_
  split
  · exact steady_write v trivial
  · split_ifs
    · exact steady_copyValue _ v
    · exact Steady.bind (.collect fun l _ => steady_forcedList l) fun ls => steady_write v trivial

/-- An operator on integers forces both operands and writes a plain value. -/
theorem steady_intOp {f : ℤ → ℤ → Value} (hf : ∀ n0 n1, (f n0 n1).Plain) (a0 a1 v : Cell) :
    Steady settings facts (intOp f a0 a1 v) :=
  (steady_forceInt a0).bind fun n0 => (steady_forceInt a1).bind fun n1 => steady_write v (hf n0 n1)

/-- `div` throws when the divisor is zero. -/
theorem steady_primDiv (a0 a1 v : Cell) : Steady settings facts (primDiv a0 a1 v) := by
  refine (steady_forceInt a1).bind fun i2 => ?_
  split_ifs
  · exact .evalError _
  · refine (steady_forceInt a0).bind fun i1 => ?_
    split_ifs
    · exact .undefined id
    · exact steady_write v trivial

/-- `substring` forces two integers and coerces its last argument. -/
theorem steady_primSubstring (a0 a1 a2 v : Cell) : Steady settings facts (primSubstring a0 a1 a2 v) := by
  refine (steady_forceInt a0).bind fun start => (steady_forceInt a1).bind fun len => ?_
  refine (steady_coerceArg a2).bind fun p => ?_
  dsimp only
  split_ifs
  · exact .evalError _
  all_goals exact steady_mkString v _ _

/-- Forcing a value and copying it, as `head` and `trace` do at their end. -/
theorem steady_forced (src v : Cell) : Steady settings facts (do
    invoke (.forceValue src)
    copyValue src v) := Steady.bind (.invoke fun _ => trivial) fun _ => steady_copyValue src v

/-- `toPath` writes a path that was coerced, with its context. -/
theorem steady_primToPath (a v : Cell) : Steady settings facts (primToPath a v) :=
  (steady_coerceToPath a).bind fun _ => (Steady.ofOutcome _).bind fun _ => steady_mkString v _ _

/-- `baseNameOf` writes a string made from the coerced argument. -/
theorem steady_primBaseNameOf (a v : Cell) : Steady settings facts (primBaseNameOf a v) :=
  (steady_coerceArg a).bind fun _ => (Steady.ofOutcome _).bind fun _ => steady_mkString v _ _

/-- `dirOf` writes a path for a path, else a string. -/
theorem steady_primDirOf (a v : Cell) : Steady settings facts (primDirOf a v) := by
  refine (steady_coerceToPath a).bind fun _ => (Steady.ofOutcome _).bind fun dir => ?_
  refine (steady_read a).bind fun w => ?_
  split
  · exact steady_write v trivial
  · exact steady_mkString v _ _

/-- `attrNames` writes one string for each attribute, in the order of the names. -/
theorem steady_primAttrNames (a v : Cell) : Steady settings facts (primAttrNames a v) := by
  refine (steady_forceAttrs a).bind fun b => (steady_attrsOf b).bind fun attrs => ?_
  refine (steady_allocValues fun w hw => ?_).bind fun elems => steady_write v trivial
  obtain ⟨name, -, rfl⟩ := List.mem_map.mp hw
  trivial

/-- `getAttr` forces the name and the set, and copies the attribute it finds. -/
theorem steady_primGetAttr (symbols : SymbolTable) (a0 a1 v : Cell) :
    Steady settings facts (primGetAttr symbols a0 a1 v) :=
  (steady_forceStringNoCtx a0).bind fun attr => (steady_attrOf symbols a1 attr _).bind fun i =>
    steady_forced i.value v

/-- `hasAttr` forces the name and the set, and writes a boolean. -/
theorem steady_primHasAttr (symbols : SymbolTable) (a0 a1 v : Cell) :
    Steady settings facts (primHasAttr symbols a0 a1 v) :=
  (steady_forceStringNoCtx a0).bind fun _ => (steady_forceAttrs a1).bind fun b =>
    (steady_attrsOf b).bind fun _ => steady_write v trivial

/-- `removeAttrs` keeps cells of the set it got. -/
theorem steady_primRemoveAttrs (a0 a1 v : Cell) : Steady settings facts (primRemoveAttrs a0 a1 v) := by
  refine (steady_forceAttrs a0).bind fun b => (steady_forceList a1).bind fun elems => ?_
  refine Steady.bind (.collect fun e _ => steady_forceStringNoCtx e) fun names => ?_
  exact (steady_attrsOf b).bind fun attrs => (steady_mkAttrs v _).bind fun _ => .pure ()

/-- `listToAttrs` makes its set, runs the loop and sorts. -/
theorem steady_primListToAttrs (symbols : SymbolTable) (a v : Cell) :
    Steady settings facts (primListToAttrs symbols a v) :=
  (steady_forceList a).bind fun elems => (steady_mkAttrs v []).bind fun b =>
    (steady_listToAttrsLoop symbols b [] elems).bind fun _ => steady_sortAttrs symbols b

/-- `intersectAttrs` keeps cells of its second argument. -/
theorem steady_primIntersectAttrs (symbols : SymbolTable) (a0 a1 v : Cell) :
    Steady settings facts (primIntersectAttrs symbols a0 a1 v) :=
  (steady_forceAttrs a0).bind fun b0 => (steady_forceAttrs a1).bind fun b1 =>
    (steady_attrsOf b0).bind fun _ => (steady_attrsOf b1).bind fun _ =>
      (steady_mkAttrs v _).bind fun _ => .pure ()

/-- `tail` writes a list of cells that the argument holds. -/
theorem steady_primTail (a v : Cell) : Steady settings facts (primTail a v) := by
  refine (steady_forceList a).bind fun elems => ?_
  split
  · exact .evalError _
  · exact steady_write v trivial

/-- `map` writes applications of its first argument to the elements. -/
theorem steady_primMap (a0 a1 v : Cell) : Steady settings facts (primMap a0 a1 v) := by
  refine (steady_forceFunction a0).bind fun _ => (steady_forceList a1).bind fun elems => ?_
  refine (steady_allocValues fun w hw => ?_).bind fun results => steady_write v trivial
  obtain ⟨e, -, rfl⟩ := List.mem_map.mp hw
  trivial

/-- `filter` writes a list of the elements that the loop has kept. -/
theorem steady_primFilter (a0 a1 v : Cell) : Steady settings facts (primFilter a0 a1 v) := by
  refine (steady_forceFunction a0).bind fun _ => (steady_forceList a1).bind fun elems => ?_
  refine (steady_filterLoop a0 elems).bind fun vs => ?_
  split_ifs
  · exact steady_copyValue a1 v
  · exact steady_write v trivial

/-- `parseDrvName` makes a set of two strings. -/
theorem steady_primParseDrvName (symbols : SymbolTable) (a v : Cell) :
    Steady settings facts (primParseDrvName symbols a v) := by
  refine (steady_forceStringNoCtx a).bind fun name => (steady_mkAttrs v []).bind fun b => ?_
  have hattr (name s : Str) : Steady settings facts (allocAttr b name (mkString s ∅)) :=
    steady_allocAttr b name trivial
  exact (hattr _ _).bind fun _ => (hattr _ _).bind fun _ => steady_sortAttrs symbols b

end

end Nix.Lang
