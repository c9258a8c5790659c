import NixStore.Expr.ScopePrimOps

/-!
# The invariant of scopes for the functions that ask the outside

What the outside answers is no closure, except for the expressions in files, which are bound before they are
used.  So these primops keep the invariant too, and with them all primops do (`steady_callPrimOp`).
-/

namespace Nix.Lang

section

variable {settings : Settings} {facts : List (StaticEnv × Env)} {α : Type}

/-! ### Importing -/

/-- A round over the context of an imported path only asks. -/
theorem steady_importContextElem (path : Path) (i : Str) :
    Steady settings facts (importContextElem settings path i) := by
  refine .ite (.undefined id) ((steady_ask _).bind fun (valid : Bool) => ?_)
  exact .ite (.evalError _) (.ite (steady_ask _) (.pure ()))

/-- The set for a derivation holds strings. -/
theorem steady_mkImportedDrv (path : Path) (drv : Derivation) :
    Steady settings facts (mkImportedDrv settings path drv) := by
  refine steady_allocValue.bind fun w => (steady_mkAttrs w []).bind fun b => ?_
  refine (steady_allocAttr b _ (v := mkString _ _) trivial).bind fun _ => ?_
  refine (steady_allocAttr b _ (v := .tList []) trivial).bind fun _ => ?_
  refine (steady_attrsOf b).bind fun attrs => ?_
  split
  · exact .undefined id
  · next outputs _ =>
    refine (Steady.collect fun i _ => ?_).bind fun elems => ?_
    · exact (steady_allocAttr b _ (v := mkString _ _) trivial).bind fun _ =>
        steady_allocValue.bind fun e => (steady_mkString e _ _).bind fun _ => .pure e
    · exact (steady_write outputs.value (v := .tList elems) trivial).bind fun _ =>
        (steady_sortAttrs _ b).bind fun _ => .pure w

/-- Whether a derivation is imported depends on questions only. -/
theorem steady_isStoredDerivation (path : Path) :
    Steady settings facts (isStoredDerivation settings path) :=
  steady_andAlso (.pure _) (steady_andAlso (steady_ask _) (.pure _))

/-- What is imported has been bound. -/
theorem steady_primImport (a v : Cell) : Steady settings facts (primImport settings a v) := by
  refine (steady_coerceToPath a).bind fun p => ?_
  refine Steady.bind (.each fun i _ => steady_importContextElem _ i) fun _ => ?_
  refine (steady_isStoredDerivation _).bind fun stored => .ite ?_ ?_
  · refine (steady_ask _).bind fun contents => (steady_ask _).bind fun uninit => ?_
    refine (Steady.ofOutcome _).bind fun drv => (steady_mkImportedDrv _ drv).bind fun w => ?_
    refine (steady_ask _).bind fun file => ?_
    refine steady_parseExprFromFile (fun h hgood _ => hgood.base) fun e env σ he => ?_
    refine (steady_mkThunk List.mem_cons_self he).bind fun fn => (steady_forceFunction fn).bind fun _ => ?_
    exact (steady_write v (v := .tApp fn w) trivial).bind fun _ =>
      (steady_forceAttrs v).bind fun _ => .pure ()
  · exact .invoke fun _ => trivial

/-! ### The generic closure -/

/-- A comparison does not evaluate anything. -/
theorem steady_compareValues (v1 v2 : Value) : Steady settings facts (compareValues v1 v2) := by
  unfold compareValues
  split_ifs
  · exact .evalError _
  · split
    · exact .pure _
    · exact .pure _
    · exact .pure _
    · exact .evalError _

/-- A search for a key compares. -/
theorem steady_findKey (key : Value) (doneKeys : List Value) :
    Steady settings facts (findKey key doneKeys) := by
  induction doneKeys with
  | nil => exact .pure _
  | cons d doneKeys ih =>
    refine (steady_compareValues d key).bind fun less => ?_
    split_ifs
    · exact ih
    · exact (steady_compareValues key d).bind fun _ => .pure _

/-- An insertion of a key compares. -/
theorem steady_insertKey (key : Value) (doneKeys : List Value) :
    Steady settings facts (insertKey key doneKeys) := by
  induction doneKeys with
  | nil => exact .pure _
  | cons d doneKeys ih =>
    refine (steady_compareValues key d).bind fun less => ?_
    split_ifs
    · exact .pure _
    · refine (steady_compareValues d key).bind fun greater => ?_
      split_ifs
      · exact ih.bind fun _ => .pure _
      · exact .pure _

/-- A round of the closure forces values and applies the operator. -/
theorem steady_closureLoop (op : Cell) (workSet : List Cell) (doneKeys : List Value) (res : List ℕ) :
    Steady settings facts (closureLoop settings op workSet doneKeys res) := by
  cases workSet with
  | nil => exact .pure _
  | cons e workSet =>
    refine (steady_forceAttrs e).bind fun b => (steady_attrsOf b).bind fun attrs => ?_
    split
    · exact .evalError _
    · refine (steady_force _).bind fun key => (steady_findKey key doneKeys).bind fun found => .ite ?_ ?_
      · exact .invoke fun _ => trivial
      · refine (steady_insertKey key doneKeys).bind fun doneKeys => steady_allocValue.bind fun call => ?_
        refine (steady_write call (v := .tApp op e) trivial).bind fun _ => ?_
        refine (steady_forceList call).bind fun elems => ?_
        refine Steady.bind (.each fun e _ => ?_) fun _ => ?_
        · exact .invoke fun _ => trivial
        · exact .invoke fun _ => trivial

/-- The result of a closure is a list of sets. -/
theorem steady_primGenericClosure (a v : Cell) :
    Steady settings facts (primGenericClosure settings a v) := by
  refine (steady_forceAttrs a).bind fun b => (steady_attrsOf b).bind fun attrs => ?_
  split
  · exact .evalError _
  · refine (steady_forceList _).bind fun workSet => (steady_attrsOf b).bind fun attrs => ?_
    split
    · exact .evalError _
    · refine Steady.bind (.invoke fun _ => trivial) fun _ => ?_
      refine Steady.bind (.invoke fun _ => trivial) fun (res : List ℕ) => ?_
      refine (steady_allocValues fun w hw => ?_).bind fun elems => steady_write v trivial
      obtain ⟨b, -, rfl⟩ := List.mem_map.mp hw
      trivial

/-! ### Environment variables and files -/

/-- The value of an environment variable is a string. -/
theorem steady_primGetEnv (a v : Cell) : Steady settings facts (primGetEnv a v) :=
  (steady_forceStringNoCtx a).bind fun _ => (steady_ask _).bind fun _ => steady_mkString v _ _

/-- A store path becomes a string. -/
theorem steady_primStorePath (a v : Cell) : Steady settings facts (primStorePath settings a v) := by
  refine (steady_coerceToPath a).bind fun p => ?_
  dsimp only
  refine Steady.bind (.ite (.pure _) (steady_ask (.canonPath p.1))) fun path => ?_
  refine .ite (.evalError _) ((Steady.ofOutcome _).bind fun path2 => ?_)
  exact (steady_ask _).bind fun (valid : Bool) => .ite (steady_mkString v _ _) (.evalError _)

/-- A path without a context is coerced like any path. -/
theorem steady_coerceToPathNoCtx (a : Cell) : Steady settings facts (coerceToPathNoCtx a) := by
  refine (steady_coerceToPath a).bind fun p => ?_
  dsimp only
  split_ifs
  · exact .pure _
  · exact .evalError _

/-- Whether a path exists is a Boolean. -/
theorem steady_primPathExists (a v : Cell) : Steady settings facts (primPathExists a v) :=
  (steady_coerceToPathNoCtx a).bind fun _ => (steady_ask _).bind fun _ => steady_write v trivial

/-- The contents of a file are a string. -/
theorem steady_primReadFile (a v : Cell) : Steady settings facts (primReadFile a v) :=
  (steady_coerceToPathNoCtx a).bind fun _ => (steady_ask _).bind fun _ => steady_mkString v _ _

/-! ### Values as XML -/

/-- An element around what keeps the invariant. -/
theorem steady_xmlElement (name : Str) (attrs : XMLAttrs) {body : XMLState → Eval XMLState}
    (hbody : ∀ st, Steady settings facts (body st)) (st : XMLState) :
    Steady settings facts (xmlElement name attrs body st) :=
  (hbody _).bind fun _ => .pure _

/-- The string that an attribute is. -/
theorem steady_stringAttr (b : ℕ) (name : Str) : Steady settings facts (stringAttr settings b name) := by
  refine (steady_attrsOf b).bind fun attrs => ?_
  split
  · exact .pure _
  · exact (steady_force _).bind fun _ => .pure _

/-- The attributes of a set are shown by calls. -/
theorem steady_showAttrs (b : ℕ) (st : XMLState) : Steady settings facts (showAttrs settings b st) := by
  refine (steady_attrsOf b).bind fun attrs => ?_
  dsimp only
  generalize (SortedSet.ofList (attrs.map Attr.name)).toList = names
  induction names generalizing st with
  | nil => exact .pure _
  | cons name names ih =>
    refine (steady_attrsOf b).bind fun attrs => ?_
    split
    · exact .undefined id
    · refine Steady.bind (steady_xmlElement _ _ (fun st => ?_) st) fun st => ih st
      exact .invoke fun _ => trivial

/-- A derivation is shown with two of its attributes. -/
theorem steady_showDerivation (b : ℕ) (st : XMLState) :
    Steady settings facts (showDerivation settings b st) := by
  refine (steady_stringAttr b _).bind fun drv => (steady_stringAttr b _).bind fun out => ?_
  refine steady_xmlElement _ _ (fun st => ?_) st
  split_ifs
  · exact steady_showAttrs b _
  · exact .pure _

/-- The elements of a list are shown by calls. -/
theorem steady_showElems (elems : List Cell) (st : XMLState) :
    Steady settings facts (showElems elems st) := by
  induction elems generalizing st with
  | nil => exact .pure _
  | cons e elems ih => exact Steady.bind (.invoke fun _ => trivial) fun st => ih st

/-- A value is forced and then shown. -/
theorem steady_printValueAsXML (v : Cell) (st : XMLState) :
    Steady settings facts (printValueAsXML settings v st) := by
  refine (steady_force v).bind fun w => ?_
  split
  · exact .pure _
  · exact .pure _
  · exact .pure _
  · exact .pure _
  · exact .pure _
  · refine (steady_isDerivationSet _ _).bind fun drv => ?_
    split_ifs
    · exact steady_showDerivation _ st
    · exact steady_xmlElement _ _ (steady_showAttrs _) st
  · exact steady_xmlElement _ _ (steady_showElems _) st
  · exact .ofOutcome _
  · exact .pure _

/-- The XML of a value is a string. -/
theorem steady_primToXML (a v : Cell) : Steady settings facts (primToXML a v) := by
  refine Steady.bind (steady_xmlElement _ _ (fun st => ?_) _) fun _ => steady_mkString v _ _
  exact .invoke fun _ => trivial

/-! ### Creating files -/

/-- A file is made of strings. -/
theorem steady_primToFile (a0 a1 v : Cell) : Steady settings facts (primToFile a0 a1 v) :=
  (steady_forceStringNoCtx a0).bind fun _ => (steady_forceString a1).bind fun _ =>
    (Steady.ofOutcome _).bind fun _ => (steady_ask _).bind fun _ => steady_mkString v _ _

/-- A filter is called with strings. -/
theorem steady_callFilter (filter : Cell) (path : Path) :
    Steady settings facts (callFilter filter path) := by
  refine (steady_ask _).bind fun type => ?_
  refine steady_allocValue.bind fun arg1 => (steady_mkString arg1 _ _).bind fun _ => ?_
  refine steady_allocValue.bind fun fun2 => Steady.bind (.invoke fun _ => trivial) fun _ => ?_
  refine steady_allocValue.bind fun arg2 => (steady_mkString arg2 _ _).bind fun _ => ?_
  exact steady_allocValue.bind fun res => Steady.bind (.invoke fun _ => trivial) fun _ =>
    steady_forceBool res

/-- The entries that the filter lets through are dumped by calls. -/
theorem steady_dumpEntries (filter : Cell) (path : Path) (names : List Str) :
    Steady settings facts (dumpEntries filter path names) := by
  induction names with
  | nil => exact .pure _
  | cons name names ih =>
    refine (steady_callFilter filter _).bind fun keep => ?_
    split_ifs
    · exact Steady.bind (.invoke fun _ => trivial) fun _ => ih.bind fun _ => .pure _
    · exact ih

/-- A dump asks for the files and calls the filter. -/
theorem steady_dump (filter : Cell) (path : Path) : Steady settings facts (dump filter path) := by
  refine (steady_ask _).bind fun (type : FileType) => ?_
  cases type with
  | regular executable size => exact (steady_ask _).bind fun _ => .pure _
  | directory =>
    exact (steady_ask _).bind fun names => (steady_dumpEntries filter path _).bind fun _ => .pure _
  | symlink => exact (steady_ask _).bind fun _ => .pure _
  | unknown => exact .evalError _

/-- A filtered source is dumped and added to the store. -/
theorem steady_primFilterSource (a0 a1 v : Cell) :
    Steady settings facts (primFilterSource settings a0 a1 v) := by
  refine (steady_coerceToPathNoCtx a1).bind fun path => (steady_force a0).bind fun w => ?_
  split
  · refine Steady.bind (.ite (.pure _) (.ofOutcome _)) fun srcPath => ?_
    refine Steady.bind (.invoke fun _ => trivial) fun file => ?_
    exact (Steady.ofOutcome _).bind fun name => (steady_ask _).bind fun dstPath => steady_mkString v _ _
  · exact .evalError _

/-! ### Instantiation -/

/-- A coercion in an instantiation is a call. -/
theorem steady_coerceStrict (v : Cell) (st : Strict settings) :
    Steady settings facts (coerceStrict v st) :=
  Steady.bind (.invoke fun _ => trivial) fun _ => .pure _

/-- The arguments of the builder are coerced. -/
theorem steady_addArgs (elems : List Cell) (st : Strict settings) :
    Steady settings facts (addArgs elems st) := by
  induction elems generalizing st with
  | nil => exact .pure _
  | cons v elems ih => exact (steady_coerceStrict v st).bind fun _ => ih _

/-- An attribute that may be null is forced. -/
theorem steady_isIgnored (ignoreNulls : Bool) (v : Cell) :
    Steady settings facts (isIgnored ignoreNulls v) := by
  refine steady_andAlso (.pure _) ((steady_force v).bind fun w => ?_)
  split
  · exact .pure _
  · exact .pure _

/-- An attribute of a derivation is coerced. -/
theorem steady_convertAttr (ignoreNulls : Bool) (i : Attr Cell) (st : Strict settings) :
    Steady settings facts (convertAttr ignoreNulls i st) := by
  refine (steady_isIgnored ignoreNulls _).bind fun ignored => ?_
  split_ifs
  · exact .pure _
  · exact (steady_forceList _).bind fun elems => steady_addArgs elems st
  · exact (steady_coerceStrict _ st).bind fun _ => .ofOutcome _

/-- The attributes of a derivation are coerced one after the other. -/
theorem steady_processAttrs (ignoreNulls : Bool) (posDrvName : Pos) (attrs : List (Attr Cell))
    (st : Strict settings) : Steady settings facts (processAttrs ignoreNulls posDrvName attrs st) := by
  induction attrs generalizing st with
  | nil => exact .pure _
  | cons i attrs ih =>
    unfold processAttrs
    split_ifs
    · exact ih st
    · exact ((steady_convertAttr ignoreNulls i st).mapError _).bind fun st => ih st

/-- The outputs of an input are asked for. -/
theorem steady_addAllOutputs (drv : Derivation) (path : Path) :
    Steady settings facts (addAllOutputs drv path) :=
  (steady_ask _).bind fun _ => .pure _

/-- The outputs of all derivations in a closure are asked for. -/
theorem steady_addRefs (refs : List Path) (drv : Derivation) :
    Steady settings facts (addRefs refs drv) := by
  induction refs generalizing drv with
  | nil => exact .pure _
  | cons j refs ih =>
    unfold addRefs
    refine Steady.bind ?_ fun drv => ih drv
    split_ifs
    · exact steady_addAllOutputs _ j
    · exact .pure _

/-- An element of a context becomes an input. -/
theorem steady_addContext (drv : Derivation) (i : Str) : Steady settings facts (addContext drv i) := by
  cases i with
  | nil => exact .evalError _
  | cons c path =>
    refine .ite ((steady_ask _).bind fun refs => steady_addRefs _ drv) (.ite (.pure _) ?_)
    exact .ite (.pure _) (.ite (steady_addAllOutputs drv _) (.pure _))

/-- The elements of a context become inputs one after the other. -/
theorem steady_addContexts (context : List Str) (drv : Derivation) :
    Steady settings facts (addContexts context drv) := by
  induction context generalizing drv with
  | nil => exact .pure _
  | cons i context ih => exact (steady_addContext drv i).bind fun drv => ih drv

/-- The paths of the outputs are computed. -/
theorem steady_setOutputs (st : Strict settings) : Steady settings facts (setOutputs settings st) := by
  unfold setOutputs
  split_ifs
  · exact .ofOutcome _
  · exact (steady_ask _).bind fun _ => .ofOutcome _

/-- The name of a derivation is forced before its attributes. -/
theorem steady_strictArgs (attrs : List (Attr Cell)) :
    Steady settings facts (strictArgs settings attrs) := by
  unfold strictArgs
  split
  · exact .evalError _
  · refine ((steady_forceStringNoCtx _).mapError _).bind fun drvName => ?_
    refine Steady.bind ?_ fun ignoreNulls => steady_processAttrs ignoreNulls _ attrs _
    split
    · exact .pure _
    · exact steady_forceBool _

/-- What an instantiation leaves is a set of strings. -/
theorem steady_primDerivationStrict (a v : Cell) :
    Steady settings facts (primDerivationStrict settings a v) := by
  refine (steady_forceAttrs a).bind fun b => (steady_attrsOf b).bind fun attrs => ?_
  refine (steady_strictArgs attrs).bind fun st => (steady_addContexts _ _).bind fun drv => ?_
  refine (Steady.ofOutcome _).bind fun _ => (steady_setOutputs _).bind fun drv => ?_
  refine (steady_ask _).bind fun drvPath => (steady_ask _).bind fun h => (steady_ask _).bind fun _ => ?_
  refine (steady_mkAttrs v []).bind fun b => ?_
  refine (steady_allocAttr b _ (v := mkString _ _) trivial).bind fun _ => ?_
  refine Steady.bind (.each fun i _ => ?_) fun _ => steady_sortAttrs _ b
  exact steady_allocAttr b _ (v := mkString _ _) trivial

/-! ### All primops -/

/-- Every primop keeps the invariant. -/
theorem steady_callPrimOp (v : Cell) (op : PrimOp) (args : List Cell) :
    Steady settings facts (callPrimOp settings v op args) := by
  unfold callPrimOp
  split
  exacts [steady_primImport _ v, steady_typeTest _ _ v, steady_typeTest _ _ v, steady_typeTest _ _ v,
    steady_typeTest _ _ v, steady_typeTest _ _ v, steady_primGenericClosure _ v,
    (steady_coerceArg _).bind fun _ => .evalError _,
    (steady_coerceArg _).bind fun _ => .thrown _ _, steady_primAddErrorContext _ _ v,
    steady_primTryEval _ _ v, steady_primGetEnv _ v,
    Steady.bind (.invoke fun _ => trivial) fun _ => steady_forced _ v, steady_primToPath _ v,
    steady_primStorePath _ v, steady_primPathExists _ v, steady_primBaseNameOf _ v, steady_primDirOf _ v,
    steady_primReadFile _ v, steady_primToXML _ v, steady_primToFile _ _ v, steady_primFilterSource _ _ v,
    steady_primAttrNames _ v,
    steady_primGetAttr _ _ _ v, steady_primHasAttr _ _ _ v, steady_typeTest _ _ v,
    steady_primRemoveAttrs _ _ v, steady_primListToAttrs _ _ v, steady_primIntersectAttrs _ _ _ v,
    steady_primFunctionArgs _ _ v, steady_typeTest _ _ v,
    (steady_forceInt _).bind fun n => steady_elemAt _ n v, steady_elemAt _ 0 v, steady_primTail _ v,
    steady_primMap _ _ v, steady_primFilter _ _ v,
    (steady_forceList _).bind fun elems => (steady_elemLoop _ elems).bind fun _ => steady_write v trivial,
    (steady_forceList _).bind fun lists => steady_concatLists v lists,
    (steady_forceList _).bind fun _ => steady_write v trivial, steady_intOp (fun _ _ => by trivial) _ _ v,
    steady_intOp (fun _ _ => by trivial) _ _ v, steady_intOp (fun _ _ => by trivial) _ _ v,
    steady_primDiv _ _ v, steady_intOp (fun _ _ => by trivial) _ _ v,
    Steady.bind (.invoke fun _ => trivial) fun _ => steady_mkString v _ _, steady_primSubstring _ _ _ v,
    (steady_coerceArg _).bind fun _ => steady_write v trivial,
    (steady_coerceArg _).bind fun _ => steady_mkString v _ _,
    (steady_coerceArg _).bind fun _ => steady_mkString v _ _, steady_primParseDrvName _ _ v,
    (steady_forceStringNoCtx _).bind fun _ => (steady_forceStringNoCtx _).bind fun _ =>
      steady_write v trivial, steady_primDerivationStrict _ v, .undefined id]

end

end Nix.Lang
