import NixStore.Expr.PrimOps
import NixStore.Util.Archive

/-!
# Built-in functions that ask the outside

Model of the functions of `primops.cc` that import files, look at the file system and at environment
variables, put files into the store and instantiate derivations, and of `genericClosure` and `toXML`, whose
recursion is one of procedures.  What they decide themselves is modelled here; what the store and the
file system do for them are the questions in `Query`.
-/

namespace Nix.Lang

section

variable (settings : Settings)

/-! ### Importing -/

/-- One round of the loop of `prim_import` over the context. -/
def importContextElem (path : Path) (i : Str) : Eval Unit := do
  let ctx := (decodeContext i).1
  if isStorePath settings.cfg ctx = false then undefined .assertion
  else do
    let valid : Bool ← ask (.isValidPath ctx)
    if valid = false then
      .fail (evalError (str "cannot import `" ++ path ++ str "', since path `" ++ ctx ++
        str "' is not valid"))
    else if isDerivation ctx then ask (.buildPaths ctx)
    else return ()

/-- The set that `prim_import` makes of a derivation in the store; `outputs` is searched for in it before
it is sorted. -/
def mkImportedDrv (path : Path) (drv : Derivation) : Eval Cell := do
  let w ← allocValue
  let b ← mkAttrs w []
  allocAttr b (str "drvPath") (mkString path (.ofList [drvPathContext path]))
  allocAttr b (str "outputs") (.tList [])
  match find settings.symbols (← attrsOf b) (str "outputs") with
  | none => undefined .noAttr
  | some outputs => do
    let elems ← .collect (fun (i : Str × DerivationOutput) => do
      allocAttr b i.1 (mkString i.2.path (.ofList [outputContext i.1 path]))
      let e ← allocValue
      write e (mkString i.1 ∅)
      return e) drv.outputs.entries
    write outputs.value (.tList elems)
    sortAttrs settings.symbols b
    return w

/-- Whether `prim_import` takes a path for a derivation in the store. -/
def isStoredDerivation (path : Path) : Eval Bool :=
  andAlso (return isStorePath settings.cfg path)
    (andAlso (ask (.isValidPath path)) (return isDerivation path))

/-- Model of `prim_import`. -/
def primImport (a v : Cell) : Eval Unit := do
  let (path, context) ← coerceToPath a
  .each (importContextElem settings path) context.toList
  if ← isStoredDerivation settings path then do
    let contents ← ask (.readFile path)
    let uninit ← ask .uninit
    let drv ← ofOutcome (parseDerivation uninit contents)
    let w ← mkImportedDrv settings path drv
    let file ← ask (.findFile (str "nix/imported-drv-to-derivation.nix"))
    let (e, env) ← parseExprFromFile settings.staticBaseEnv baseEnv file
    let fn ← mkThunk env e
    forceFunction fn
    write v (.tApp fn w)
    discard (forceAttrs v)
  else invoke (.evalFile path v)

/-! ### The generic closure -/

/-- Model of `CompareValues`; every type has a name of its own. -/
def compareValues (v1 v2 : Value) : Eval Bool :=
  if v1.showType ≠ v2.showType then
    .fail (evalError (str "cannot compare values of different types"))
  else
    match v1, v2 with
    | .tInt m, .tInt n => return decide (m < n)
    | .tString s _, .tString t _ => return decide (s < t)
    | .tPath p, .tPath q => return decide (p < q)
    | _, _ => .fail (evalError (str "cannot compare " ++ v1.showType ++ str " with " ++ v2.showType))

/-- `find` of the set `doneKeys`, whose elements are listed in ascending order.  Which of them a key is
compared with makes no difference to an error, since they all have one type. -/
def findKey (key : Value) : List Value → Eval Bool
  | [] => return false
  | d :: doneKeys => do
    if ← compareValues d key then findKey key doneKeys
    else do
      let less ← compareValues key d
      return !less

/-- `insert` of the set `doneKeys`. -/
def insertKey (key : Value) : List Value → Eval (List Value)
  | [] => return [key]
  | d :: doneKeys => do
    if ← compareValues key d then return key :: d :: doneKeys
    else if ← compareValues d key then do
      let doneKeys ← insertKey key doneKeys
      return d :: doneKeys
    else return d :: doneKeys

/-- The loop of `prim_genericClosure`; an element that goes into the result is a set. -/
def closureLoop (op : Cell) : List Cell → List Value → List ℕ → Eval (List ℕ)
  | [], _, res => return res
  | e :: workSet, doneKeys, res => do
    let b ← forceAttrs e
    match find settings.symbols (← attrsOf b) (str "key") with
    | none => .fail (evalError (str "attribute `key' required"))
    | some i => do
      let key ← force i.value
      if ← findKey key doneKeys then invoke (.closureLoop op workSet doneKeys res)
      else do
        let doneKeys ← insertKey key doneKeys
        let call ← allocValue
        write call (.tApp op e)
        let elems ← forceList call
        .each (fun e => invoke (.forceValue e)) elems
        invoke (.closureLoop op (workSet ++ elems) doneKeys (res ++ [b]))

/-- Model of `prim_genericClosure`. -/
def primGenericClosure (a v : Cell) : Eval Unit := do
  let b ← forceAttrs a
  match find settings.symbols (← attrsOf b) (str "startSet") with
  | none => .fail (evalError (str "attribute `startSet' required"))
  | some startSet => do
    let workSet ← forceList startSet.value
    match find settings.symbols (← attrsOf b) (str "operator") with
    | none => .fail (evalError (str "attribute `operator' required"))
    | some op => do
      invoke (.forceValue op.value)
      let res : List ℕ ← invoke (.closureLoop op.value workSet [] [])
      let elems ← allocValues (res.map .tAttrs)
      write v (.tList elems)

/-! ### Environment variables and files -/

/-- Model of `prim_getEnv`. -/
def primGetEnv (a v : Cell) : Eval Unit := do
  let name ← forceStringNoCtx a
  let value ← ask (.getEnv name)
  write v (mkString value ∅)

/-- Model of `prim_storePath`. -/
def primStorePath (a v : Cell) : Eval Unit := do
  let (path, context) ← coerceToPath a
  let path : Path ← (if isStorePath settings.cfg path then pure path else ask (.canonPath path))
  if isInStore settings.cfg path = false then
    .fail (evalError (str "path `" ++ path ++ str "' is not in the Nix store"))
  else do
    let path2 ← ofOutcome (toStorePath settings.cfg path)
    let valid : Bool ← ask (.isValidPath path2)
    if valid then write v (mkString path (context.insert path2))
    else .fail (evalError (str "store path `" ++ path2 ++ str "' is not valid"))

/-- A path that is not allowed to have a context. -/
def coerceToPathNoCtx (a : Cell) : Eval Path := do
  let (path, context) ← coerceToPath a
  if context = ∅ then return path
  else .fail (evalError (str "string `" ++ path ++ str "' cannot refer to other paths"))

/-- Model of `prim_pathExists`. -/
def primPathExists (a v : Cell) : Eval Unit := do
  let path ← coerceToPathNoCtx a
  let found ← ask (.pathExists path)
  write v (.tBool found)

/-- Model of `prim_readFile`. -/
def primReadFile (a v : Cell) : Eval Unit := do
  let path ← coerceToPathNoCtx a
  let contents ← ask (.readFile path)
  write v (mkString contents ∅)

/-! ### Values as XML -/

/-- Model of `XMLOpenElement`, around what is written in its scope. -/
def xmlElement (name : Str) (attrs : XMLAttrs) (body : XMLState → Eval XMLState) (st : XMLState) :
    Eval XMLState := do
  let st ← body { st with doc := st.doc.openElement name attrs }
  return { st with doc := st.doc.closeElement }

/-- The value of an attribute, if it is a string, with its context. -/
def stringAttr (b : ℕ) (name : Str) : Eval (Option (Str × PathSet)) := do
  match find settings.symbols (← attrsOf b) name with
  | none => return none
  | some a => do
    let w ← force a.value
    return w.string?

/-- The loop of `showAttrs` over the names. -/
def showAttrsLoop (b : ℕ) : List Str → XMLState → Eval XMLState
  | [], st => return st
  | name :: names, st => do
    match find settings.symbols (← attrsOf b) name with
    | none => undefined .noAttr
    | some a => do
      let st ← xmlElement (str "attr") (singletonAttrs (str "name") name)
        (fun st => invoke (.printValueAsXML a.value st)) st
      showAttrsLoop b names st

/-- Model of `showAttrs`. -/
def showAttrs (b : ℕ) (st : XMLState) : Eval XMLState := do
  let attrs ← attrsOf b
  let names : SortedSet Str := .ofList (attrs.map Attr.name)
  showAttrsLoop settings b names.toList st

/-- The branch of `printValueAsXML` for derivations. -/
def showDerivation (b : ℕ) (st : XMLState) : Eval XMLState := do
  let drv ← stringAttr settings b (str "drvPath")
  let out ← stringAttr settings b (str "outPath")
  let drvPath := (drv.map Prod.fst).getD []
  xmlElement (str "derivation") (setAttr (setAttr ∅ (str "drvPath") drv) (str "outPath") out)
    (fun st =>
      if drvPath ≠ [] ∧ drvPath ∉ st.drvsSeen then
        showAttrs settings b { st with drvsSeen := st.drvsSeen.insert drvPath }
      else return st.writeEmptyElement (str "repeated") ∅) st

/-- The loop of `printValueAsXML` over a list. -/
def showElems : List Cell → XMLState → Eval XMLState
  | [], st => return st
  | e :: elems, st => do
    let st ← invoke (.printValueAsXML e st)
    showElems elems st

/-- What `showLambda` looks at. -/
def Lambda.shown (fn : Lambda) : ExprLambda :=
  ⟨fn.pos, fn.matchAttrs, fn.arg, fn.ellipsis, fn.formals.map Formal.name⟩

/-- Model of `printValueAsXML` as `prim_toXML` calls it: strict and without locations. -/
def printValueAsXML (v : Cell) (st : XMLState) : Eval XMLState := do
  match ← force v with
  | .tInt n => return st.writeEmptyElement (str "int") (singletonAttrs (str "value") (int2String n))
  | .tBool b =>
    return st.writeEmptyElement (str "bool")
      (singletonAttrs (str "value") (if b then str "true" else str "false"))
  | .tString s context =>
    let st := { st with context := copyContext context st.context }
    return st.writeEmptyElement (str "string") (singletonAttrs (str "value") s)
  | .tPath path => return st.writeEmptyElement (str "path") (singletonAttrs (str "value") path)
  | .tNull => return st.writeEmptyElement (str "null") ∅
  | .tAttrs b => do
    if ← isDerivationSet settings.symbols b then showDerivation settings b st
    else xmlElement (str "attrs") ∅ (showAttrs settings b) st
  | .tList elems => xmlElement (str "list") ∅ (showElems elems) st
  | .tLambda _ fn => ofOutcome (showLambda false fn.shown st)
  | _ => return st.writeEmptyElement (str "unevaluated") ∅

/-- Model of `prim_toXML`. -/
def primToXML (a v : Cell) : Eval Unit := do
  let st ← xmlElement (str "expr") ∅ (fun st => invoke (.printValueAsXML a st)) ⟨.new true, ∅, ∅⟩
  write v (mkString st.doc.output st.context)

/-! ### Creating files -/

/-- Model of `prim_toFile`. -/
def primToFile (a0 a1 v : Cell) : Eval Unit := do
  let name ← forceStringNoCtx a0
  let (contents, context) ← forceString a1
  let refs ← ofOutcome (context.toList.foldlM (addFileRef name) ∅)
  let storePath ← ask (.addTextToStore name contents refs)
  write v (mkString storePath (.ofList [storePath]))

/-- The string for the type of a file. -/
def FileType.name : FileType → Str
  | .regular _ _ => str "regular"
  | .directory => str "directory"
  | .symlink => str "symlink"
  | .unknown => str "unknown"

/-- Model of `operator ()` of `FilterFromExpr`. -/
def callFilter (filter : Cell) (path : Path) : Eval Bool := do
  let type ← ask (.lstat path)
  let arg1 ← allocValue
  write arg1 (mkString path ∅)
  let fun2 ← allocValue
  invoke (.callFunction filter arg1 fun2)
  let arg2 ← allocValue
  write arg2 (mkString type.name ∅)
  let res ← allocValue
  invoke (.callFunction fun2 arg2 res)
  forceBool res

/-- The loop of `dumpEntries`. -/
def dumpEntries (filter : Cell) (path : Path) : List Str → Eval Str
  | [] => return []
  | name :: names => do
    if ← callFilter filter (path ++ str "/" ++ name) then do
      let file ← invoke (.dump filter (path ++ str "/" ++ name))
      let rest ← dumpEntries filter path names
      return dumpEntry (name, file) ++ rest
    else dumpEntries filter path names

/-- Model of `dump` with a `FilterFromExpr`. -/
def dump (filter : Cell) (path : Path) : Eval Str := do
  match ← ask (.lstat path) with
  | .regular executable size => do
    let contents ← ask (.readContents path size)
    return Nix.dump defaultPathFilter path (.regular executable contents)
  | .directory => do
    let names ← ask (.readDirectory path)
    let entries ← dumpEntries filter path (names.insertionSort (· ≤ ·))
    return writeString (str "(") ++ writeString (str "type") ++ writeString (str "directory") ++ entries ++
      writeString (str ")")
  | .symlink => do
    let target ← ask (.readLink path)
    return Nix.dump defaultPathFilter path (.symlink target)
  | .unknown => .fail (evalError (str "file `" ++ path ++ str "' has an unknown type"))

/-- Model of `prim_filterSource`; `addToStore` makes the path canonical, and `computeStorePathForPath`
does not. -/
def primFilterSource (a0 a1 v : Cell) : Eval Unit := do
  let path ← coerceToPathNoCtx a1
  match ← force a0 with
  | .tLambda _ _ => do
    let srcPath ← (if settings.readOnlyMode then pure path else ofOutcome (canonPath path))
    let file : Str ← invoke (.dump a0 srcPath)
    let name ← ofOutcome (baseNameOf srcPath)
    let dstPath ← ask (.addToStoreFromDump name (writeString archiveVersion1 ++ file))
    write v (mkString dstPath (.ofList [dstPath]))
  | w => .fail (evalError (str "first argument in call to `filterSource' is not a function but " ++
      w.showType))

/-! ### Instantiation -/

/-- The local variables of `prim_derivationStrict`; the table of the sources that have been copied is in the
memory of the evaluator, so the one in `coerced` stays empty. -/
abbrev Strict := StrictState settings.cfg settings.sha256

variable {settings}

/-- A coercion in `prim_derivationStrict`, which adds to the context. -/
def coerceStrict (v : Cell) (st : Strict settings) : Eval (Str × Strict settings) := do
  let (s, context) ← invoke (.coerceToString v st.coerced.context true true)
  return (s, { st with coerced := { st.coerced with context } })

/-- The loop over `args`. -/
def addArgs : List Cell → Strict settings → Eval (Strict settings)
  | [], st => return st
  | v :: elems, st => do
    let (s, st) ← coerceStrict v st
    addArgs elems { st with drv := { st.drv with args := st.drv.args ++ [s] } }

/-- The attribute is to be ignored because it is null. -/
def isIgnored (ignoreNulls : Bool) (v : Cell) : Eval Bool :=
  andAlso (return ignoreNulls) do
    match ← force v with
    | .tNull => return true
    | _ => return false

/-- The body of the loop over the attributes, without its handler. -/
def convertAttr (ignoreNulls : Bool) (i : Attr Cell) (st : Strict settings) :
    Eval (Strict settings) := do
  if ← isIgnored ignoreNulls i.value then return st
  else if i.name = str "args" then do
    let elems ← forceList i.value
    addArgs elems st
  else do
    let (s, st) ← coerceStrict i.value st
    ofOutcome (setField i.name s st)

/-- The loop over the attributes. -/
def processAttrs (ignoreNulls : Bool) (posDrvName : Pos) :
    List (Attr Cell) → Strict settings → Eval (Strict settings)
  | [], st => return st
  | i :: attrs, st => do
    if i.name = str "__ignoreNulls" then processAttrs ignoreNulls posDrvName attrs st
    else do
      let st ← (convertAttr ignoreNulls i st).mapError (addErrorPrefix
        (str "while instantiating the derivation named `" ++ st.drvName ++ str "' at " ++
          posDrvName.print ++ str ":\n" ++ str "while evaluating the derivation attribute `" ++
          i.name ++ str "' at " ++ i.pos.print ++ str ":\n"))
      processAttrs ignoreNulls posDrvName attrs st

/-- An input derivation all of whose outputs are wanted. -/
def addAllOutputs (drv : Derivation) (path : Path) : Eval Derivation := do
  let names ← ask (.queryDerivationOutputNames path)
  return setInputDrv drv path names

/-- The loop over the closure of a derivation that is passed explicitly. -/
def addRefs : List Path → Derivation → Eval Derivation
  | [], drv => return drv
  | j :: refs, drv => do
    let drv ← (if isDerivation j then addAllOutputs (addInputSrc drv j) j else pure (addInputSrc drv j))
    addRefs refs drv

/-- One round of the loop over the context. -/
def addContext (drv : Derivation) : Str → Eval Derivation
  | [] => .fail (evalError (str "basic_string::at"))
  | c :: path =>
    if c = '='.toUInt8 then do
      let refs : PathSet ← ask (.computeFSClosure path)
      addRefs refs.toList drv
    else if c = '~'.toUInt8 then return addInputSrc drv path
    else if c = '!'.toUInt8 then
      return addInputDrv drv (decodeContext (c :: path)).1 (decodeContext (c :: path)).2
    else if isDerivation (c :: path) then addAllOutputs drv (c :: path)
    else return addInputSrc drv (c :: path)

/-- The loop over the context. -/
def addContexts : List Str → Derivation → Eval Derivation
  | [], drv => return drv
  | i :: context, drv => do
    let drv ← addContext drv i
    addContexts context drv

variable (settings)

/-- The outputs of the derivation. -/
def setOutputs (st : Strict settings) : Eval Derivation :=
  if st.outputHash ≠ [] then ofOutcome (fixOutput settings.cfg settings.sha256 st)
  else do
    let masked := addMaskedOutputs st.outputs st.drv
    let h ← ask (.hashDerivationModulo masked)
    ofOutcome (fillOutputs settings.cfg settings.sha256 h st.drvName masked)

/-- The name and the attributes of the argument have been processed. -/
def strictArgs (attrs : List (Attr Cell)) : Eval (Strict settings) := do
  match find settings.symbols attrs (str "name") with
  | none => .fail (evalError (str "required attribute `name' missing"))
  | some attr => do
    let drvName ← (forceStringNoCtx attr.value).mapError (addErrorPrefix
      (str "while evaluating the derivation attribute `name' at " ++ attr.pos.print ++ str ":\n"))
    let ignoreNulls ← (match find settings.symbols attrs (str "__ignoreNulls") with
      | none => pure false
      | some a => forceBool a.value)
    processAttrs ignoreNulls attr.pos attrs
      { drv := ⟨∅, ∅, ∅, [], [], [], ∅⟩
        drvName
        outputHash := []
        outputHashAlgo := []
        outputHashRecursive := false
        outputs := .ofList [str "out"]
        coerced := ⟨∅, .empty⟩ }

/-- Model of `prim_derivationStrict`. -/
def primDerivationStrict (a v : Cell) : Eval Unit := do
  let st ← strictArgs settings (← attrsOf (← forceAttrs a))
  let drv ← addContexts st.coerced.context.toList st.drv
  let st := { st with drv }
  ofOutcome (checkFields settings.cfg settings.sha256 st)
  let drv ← setOutputs settings st
  -- what `writeDerivation` does
  let drvPath ← ask (.addTextToStore (st.drvName ++ drvExtension) (unparseDerivation drv)
    (derivationReferences drv))
  let h ← ask (.hashDerivationModulo drv)
  ask (.setDrvHash drvPath h)
  let b ← mkAttrs v []
  allocAttr b (str "drvPath") (mkString drvPath (.ofList [drvPathContext drvPath]))
  .each (fun (i : Str × DerivationOutput) =>
    allocAttr b i.1 (mkString i.2.path (.ofList [outputContext i.1 drvPath]))) drv.outputs.entries
  sortAttrs settings.symbols b

end

end Nix.Lang
