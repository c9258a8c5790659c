import NixStore.Expr.Coerce
import NixStore.Derivations.HashModulo
import NixStore.Store.Closure

/-!
# Instantiation

Model of `prim_derivationStrict` of `primops.cc`: the attributes become the environment, the
arguments and the fields of a derivation, the contexts that were collected on the way become its
inputs, its output paths are computed and it is written to the store.  The order in which the context
is traversed is an argument, since it depends on the representation of a set only.
-/

namespace Nix

/-- What an instantiation asks of the store. -/
structure EvalStore where
  closure : ClosureStore
  queryDerivationOutputNames : Path → Outcome Str (SortedSet Str)
  drvs : DrvStore

/-- A call whose exceptions get a prefix (`addPrefix`). -/
def addPrefix {α : Type} (f : Str) : Outcome Str α → Outcome Str α
  | .ok a => .ok a
  | .error e => .error (f ++ e)
  | .diverge => .diverge

/-- A prefix before the errors does not change what succeeds. -/
theorem addPrefix_eq_ok {α : Type} {f : Str} {x : Outcome Str α} {a : α} :
    addPrefix f x = .ok a ↔ x = .ok a := by
  cases x <;> simp [addPrefix]

/-- The default separators of `tokenizeString`. -/
def whitespace : Str := str " \t\n\r"

/-! ### The attributes -/

/-- The local variables of `prim_derivationStrict`. -/
structure StrictState (cfg : StoreConfig) (sha256 : Str → Str) where
  drv : Derivation
  drvName : Str
  outputHash : Str
  outputHashAlgo : Str
  outputHashRecursive : Bool
  outputs : SortedSet Str
  coerced : CoerceState cfg sha256

section

variable {cfg : StoreConfig} {sha256 : Str → Str}

/-- The loop over the value of `outputs`. -/
def parseOutputs (names : List Str) : Outcome Str (SortedSet Str) := do
  let outputs ← names.foldlM (fun outputs j =>
    if j ∈ outputs then .error (str "duplicate derivation output `" ++ j ++ str "'")
    else if j = str "drv" then .error (str "invalid derivation output name `drv'")
    else .ok (SortedSet.insert outputs j)) (∅ : SortedSet Str)
  if outputs.toList = [] then .error (str "derivation cannot have an empty set of outputs")
  else return outputs

/-- What an attribute with the text `s` sets. -/
def setField (key s : Str) (st : StrictState cfg sha256) : Outcome Str (StrictState cfg sha256) :=
  let st := { st with drv := { st.drv with env := st.drv.env.insert key s } }
  if key = str "builder" then .ok { st with drv := { st.drv with builder := s } }
  else if key = str "system" then .ok { st with drv := { st.drv with platform := s } }
  else if key = str "name" then .ok { st with drvName := s }
  else if key = str "outputHash" then .ok { st with outputHash := s }
  else if key = str "outputHashAlgo" then .ok { st with outputHashAlgo := s }
  else if key = str "outputHashMode" then
    if s = str "recursive" then .ok { st with outputHashRecursive := true }
    else if s = str "flat" then .ok { st with outputHashRecursive := false }
    else .error (str "invalid value `" ++ s ++ str "' for `outputHashMode' attribute")
  else if key = str "outputs" then do
    let outputs ← parseOutputs (tokenizeString s whitespace)
    return { st with outputs }
  else .ok st

end

section

variable {α : Type} (env : EvalEnv α) {cfg : StoreConfig} {sha256 : Str → Str} (fuel : ℕ)

/-- One round of the loop over `args`. -/
def addArg (st : StrictState cfg sha256) (v : α) : Outcome Str (StrictState cfg sha256) := do
  let (s, coerced) ← coerceToString env true true fuel v st.coerced
  return { st with drv := { st.drv with args := st.drv.args ++ [s] }, coerced }

/-- The attribute is to be ignored because it is null. -/
def isIgnored (ignoreNulls : Bool) (v : α) : Outcome Str Bool :=
  if ignoreNulls then do
    match ← env.forceValue v with
    | .tNull => return true
    | _ => return false
  else return false

/-- The body of the loop over the attributes, without its handler. -/
def convertAttr (ignoreNulls : Bool) (st : StrictState cfg sha256) (i : Attr α) :
    Outcome Str (StrictState cfg sha256) := do
  if ← isIgnored env ignoreNulls i.value then return st
  else if i.name = str "args" then
    let elems ← env.forceList i.value
    elems.foldlM (addArg env fuel) st
  else
    let (s, coerced) ← coerceToString env true true fuel i.value st.coerced
    setField i.name s { st with coerced }

/-- One round of the loop over the attributes. -/
def processAttr (ignoreNulls : Bool) (posDrvName : Pos) (st : StrictState cfg sha256) (i : Attr α) :
    Outcome Str (StrictState cfg sha256) :=
  if i.name = str "__ignoreNulls" then .ok st
  else
    addPrefix (str "while instantiating the derivation named `" ++ st.drvName ++ str "' at " ++
        posDrvName.print ++ str ":\n" ++ str "while evaluating the derivation attribute `" ++
        i.name ++ str "' at " ++ i.pos.print ++ str ":\n")
      (convertAttr env fuel ignoreNulls st i)

end

/-! ### The context -/

/-- Model of `decodeContext`, for a string that is not empty: the path and the name. -/
def decodeContext (s : Str) : Path × Str :=
  if s.head? = some '!'.toUInt8 then
    let rest := s.drop 1
    if '!'.toUInt8 ∈ rest then
      ((rest.dropWhile (· ≠ '!'.toUInt8)).drop 1, rest.takeWhile (· ≠ '!'.toUInt8))
    else (s, rest)
  else (s, [])

/-- The assignment to the outputs that are wanted of an input. -/
def setInputDrv (drv : Derivation) (path : Path) (outputs : SortedSet Str) : Derivation :=
  { drv with inputDrvs := drv.inputDrvs.insert path outputs }

/-- The insertion of an output that is wanted of an input. -/
def addInputDrv (drv : Derivation) (path : Path) (output : Str) : Derivation :=
  setInputDrv drv path (SortedSet.insert ((drv.inputDrvs.find? path).getD ∅) output)

/-- The insertion of an input source. -/
def addInputSrc (drv : Derivation) (path : Path) : Derivation :=
  { drv with inputSrcs := drv.inputSrcs.insert path }

section

variable (store : EvalStore) (fuel : ℕ)

/-- One round of the loop over the closure of a derivation that is passed explicitly. -/
def addRef (drv : Derivation) (j : Path) : Outcome Str Derivation :=
  let drv := addInputSrc drv j
  if isDerivation j then do
    let names ← store.queryDerivationOutputNames j
    return setInputDrv drv j names
  else .ok drv

/-- One round of the loop over the context. -/
def addContext (drv : Derivation) : Str → Outcome Str Derivation
  | [] => .error (str "basic_string::at")
  | c :: path =>
    if c = '='.toUInt8 then do
      let refs ← computeFSClosure store.closure false false fuel path ∅
      refs.toList.foldlM (addRef store) drv
    else if c = '~'.toUInt8 then .ok (addInputSrc drv path)
    else if c = '!'.toUInt8 then
      let ctx := decodeContext (c :: path)
      .ok (addInputDrv drv ctx.1 ctx.2)
    else if isDerivation (c :: path) then do
      let names ← store.queryDerivationOutputNames (c :: path)
      return setInputDrv drv (c :: path) names
    else .ok (addInputSrc drv (c :: path))

end

/-! ### The outputs -/

section

variable (cfg : StoreConfig) (sha256 : Str → Str)

/-- The paths that the file of a derivation refers to. -/
def derivationReferences (drv : Derivation) : PathSet :=
  drv.inputDrvs.keys.foldl SortedSet.insert drv.inputSrcs

/-- Model of `writeDerivation`: the path, in read-only mode and otherwise. -/
def writeDerivation (drv : Derivation) (name : Str) : Outcome Str Path :=
  computeStorePathForText cfg sha256 (name ++ drvExtension) (unparseDerivation drv)
    (derivationReferences drv)

/-- `hashDerivationModulo` with a cache, as a call that returns or throws. -/
def runHashModulo (store : DrvStore) (fuel : ℕ) (drv : Derivation) (drvHashes : DrvHashes) :
    Outcome Str (Hash × DrvHashes) :=
  match hashDerivationModulo sha256 store fuel drv drvHashes with
  | (.ok h, drvHashes) => .ok (h, drvHashes)
  | (.error (.error msg), _) => .error msg
  | (.error .outOfFuel, _) => .diverge

/-- The output and the environment variable of a fixed-output derivation. -/
def fixOutput (st : StrictState cfg sha256) : Outcome Str Derivation :=
  if st.outputs.toList ≠ [str "out"] then
    .error (str "multiple outputs are not supported in fixed-output derivations")
  else
    let ht := parseHashType st.outputHashAlgo
    if ht = .htUnknown then .error (str "unknown hash algorithm `" ++ st.outputHashAlgo ++ str "'")
    else do
      let h ← parseHash16or32 ht st.outputHash
      let algo := (if st.outputHashRecursive then str "r:" else []) ++ st.outputHashAlgo
      let outPath ← makeFixedOutputPath cfg sha256 st.outputHashRecursive ht h st.drvName
      return { st.drv with
        env := st.drv.env.insert (str "out") outPath
        outputs := st.drv.outputs.insert (str "out") ⟨outPath, algo, printHash h⟩ }

/-- The masked derivation: its output paths and the variables for them are empty. -/
def addMaskedOutputs (outputs : SortedSet Str) (drv : Derivation) : Derivation :=
  outputs.toList.foldl (fun drv i => { drv with
    env := drv.env.insert i []
    outputs := drv.outputs.insert i ⟨[], [], []⟩ }) drv

/-- The loop that fills in the output paths. -/
def fillOutputs (h : Hash) (drvName : Str) (drv : Derivation) : Outcome Str Derivation :=
  drv.outputs.entries.foldlM (fun drv i =>
    if i.2.path = [] then do
      let outPath ← makeOutputPath cfg sha256 i.1 h drvName
      return { drv with
        env := drv.env.insert i.1 outPath
        outputs := drv.outputs.insert i.1 { i.2 with path := outPath } }
    else return drv) drv

/-- The outputs of the derivation. -/
def setOutputs (store : DrvStore) (fuel : ℕ) (st : StrictState cfg sha256) (drvHashes : DrvHashes) :
    Outcome Str (Derivation × DrvHashes) := do
  if st.outputHash ≠ [] then
    let drv ← fixOutput cfg sha256 st
    return (drv, drvHashes)
  else
    let masked := addMaskedOutputs st.outputs st.drv
    let (h, drvHashes) ← runHashModulo sha256 store fuel masked drvHashes
    let drv ← fillOutputs cfg sha256 h st.drvName masked
    return (drv, drvHashes)

/-- The checks between the attributes and the outputs. -/
def checkFields (st : StrictState cfg sha256) : Outcome Str Unit := do
  if st.drv.builder = [] then .error (str "required attribute `builder' missing")
  else if st.drv.platform = [] then .error (str "required attribute `system' missing")
  else
    checkStoreName st.drvName
    if isDerivation st.drvName then
      .error (str "derivation names are not allowed to end in `" ++ drvExtension ++ str "'")
    else return ()

end

/-! ### The primop -/

/-- The tables of an evaluation that outlive a call. -/
structure EvalTables (cfg : StoreConfig) (sha256 : Str → Str) where
  srcToStore : SrcToStore cfg sha256
  drvHashes : DrvHashes

/-- What an instantiation makes: the derivation and where it was written. -/
structure Instantiated where
  drvPath : Path
  drv : Derivation

/-- The context of the path of a derivation. -/
def drvPathContext (drvPath : Path) : Str := str "=" ++ drvPath

/-- The context of the path of an output. -/
def outputContext (output : Str) (drvPath : Path) : Str := str "!" ++ output ++ str "!" ++ drvPath

/-- The attributes that the primop returns, before they are sorted. -/
def Instantiated.attrs (i : Instantiated) {α : Type} : List (Str × Value α) :=
  (str "drvPath", mkString i.drvPath (.ofList [drvPathContext i.drvPath])) ::
    i.drv.outputs.entries.map fun o =>
      (o.1, mkString o.2.path (.ofList [outputContext o.1 i.drvPath]))

section

variable {α : Type} (env : EvalEnv α) (store : EvalStore) {cfg : StoreConfig} {sha256 : Str → Str}
  (order : PathSet → List Str) (fuel : ℕ)

/-- The attributes of a call have been processed. -/
def processAttrs (attrs : List (Attr α)) (srcToStore : SrcToStore cfg sha256) :
    Outcome Str (StrictState cfg sha256) := do
  match findAttr attrs (str "name") with
  | none => .error (str "required attribute `name' missing")
  | some attr =>
    let drvName ← addPrefix (str "while evaluating the derivation attribute `name' at " ++
      attr.pos.print ++ str ":\n") (env.forceStringNoCtx attr.value)
    let ignoreNulls ←
      match findAttr attrs (str "__ignoreNulls") with
      | none => pure false
      | some a => env.forceBool a.value
    attrs.foldlM (processAttr env fuel ignoreNulls attr.pos)
      { drv := ⟨∅, ∅, ∅, [], [], [], ∅⟩
        drvName
        outputHash := []
        outputHashAlgo := []
        outputHashRecursive := false
        outputs := .ofList [str "out"]
        coerced := ⟨∅, srcToStore⟩ }

/-- Model of `prim_derivationStrict`. -/
def derivationStrict (v : α) (tables : EvalTables cfg sha256) :
    Outcome Str (Instantiated × EvalTables cfg sha256) := do
  let attrs ← env.forceAttrs v
  let st ← processAttrs env fuel attrs tables.srcToStore
  let drv ← (order st.coerced.context).foldlM (addContext store fuel) st.drv
  let st := { st with drv }
  checkFields cfg sha256 st
  let (drv, drvHashes) ← setOutputs cfg sha256 store.drvs fuel st tables.drvHashes
  let drvPath ← writeDerivation cfg sha256 drv st.drvName
  let (h, drvHashes) ← runHashModulo sha256 store.drvs fuel drv drvHashes
  return (⟨drvPath, drv⟩, ⟨st.coerced.srcToStore, drvHashes.insert drvPath h⟩)

end

end Nix
