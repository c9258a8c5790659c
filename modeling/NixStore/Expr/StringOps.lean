import NixStore.Expr.DerivationInputs
import NixStore.Expr.TextContexts
import NixStore.Store.CheckOutputs

/-!
# The operations that make strings with a context

Model of the other primops of `primops.cc` at which a context begins or changes: `import`, `toFile`,
`filterSource`, `unsafeDiscardStringContext` and `unsafeDiscardOutputDependency`.  `StringOp` puts
them together with those of `NixStore.Expr.TextContexts` and with `derivationStrict`.  A failure of an
assertion, which aborts the process, is kept apart from an exception.
-/

namespace Nix

/-- How an evaluation fails. -/
inductive EvalFailure where
  /-- The assertion `isStorePath(ctx)`. -/
  | assertion
  | thrown (msg : Str)
deriving DecidableEq

/-- A call that can only fail with an exception. -/
def thrown {β : Type} : Outcome Str β → Outcome EvalFailure β
  | .ok b => .ok b
  | .error msg => .error (.thrown msg)
  | .diverge => .diverge

/-- A thrown error does not change what succeeds. -/
theorem thrown_eq_ok {β : Type} {x : Outcome Str β} {b : β} : thrown x = .ok b ↔ x = .ok b := by
  cases x <;> simp [thrown]

/-- A thrown error is no failed assertion. -/
theorem thrown_ne_assertion {β : Type} (x : Outcome Str β) : thrown x ≠ .error .assertion := by
  cases x <;> simp [thrown]

/-! ### Importing -/

/-- What `import` asks of the store, whose state is in `σ`.  The outputs of a derivation in the store
have been checked when its path was registered. -/
structure ImportStore (cfg : StoreConfig) (sha256 : Str → Str) (σ : Type) where
  isValidPath : σ → Path → Bool
  /-- `queryMissing` and `buildPaths`, for one path. -/
  buildPath : σ → Path → Outcome Str σ
  /-- `parseDerivation(readFile(path))` -/
  readDerivation : σ → Path → Outcome Str Derivation
  checked : ∀ s path drv, isValidPath s path = true → readDerivation s path = .ok drv →
    ∃ store, Accepted cfg sha256 store path drv

/-- A store with the derivations of a table, of which those are valid that pass the check of their
outputs. -/
def ImportStore.registered (cfg : StoreConfig) (sha256 : Str → Str) (store : DrvStore) (n : ℕ)
    (drvs : SortedMap Path Derivation) : ImportStore cfg sha256 Unit where
  isValidPath _ path := (drvs.find? path).any fun drv =>
    (checkDerivationOutputs cfg sha256 store n path drv ∅).1.isOk
  buildPath s _ := .ok s
  readDerivation _ path :=
    match drvs.find? path with
    | some drv => .ok drv
    | none => .error (str "opening file `" ++ path ++ str "'")
  checked _ path drv hvalid hread := by
    cases hfind : drvs.find? path with
    | none =>
      rw [hfind] at hvalid
      cases hvalid
    | some drv' =>
      rw [hfind] at hvalid hread
      cases hread
      refine ⟨store, accepted_of_checkDerivationOutputs (cacheOk_empty sha256 store) (n := n) ?_⟩
      change (checkDerivationOutputs cfg sha256 store n path drv ∅).1.isOk = true at hvalid
      rcases hcheck : (checkDerivationOutputs cfg sha256 store n path drv ∅).1 with e | u
      · rw [hcheck] at hvalid
        cases hvalid
      · rfl

/-- What is imported: the set for a derivation in the store, or an expression. -/
inductive Imported where
  | derivation (path : Path) (drv : Derivation)
  | file (path : Path)

/-- The strings in the set for a derivation: its path, its outputs and their names. -/
def importedStrings {α : Type} (path : Path) (drv : Derivation) : List (Value α) :=
  mkString path (.ofList [drvPathContext path]) ::
    (drv.outputs.entries.map fun i => mkString i.2.path (.ofList [outputContext i.1 path])) ++
    drv.outputs.entries.map fun i => mkString i.1 ∅

section

variable {α σ : Type} {cfg : StoreConfig} {sha256 : Str → Str} (imports : ImportStore cfg sha256 σ)

/-- The loop of `prim_import` over the context. -/
def importContext (path : Path) : List Str → σ → Outcome EvalFailure σ
  | [], s => return s
  | i :: context, s =>
    let ctx := (decodeContext i).1
    if isStorePath cfg ctx = false then .error .assertion
    else if imports.isValidPath s ctx = false then
      .error (.thrown (str "cannot import `" ++ path ++ str "', since path `" ++ ctx ++
        str "' is not valid"))
    else if isDerivation ctx then do
      let s ← thrown (imports.buildPath s ctx)
      importContext path context s
    else importContext path context s

/-- Model of `prim_import`, up to the evaluation of what is imported. -/
def primImport (env : EvalEnv α) (fuel : ℕ) (v : α) (st : CoerceState cfg sha256) (s : σ) :
    Outcome EvalFailure Imported := do
  let (path, st) ← thrown (coerceToPath env fuel v st)
  let s ← importContext imports path st.context.toList s
  if isStorePath cfg path && imports.isValidPath s path && isDerivation path then do
    let drv ← thrown (imports.readDerivation s path)
    return .derivation path drv
  else return .file path

end

/-! ### Making files -/

section

variable {α : Type} (env : EvalEnv α) {cfg : StoreConfig} {sha256 : Str → Str} (fuel : ℕ)

/-- One round of the loop of `prim_toFile` over the context. -/
def addFileRef (name : Str) (refs : PathSet) (i : Str) : Outcome Str PathSet :=
  let path := if i.head? = some '='.toUInt8 then i.drop 1 else i
  if isDerivation path then
    .error (str "in `toFile': the file `" ++ name ++ str "' cannot refer to derivation outputs")
  else return refs.insert path

variable (cfg sha256) in
/-- Model of `prim_toFile`; `addTextToStore` returns the path that is computed in read-only mode. -/
def primToFile (name contents : α) : Outcome Str (Value α) := do
  let name ← env.forceStringNoCtx name
  let (contents, context) ← env.forceString contents
  let refs ← context.toList.foldlM (addFileRef name) ∅
  let storePath ← computeStorePathForText cfg sha256 name contents refs
  return mkString storePath (.ofList [storePath])

/-- Model of `prim_filterSource`, given the hash of the dump of a path with a filter. -/
def primFilterSource (hashFiltered : α → Path → Outcome Str Hash) (filter path : α)
    (st : CoerceState cfg sha256) : Outcome Str (Value α) := do
  let (path, st) ← coerceToPath env fuel path st
  if st.context ≠ ∅ then
    .error (str "string `" ++ path ++ str "' cannot refer to other paths")
  else
    match ← env.forceValue filter with
    | .tLambda _ => do
      let h ← hashFiltered filter path
      let name ← baseNameOf path
      let dstPath ← makeFixedOutputPath cfg sha256 true .htSHA256 h name
      return mkString dstPath (.ofList [dstPath])
    | w => .error (str "first argument in call to `filterSource' is not a function but " ++
        showType w)

/-! ### Discarding contexts -/

/-- Model of `prim_unsafeDiscardStringContext`. -/
def primUnsafeDiscardStringContext (v : α) (st : CoerceState cfg sha256) :
    Outcome Str (Value α) := do
  let (s, _) ← coerceToString env false true fuel v st
  return mkString s ∅

/-- An element of a context, when the derivation is not to be built. -/
def discardOutputDependency (p : Str) : Str :=
  if p.head? = some '='.toUInt8 then str "~" ++ p.drop 1 else p

/-- Model of `prim_unsafeDiscardOutputDependency`. -/
def primUnsafeDiscardOutputDependency (v : α) (st : CoerceState cfg sha256) :
    Outcome Str (Value α) := do
  let (s, st) ← coerceToString env false true fuel v st
  return mkString s (.ofList (st.context.toList.map discardOutputDependency))

end

/-! ### All the operations -/

/-- An operation that makes strings with a context, with its arguments. -/
inductive StringOp (α : Type) where
  | text (op : TextOp α)
  | derivationStrict (v : α)
  | importPath (v : α)
  | toFile (name contents : α)
  | filterSource (filter path : α)
  | unsafeDiscardStringContext (v : α)
  | unsafeDiscardOutputDependency (v : α)

/-- What the operations ask of the file system and of the store. -/
structure StringWorld (α σ : Type) (cfg : StoreConfig) (sha256 : Str → Str) where
  view : PathView
  store : EvalStore
  /-- The order in which `derivationStrict` traverses a context. -/
  order : PathSet → List Str
  imports : ImportStore cfg sha256 σ
  hashFiltered : α → Path → Outcome Str Hash

/-- The values that an operation makes out of the values in the cells. -/
def StringOp.run {α σ : Type} (env : EvalEnv α) {cfg : StoreConfig} {sha256 : Str → Str}
    (world : StringWorld α σ cfg sha256) (fuel : ℕ) (tables : EvalTables cfg sha256) (s : σ) :
    StringOp α → Outcome EvalFailure (List (Value α))
  | .text op => do
    let (v, _) ← thrown (op.run env fuel world.view tables.srcToStore)
    return [v]
  | .derivationStrict v => do
    let (i, _) ← thrown (Nix.derivationStrict env world.store world.order fuel v tables)
    return i.attrs.map Prod.snd
  | .importPath v => do
    match ← primImport world.imports env fuel v ⟨∅, tables.srcToStore⟩ s with
    | .derivation path drv => return importedStrings path drv
    | .file _ => return []
  | .toFile name contents => do
    let v ← thrown (primToFile env cfg sha256 name contents)
    return [v]
  | .filterSource filter path => do
    let v ← thrown (primFilterSource env fuel world.hashFiltered filter path ⟨∅, tables.srcToStore⟩)
    return [v]
  | .unsafeDiscardStringContext v => do
    let v ← thrown (primUnsafeDiscardStringContext env fuel v ⟨∅, tables.srcToStore⟩)
    return [v]
  | .unsafeDiscardOutputDependency v => do
    let v ← thrown (primUnsafeDiscardOutputDependency env fuel v ⟨∅, tables.srcToStore⟩)
    return [v]

end Nix
