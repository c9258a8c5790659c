import NixStore.Expr.ValueToXml
import NixStore.Util.CanonPath

/-!
# Contexts of strings that are built out of strings

Model of the operations of `eval.cc` and `primops.cc` whose result contains the text of other strings:
concatenation and interpolation, `toString`, `substring`, `baseNameOf`, `dirOf`, `toPath`, `storePath`
and `toXML`.
-/

namespace Nix

/-- Model of `mkPath`: the text becomes a C string. -/
def mkPath {α : Type} (s : Str) : Value α := .tPath s.cut

/-- The context of a value; only strings have one. -/
def Value.context {α : Type} : Value α → PathSet
  | .tString _ context => context
  | _ => ∅

/-- What `storePath` asks of the file system and of the store. -/
structure PathView where
  /-- What `isLink` and `readLink` find at a path. -/
  links : Path → Outcome Str (Option Str)
  isValidPath : Path → Bool

/-- An operation that builds a string out of the text of other strings, with its arguments. -/
inductive TextOp (α : Type) where
  | concatStrings (es : List α)
  | toString (v : α)
  | substring (start len v : α)
  | baseNameOf (v : α)
  | dirOf (v : α)
  | toPath (v : α)
  | storePath (v : α)
  | toXML (v : α)

/-! ### The operations -/

section

variable {α : Type} (env : EvalEnv α) {cfg : StoreConfig} {sha256 : Str → Str} (fuel : ℕ)

/-- The loop of `ExprConcatStrings::eval`. -/
def concatElems (isPath : Bool) :
    List α → CoerceState cfg sha256 → Outcome Str (Str × CoerceState cfg sha256)
  | [], st => return ([], st)
  | e :: es, st => do
    let (s, st) ← coerceToString env false (!isPath) fuel e st
    let (result, st) ← concatElems isPath es st
    return (s ++ result, st)

/-- The result is a path if the first element is one. -/
def startsWithPath : List α → Outcome Str Bool
  | [] => return false
  | e :: _ => do
    match ← env.forceValue e with
    | .tPath _ => return true
    | _ => return false

/-- Model of `ExprConcatStrings::eval`, where an expression is given by the cell of its value. -/
def concatStrings (es : List α) (st : CoerceState cfg sha256) :
    Outcome Str (Value α × CoerceState cfg sha256) := do
  let isPath ← startsWithPath env es
  let (s, st) ← concatElems env fuel isPath es st
  if isPath then
    if st.context = ∅ then return (mkPath s, st)
    else .error (str "a string that refers to a store path cannot be appended to a path, in `" ++ s ++
      str "'")
  else return (mkString s st.context, st)

/-- Model of `prim_toString`. -/
def primToString (v : α) (st : CoerceState cfg sha256) :
    Outcome Str (Value α × CoerceState cfg sha256) := do
  let (s, st) ← coerceToString env true false fuel v st
  return (mkString s st.context, st)

/-- Model of `prim_substring`. -/
def primSubstring (start len v : α) (st : CoerceState cfg sha256) :
    Outcome Str (Value α × CoerceState cfg sha256) := do
  let start ← env.forceInt start
  let len ← env.forceInt len
  let (s, st) ← coerceToString env false true fuel v st
  if start < 0 then .error (str "negative start position in `substring'")
  else
    -- a negative length is a great one when it is converted
    let rest := s.drop start.toNat
    return (mkString (if s.length ≤ start.toNat then [] else if len < 0 then rest
      else rest.take len.toNat) st.context, st)

/-- Model of `prim_baseNameOf`. -/
def primBaseNameOf (v : α) (st : CoerceState cfg sha256) :
    Outcome Str (Value α × CoerceState cfg sha256) := do
  let (s, st) ← coerceToString env false true fuel v st
  let name ← baseNameOf s
  return (mkString name st.context, st)

/-- Model of `prim_dirOf`. -/
def primDirOf (v : α) (st : CoerceState cfg sha256) :
    Outcome Str (Value α × CoerceState cfg sha256) := do
  let (path, st) ← coerceToPath env fuel v st
  let dir ← dirOf path
  match ← env.forceValue v with
  | .tPath _ => return (mkPath dir, st)
  | _ => return (mkString dir st.context, st)

/-- Model of `prim_toPath`. -/
def primToPath (v : α) (st : CoerceState cfg sha256) :
    Outcome Str (Value α × CoerceState cfg sha256) := do
  let (path, st) ← coerceToPath env fuel v st
  let path ← canonPath path
  return (mkString path st.context, st)

/-- Model of `prim_storePath`. -/
def primStorePath (view : PathView) (v : α) (st : CoerceState cfg sha256) :
    Outcome Str (Value α × CoerceState cfg sha256) := do
  let (path, st) ← coerceToPath env fuel v st
  let path ← if isStorePath cfg path then .ok path else canonPathScan view.links fuel path
  if isInStore cfg path then do
    let path2 ← toStorePath cfg path
    if view.isValidPath path2 then
      let st := { st with context := st.context.insert path2 }
      return (mkString path st.context, st)
    else .error (str "store path `" ++ path2 ++ str "' is not valid")
  else .error (str "path `" ++ path ++ str "' is not in the Nix store")

/-- Model of `prim_toXML`. -/
def primToXML (v : α) (st : CoerceState cfg sha256) :
    Outcome Str (Value α × CoerceState cfg sha256) := do
  let (out, context) ← valueToXML env false fuel v
  return (mkString out context, st)

/-- What an operation returns, and the sources that have been copied afterwards. -/
def TextOp.run (view : PathView) (op : TextOp α) (srcToStore : SrcToStore cfg sha256) :
    Outcome Str (Value α × SrcToStore cfg sha256) := do
  let st : CoerceState cfg sha256 := ⟨∅, srcToStore⟩
  let (v, st) ← match op with
    | .concatStrings es => Nix.concatStrings env fuel es st
    | .toString v => primToString env fuel v st
    | .substring start len v => primSubstring env fuel start len v st
    | .baseNameOf v => primBaseNameOf env fuel v st
    | .dirOf v => primDirOf env fuel v st
    | .toPath v => primToPath env fuel v st
    | .storePath v => primStorePath env fuel view v st
    | .toXML v => primToXML env fuel v st
  return (v, st.srcToStore)

end

end Nix
