import NixStore.Lib.SortedMap
import NixStore.Derivations.ATerm

/-!
# Store derivations

The abstract syntax of derivations (`derivations.hh`), their printed form and the parser for it
(`unparseDerivation` and `parseDerivation` in `derivations.cc`).
-/

namespace Nix

/-- Model of `DerivationOutput`. -/
structure DerivationOutput where
  /-- The output path. -/
  path : Path
  /-- The hash used for the expected hash computation, with the marker `r:` in front of it for a
  recursive hash. -/
  hashAlgo : Str
  /-- The expected hash, possibly empty. -/
  hash : Str
deriving DecidableEq

/-- Model of `Derivation`. -/
structure Derivation where
  /-- The outputs, keyed on symbolic ids. -/
  outputs : SortedMap Str DerivationOutput
  /-- The inputs that are sub-derivations, with the ids of the outputs that are wanted of them. -/
  inputDrvs : SortedMap Path (SortedSet Str)
  /-- The inputs that are sources. -/
  inputSrcs : SortedSet Path
  platform : Str
  builder : Path
  args : List Str
  env : SortedMap Str Str
deriving DecidableEq

/-- Extension of derivations in the Nix store. -/
def drvExtension : Str := str ".drv"

/-- Model of `isDerivation`. -/
def isDerivation (fileName : Str) : Bool := fileName.hasSuffix drvExtension

/-- Model of `isFixedOutputDrv`: there is one output, it is called `out` and it has a hash. -/
def isFixedOutputDrv (drv : Derivation) : Bool :=
  match drv.outputs.entries with
  | [(id, out)] => decide (id = str "out") && decide (out.hash ≠ [])
  | _ => false

/-! ### Derivation paths with outputs -/

/-- The loop of `tokenizeString`, with a bound on the number of tokens. -/
def tokens (separator : UInt8 → Bool) : ℕ → Str → List Str
  | 0, _ => []
  | n + 1, s =>
    match s.dropWhile separator with
    | [] => []
    | c :: s => (c :: s.takeWhile fun c => !separator c) ::
        tokens separator n (s.dropWhile fun c => !separator c)

/-- Model of `tokenizeString`; there are at most as many tokens as bytes. -/
def tokenizeString (s separators : Str) : List Str := tokens separators.contains s.length s

/-- Model of `parseDrvPathWithOutputs`. -/
def parseDrvPathWithOutputs (s : Str) : Path × SortedSet Str :=
  match s.dropWhile (· ≠ '!'.toUInt8) with
  | [] => (s, ∅)
  | _ :: outputs => (s.takeWhile (· ≠ '!'.toUInt8), .ofList (tokenizeString outputs (str ",")))

/-! ### Printing -/

/-- The text of one output. -/
def printOutput (o : Str × DerivationOutput) : Str :=
  str "(" ++ printString o.1 ++ str "," ++ printString o.2.path ++ str "," ++
    printString o.2.hashAlgo ++ str "," ++ printString o.2.hash ++ str ")"

/-- The text of one input derivation. -/
def printInput (i : Path × SortedSet Str) : Str :=
  str "(" ++ printString i.1 ++ str "," ++ printStrings i.2.toList ++ str ")"

/-- The text of one environment variable. -/
def printEnvVar (v : Str × Str) : Str :=
  str "(" ++ printString v.1 ++ str "," ++ printString v.2 ++ str ")"

/-- Model of `unparseDerivation`. -/
def unparseDerivation (drv : Derivation) : Str :=
  str "Derive([" ++ printItems printOutput true drv.outputs.entries ++
    str "],[" ++ printItems printInput true drv.inputDrvs.entries ++
    str "]," ++ printStrings drv.inputSrcs.toList ++
    str "," ++ printString drv.platform ++
    str "," ++ printString drv.builder ++
    str "," ++ printStrings drv.args ++
    str ",[" ++ printItems printEnvVar true drv.env.entries ++
    str "])"

/-! ### Parsing -/

section

variable (uninit : Str → Str)

/-- Model of `parsePath`. -/
def parsePath : StreamReader Path := do
  let s ← parseString uninit
  if isAbsolute s then return s
  else Reader.throw (str "bad path `" ++ s ++ str "' in derivation")

/-- Model of `parseStrings`. -/
def parseStrings (arePaths : Bool) : StreamReader (SortedSet Str) :=
  whileNotEndOfList (if arePaths then parsePath uninit else parseString uninit) SortedSet.insert ∅

/-- One round of the loop over the outputs. -/
def parseOutput : StreamReader (Str × DerivationOutput) := do
  expect uninit (str "(")
  let id ← parseString uninit
  expect uninit (str ",")
  let path ← parsePath uninit
  expect uninit (str ",")
  let hashAlgo ← parseString uninit
  expect uninit (str ",")
  let hash ← parseString uninit
  expect uninit (str ")")
  return (id, ⟨path, hashAlgo, hash⟩)

/-- One round of the loop over the input derivations. -/
def parseInput : StreamReader (Path × SortedSet Str) := do
  expect uninit (str "(")
  let drvPath ← parsePath uninit
  expect uninit (str ",[")
  let outputs ← parseStrings uninit false
  expect uninit (str ")")
  return (drvPath, outputs)

/-- One round of the loop over the environment variables. -/
def parseEnvVar : StreamReader (Str × Str) := do
  expect uninit (str "(")
  let name ← parseString uninit
  expect uninit (str ",")
  let value ← parseString uninit
  expect uninit (str ")")
  return (name, value)

/-- `parseDerivation` on a stream. -/
def parseDerivationStream : StreamReader Derivation := do
  expect uninit (str "Derive([")
  let outputs ← whileNotEndOfList (parseOutput uninit) (fun m o => m.insert o.1 o.2) ∅
  expect uninit (str ",[")
  let inputDrvs ← whileNotEndOfList (parseInput uninit) (fun m i => m.insert i.1 i.2) ∅
  expect uninit (str ",[")
  let inputSrcs ← parseStrings uninit true
  expect uninit (str ",")
  let platform ← parseString uninit
  expect uninit (str ",")
  let builder ← parseString uninit
  expect uninit (str ",[")
  let args ← whileNotEndOfList (parseString uninit) (fun l s => l ++ [s]) []
  expect uninit (str ",[")
  let env ← whileNotEndOfList (parseEnvVar uninit) (fun m v => m.insert v.1 v.2) ∅
  expect uninit (str ")")
  return ⟨outputs, inputDrvs, inputSrcs, platform, builder, args, env⟩

/-- Model of `parseDerivation`; what follows the closing parenthesis is ignored. -/
def parseDerivation (s : Str) : Outcome Str Derivation :=
  match parseDerivationStream uninit s with
  | .ok (drv, _) => .ok drv
  | .error e => .error e
  | .diverge => .diverge

end

/-! ### The strings of a derivation -/

namespace Derivation

/-- All the strings that occur in a derivation. -/
def strings (drv : Derivation) : List Str :=
  drv.outputs.entries.flatMap (fun o => [o.1, o.2.path, o.2.hashAlgo, o.2.hash]) ++
    drv.inputDrvs.entries.flatMap (fun i => i.1 :: i.2.toList) ++
    drv.inputSrcs.toList ++ [drv.platform, drv.builder] ++ drv.args ++
    drv.env.entries.flatMap (fun v => [v.1, v.2])

/-- No string of the derivation has a NUL byte. -/
def NulFree (drv : Derivation) : Prop := ∀ s ∈ drv.strings, s.NulFree

/-- The output paths, the input derivations and the input sources start with a slash. -/
structure AbsolutePaths (drv : Derivation) : Prop where
  outputs : ∀ o ∈ drv.outputs.entries, isAbsolute o.2.path = true
  inputDrvs : ∀ i ∈ drv.inputDrvs.entries, isAbsolute i.1 = true
  inputSrcs : ∀ s ∈ drv.inputSrcs.toList, isAbsolute s = true

instance (drv : Derivation) : Decidable drv.NulFree :=
  inferInstanceAs (Decidable (∀ s ∈ drv.strings, s.NulFree))

end Derivation

end Nix
