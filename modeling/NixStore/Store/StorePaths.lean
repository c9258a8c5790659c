import NixStore.Util.Hash
import NixStore.Derivations.Basic

/-!
# Store paths

Model of the first half of `store-api.cc`: which paths are in the store, which names they may have,
and how a store path is computed from a fingerprint string.  The location of the store is part of a
`StoreConfig`; SHA-256 is the parameter `sha256` and can be any function.
-/

namespace Nix

/-- A set of paths. -/
abbrev PathSet := SortedSet Path

/-- The settings that store paths depend on. -/
structure StoreConfig where
  /-- `settings.nixStore`, a canonical absolute path. -/
  nixStore : Path
  absolute : isAbsolute nixStore = true
  nulFree : Str.NulFree nixStore

/-- Model of `SubstitutablePathInfo`. -/
structure SubstitutablePathInfo where
  deriver : Path
  references : PathSet
  /-- 0 if it is not known. -/
  downloadSize : UInt64
  /-- 0 if it is not known. -/
  narSize : UInt64
deriving DecidableEq

/-- The location `/nix/store`. -/
def defaultConfig : StoreConfig := ⟨str "/nix/store", by decide, by decide⟩

section

variable (cfg : StoreConfig)

/-- Model of `isInStore`. -/
def isInStore (path : Path) : Bool :=
  isAbsolute path && decide (path.take cfg.nixStore.length = cfg.nixStore) &&
    decide (cfg.nixStore.length + 2 ≤ path.length) &&
    decide (path[cfg.nixStore.length]? = some '/'.toUInt8)

/-- Model of `toStorePath`. -/
def toStorePath (path : Path) : Outcome Str Path :=
  if isInStore cfg path then
    .ok (path.take (cfg.nixStore.length + 1) ++
      (path.drop (cfg.nixStore.length + 1)).takeWhile (· ≠ '/'.toUInt8))
  else .error (str "path `" ++ path ++ str "' is not in the Nix store")

/-- Model of `isStorePath`. -/
def isStorePath (path : Path) : Bool :=
  isInStore cfg path && decide ('/'.toUInt8 ∉ path.drop (cfg.nixStore.length + 1))

/-- Model of `assertStorePath`. -/
def assertStorePath (path : Path) : Outcome Str Unit :=
  if isStorePath cfg path then .ok ()
  else .error (str "path `" ++ path ++ str "' is not in the Nix store")

/-- The number of bytes in front of the name in a store path: the store, a slash, the 32 characters
of the hash part, and a dash. -/
def storePathPrefixLength : ℕ := cfg.nixStore.length + 34

/-- Model of `storePathToName`; a path without a hash part makes the `string` constructor throw. -/
def storePathToName (path : Path) : Outcome Str Str := do
  assertStorePath cfg path
  if path.length < storePathPrefixLength cfg then .error (str "basic_string::basic_string")
  else return path.drop (storePathPrefixLength cfg)

end

/-- The name of the lock file of a path. -/
def lockPath (path : Path) : Path := path ++ str ".lock"

/-- The characters allowed in a name besides letters and digits. -/
def validChars : Str := str "+-._?="

/-- The test of `checkStoreName` on one character. -/
def isNameChar (c : UInt8) : Bool :=
  ('A'.toUInt8 ≤ c && c ≤ 'Z'.toUInt8) || ('a'.toUInt8 ≤ c && c ≤ 'z'.toUInt8) ||
    ('0'.toUInt8 ≤ c && c ≤ '9'.toUInt8) || validChars.contains c

/-- Model of `checkStoreName`. -/
def checkStoreName (name : Str) : Outcome Str Unit :=
  if name.take 1 = str "." then .error (str "illegal name: `" ++ name ++ str "'")
  else
    match name.find? fun c => !isNameChar c with
    | none => .ok ()
    | some c =>
      .error (str "invalid character `" ++ [c] ++ str "' in name `" ++ name ++ str "'")

section

variable (cfg : StoreConfig) (sha256 : Str → Str)

/-- Model of `hashString` for SHA-256. -/
def hashString (s : Str) : Hash := ⟨.htSHA256, sha256 s⟩

/-- The fingerprint string of a store path. -/
def fingerprint (type : Str) (hash : Hash) (name : Str) : Str :=
  type ++ str ":sha256:" ++ printHash hash ++ str ":" ++ cfg.nixStore ++ str ":" ++ name

/-- The hash part of the store path with the given fingerprint. -/
def hashPart (s : Str) : Str := printHash32 (compressHash (hashString sha256 s) 20)

/-- Model of `makeStorePath`. -/
def makeStorePath (type : Str) (hash : Hash) (name : Str) : Outcome Str Path := do
  let s := fingerprint cfg type hash name
  checkStoreName name
  return cfg.nixStore ++ str "/" ++ hashPart sha256 s ++ str "-" ++ name

/-- The name of an output path. -/
def outputName (id name : Str) : Str := name ++ (if id = str "out" then [] else str "-" ++ id)

/-- Model of `makeOutputPath`. -/
def makeOutputPath (id : Str) (hash : Hash) (name : Str) : Outcome Str Path :=
  makeStorePath cfg sha256 (str "output:" ++ id) hash (outputName id name)

/-- The string that is hashed for the path of a fixed output. -/
def fixedOutputString (recursive : Bool) (algo : Str) (hash : Hash) : Str :=
  str "fixed:out:" ++ (if recursive then str "r:" else []) ++ algo ++ str ":" ++ printHash hash ++
    str ":"

/-- Model of `makeFixedOutputPath`. -/
def makeFixedOutputPath (recursive : Bool) (hashAlgo : HashType) (hash : Hash) (name : Str) :
    Outcome Str Path :=
  if hashAlgo = .htSHA256 ∧ recursive = true then
    makeStorePath cfg sha256 (str "source") hash name
  else do
    let algo ← printHashType hashAlgo
    makeStorePath cfg sha256 (str "output:out")
      (hashString sha256 (fixedOutputString recursive algo hash)) name

/-- The type part of the fingerprint of a text file. -/
def textType (references : PathSet) : Str :=
  references.toList.foldl (fun type r => type ++ str ":" ++ r) (str "text")

/-- Model of `computeStorePathForText`. -/
def computeStorePathForText (name s : Str) (references : PathSet) : Outcome Str Path :=
  makeStorePath cfg sha256 (textType references) (hashString sha256 s) name

end

end Nix
