import NixStore.Lib.Bytes
import NixStore.Lib.KeyedTables

/-!
# Tables of manifests

The NAR files and the patches that are known for each store path, as `Manifest.pm` keeps them.  The
fields of an entry are strings, or undefined.
-/

namespace Nix

/-- The value of a field. -/
abbrev Field := Option Str

/-- A field as a string; an undefined value counts as the empty string. -/
def Field.text (f : Field) : Str := f.getD []

/-- An entry of `narFiles`. -/
structure NarFile where
  url : Field
  hash : Field
  size : Field
  narHash : Field
  narSize : Field
  references : Field
  deriver : Field
  system : Field
  compressionType : Field
deriving DecidableEq

/-- An entry of `patches`. -/
structure Patch where
  url : Field
  hash : Field
  size : Field
  basePath : Field
  baseHash : Field
  narHash : Field
  narSize : Field
  patchType : Field
deriving DecidableEq

/-- The NAR files of each store path. -/
abbrev NarTable := Table Str NarFile

/-- The patches that produce each store path. -/
abbrev PatchTable := Table Str Patch

/-- What `addNAR` compares. -/
def NarFile.key (info : NarFile) : Str := info.url.text

/-- What `addPatch` compares. -/
def Patch.key (patch : Patch) : Str × Str := (patch.url.text, patch.basePath.text)

/-- Model of `addNAR`. -/
def addNAR (narFiles : NarTable) (storePath : Str) (info : NarFile) : NarTable :=
  (addEntry NarFile.key narFiles storePath info).1

/-- Model of `addPatch`: the table, and whether the patch is new. -/
def addPatch (patches : PatchTable) (storePath : Str) (patch : Patch) : PatchTable × Bool :=
  addEntry Patch.key patches storePath patch

end Nix
