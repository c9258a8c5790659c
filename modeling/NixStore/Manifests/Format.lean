import NixStore.Lib.Decimal
import NixStore.Manifests.Tables

/-!
# The text of a manifest

Model of `writeManifest` and `readManifest`.  The text consists of blocks of lines; a line in a block
has the name of a field, a colon and a value.  The reader strips comments, and tries one regular
expression after the other on what is left of a line.
-/

namespace Nix

/-! ### Writing -/

/-- A field in a block: its name and its value. -/
abbrev FieldLine := Str × Str

/-- The line of a field. -/
def fieldLine (f : FieldLine) : Str := str "  " ++ f.1 ++ str ": " ++ f.2

/-- A field that is written if it is defined. -/
def ifDefined (name : Str) (f : Field) : List FieldLine :=
  match f with
  | some value => [(name, value)]
  | none => []

/-- A field that is written if it is defined and not empty. -/
def ifNonempty (name : Str) (f : Field) : List FieldLine :=
  if f.text = [] then [] else [(name, f.text)]

/-- A field that is written if it is true. -/
def ifTrue (name : Str) (f : Field) : List FieldLine :=
  if f.text = [] ∨ f.text = str "0" then [] else [(name, f.text)]

/-- The fields that `writeManifest` writes for a NAR file. -/
def narFileFields (storePath : Str) (narFile : NarFile) : List FieldLine :=
  [(str "StorePath", storePath), (str "NarURL", narFile.url.text),
    (str "Compression", narFile.compressionType.text)] ++
    (ifDefined (str "Hash") narFile.hash ++ (ifDefined (str "Size") narFile.size ++
      ((str "NarHash", narFile.narHash.text) :: (ifTrue (str "NarSize") narFile.narSize ++
        (ifNonempty (str "References") narFile.references ++
          (ifNonempty (str "Deriver") narFile.deriver ++ ifDefined (str "System") narFile.system))))))

/-- The fields that `writeManifest` writes for a patch. -/
def patchFields (storePath : Str) (patch : Patch) : List FieldLine :=
  [(str "StorePath", storePath), (str "NarURL", patch.url.text), (str "Hash", patch.hash.text),
    (str "Size", patch.size.text), (str "NarHash", patch.narHash.text)] ++
    (ifTrue (str "NarSize") patch.narSize ++
      [(str "BasePath", patch.basePath.text), (str "BaseHash", patch.baseHash.text),
        (str "Type", patch.patchType.text)])

/-- The lines of a block. -/
def blockLines (header : Str) (fields : List FieldLine) : List Str :=
  header :: (fields.map fieldLine ++ [str "\x7d"])

/-- The lines that `writeManifest` prints. -/
def manifestLines (narFiles : NarTable) (patches : PatchTable) : List Str :=
  blockLines (str "version \x7b") [(str "ManifestVersion", str "3")] ++
    (narFiles.entries.flatMap (fun e => e.2.flatMap fun narFile =>
      blockLines (str "\x7b") (narFileFields e.1 narFile)) ++
    patches.entries.flatMap fun e => e.2.flatMap fun patch =>
      blockLines (str "patch \x7b") (patchFields e.1 patch))

/-- Model of `writeManifest`: the text of the file. -/
def writeManifest (narFiles : NarTable) (patches : PatchTable) : Str :=
  (manifestLines narFiles patches).flatMap fun l => l ++ str "\n"

/-! ### Reading -/

/-- The lines of a file, without the newlines that end them. -/
def fileLines : Str → List Str
  | [] => []
  | c :: s =>
    if c = '\n'.toUInt8 then [] :: fileLines s
    else
      match fileLines s with
      | [] => [[c]]
      | l :: ls => (c :: l) :: ls

/-- The fields of the block that is being read. -/
structure Block where
  storePath : Field
  url : Field
  hash : Field
  size : Field
  narHash : Field
  narSize : Field
  basePath : Field
  baseHash : Field
  patchType : Field
  references : Str
  deriver : Str
  system : Field
  compressionType : Str

/-- The fields at the beginning of a block. -/
def Block.fresh : Block :=
  ⟨none, none, none, none, none, none, none, none, none, [], [], none, str "bzip2"⟩

/-- The characters that `\w` matches. -/
def isWordByte (c : UInt8) : Bool :=
  isDigit c || (65 ≤ c && c ≤ 90) || (97 ≤ c && c ≤ 122) || c = '_'.toUInt8

/-- `(\S+)` -/
def isWord (s : Str) : Bool := s ≠ [] && s.all fun c => !isSpace c

/-- `(\/\S+)` -/
def isPathWord (s : Str) : Bool := s.head? = some '/'.toUInt8 && isWord s.tail

/-- `(\d+)` -/
def isNumber (s : Str) : Bool := s ≠ [] && s.all isDigit

/-- What a regular expression captures that ends in the given group and `\s*$`. -/
def capture (accepts : Str → Bool) (s : Str) : Option Str :=
  let s := s.rdropWhile isSpace
  if accepts s then some s else none

/-- A regular expression for a field: its name, the group behind `\s*`, and what is done with what the
group captures. -/
structure FieldRule where
  name : Str
  captures : Str → Option Str
  set : Str → Block → Block

/-- The regular expressions of `readManifest_` in their order.  The values of `CopyFrom` and
`ManifestVersion` are not used for the tables. -/
def fieldRules : List FieldRule := [
  ⟨str "StorePath", capture isPathWord, fun v b => { b with storePath := some v }⟩,
  ⟨str "CopyFrom", capture isPathWord, fun _ b => b⟩,
  ⟨str "Hash", capture isWord, fun v b => { b with hash := some v }⟩,
  ⟨str "URL", capture isWord, fun v b => { b with url := some v }⟩,
  ⟨str "Compression", capture isWord, fun v b => { b with compressionType := v }⟩,
  ⟨str "Size", capture isNumber, fun v b => { b with size := some v }⟩,
  ⟨str "BasePath", capture isPathWord, fun v b => { b with basePath := some v }⟩,
  ⟨str "BaseHash", capture isWord, fun v b => { b with baseHash := some v }⟩,
  ⟨str "Type", capture isWord, fun v b => { b with patchType := some v }⟩,
  ⟨str "NarHash", capture isWord, fun v b => { b with narHash := some v }⟩,
  ⟨str "NarSize", capture isNumber, fun v b => { b with narSize := some v }⟩,
  -- the group is greedy, and takes the spaces at the end
  ⟨str "References", some, fun v b => { b with references := v }⟩,
  ⟨str "Deriver", capture isWord, fun v b => { b with deriver := v }⟩,
  ⟨str "ManifestVersion", capture isNumber, fun _ b => b⟩,
  ⟨str "System", capture isWord, fun v b => { b with system := some v }⟩,
  ⟨str "NarURL", capture isWord, fun v b => { b with url := some v }⟩,
  ⟨str "MD5", capture isWord, fun v b => { b with hash := some (str "md5:" ++ v) }⟩]

/-- What a regular expression does on a line, if it matches. -/
def FieldRule.run (r : FieldRule) (line : Str) : Option (Block → Block) :=
  let s := line.dropWhile isSpace
  if (r.name ++ str ":").isPrefixOf s then
    (r.captures ((s.drop (r.name.length + 1)).dropWhile isSpace)).map r.set
  else none

/-- A line in a block: the first regular expression that matches counts. -/
def readField (line : Str) (b : Block) : Block :=
  match fieldRules.findSome? fun r => r.run line with
  | some set => set b
  | none => b

/-- A line in front of a block: the type of the block. -/
def readHeader (line : Str) : Option Str :=
  let s := line.dropWhile isSpace
  if (s.dropWhile isWordByte).dropWhile isSpace = str "\x7b" then
    let type := s.takeWhile isWordByte
    some (if type = [] then str "narfile" else type)
  else none

/-- The state of `readManifest_`, with the tables. -/
structure ManifestReader where
  inside : Bool
  type : Str
  block : Block
  narFiles : NarTable
  patches : PatchTable

/-- The NAR file of a block. -/
def Block.narFile (b : Block) : NarFile where
  url := b.url
  hash := b.hash
  size := b.size
  narHash := b.narHash
  narSize := b.narSize
  references := some b.references
  deriver := some b.deriver
  system := b.system
  compressionType := some b.compressionType

/-- The patch of a block. -/
def Block.patch (b : Block) : Patch where
  url := b.url
  hash := b.hash
  size := b.size
  basePath := b.basePath
  baseHash := b.baseHash
  narHash := b.narHash
  narSize := b.narSize
  patchType := b.patchType

/-- The end of a block. -/
def endBlock (st : ManifestReader) : ManifestReader :=
  if st.type = str "narfile" then
    { st with
      inside := false
      narFiles := addNAR st.narFiles st.block.storePath.text st.block.narFile }
  else if st.type = str "patch" then
    { st with
      inside := false
      patches := (addPatch st.patches st.block.storePath.text st.block.patch).1 }
  else { st with inside := false }

/-- One line of a manifest. -/
def readLine (st : ManifestReader) (line : Str) : ManifestReader :=
  let line := line.takeWhile (· ≠ '#'.toUInt8)
  if line = [] then st
  else if st.inside then
    if line = str "\x7d" then endBlock st else { st with block := readField line st.block }
  else
    match readHeader line with
    | some type => { st with inside := true, type := type, block := .fresh }
    | none => st

/-- Model of `readManifest` with empty tables. -/
def readManifest (text : Str) : NarTable × PatchTable :=
  let st := (fileLines text).foldl readLine ⟨false, [], .fresh, ∅, ∅⟩
  (st.narFiles, st.patches)

end Nix
