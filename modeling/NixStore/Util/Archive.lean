import NixStore.Lib.FileSystem
import NixStore.Util.Serialise

/-!
# Nix archives

Model of `archive.cc`: `dumpPath` writes a tree of files as a sequence of bytes, and `restorePath`
reads such a sequence and creates the files that it describes.  The parser calls the operations of a
`ParseSink` as it goes along; what a `RestoreSink` has created before an exception stays there.  The
recursion of the parser is bounded by an argument, and a run that needs a deeper one ends in
`outOfFuel`.
-/

namespace Nix

/-- A tree of files.  The entries of a directory are in the order in which `readdir` lists them. -/
inductive FileTree where
  /-- A regular file, with its owner-execute bit. -/
  | regular (executable : Bool) (contents : Str)
  | directory (entries : List (Str × FileTree))
  | symlink (target : Str)

/-- `archiveVersion1` -/
def archiveVersion1 : Str := str "nix-archive-1"

/-! ### Dumping -/

/-- `PathFilter`: which entries of directories are dumped. -/
abbrev PathFilter := Path → Bool

/-- `defaultPathFilter` -/
def defaultPathFilter : PathFilter := fun _ => true

/-- The size of the buffers of `dumpContents` and `parseContents`. -/
def bufferSize : ℕ := 65536

/-- The loop of `dumpContents`, over what is left of the file.  It makes at most as many rounds as
there are bytes. -/
def dumpChunks : ℕ → Str → Str
  | 0, _ => []
  | k + 1, data =>
    if data = [] then []
    else data.take bufferSize ++ dumpChunks k (data.drop bufferSize)

/-- Model of `dumpContents`. -/
def dumpContents (contents : Str) : Str :=
  writeString (str "contents") ++ writeLongLong contents.length ++
    dumpChunks contents.length contents ++ writePadding contents.length

/-- What `dumpEntries` writes for one entry, with the dump of its file. -/
def dumpEntry (e : Str × Str) : Str :=
  writeString (str "entry") ++ writeString (str "(") ++ writeString (str "name") ++
    writeString e.1 ++ writeString (str "node") ++ e.2 ++ writeString (str ")")

/-- The names are in ascending order. -/
def nameLE {α : Type} (a b : Str × α) : Prop := a.1 ≤ b.1

instance {α : Type} (a b : Str × α) : Decidable (nameLE a b) :=
  inferInstanceAs (Decidable (a.1 ≤ b.1))

mutual

/-- Model of `dump`. -/
def dump (filter : PathFilter) (path : Path) : FileTree → Str
  | .regular executable contents =>
    writeString (str "(") ++ (writeString (str "type") ++ (writeString (str "regular") ++
      ((if executable then writeString (str "executable") ++ writeString [] else []) ++
      (dumpContents contents ++ writeString (str ")")))))
  | .directory entries =>
    writeString (str "(") ++ (writeString (str "type") ++ (writeString (str "directory") ++
      (((dumpEntries filter path entries).insertionSort nameLE).flatMap dumpEntry ++
      writeString (str ")"))))
  | .symlink target =>
    writeString (str "(") ++ (writeString (str "type") ++ (writeString (str "symlink") ++
      (writeString (str "target") ++ (writeString target ++ writeString (str ")")))))

/-- The dumps of the entries that pass the filter, with their names.  `dumpEntries` sorts the names
before it dumps the files, which gives the same bytes. -/
def dumpEntries (filter : PathFilter) (path : Path) : List (Str × FileTree) → List (Str × Str)
  | [] => []
  | (name, file) :: entries =>
    if filter (path ++ str "/" ++ name) then
      (name, dump filter (path ++ str "/" ++ name) file) :: dumpEntries filter path entries
    else dumpEntries filter path entries

end

/-- Model of `dumpPath`, for the tree of files at the path. -/
def dumpPath (path : Path) (filter : PathFilter) (file : FileTree) : Str :=
  writeString archiveVersion1 ++ dump filter path file

/-! ### Parsing -/

/-- Model of `ParseSink`. -/
structure ParseSink (κ : Type) where
  createDirectory : Path → Prog κ StreamError Unit
  createRegularFile : Path → Prog κ StreamError Unit
  isExecutable : Prog κ StreamError Unit
  preallocateContents : ℕ → Prog κ StreamError Unit
  receiveContents : Str → Prog κ StreamError Unit
  createSymlink : Path → Str → Prog κ StreamError Unit

/-- Model of `badArchive`. -/
def badArchive (s : Str) : StreamError := .serialisation (str "bad archive: " ++ s)

/-- The types of files that `parse` distinguishes. -/
inductive NodeType where
  | tpUnknown
  | tpRegular
  | tpDirectory
  | tpSymlink
deriving DecidableEq

section

variable {κ : Type} (sink : ParseSink κ)

/-- The loop of `parseContents`, with the number of bytes that are left.  It makes at most as many
rounds as there are bytes. -/
def parseChunks : ℕ → ℕ → SourceM κ Unit
  | 0, _ => pure ()
  | k + 1, left =>
    if left = 0 then pure ()
    else do
      let n := if bufferSize > left then left else bufferSize
      let buf ← Source.get n
      SourceM.lift (sink.receiveContents buf)
      parseChunks k (left - n)

/-- Model of `parseContents`. -/
def parseContents : SourceM κ Unit := do
  let size ← readLongLong
  SourceM.lift (sink.preallocateContents size)
  parseChunks sink size size
  readPadding size

mutual

/-- Model of `parse`. -/
def parse : ℕ → Path → SourceM κ Unit
  | 0, _ => .throw .outOfFuel
  | fuel + 1, path => do
    let s ← readString
    if s ≠ str "(" then .throw (badArchive (str "expected open tag"))
    else parseFields fuel path .tpUnknown

/-- The loop of `parse`. -/
def parseFields : ℕ → Path → NodeType → SourceM κ Unit
  | 0, _, _ => .throw .outOfFuel
  | fuel + 1, path, type => do
    let s ← readString
    if s = str ")" then pure ()
    else if s = str "type" then
      if type ≠ .tpUnknown then .throw (badArchive (str "multiple type fields"))
      else do
        let t ← readString
        if t = str "regular" then do
          SourceM.lift (sink.createRegularFile path)
          parseFields fuel path .tpRegular
        else if t = str "directory" then do
          SourceM.lift (sink.createDirectory path)
          parseFields fuel path .tpDirectory
        else if t = str "symlink" then parseFields fuel path .tpSymlink
        else .throw (badArchive (str "unknown file type " ++ t))
    else if s = str "contents" ∧ type = .tpRegular then do
      parseContents sink
      parseFields fuel path type
    else if s = str "executable" ∧ type = .tpRegular then do
      let _ ← readString
      SourceM.lift sink.isExecutable
      parseFields fuel path type
    else if s = str "entry" ∧ type = .tpDirectory then do
      parseEntry fuel path
      parseFields fuel path type
    else if s = str "target" ∧ type = .tpSymlink then do
      let target ← readString
      SourceM.lift (sink.createSymlink path target)
      parseFields fuel path type
    else .throw (badArchive (str "unknown field " ++ s))

/-- Model of `parseEntry`. -/
def parseEntry : ℕ → Path → SourceM κ Unit
  | 0, _ => .throw .outOfFuel
  | fuel + 1, path => do
    let s ← readString
    if s ≠ str "(" then .throw (badArchive (str "expected open tag"))
    else parseEntryFields fuel path []

/-- The loop of `parseEntry`, with the name read so far. -/
def parseEntryFields : ℕ → Path → Str → SourceM κ Unit
  | 0, _, _ => .throw .outOfFuel
  | fuel + 1, path, name => do
    let s ← readString
    if s = str ")" then pure ()
    else if s = str "name" then do
      let name ← readString
      parseEntryFields fuel path name
    else if s = str "node" then
      -- the test is of `s`, which is not empty here
      if s = [] then .throw (badArchive (str "entry name missing"))
      else do
        parse fuel (path ++ str "/" ++ name)
        parseEntryFields fuel path name
    else .throw (badArchive (str "unknown field " ++ s))

end

/-- Reading the version; a `SerialisationError` counts as an empty string. -/
def readVersion : SourceM κ Str := fun s =>
  match (readString : SourceM κ Str) s with
  | (.error (.serialisation _), s') => (.ok [], s')
  | r => r

/-- Model of `parseDump`. -/
def parseDump (fuel : ℕ) : SourceM κ Unit := do
  let version ← readVersion
  if version ≠ archiveVersion1 then
    .throw (badArchive (str "input doesn't look like a Nix archive"))
  else parse sink fuel []

end

/-! ### Restoring -/

/-- The file system, and the file descriptor of a `RestoreSink`: the file that is open for writing
and the offset of the next write. -/
structure RestoreState where
  fs : FileSystem
  fd : Option (Loc × ℕ)

namespace RestoreSink

/-- Change the contents and the mode of the open file; `err` is the exception if there is none. -/
def update (err : Str) (f : Bool → Str → ℕ → Bool × Str × ℕ) :
    Prog RestoreState StreamError Unit := fun s =>
  match s.fd with
  | none => (.error (.sysError err), s)
  | some (l, offset) =>
    match h : s.fs.entry l with
    | some (.regular x c) =>
      let r := f x c offset
      (.ok (), ⟨s.fs.setRegular l r.1 r.2.1 ⟨x, c, h⟩, some (l, r.2.2)⟩)
    | _ => (.error (.sysError err), s)

variable (cwd : Loc)

/-- Model of `createDirectory`. -/
def createDirectory (dstPath path : Path) : Prog RestoreState StreamError Unit := fun s =>
  match s.fs.create cwd (dstPath ++ path) .directory with
  | some (fs, _) => (.ok (), { s with fs := fs })
  | none => (.error (.sysError (str "creating directory `" ++ dstPath ++ path ++ str "'")), s)

/-- Model of `createRegularFile`. -/
def createRegularFile (dstPath path : Path) : Prog RestoreState StreamError Unit := fun s =>
  match s.fs.create cwd (dstPath ++ path) (.regular false []) with
  | some (fs, l) => (.ok (), ⟨fs, some (l, 0)⟩)
  | none =>
    (.error (.sysError (str "creating file `" ++ dstPath ++ path ++ str "'")), { s with fd := none })

/-- Model of `isExecutable`. -/
def isExecutable : Prog RestoreState StreamError Unit :=
  update (str "fstat") fun _ c offset => (true, c, offset)

/-- Model of `preallocateContents`.  Where there is no `posix_fallocate`, or where it does not work,
nothing happens. -/
def preallocateContents (preallocates : Bool) (len : ℕ) : Prog RestoreState StreamError Unit :=
  if preallocates ∧ len ≠ 0 then
    update (str "preallocating file of " ++ str (toString len) ++ str " bytes") fun x c offset =>
      (x, FileSystem.allocate c len, offset)
  else pure ()

/-- Model of `receiveContents`. -/
def receiveContents (data : Str) : Prog RestoreState StreamError Unit :=
  update (str "writing to file") fun x c offset =>
    (x, FileSystem.overwrite c offset data, offset + data.length)

/-- Model of `createSymlink`. -/
def createSymlink (dstPath path : Path) (target : Str) : Prog RestoreState StreamError Unit :=
  fun s =>
    match s.fs.create cwd (dstPath ++ path) (.symlink target.cut) with
    | some (fs, _) => (.ok (), { s with fs := fs })
    | none => (.error (.sysError (str "creating symlink `" ++ dstPath ++ path ++ str "'")), s)

end RestoreSink

/-- Model of `RestoreSink`. -/
def RestoreSink (cwd : Loc) (preallocates : Bool) (dstPath : Path) : ParseSink RestoreState where
  createDirectory := RestoreSink.createDirectory cwd dstPath
  createRegularFile := RestoreSink.createRegularFile cwd dstPath
  isExecutable := RestoreSink.isExecutable
  preallocateContents := RestoreSink.preallocateContents preallocates
  receiveContents := RestoreSink.receiveContents
  createSymlink := RestoreSink.createSymlink cwd dstPath

/-- Model of `restorePath`.  Every step of the recursion reads a string, so the number of bytes in
the source bounds its depth. -/
def restorePath (cwd : Loc) (preallocates : Bool) (path : Path) : SourceM FileSystem Unit :=
  fun s =>
    match parseDump (RestoreSink cwd preallocates path) s.source.rest.length
        ⟨s.source, ⟨s.other, none⟩⟩ with
    | (r, s') => (r, ⟨s'.source, s'.other.fs⟩)

end Nix
