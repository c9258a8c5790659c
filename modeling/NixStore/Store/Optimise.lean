import NixStore.Lib.HardLinks
import NixStore.Lib.Decimal
import NixStore.Lib.Prog
import NixStore.Util.Archive
import NixStore.Util.Hash
import NixStore.Store.StorePaths

/-!
# Hard-linking equal files

Model of `optimise-store.cc`: every file of a store path is replaced by a hard link to the file with the
same hash in the links directory.  Locations are given by the names below the Nix store.  What `link`
and `rename` report is decided by a list of events, so the runs are those in which other processes
create links and in which files get too many of them.  Owners, times and the immutable bit of files are
left out, and so are the counted blocks.
-/

namespace Nix

/-- A file that can have several names. -/
inductive Inode where
  /-- A regular file, with its owner-execute and owner-write bits. -/
  | regular (executable writable : Bool) (contents : Str)
  | symlink (target : Str)
deriving DecidableEq

/-- The file as `dump` sees it. -/
def Inode.tree : Inode → FileTree
  | .regular executable _ contents => .regular executable contents
  | .symlink target => .symlink target

/-- `st_size` -/
def Inode.size : Inode → ℕ
  | .regular _ _ contents => contents.length
  | .symlink target => target.length

/-- The serialisation of a file. -/
def Inode.nar (file : Inode) : Str := dumpPath [] defaultPathFilter file.tree

/-- The tree at a location, as `dumpPath` walks it; the first argument is more than its depth. -/
def treeAt (fs : LinkedFiles Inode) : ℕ → Loc → Option FileTree
  | 0, _ => none
  | k + 1, l =>
    match fs.node l with
    | none => none
    | some (.file ino) => some (fs.file ino).tree
    | some (.directory _) =>
      ((fs.names l).mapM fun n => (treeAt fs k (l ++ [n])).map fun t => (n, t)).map .directory

/-- The values of `errno` that the code distinguishes. -/
inductive Errno where
  | EEXIST
  | EMLINK
  | other
deriving DecidableEq

/-- What happens at a call of `link` or `rename`. -/
inductive LinkEvent where
  | normal
  /-- Another process has created the new name in the meantime, for this inode. -/
  | raced (ino : ℕ)
  /-- The file has too many links. -/
  | tooMany
  /-- The call fails for another reason. -/
  | fails
deriving DecidableEq

/-- Model of `OptimiseStats`. -/
structure OptimiseStats where
  totalFiles : ℕ
  sameContents : ℕ
  filesLinked : ℕ
  bytesFreed : ℕ
deriving DecidableEq

/-- The state of a call of `optimisePath_`. -/
structure OptimiseState where
  fs : LinkedFiles Inode
  /-- What happens at the next calls of `link` and `rename`; then nothing special. -/
  events : List LinkEvent
  /-- The values of `rand` to come. -/
  rands : List ℕ
  /-- How often a call has reported `EMLINK`. -/
  emlinks : ℕ
  stats : OptimiseStats

/-- Why a call does not return. -/
inductive OptimiseStop where
  /-- An exception. -/
  | sysError (msg : Str)
  /-- The directories are nested deeper than the bound. -/
  | outOfFuel
deriving DecidableEq

/-- Programs that optimise. -/
abbrev OptimiseM := Prog OptimiseState OptimiseStop

/-- `linksDir` -/
def linksDirName : Str := str ".links"

section

variable (cfg : StoreConfig) (sha256 : Str → Str) (canLinkSymlink : Bool) (pid : ℕ)

/-- The path name of a location. -/
def pathName (l : Loc) : Path := cfg.nixStore ++ subPath l

/-- Model of `hashPath` for a file. -/
def fileHash (file : Inode) : Hash := hashString sha256 file.nar

/-- The name in the links directory of a file. -/
def linkName (file : Inode) : Str := printHash32 (fileHash sha256 file)

/-- The name of the temporary link. -/
def tempLinkName (rand : ℕ) : Str := str ".tmp-link-" ++ decimal pid ++ str "-" ++ decimal rand

/-- Change the files. -/
def setFiles (fs : LinkedFiles Inode) : OptimiseM Unit := Prog.modify fun s => { s with fs := fs }

/-- The next event. -/
def nextEvent : OptimiseM LinkEvent := fun s =>
  match s.events with
  | [] => (.ok .normal, s)
  | e :: events => (.ok e, { s with events := events })

/-- Model of `rand`. -/
def nextRand : OptimiseM ℕ := fun s =>
  match s.rands with
  | [] => (.ok 0, s)
  | r :: rands => (.ok r, { s with rands := rands })

/-- Report `EMLINK`. -/
def reportEMLINK : OptimiseM (Option Errno) := do
  Prog.modify fun s => { s with emlinks := s.emlinks + 1 }
  return some .EMLINK

/-- The system call `link`, for a new name in a directory.  Another process puts a file into the links
directory under the name of its hash only. -/
def sysLink (old : Loc) (dir : Loc) (n : Str) : OptimiseM (Option Errno) := do
  let e ← nextEvent
  let s ← Prog.get
  match s.fs.node old with
  | some (.file ino) =>
    if s.fs.node (dir ++ [n]) ≠ none then return some .EEXIST
    else
      match e with
      | .normal => do
        setFiles (s.fs.put dir n (.file ino))
        return none
      | .raced j =>
        if dir = [linksDirName] → n = linkName sha256 (s.fs.file j) then do
          setFiles (s.fs.put dir n (.file j))
          return some .EEXIST
        else return some .other
      | .tooMany => reportEMLINK
      | .fails => return some .other
  | _ => return some .other

/-- The system call `rename`, for names of files. -/
def sysRename (dir : Loc) (n : Str) (dir' : Loc) (n' : Str) : OptimiseM (Option Errno) := do
  let e ← nextEvent
  match e with
  | .tooMany => reportEMLINK
  | .normal => do
    Prog.modify fun s => { s with fs := s.fs.move dir n dir' n' }
    return none
  | _ => return some .other

/-- Model of `makeWritable` and `MakeReadOnly`: a directory is writable while a program runs, and
read-only after it, also after an exception. -/
def withWritable (dir : Option Loc) (m : OptimiseM Unit) : OptimiseM Unit := fun s =>
  match dir with
  | none => m s
  | some dir =>
    match m { s with fs := s.fs.setWritable dir true } with
    | (r, s') => (r, { s' with fs := s'.fs.setWritable dir false })

/-- The message of a failed `lstat`. -/
def lstatMessage (path : Path) : Str := str "getting attributes of path `" ++ path ++ str "'"

/-- The link to the file in the links directory is created under a temporary name, which then replaces
the name in the store. -/
def replaceLink (dir : Loc) (n : Str) (name : Str) (size : ℕ) : OptimiseM Unit := do
  let path := pathName cfg (dir ++ [n])
  let linkPath := pathName cfg [linksDirName, name]
  let rand ← nextRand
  let temp := tempLinkName pid rand
  match ← sysLink sha256 [linksDirName, name] [] temp with
  | some .EMLINK => return ()
  | some _ => .throw (.sysError (str "cannot link `" ++ pathName cfg [temp] ++ str "' to `" ++
      linkPath ++ str "'"))
  | none =>
    match ← sysRename [] temp dir n with
    | some e => do
      Prog.modify fun s => { s with fs := s.fs.remove [] temp }
      if e = .EMLINK then return ()
      else .throw (.sysError (str "cannot rename `" ++ pathName cfg [temp] ++ str "' to `" ++ path ++
        str "'"))
    | none => Prog.modify fun s => { s with stats := { s.stats with
        filesLinked := s.stats.filesLinked + 1, bytesFreed := s.stats.bytesFreed + size } }

/-- The part of `optimisePath_` for a file whose hash has a name in the links directory. -/
def shareFile (dir : Loc) (n : Str) (ino : ℕ) (name : Str) (size : ℕ) : OptimiseM Unit := do
  let s ← Prog.get
  match s.fs.node [linksDirName, name] with
  | none => .throw (.sysError (lstatMessage (pathName cfg [linksDirName, name])))
  | some link => do
    Prog.modify fun s => { s with stats := { s.stats with
      sameContents := s.stats.sameContents + 1 } }
    if link = .file ino then return ()
    else
      -- the store itself is not made writable
      withWritable (if dir = [] then none else some dir) (replaceLink cfg sha256 pid dir n name size)

/-- Whether the code wants to hard-link a file: a regular one must not be writable. -/
def Inode.linkable : Inode → Bool
  | .regular _ writable _ => !writable
  | .symlink _ => canLinkSymlink

/-- The part of `optimisePath_` for a file. -/
def optimiseFile (dir : Loc) (n : Str) (ino : ℕ) (file : Inode) : OptimiseM Unit :=
  if file.linkable canLinkSymlink then do
    let name := linkName sha256 file
    Prog.modify fun s => { s with stats := { s.stats with totalFiles := s.stats.totalFiles + 1 } }
    let s ← Prog.get
    if s.fs.node [linksDirName, name] = none then do
      match ← sysLink sha256 (dir ++ [n]) [linksDirName] name with
      | none => return ()
      | some .EEXIST => shareFile cfg sha256 pid dir n ino name file.size
      | some _ => .throw (.sysError (str "cannot link `" ++ pathName cfg [linksDirName, name] ++
          str "' to `" ++ pathName cfg (dir ++ [n]) ++ str "'"))
    else shareFile cfg sha256 pid dir n ino name file.size
  else return ()

/-- Model of `optimisePath_`, for the entry `n` of a directory of the store. -/
def optimisePath_ : ℕ → Loc → Str → OptimiseM Unit
  | 0, _, _ => .throw .outOfFuel
  | fuel + 1, dir, n => do
    let s ← Prog.get
    match s.fs.node (dir ++ [n]) with
    | none => .throw (.sysError (lstatMessage (pathName cfg (dir ++ [n]))))
    | some (.directory _) =>
      Prog.each (fun i => optimisePath_ fuel (dir ++ [n]) i) (s.fs.names (dir ++ [n]))
    | some (.file ino) => optimiseFile cfg sha256 canLinkSymlink pid dir n ino (s.fs.file ino)

end

end Nix
