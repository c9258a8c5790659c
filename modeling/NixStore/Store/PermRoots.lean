import NixStore.Store.Optimise
import NixStore.Store.TempRoots
import NixStore.Util.Paths

/-!
# Permanent roots

Model of `addPermRoot` and of `findRoots` of `gc.cc`, next to the temporary roots.  A permanent root is a
symbolic link to a store path in the directory `gcroots`, or a link anywhere with a second link to it in
the directory `gcroots/auto`.  The collector scans these directories while it holds the lock `gc.lock`,
and removes links from them that lead nowhere.

Every system call is a step of its own, as for the temporary roots, and other programs can create and
remove links and directories at any time.  A location is reached without going through a link.  The
number of a link says which system call has put it in its place, so `rename` gives it a new one.
`checkRootReachability` is off: it only prints a warning.  As for the temporary roots, no entry of the
store has a name `<path>-gc-<pid>` that a collector gives to a directory which it renames.
-/

namespace Nix

/-- The directory of the roots, the hash function and the identifiers of the processes. -/
structure RootsEnv (π : Type) where
  cfg : StoreConfig
  /-- The location of `gcroots` in `nixStateDir`. -/
  rootsDir : Loc
  fileNames : ∀ n ∈ rootsDir, IsFileName n
  /-- SHA-1 -/
  sha1 : Str → Str
  pid : π → ℕ
  pid_injective : Function.Injective pid

section

variable {π : Type} (env : RootsEnv π)

/-- The location of the links to indirect roots. -/
def RootsEnv.autoDir : Loc := env.rootsDir ++ [str "auto"]

/-- The name of the link to an indirect root. -/
def RootsEnv.autoName (path : Path) : Str := printHash32 ⟨.htSHA1, env.sha1 path⟩

/-- The location of the link to an indirect root. -/
def RootsEnv.realRoot (root : Loc) : Loc := env.autoDir ++ [env.autoName (subPath root)]

/-- The name of the link that `createSymlink` makes first. -/
def RootsEnv.tempName (p : π) (rand : ℕ) (n : Str) : Str :=
  n ++ str ".tmp-" ++ decimal (env.pid p) ++ str "-" ++ decimal rand

end

/-! ### Processes -/

/-- The places in `createSymlink`. -/
inductive SymlinkPlace where
  | createDirs
  | symlink
  | rename (temp : Str)
deriving DecidableEq

/-- The places in `addPermRoot`. -/
inductive PermPlace where
  | pathExists
  | isLink
  | readLink
  /-- The link to the store path. -/
  | createSymlink (place : SymlinkPlace)
  /-- The link to the root, in `addIndirectRoot`. -/
  | addIndirectRoot (place : SymlinkPlace)
  /-- `syncWithGC` -/
  | lockGC
  | unlockGC
deriving DecidableEq

/-- A call of `addPermRoot`. -/
structure PermCall where
  storePath : Path
  gcRoot : Loc
  indirect : Bool
  place : PermPlace
deriving DecidableEq

/-- What is left to do in `findRoots`: the call for a path, or the rest of a call. -/
inductive ScanTask where
  | visit (path : Loc) (recurseSymlinks : Bool)
  | readDirectory (path : Loc) (recurseSymlinks : Bool)
  | readLink (path : Loc) (recurseSymlinks : Bool)
  | isValidPath (path : Loc) (storePath : Path)
  /-- The link at the path, with its number and its target. -/
  | pathExists (path : Loc) (link : ℕ) (target : Path)
  | unlink (path : Loc) (link : ℕ)
deriving DecidableEq

/-- The scan of a collector: the calls of `findRoots` that are left, and `roots`. -/
structure RootScan where
  todo : List ScanTask
  roots : SortedMap Loc Path

/-- A store path for which a root has been made: the link to it, with its number. -/
structure Handover where
  storePath : Path
  root : Loc
  link : ℕ
  indirect : Bool
deriving DecidableEq

/-- Processes with temporary and permanent roots.  The last two fields are not in the source: they
record the roots that are made for paths that their processes have seen to be valid, during the call and
after it, as long as the link is there unchanged. -/
structure HandoverState (π : Type) where
  proc : RootsState π
  fs : LinkedFiles Inode
  /-- The number of the next link. -/
  next : ℕ
  scan : π → RootScan
  perm : π → Option PermCall
  making : π → Option Handover
  handed : List Handover

/-- What can happen. -/
inductive HandoverEvent (π : Type) where
  | proc (event : RootsEvent π)
  | collectGarbage (p : π) (ignoreLiveness : Bool)
  /-- The next step of `findRoots`; a directory that is read has these entries, with files that are
  removed meanwhile. -/
  | scan (p : π) (entries : List Str)
  /-- The scan is over, and there are additional roots. -/
  | found (p : π) (additional : PathSet)
  | addPermRoot (p : π) (storePath gcRoot : Path) (indirect allowOutsideRootsDir : Bool)
  /-- The next step of `addPermRoot`, with the value of `rand`. -/
  | perm (p : π) (rand : ℕ)
  -- other programs
  | symlink (dir : Loc) (n target : Str)
  | unlink (dir : Loc) (n : Str)
  | mkdir (dir : Loc) (n : Str)
  | rmdir (dir : Loc) (n : Str)

namespace LinkedFiles

variable (fs : LinkedFiles Inode)

/-- There is a directory. -/
def isDirectory (l : Loc) : Bool :=
  match fs.node l with
  | some (.directory _) => true
  | _ => false

/-- The number and the target of a link. -/
def linkAt (l : Loc) : Option (ℕ × Str) :=
  match fs.node l with
  | some (.file i) =>
    match fs.file i with
    | .symlink target => some (i, target)
    | _ => none
  | _ => none

/-- The first directory on the way that is missing. -/
def firstMissing (dir : Loc) : List Str → Option (Loc × Str)
  | [] => none
  | n :: rest =>
    if fs.node (dir ++ [n]) = none then some (dir, n) else firstMissing (dir ++ [n]) rest

end LinkedFiles

/-- The loop over the entries of a directory. -/
def visitEntries (path : Loc) (recurseSymlinks : Bool) (entries : List Str) : List ScanTask :=
  entries.map fun n => .visit (path ++ [n]) recurseSymlinks

namespace HandoverState

variable {π : Type} [DecidableEq π] (env : RootsEnv π)

/-! ### Links -/

/-- The link of a root is there as it was made. -/
def HasLink (s : HandoverState π) (h : Handover) : Prop := s.fs.node h.root = some (.file h.link)

instance (s : HandoverState π) (h : Handover) : Decidable (s.HasLink h) :=
  inferInstanceAs (Decidable (_ = _))

/-- Change the files; what has been recorded for a link that is gone is forgotten. -/
def setFiles (s : HandoverState π) (fs : LinkedFiles Inode) : HandoverState π :=
  let s := { s with fs }
  { s with
    making := fun p => (s.making p).filter fun h => s.HasLink h
    handed := s.handed.filter fun h => s.HasLink h }

/-- Put a link in its place. -/
def putLink (s : HandoverState π) (dir : Loc) (n target : Str) : HandoverState π :=
  { s.setFiles { s.fs.put dir n (.file s.next) with
      file := Function.update s.fs.file s.next (.symlink target) } with next := s.next + 1 }

/-- The system call `symlink`; `none` is an error. -/
def symlink (s : HandoverState π) (dir : Loc) (n target : Str) : Option (HandoverState π) :=
  if s.fs.isDirectory dir ∧ s.fs.node (dir ++ [n]) = none then some (s.putLink dir n target) else none

/-- The system call `mkdir`. -/
def mkdir (s : HandoverState π) (dir : Loc) (n : Str) : Option (HandoverState π) :=
  if s.fs.isDirectory dir ∧ s.fs.node (dir ++ [n]) = none then
    some (s.setFiles (s.fs.put dir n (.directory true)))
  else none

/-- The system call `unlink`. -/
def unlink (s : HandoverState π) (dir : Loc) (n : Str) : HandoverState π :=
  match s.fs.node (dir ++ [n]) with
  | some (.file _) => s.setFiles (s.fs.remove dir n)
  | _ => s

/-- The system call `rmdir`. -/
def rmdir (s : HandoverState π) (dir : Loc) (n : Str) : HandoverState π :=
  if s.fs.isDirectory (dir ++ [n]) ∧ s.fs.names (dir ++ [n]) = [] then s.setFiles (s.fs.remove dir n)
  else s

/-- The system call `rename` for a link, in its directory. -/
def rename (s : HandoverState π) (dir : Loc) (temp n : Str) : Option (HandoverState π) :=
  match s.fs.linkAt (dir ++ [temp]) with
  | some (_, target) =>
    if s.fs.isDirectory (dir ++ [n]) then none
    else some ((s.setFiles (s.fs.remove dir temp)).putLink dir n target)
  | none => none

/-! ### `addPermRoot` -/

/-- The next step of `createSymlink` for a name in a directory, with the place after it, if it does not
return; `none` is an exception. -/
def nextSymlink (s : HandoverState π) (p : π) (rand : ℕ) (dir : Loc) (n target : Str) :
    SymlinkPlace → Option (HandoverState π × Option SymlinkPlace)
  | .createDirs =>
    match s.fs.firstMissing [] dir with
    | some (d, m) => (s.mkdir d m).map fun s => (s, some .createDirs)
    | none => some (s, some .symlink)
  | .symlink =>
    let temp := env.tempName p rand n
    (s.symlink dir temp target).map fun s => (s, some (.rename temp))
  | .rename temp => (s.rename dir temp n).map fun s => (s, none)

/-- A process goes on in `addPermRoot`. -/
def goto (s : HandoverState π) (p : π) (c : PermCall) (place : PermPlace) : HandoverState π :=
  { s with perm := Function.update s.perm p (some { c with place }) }

/-- A process leaves `addPermRoot`. -/
def leave (s : HandoverState π) (p : π) : HandoverState π :=
  { s with
    perm := Function.update s.perm p none
    making := Function.update s.making p none }

/-- `gcRoot` is in the directory of the roots. -/
def inRootsDir (gcRoot : Path) : Bool :=
  (subPath env.rootsDir ++ [slash]).isPrefixOf gcRoot

/-- The link to the store path has been made by the last step. -/
def record (s : HandoverState π) (p : π) (c : PermCall) : HandoverState π :=
  if c.storePath ∈ (s.proc.procs p).observed ∧ (c.indirect ∨ inRootsDir env (subPath c.gcRoot)) ∧
      s.fs.linkAt c.gcRoot = some (s.next - 1, c.storePath) then
    { s with
      making := Function.update s.making p
        (some ⟨c.storePath, c.gcRoot, s.next - 1, c.indirect⟩) }
  else s

/-- The next step of `addPermRoot`; `none` if the process has to wait. -/
def nextPerm (s : HandoverState π) (p : π) (rand : ℕ) (c : PermCall) : Option (HandoverState π) :=
  match c.place with
  | .pathExists =>
    if s.fs.node c.gcRoot = none then some (s.goto p c (.createSymlink .createDirs))
    else some (s.goto p c .isLink)
  | .isLink =>
    match s.fs.linkAt c.gcRoot with
    | some _ => some (s.goto p c .readLink)
    | none => some (s.leave p)
  | .readLink =>
    match s.fs.linkAt c.gcRoot with
    | some (_, target) =>
      if isInStore env.cfg target then some (s.goto p c (.createSymlink .createDirs))
      else some (s.leave p)
    | none => some (s.leave p)
  | .createSymlink place =>
    match s.nextSymlink env p rand c.gcRoot.dropLast (c.gcRoot.getLastD []) c.storePath place with
    | some (s, some place) => some (s.goto p c (.createSymlink place))
    | some (s, none) =>
      some ((s.record env p c).goto p c
        (if c.indirect then .addIndirectRoot .createDirs else .lockGC))
    | none => some (s.leave p)
  | .addIndirectRoot place =>
    match s.nextSymlink env p rand env.autoDir (env.autoName (subPath c.gcRoot)) (subPath c.gcRoot)
      place with
    | some (s, some place) => some (s.goto p c (.addIndirectRoot place))
    | some (s, none) => some (s.goto p c .lockGC)
    | none => some (s.leave p)
  | .lockGC => if s.proc.gcLock.blocked p .shared then none else some (s.goto p c .unlockGC)
  | .unlockGC =>
    some { s.leave p with handed := (s.making p).toList ++ s.handed }

/-- The beginning of `addPermRoot`, where it throws if a check fails. -/
def startPerm (s : HandoverState π) (p : π) (storePath gcRoot : Path)
    (indirect allowOutsideRootsDir : Bool) : Option (HandoverState π) :=
  match canonPath storePath, canonPath gcRoot with
  | .ok storePath, .ok gcRoot =>
    -- nothing can be renamed to the root directory
    if isStorePath env.cfg storePath ∧ ¬ isInStore env.cfg gcRoot ∧ gcRoot ≠ str "/" then
      if indirect then
        some (s.goto p ⟨storePath, components gcRoot, true, .pathExists⟩ .pathExists)
      else if allowOutsideRootsDir ∨ inRootsDir env gcRoot then
        let place := .createSymlink .createDirs
        some (s.goto p ⟨storePath, components gcRoot, false, place⟩ place)
      else some s
    else some s
  | _, _ => some s

/-! ### `findRoots` -/

/-- A collector goes on to other tasks, and then to the rest. -/
def push (s : HandoverState π) (p : π) (tasks todo : List ScanTask) : HandoverState π :=
  { s with scan := Function.update s.scan p ⟨tasks ++ todo, (s.scan p).roots⟩ }

/-- The next step of `findRoots` of a collector; `none` if an exception is not caught. -/
def nextScan (s : HandoverState π) (p : π) (entries : List Str) (task : ScanTask)
    (todo : List ScanTask) : Option (HandoverState π) :=
  match task with
  | .visit path recurse =>
    match s.fs.node path with
    | some (.directory _) => some (s.push p [.readDirectory path recurse] todo)
    | some (.file i) =>
      match s.fs.file i with
      | .symlink _ => some (s.push p [.readLink path recurse] todo)
      | _ => some (s.push p [] todo)
    -- `ENOENT` is caught
    | none => some (s.push p [] todo)
  | .readDirectory path recurse =>
    if s.fs.isDirectory path then
      if ∀ n ∈ s.fs.names path, n ∈ entries then
        some (s.push p (visitEntries path recurse entries) todo)
      else none
    else some (s.push p [] todo)
  | .readLink path recurse =>
    match s.fs.linkAt path with
    | some (i, target) =>
      match dirOf (subPath path) >>= fun dir => absPath dir target with
      | .ok target =>
        match toStorePath env.cfg target with
        | .ok storePath => some (s.push p [.isValidPath path storePath] todo)
        | _ => some (s.push p (if recurse then [.pathExists path i target] else []) todo)
      | _ => none
    | none => if s.fs.node path = none then some (s.push p [] todo) else none
  | .isValidPath path storePath =>
    if storePath ∈ s.proc.valid then
      some { s with
        scan := Function.update s.scan p ⟨todo, (s.scan p).roots.insert path storePath⟩ }
    else some (s.push p [] todo)
  | .pathExists path i target =>
    if s.fs.node (components target) = none then some (s.push p [.unlink path i] todo)
    else some (s.push p [.visit (components target) false] todo)
  | .unlink path _ => some ((s.push p [] todo).unlink path.dropLast (path.getLastD []))

/-! ### Steps -/

/-- The events of processes that are not in `addPermRoot` and do not look for roots. -/
def permits [Fintype π] (s : HandoverState π) : RootsEvent π → Bool
  | .addTempRoot p _ => (s.perm p).isNone
  | .isValidPath p _ => (s.perm p).isNone
  | .exit p => (s.perm p).isNone
  | .collectGarbage _ => false
  | .findRoots _ _ => false
  | .next p =>
    match (s.proc.procs p).call with
    -- the lock can be held by a process in `syncWithGC`
    | .collectGarbage _ _ _ .lockGC =>
      decide (∀ q, q ≠ p → (s.perm q).map PermCall.place ≠ some .unlockGC)
    | _ => true
  | _ => true

/-- The state after an event, if the event can happen. -/
def step [Fintype π] (s : HandoverState π) : HandoverEvent π → Option (HandoverState π)
  | .proc event =>
    if s.permits event then
      (s.proc.step env.cfg event).map fun proc =>
        match event with
        | .kill p => { s with proc }.leave p
        | _ => { s with proc }
    else none
  | .collectGarbage p ignoreLiveness =>
    if (s.perm p).isNone then
      (s.proc.step env.cfg (.collectGarbage p)).map fun proc =>
        let todo := if ignoreLiveness then [] else [.visit env.rootsDir true]
        { s with proc, scan := Function.update s.scan p ⟨todo, ∅⟩ }
    else none
  | .scan p entries =>
    match (s.proc.procs p).call, (s.scan p).todo with
    | .collectGarbage _ _ _ .findRoots, task :: todo => s.nextScan env p entries task todo
    | _, _ => none
  | .found p additional =>
    match (s.scan p).todo with
    | [] =>
      let permRoots := (s.scan p).roots.entries.foldl (fun roots e => roots.insert e.2) additional
      (s.proc.step env.cfg (.findRoots p permRoots)).map fun proc => { s with proc }
    | _ => none
  | .addPermRoot p storePath gcRoot indirect allowOutsideRootsDir =>
    match (s.proc.procs p).call, s.perm p with
    | .idle, none =>
      -- an argument has no NUL
      if storePath.NulFree ∧ gcRoot.NulFree then
        s.startPerm env p storePath gcRoot indirect allowOutsideRootsDir
      else none
    | _, _ => none
  | .perm p rand => (s.perm p).bind fun c => s.nextPerm env p rand c
  | .symlink dir n target => s.symlink dir n target
  | .unlink dir n => some (s.unlink dir n)
  | .mkdir dir n => s.mkdir dir n
  | .rmdir dir n => some (s.rmdir dir n)

/-- The states before the first call. -/
structure Initial (s : HandoverState π) : Prop where
  proc : s.proc.Initial
  scan : ∀ p, s.scan p = ⟨[], ∅⟩
  perm : ∀ p, s.perm p = none
  making : ∀ p, s.making p = none
  handed : s.handed = []
  listed : ∀ dir n, s.fs.node (dir ++ [n]) ≠ none →
    s.fs.isDirectory dir = true ∧ n ∈ s.fs.names dir
  numbered : ∀ l i, s.fs.node l = some (.file i) → i < s.next

end HandoverState

end Nix
