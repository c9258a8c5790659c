import NixStore.Lib.FileLocks
import NixStore.Store.Gc

/-!
# Temporary roots

Model of `addTempRoot`, `removeTempRoots` and `readTempRoots` of `gc.cc`, and of the locks that
`collectGarbage` takes.  A process writes the paths that it is going to use into a file of its own in
the directory `temproots` and keeps a shared lock on the file.  The collector locks the files that
it reads, and removes those that it can lock exclusively, since their processes should be gone.

Every system call is a step of its own.  A descriptor is private to its process, so what it refers to
is kept with the process; a lock belongs to the process and is released when any descriptor of the
file is closed.  The lock file `gc.lock` is never removed and a process opens it once at a time, so
that only its locks matter.  System calls fail only where the source expects it: `open` when the file
has disappeared, and a lock that is tried for without waiting.  A process can die at any point.

The deletions of a collector are any invalidations, deletions and renamings of paths that are not
roots: by `collectGarbage_safe` a run of the collector does nothing else, if no root has the name that a
directory gets when it is renamed.  A rename could replace an entry with the name `<path>-gc-<pid>`,
which `collectGarbage` then deletes with the renamed directories; no such entry is assumed here.
-/

namespace Nix

/-- The contents of a file of temporary roots: every path is followed by a NUL. -/
def encodeRoots (paths : List Path) : Str := paths.flatMap fun path => path ++ [0]

/-- The loop of `readTempRoots` over the contents of a file, with the bytes of the path so far; what
follows the last NUL is dropped. -/
def splitRoots : Str → Str → List Path
  | _, [] => []
  | path, c :: contents =>
    if c = 0 then path :: splitRoots [] contents else splitRoots (path ++ [c]) contents

/-- The directory `temproots`, where files are named by processes, and the locks on its files. -/
structure RootsDir (π : Type) where
  names : π → Option ℕ
  data : ℕ → Str
  /-- The number of the next inode. -/
  next : ℕ
  locks : ℕ → LockTable π

namespace RootsDir

variable {π : Type} [DecidableEq π]

/-- `open` with `O_CREAT`. -/
def openOrCreate (d : RootsDir π) (n : π) : RootsDir π × OpenFile :=
  match d.names n with
  | some i => (d, ⟨i, 0⟩)
  | none =>
    ({ d with
        names := Function.update d.names n (some d.next)
        data := Function.update d.data d.next []
        next := d.next + 1 }, ⟨d.next, 0⟩)

/-- `unlink` -/
def unlink (d : RootsDir π) (n : π) : RootsDir π :=
  { d with names := Function.update d.names n none }

/-- `write` to an open file; the second part is the file with its new offset. -/
def write (d : RootsDir π) (f : OpenFile) (bytes : Str) : RootsDir π × OpenFile :=
  ({ d with
      data := Function.update d.data f.inode
        (FileSystem.overwrite (d.data f.inode) f.offset bytes) },
    ⟨f.inode, f.offset + bytes.length⟩)

/-- `fcntl` with `F_SETLK`; `none` if the lock cannot be had now. -/
def lockFile (d : RootsDir π) (p : π) (f : OpenFile) (mode : LockMode) : Option (RootsDir π) :=
  if (d.locks f.inode).blocked p mode then none
  else some { d with locks := Function.update d.locks f.inode ((d.locks f.inode).grant p mode) }

/-- `close` -/
def close (d : RootsDir π) (p : π) (f : OpenFile) : RootsDir π :=
  { d with locks := Function.update d.locks f.inode ((d.locks f.inode).release p) }

/-- The end of a process. -/
def exit (d : RootsDir π) (p : π) : RootsDir π := { d with locks := fun i => (d.locks i).release p }

end RootsDir

/-- The places in `addTempRoot`. -/
inductive AddPlace where
  /-- `openGCLock`, at the start of the loop. -/
  | lockGC
  | removeStale
  | create
  | unlockGC
  | readLock
  | stat
  | writeLock
  | write
  | downgrade
deriving DecidableEq

/-- The places in `collectGarbage`.  In `readTempRoots`, `todo` are the files that are still to be
looked at after the current one. -/
inductive CollectPlace (π : Type) where
  | lockGC
  | findRoots
  | readDirectory
  | nextFile (todo : List π)
  | tryLock (q : π) (fd : OpenFile) (todo : List π)
  | unlinkStale (q : π) (fd : OpenFile) (todo : List π)
  | markStale (fd : OpenFile) (todo : List π)
  | closeStale (fd : OpenFile) (todo : List π)
  | readLock (q : π) (fd : OpenFile) (todo : List π)
  | read (q : π) (fd : OpenFile) (todo : List π)
  | deleting
  | unlockGC
  /-- The destructors of the descriptors, with that of `fdGCLock` at the end if an exception leaves
  the function while the lock is held. -/
  | closing (unlock : Bool)
deriving DecidableEq

/-- The places in `removeTempRoots`. -/
inductive RemovePlace where
  | close
  | unlink
deriving DecidableEq

/-- The call that a process is in. -/
inductive RootsCall (π : Type) where
  | idle
  | addTempRoot (path : Path) (place : AddPlace)
  /-- `collectGarbage`, with the permanent roots, `state.tempRoots` and `fds`. -/
  | collectGarbage (permRoots tempRoots : PathSet) (fds : List OpenFile) (place : CollectPlace π)
  | removeTempRoots (place : RemovePlace)

/-- A process.  The last two fields are not in the source: they record the calls of `addTempRoot`
that are completed, and the paths that were seen to be valid afterwards. -/
structure RootsProcess (π : Type) where
  fdTempRoots : Option OpenFile
  call : RootsCall π
  added : List Path
  observed : List Path

/-- A process that has not done anything. -/
def RootsProcess.new {π : Type} : RootsProcess π := ⟨none, .idle, [], []⟩

/-- Processes with the files and the store that they share. -/
structure RootsState (π : Type) where
  dir : RootsDir π
  /-- The locks on `gc.lock`. -/
  gcLock : LockTable π
  valid : PathSet
  procs : π → RootsProcess π

/-- What can happen. -/
inductive RootsEvent (π : Type) where
  | addTempRoot (p : π) (path : Path)
  | isValidPath (p : π) (path : Path)
  | collectGarbage (p : π)
  /-- The next step of a call. -/
  | next (p : π)
  /-- The permanent roots are found. -/
  | findRoots (p : π) (permRoots : PathSet)
  /-- The directory is read; files that are removed meanwhile can be among the entries. -/
  | readDirectory (p : π) (entries : List π)
  /-- The collector does something to a path. -/
  | delete (p : π) (event : GCEvent)
  /-- The collector has done all deletions. -/
  | finish (p : π)
  /-- An exception leaves the collector during the deletions. -/
  | throw (p : π)
  /-- The process ends, and the destructor of `autoRemoveTempRoots` runs. -/
  | exit (p : π)
  /-- The process dies at once; another process can get its identifier. -/
  | kill (p : π)
  /-- A path becomes valid. -/
  | register (path : Path)

namespace RootsState

variable {π : Type} [DecidableEq π] (cfg : StoreConfig)

/-- Change one process. -/
def setProc (s : RootsState π) (p : π) (pr : RootsProcess π) : RootsState π :=
  { s with procs := Function.update s.procs p pr }

/-- A process goes on in another call or place. -/
def goto (s : RootsState π) (p : π) (call : RootsCall π) : RootsState π :=
  s.setProc p { s.procs p with call }

/-- The next step of `addTempRoot`. -/
def nextAdd (s : RootsState π) (p : π) (path : Path) (place : AddPlace) : Option (RootsState π) :=
  match place with
  | .lockGC =>
    if s.gcLock.blocked p .shared then none
    else
      some ({ s with gcLock := s.gcLock.grant p .shared }.goto p (.addTempRoot path .removeStale))
  | .removeStale =>
    -- a file with the name of this process must be stale
    some ({ s with dir := if (s.dir.names p).isSome then s.dir.unlink p else s.dir }.goto p
      (.addTempRoot path .create))
  | .create =>
    let (dir, f) := s.dir.openOrCreate p
    -- the assignment to `fdTempRoots` closes the file of the round before
    let dir := match (s.procs p).fdTempRoots with
      | some old => dir.close p old
      | none => dir
    some ({ s with dir }.setProc p
      { s.procs p with fdTempRoots := some f, call := .addTempRoot path .unlockGC })
  | .unlockGC =>
    some ({ s with gcLock := s.gcLock.release p }.goto p (.addTempRoot path .readLock))
  | .readLock => do
    let f ← (s.procs p).fdTempRoots
    let dir ← s.dir.lockFile p f .shared
    return { s with dir }.goto p (.addTempRoot path .stat)
  | .stat => do
    let f ← (s.procs p).fdTempRoots
    if s.dir.data f.inode = [] then return s.goto p (.addTempRoot path .writeLock)
    else return s.goto p (.addTempRoot path .lockGC)
  | .writeLock => do
    let f ← (s.procs p).fdTempRoots
    let dir ← s.dir.lockFile p f .exclusive
    return { s with dir }.goto p (.addTempRoot path .write)
  | .write => do
    let f ← (s.procs p).fdTempRoots
    let (dir, f) := s.dir.write f (path ++ [0])
    return { s with dir }.setProc p
      { s.procs p with fdTempRoots := some f, call := .addTempRoot path .downgrade }
  | .downgrade => do
    let f ← (s.procs p).fdTempRoots
    let dir ← s.dir.lockFile p f .shared
    return { s with dir }.setProc p
      { s.procs p with call := .idle, added := (s.procs p).added ++ [path] }

/-- The next step of `collectGarbage` where there is one possibility. -/
def nextCollect (s : RootsState π) (p : π) (permRoots tempRoots : PathSet) (fds : List OpenFile)
    (place : CollectPlace π) : Option (RootsState π) :=
  let goto (s : RootsState π) (place : CollectPlace π) : RootsState π :=
    s.goto p (.collectGarbage permRoots tempRoots fds place)
  match place with
  | .lockGC =>
    if s.gcLock.blocked p .exclusive then none
    else some (goto { s with gcLock := s.gcLock.grant p .exclusive } .findRoots)
  | .nextFile [] => some (goto s .deleting)
  | .nextFile (q :: todo) =>
    match s.dir.names q with
    | some i => some (goto s (.tryLock q ⟨i, 0⟩ todo))
    | none => some (goto s (.nextFile todo))
  | .tryLock q f todo =>
    match s.dir.lockFile p f .exclusive with
    | some dir => some (goto { s with dir } (.unlinkStale q f todo))
    | none => some (goto s (.readLock q f todo))
  | .unlinkStale q f todo => some (goto { s with dir := s.dir.unlink q } (.markStale f todo))
  | .markStale f todo =>
    let (dir, f) := s.dir.write f (str "d")
    some (goto { s with dir } (.closeStale f todo))
  | .closeStale f todo => some (goto { s with dir := s.dir.close p f } (.nextFile todo))
  | .readLock q f todo => do
    let dir ← s.dir.lockFile p f .shared
    return goto { s with dir } (.read q f todo)
  | .read _ f todo =>
    let roots := splitRoots [] (s.dir.data f.inode)
    -- assertStorePath throws
    if roots.all (isStorePath cfg) then
      some (s.goto p (.collectGarbage permRoots (roots.foldl SortedSet.insert tempRoots)
        (fds ++ [f]) (.nextFile todo)))
    else some (s.goto p (.collectGarbage permRoots tempRoots (f :: fds) (.closing true)))
  | .unlockGC => some (goto { s with gcLock := s.gcLock.release p } (.closing false))
  | .closing unlock =>
    match fds with
    | f :: fds =>
      some ({ s with dir := s.dir.close p f }.goto p
        (.collectGarbage permRoots tempRoots fds (.closing unlock)))
    | [] =>
      some ({ s with gcLock := if unlock then s.gcLock.release p else s.gcLock }.goto p .idle)
  | _ => none

/-- The next step of `removeTempRoots`, after which the process is gone. -/
def nextRemove (s : RootsState π) (p : π) (place : RemovePlace) : Option (RootsState π) :=
  match place with
  | .close => do
    let f ← (s.procs p).fdTempRoots
    return { s with dir := s.dir.close p f }.setProc p
      { s.procs p with fdTempRoots := none, call := .removeTempRoots .unlink }
  | .unlink => some ({ s with dir := s.dir.unlink p }.setProc p .new)

/-- The effect of the collector on the valid paths. -/
def apply (valid : PathSet) : GCEvent → PathSet
  | .invalidate path => valid.erase path
  | .delete _ => valid
  | .rename _ => valid

/-- The state after an event, if the event can happen. -/
def step [Fintype π] (s : RootsState π) : RootsEvent π → Option (RootsState π)
  | .addTempRoot p path =>
    match (s.procs p).call with
    | .idle =>
      some (s.goto p (.addTempRoot path
        (if (s.procs p).fdTempRoots = none then .lockGC else .writeLock)))
    | _ => none
  | .isValidPath p path =>
    match (s.procs p).call with
    | .idle =>
      if path ∈ s.valid ∧ path ∈ (s.procs p).added then
        some (s.setProc p { s.procs p with observed := path :: (s.procs p).observed })
      else some s
    | _ => none
  | .collectGarbage p =>
    match (s.procs p).call with
    | .idle => some (s.goto p (.collectGarbage ∅ ∅ [] .lockGC))
    | _ => none
  | .next p =>
    match (s.procs p).call with
    | .idle => none
    | .addTempRoot path place => s.nextAdd p path place
    | .collectGarbage permRoots tempRoots fds place =>
      s.nextCollect cfg p permRoots tempRoots fds place
    | .removeTempRoots place => s.nextRemove p place
  | .findRoots p permRoots =>
    match (s.procs p).call with
    | .collectGarbage _ tempRoots fds .findRoots =>
      some (s.goto p (.collectGarbage permRoots tempRoots fds .readDirectory))
    | _ => none
  | .readDirectory p entries =>
    match (s.procs p).call with
    | .collectGarbage permRoots tempRoots fds .readDirectory =>
      if ∀ q, s.dir.names q ≠ none → q ∈ entries then
        some (s.goto p (.collectGarbage permRoots tempRoots fds (.nextFile entries)))
      else none
    | _ => none
  | .delete p event =>
    match (s.procs p).call with
    | .collectGarbage permRoots tempRoots _ .deleting =>
      if event.path ∈ permRoots ∨ event.path ∈ tempRoots then none
      else some { s with valid := apply s.valid event }
    | _ => none
  | .finish p =>
    match (s.procs p).call with
    | .collectGarbage permRoots tempRoots fds .deleting =>
      some (s.goto p (.collectGarbage permRoots tempRoots fds .unlockGC))
    | _ => none
  | .throw p =>
    match (s.procs p).call with
    | .collectGarbage permRoots tempRoots fds .deleting =>
      some (s.goto p (.collectGarbage permRoots tempRoots fds (.closing true)))
    | _ => none
  | .exit p =>
    match (s.procs p).call with
    | .idle =>
      match (s.procs p).fdTempRoots with
      | some f => some (s.setProc p ⟨some f, .removeTempRoots .close, [], []⟩)
      | none => some (s.setProc p .new)
    | _ => none
  | .kill p =>
    some ({ s with dir := s.dir.exit p, gcLock := s.gcLock.release p }.setProc p .new)
  -- a name in the file system has no NUL
  | .register path => if path.NulFree then some { s with valid := s.valid.insert path } else none

/-- The states before the first call: files of any contents, but nothing is open or locked. -/
structure Initial (s : RootsState π) : Prop where
  injective : ∀ p q i, s.dir.names p = some i → s.dir.names q = some i → p = q
  named_lt : ∀ p i, s.dir.names p = some i → i < s.dir.next
  unlocked : ∀ i, s.dir.locks i = []
  gcUnlocked : s.gcLock = []
  procs : ∀ p, s.procs p = .new
  nulFree : ∀ path ∈ s.valid, Str.NulFree path

end RootsState

end Nix
