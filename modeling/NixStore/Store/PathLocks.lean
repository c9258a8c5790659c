import NixStore.Lib.FileLocks
import NixStore.Store.StorePaths

/-!
# Locks on paths

Model of `pathlocks.cc`.  A process locks a path by an exclusive lock on the file `path.lock`.  The
file can be removed when the path is unlocked, so a process that gets a lock must find out whether
the file still has its name; the one who removes it marks it for this purpose.

Every system call is a step of its own, so that the processes can be interleaved in every way.  A
process can throw out of `lockPaths` at any point, and it can die at any point but one: between the
removal of a lock file and the mark.  (An interrupt there has the same effect as the death of the
process, since nothing will mark the file any more, and is left out in the same way.)
-/

namespace Nix

/-- Model of `PathLocks`. -/
structure PathLocks where
  /-- The descriptors of the lock files with their names. -/
  fds : List (ℕ × Path)
  deletePaths : Bool

/-- The places in the loop of `lockPaths` over the paths. -/
inductive LockPlace where
  | check
  /-- `openLockFile`, with the descriptor of the round before, if there was one. -/
  | opening (old : Option ℕ)
  /-- The assignment to `fd` closes the descriptor of the round before. -/
  | replacing (fd old : ℕ)
  | tryLock (fd : ℕ)
  | waitLock (fd : ℕ)
  | stat (fd : ℕ)
deriving DecidableEq

/-- The places in the loop of `unlock`. -/
inductive UnlockPlace where
  | release
  /-- `deleteLockFile`, after `unlink`. -/
  | mark
  | close
deriving DecidableEq

/-- The call that a process is in. -/
inductive LockCall where
  | idle
  /-- `lockPaths` on an object, with the paths from the current one on. -/
  | lockPaths (o : ℕ) (wait : Bool) (todo : List Path) (place : LockPlace)
  /-- `unlock` on an object, with the entries of `fds` from the current one on.  If `lockPaths`
  calls it because a lock is taken, `fd` and `lockPath` of the caller are closed afterwards. -/
  | unlock (o : ℕ) (todo : List (ℕ × Path)) (place : UnlockPlace) (failed : Option (ℕ × Path))
deriving DecidableEq

/-- A process with its `PathLocks` objects. -/
structure LockProcess where
  /-- `lockedPaths`, the names of the lock files that the process has locked. -/
  lockedPaths : SortedSet Path
  objects : ℕ → PathLocks
  call : LockCall

/-- A process that has not locked anything. -/
def LockProcess.new : LockProcess := ⟨∅, fun _ => ⟨[], false⟩, .idle⟩

/-- The descriptor that is closed when an exception leaves `lockPaths`. -/
def LockPlace.fd : LockPlace → Option ℕ
  | .check => none
  | .opening old => old
  | .replacing fd _ => some fd
  | .tryLock fd => some fd
  | .waitLock fd => some fd
  | .stat fd => some fd

namespace LockProcess

variable {π : Type} [DecidableEq π]

/-- `lockPaths` on one path has succeeded. -/
def acquire (pr : LockProcess) (o : ℕ) (wait : Bool) (fd : ℕ) (path : Path) (todo : List Path) :
    LockProcess where
  lockedPaths := pr.lockedPaths.insert (lockPath path)
  objects := Function.update pr.objects o
    { pr.objects o with fds := (pr.objects o).fds ++ [(fd, lockPath path)] }
  call := .lockPaths o wait todo .check

/-- The end of `unlock`. -/
def clear (pr : LockProcess) (o : ℕ) : LockProcess :=
  { pr with
    objects := Function.update pr.objects o { pr.objects o with fds := [] }
    call := .idle }

/-- The next step of `lockPaths` for a path; `newFd` is the number that `open` returns. -/
def nextLock (pr : LockProcess) (k : Kernel π Path) (p : π) (newFd : ℕ) (o : ℕ) (wait : Bool)
    (path : Path) (todo : List Path) (place : LockPlace) : Option (Kernel π Path × LockProcess) :=
  let goto (place : LockPlace) : LockProcess :=
    { pr with call := .lockPaths o wait (path :: todo) place }
  match place with
  | .check =>
    -- "deadlock: trying to re-acquire self-held lock" leaves `lockPaths`
    if lockPath path ∈ pr.lockedPaths then some (k, { pr with call := .idle })
    else some (k, goto (.opening none))
  | .opening old =>
    if k.fds p newFd = none then
      some (k.openOrCreate p newFd (lockPath path),
        goto (match old with
          | none => .tryLock newFd
          | some old => .replacing newFd old))
    else none
  | .replacing fd old => some (k.close p old, goto (.tryLock fd))
  | .tryLock fd =>
    match k.setLock p fd .exclusive with
    | some k' => some (k', goto (.stat fd))
    | none =>
      if wait then some (k, goto (.waitLock fd))
      else
        some (k,
          { pr with call := .unlock o (pr.objects o).fds .release (some (fd, lockPath path)) })
  | .waitLock fd => (k.setLock p fd .exclusive).map fun k' => (k', goto (.stat fd))
  | .stat fd =>
    match k.fds p fd with
    | some f =>
      if k.data f.inode = [] then some (k, pr.acquire o wait fd path todo)
      else some (k, goto (.opening (some fd)))
    | none => none

/-- The next step of the call that a process is in. -/
def next (pr : LockProcess) (k : Kernel π Path) (p : π) (newFd : ℕ) :
    Option (Kernel π Path × LockProcess) :=
  match pr.call with
  | .idle => none
  | .lockPaths _ _ [] _ => some (k, { pr with call := .idle })
  | .lockPaths o wait (path :: todo) place => pr.nextLock k p newFd o wait path todo place
  | .unlock o [] _ none => some (k, pr.clear o)
  | .unlock o [] _ (some (fd, _)) => some (k.close p fd, pr.clear o)
  | .unlock o ((fd, n) :: todo) place failed =>
    match place with
    | .release =>
      if (pr.objects o).deletePaths then
        some (k.unlink n, { pr with call := .unlock o ((fd, n) :: todo) .mark failed })
      else some (k, { pr with call := .unlock o ((fd, n) :: todo) .close failed })
    | .mark =>
      some (k.write p fd (str "d"), { pr with call := .unlock o ((fd, n) :: todo) .close failed })
    | .close =>
      some (k.close p fd,
        { pr with
          lockedPaths := pr.lockedPaths.erase n
          call := .unlock o todo .release failed })

/-- An exception leaves `lockPaths`. -/
def throw (pr : LockProcess) (k : Kernel π Path) (p : π) : Option (Kernel π Path × LockProcess) :=
  match pr.call with
  | .lockPaths _ _ (_ :: _) (.replacing _ _) => none
  | .lockPaths _ _ (_ :: _) place =>
    some (match place.fd with
      | some fd => k.close p fd
      | none => k, { pr with call := .idle })
  | _ => none

/-- The process is between `unlink` and the mark. -/
def marking (pr : LockProcess) : Bool :=
  match pr.call with
  | .unlock _ (_ :: _) .mark _ => true
  | _ => false

end LockProcess

/-- Processes with the files that they share. -/
structure LockState (π : Type) where
  kernel : Kernel π Path
  procs : π → LockProcess

/-- What can happen. -/
inductive LockEvent (π : Type) where
  /-- A call of `lockPaths`. -/
  | lockPaths (p : π) (o : ℕ) (paths : PathSet) (wait : Bool)
  /-- A call of `unlock`, or of the destructor. -/
  | unlock (p : π) (o : ℕ)
  | setDeletion (p : π) (o : ℕ) (deletePaths : Bool)
  | next (p : π) (newFd : ℕ)
  | throw (p : π)
  /-- The end of a process; another process can get its identifier. -/
  | exit (p : π)

namespace LockState

variable {π : Type} [DecidableEq π]

/-- Change the files and one process. -/
def update (s : LockState π) (p : π) (r : Kernel π Path × LockProcess) : LockState π :=
  ⟨r.1, Function.update s.procs p r.2⟩

/-- The state after an event, if the event can happen. -/
def step (s : LockState π) : LockEvent π → Option (LockState π)
  | .lockPaths p o paths wait =>
    match (s.procs p).call with
    | .idle =>
      -- assert(fds.empty())
      if ((s.procs p).objects o).fds = [] then
        some (s.update p (s.kernel,
          { s.procs p with call := .lockPaths o wait paths.toList .check }))
      else none
    | _ => none
  | .unlock p o =>
    match (s.procs p).call with
    | .idle =>
      some (s.update p (s.kernel,
        { s.procs p with call := .unlock o ((s.procs p).objects o).fds .release none }))
    | _ => none
  | .setDeletion p o deletePaths =>
    match (s.procs p).call with
    | .idle =>
      some (s.update p (s.kernel,
        { s.procs p with
          objects := Function.update (s.procs p).objects o
            { (s.procs p).objects o with deletePaths } }))
    | _ => none
  | .next p newFd => ((s.procs p).next s.kernel p newFd).map (s.update p)
  | .throw p => ((s.procs p).throw s.kernel p).map (s.update p)
  | .exit p =>
    if (s.procs p).marking then none else some (s.update p (s.kernel.exit p, .new))

/-- The states before the first call: files of any contents, but nothing is open or locked. -/
structure Initial (s : LockState π) : Prop where
  named : s.kernel.NamesSound
  procs : ∀ p, s.procs p = .new
  closed : ∀ p fd, s.kernel.fds p fd = none
  unlocked : ∀ i, s.kernel.locks i = []

/-- The states after any sequence of events. -/
def Reachable (s : LockState π) : Prop :=
  ∃ s₀, Initial s₀ ∧ Relation.ReflTransGen (fun s s' => ∃ e, s.step e = some s') s₀ s

/-- The state after a sequence of events, if they can happen one after the other. -/
def run (s : LockState π) (events : List (LockEvent π)) : Option (LockState π) :=
  events.foldlM step s

/-- A process is between the end of a call of `lockPaths` on one of its objects and the call of
`unlock`, and the object has locked the path. -/
def Holds (s : LockState π) (p : π) (path : Path) : Prop :=
  ∃ o fd, (fd, lockPath path) ∈ ((s.procs p).objects o).fds ∧
    match (s.procs p).call with
    | .idle => True
    | .lockPaths o' _ _ _ => o' ≠ o
    | .unlock o' _ _ _ => o' ≠ o

end LockState

end Nix
