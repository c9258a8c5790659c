import NixStore.Lib.Prog
import NixStore.Store.Liveness

/-!
# The garbage collector

Model of `tryToDelete` and `collectGarbage` of `gc.cc`.  The mutable part of `GCState` is joined with
the database and the entries of the store directory; what stays fixed during a run is in `GCEnv`.  An
exception leaves the state as it is, which matters because deletions are not rolled back.  The
recursion of `tryToDelete` is bounded by an argument, and a run that needs a deeper one ends in
`outOfFuel`.

System calls fail only on missing files and, for `rename`, when the target exists and cannot be
replaced.  `collectGarbage` deletes the renamed directories after it has given up the global lock; no
other process acts on them here.  Left out is what comes last: the deletion of unused links, which are
no store paths, and the vacuuming of the database.  The field `log` is not in the source: it records
what a run does to paths.
-/

namespace Nix

/-- `GCOptions::GCAction`. -/
inductive GCAction where
  | gcReturnLive
  | gcReturnDead
  | gcDeleteDead
  | gcDeleteSpecific
deriving DecidableEq

/-- Model of `GCOptions`. -/
structure GCOptions where
  action : GCAction
  ignoreLiveness : Bool
  /-- For `gcDeleteSpecific`, the paths to delete. -/
  pathsToDelete : PathSet
  /-- Stop after at least this many bytes have been freed. -/
  maxFreed : UInt64

/-- The default constructor, with `maxFreed` set to `ULLONG_MAX`. -/
def GCOptions.default : GCOptions := ⟨.gcDeleteDead, false, ∅, 0xffffffffffffffff⟩

/-- What `lstat` tells about an entry of the store directory, and the bytes its deletion frees. -/
structure StoreEntry where
  isDir : Bool
  size : UInt64
deriving DecidableEq

/-- What happens to a path. -/
inductive GCEvent where
  | invalidate (path : Path)
  | delete (path : Path)
  | rename (path : Path)
deriving DecidableEq

/-- The path that an event is about. -/
def GCEvent.path : GCEvent → Path
  | invalidate p => p
  | delete p => p
  | rename p => p

/-- The fixed part of `GCState`, and the parts of the surroundings that a run depends on. -/
structure GCEnv where
  cfg : StoreConfig
  options : GCOptions
  roots : PathSet
  tempRoots : PathSet
  keep : KeepFlags
  /-- `getpid()` in decimal. -/
  pid : Str
  /-- Whether `rename` can replace an existing entry. -/
  replaces : Path → Bool

/-- The part of `GCState` that changes, with the database and the store directory. -/
structure GCState where
  db : Database
  disk : SortedMap Path StoreEntry
  deleted : PathSet
  live : PathSet
  invalidated : PathSet
  bytesInvalidated : UInt64
  /-- `results.paths` -/
  paths : PathSet
  /-- `results.bytesFreed` -/
  bytesFreed : UInt64
  log : List GCEvent

/-- The state at the beginning of a run. -/
def GCState.init (db : Database) (disk : SortedMap Path StoreEntry) : GCState :=
  ⟨db, disk, ∅, ∅, ∅, 0, ∅, 0, []⟩

/-- Why a call of `tryToDelete` does not return. -/
inductive GCStop where
  /-- `GCLimitReached` -/
  | limitReached
  /-- Another exception. -/
  | error (msg : Str)
  /-- The recursion is deeper than the bound. -/
  | outOfFuel
deriving DecidableEq

/-- Programs of the collector. -/
abbrev GCM := Prog GCState GCStop

/-- An operation on the database inside of the collector. -/
def GCM.lift {α : Type} : Outcome Str α → GCM α
  | .ok a => pure a
  | .error e => .throw (.error e)
  | .diverge => .throw .outOfFuel

/-- `settings.nixStore + "/.links"` -/
def linksDir (cfg : StoreConfig) : Path := cfg.nixStore ++ str "/.links"

/-- Model of `shouldDelete`. -/
def shouldDelete (action : GCAction) : Bool :=
  action = .gcDeleteDead || action = .gcDeleteSpecific

section

variable (env : GCEnv)

/-- Model of `isActiveTempFile`. -/
def isActiveTempFile (path : Path) (suffix : Str) : Bool :=
  Str.hasSuffix path suffix && decide (path.take (path.length - suffix.length) ∈ env.tempRoots)

/-- Model of `deleteGarbage`. -/
def deleteGarbage (path : Path) : GCM Unit := do
  let s ← Prog.get
  match s.disk.find? path with
  | none => .throw (.error (str "getting status of `" ++ path ++ str "'"))
  | some entry =>
    Prog.modify fun s => { s with
      disk := s.disk.erase path
      bytesFreed := s.bytesFreed + entry.size
      log := s.log ++ [.delete path] }

/-- The paths that `p` adds to `todo`: its valid outputs and its valid derivers. -/
def keptByPaths (db : Database) (p : Path) : Outcome Str (List Path) := do
  let outputs ←
    if env.keep.gcKeepDerivations && isDerivation p then do
      let outputs ← db.queryDerivationOutputs p
      pure (outputs.toList.filter db.isValidPath)
    else pure []
  let derivers := if env.keep.gcKeepOutputs then (db.queryValidDerivers p).toList else []
  return outputs ++ derivers

/-- The loop of `tryToDelete` that adds derivers and outputs to `paths`. -/
def closePaths (db : Database) : ℕ → PathSet → PathSet → Outcome Str PathSet
  | 0, _, _ => .diverge
  | n + 1, todo, paths =>
    match todo.toList with
    | [] => .ok paths
    | p :: _ => do
      assertStorePath env.cfg p
      let todo := todo.erase p
      if p ∈ paths then closePaths db n todo paths
      else
        let more ← keptByPaths env db p
        closePaths db n (more.foldl SortedSet.insert todo) (paths.insert p)

/-- The set `paths` of `tryToDelete`. -/
def pathsOf (db : Database) (path : Path) : Outcome Str PathSet :=
  if db.isValidPath path then
    closePaths env db ((db.validPaths.length + 1) * (db.validPaths.length + 1) + 1)
      (SortedSet.insert ∅ path) ∅
  else .ok (SortedSet.insert ∅ path)

/-- The referrers of a set of paths. -/
def referrersOf (db : Database) (paths : PathSet) : PathSet :=
  .ofList (paths.toList.flatMap fun p => (db.queryReferrers p).toList)

/-- The label `isLive` of `tryToDelete`. -/
def markLive (paths : PathSet) (s : GCState) : GCState :=
  { s with
    live := paths.toList.foldl SortedSet.insert s.live
    paths := if env.options.action = .gcReturnLive then paths.toList.foldl SortedSet.insert s.paths
      else s.paths }

/-- `queryPathInfo(path).narSize`, where null yields 0. -/
def narSizeOf (db : Database) (path : Path) : UInt64 :=
  match db.row? path with
  | some r => (r.narSize.map UInt64.ofNat).getD 0
  | none => 0

/-- `invalidatePathChecked` inside of the collector. -/
def invalidate (path : Path) : GCM Unit := do
  let s ← Prog.get
  let db ← GCM.lift (s.db.invalidatePathChecked env.cfg path)
  Prog.modify fun s => { s with db := db, log := s.log ++ [.invalidate path] }

/-- The name of a path that waits for its deletion. -/
def tmpName (path : Path) : Path := path ++ str "-gc-" ++ env.pid

/-- The renaming of a path; `chmod` before it fails on a missing file. -/
def renameAway (path : Path) : GCM Unit := do
  let s ← Prog.get
  match s.disk.find? path with
  | none => .throw (.error (str "making `" ++ path ++ str "' writable"))
  | some entry =>
    let tmp := tmpName env path
    if tmp ∈ s.disk ∧ env.replaces tmp = false then
      .throw (.error (str "unable to rename `" ++ path ++ str "' to `" ++ tmp ++ str "'"))
    else
      Prog.modify fun s => { s with
        disk := (s.disk.erase path).insert tmp entry
        invalidated := s.invalidated.insert tmp
        log := s.log ++ [.rename path] }

/-- The removal of a member of `paths`.  All members are treated by the type `st` of the path from
which `paths` was computed. -/
def removePath (st : StoreEntry) (i : Path) : GCM Unit := do
  let s ← Prog.get
  if s.db.isValidPath i then
    if st.isDir then
      Prog.modify fun s => { s with bytesInvalidated := s.bytesInvalidated + narSizeOf s.db i }
      invalidate env i
      renameAway env i
    else
      invalidate env i
      deleteGarbage i
  else deleteGarbage i

/-- The check of `maxFreed` after the removal of a path. -/
def checkLimit : GCM Unit := do
  let s ← Prog.get
  if s.bytesFreed + s.bytesInvalidated > env.options.maxFreed then .throw .limitReached
  else return ()

/-- A path has been deleted, or would have been. -/
def markDeleted (i : Path) (s : GCState) : GCState :=
  { s with
    deleted := s.deleted.insert i
    paths := if env.options.action ≠ .gcReturnLive then s.paths.insert i else s.paths }

/-- The body of the deletion loop of `tryToDelete`. -/
def deletePath (st : StoreEntry) (i : Path) : GCM Unit := do
  if shouldDelete env.options.action then
    removePath env st i
    checkLimit env
    Prog.modify (markDeleted env i)
  else Prog.modify (markDeleted env i)

/-- The deletion loop of `tryToDelete`. -/
def deletePaths (st : StoreEntry) (paths : PathSet) : GCM Unit := do
  let s ← Prog.get
  let pathsSorted ← GCM.lift (topoSortPaths s.db.references paths)
  Prog.each (deletePath env st) pathsSorted

/-- Model of `tryToDelete`. -/
def tryToDelete : ℕ → Path → GCM Bool
  | 0, _ => .throw .outOfFuel
  | n + 1, path => do
    let s ← Prog.get
    if path = linksDir env.cfg then return true
    else
      match s.disk.find? path with
      | none => return true
      | some st =>
        if path ∈ s.deleted then return true
        else if path ∈ s.live then return false
        else if s.db.isValidPath path = false ∧
            (isActiveTempFile env path (str ".lock") = true ∨
              isActiveTempFile env path (str ".chroot") = true) then return false
        else
          let paths ← GCM.lift (pathsOf env s.db path)
          if ∃ i ∈ paths.toList, i ∈ env.roots then
            Prog.modify (markLive env paths)
            return false
          else
            let referrers := (referrersOf s.db paths).toList.filter fun i => i ∉ paths
            if ← Prog.all (tryToDelete n) referrers then
              deletePaths env st paths
              return true
            else
              Prog.modify (markLive env paths)
              return false

end

/-- The settings that the collector reads. -/
structure GCSettings where
  cfg : StoreConfig
  keep : KeepFlags
  pid : Str
  replaces : Path → Bool

/-- What `collectGarbage` sets up before it looks at paths.  The permanent roots are those that
`findRoots` and `addAdditionalRoots` return. -/
def gcEnv (settings : GCSettings) (options : GCOptions) (permRoots tempRoots : PathSet) : GCEnv where
  cfg := settings.cfg
  options := options
  roots := tempRoots.toList.foldl SortedSet.insert (if options.ignoreLiveness then ∅ else permRoots)
  tempRoots := tempRoots
  keep :=
    if options.action = .gcDeleteSpecific ∧ options.ignoreLiveness = true then ⟨false, false⟩
    else settings.keep
  pid := settings.pid
  replaces := settings.replaces

/-- The branch of `collectGarbage` for `gcDeleteSpecific`. -/
def deleteSpecific (env : GCEnv) (fuel : ℕ) : GCM Unit :=
  Prog.each (fun i => do
    GCM.lift (assertStorePath env.cfg i)
    if ← tryToDelete env fuel i then return ()
    else .throw (.error (str "cannot delete path `" ++ i ++ str "' since it is still alive")))
    env.options.pathsToDelete.toList

/-- One round of the loop of `collectGarbage` that reads the store directory: valid entries are
collected, others are deleted at once. -/
def readEntry (env : GCEnv) (fuel : ℕ) (path : Path) (entries : List Path) : GCM (List Path) := do
  let s ← Prog.get
  if s.db.isValidPath path then return entries ++ [path]
  else
    let _ ← tryToDelete env fuel path
    return entries

/-- The loop of `collectGarbage` that reads the store directory. -/
def readEntries (env : GCEnv) (fuel : ℕ) : List Path → List Path → GCM (List Path)
  | [], entries => pure entries
  | path :: rest, entries => do
    let entries ← readEntry env fuel path entries
    readEntries env fuel rest entries

/-- The branch of `collectGarbage` that looks at all entries of the store.  `dirents` are the entries
in the order of `readdir`, and `shuffle` is `random_shuffle`. -/
def deleteEntries (env : GCEnv) (fuel : ℕ) (dirents : List Path) (shuffle : List Path → List Path) :
    GCM Unit := do
  let entries ← readEntries env fuel dirents []
  Prog.each (fun i => do
    let _ ← tryToDelete env fuel i
    return ()) (shuffle entries)

/-- What `collectGarbage` does while it holds the global lock; only the second branch catches
`GCLimitReached`. -/
def collectUnderLock (settings : GCSettings) (options : GCOptions) (permRoots tempRoots : PathSet)
    (fuel : ℕ) (dirents : List Path) (shuffle : List Path → List Path) : GCM Unit :=
  let env := gcEnv settings options permRoots tempRoots
  if options.action = .gcDeleteSpecific then deleteSpecific env fuel
  else if options.maxFreed > 0 then
    Prog.catching (fun e => e = .limitReached) (deleteEntries env fuel dirents shuffle)
  else pure ()

/-- The loop of `collectGarbage` that deletes the renamed paths. -/
def deleteInvalidated : GCM Unit := do
  let s ← Prog.get
  Prog.each deleteGarbage s.invalidated.toList

/-- Model of `collectGarbage`. -/
def collectGarbage (settings : GCSettings) (options : GCOptions) (permRoots tempRoots : PathSet)
    (fuel : ℕ) (dirents : List Path) (shuffle : List Path → List Path) : GCM Unit := do
  collectUnderLock settings options permRoots tempRoots fuel dirents shuffle
  deleteInvalidated

end Nix
