import NixStore.Store.Gc
import NixStore.Store.WorkerStderr
import NixStore.Util.Archive
import NixStore.Util.Paths

/-!
# The operations of the daemon

Model of the operations of `RemoteStore` and of the cases of `performOp`, as far as they read and
write: the bytes that the client sends for an operation, how the daemon reads its arguments, the bytes
of the reply, and how the client reads the result.  What the local store of the daemon returns for an
operation can be anything.

The model is of the version that both sides send.  What they do for each other's older versions is
left out where it is another operation.
-/

namespace Nix

variable {κ : Type}

/-! ### Strings and paths -/

/-- Model of `writeStrings`. -/
def writeStrings (ss : List Str) : Str := writeInt ss.length ++ ss.flatMap writeString

/-- The loop of `readStrings`. -/
def readStringsLoop : ℕ → SourceM κ (List Str)
  | 0 => pure []
  | count + 1 => do
    let s ← readString
    let ss ← readStringsLoop count
    return s :: ss

/-- Model of `readStrings` for a list. -/
def readStringList : SourceM κ (List Str) := do
  let count ← readInt
  readStringsLoop count

/-- Model of `readStrings` for a set. -/
def readStrings : SourceM κ (SortedSet Str) := do
  let ss ← readStringList
  return .ofList ss

/-- A computation that reads nothing. -/
def SourceM.ofOutcome {α : Type} : Outcome Str α → SourceM κ α
  | .ok a => pure a
  | .error e => .throw (.error e)
  | .diverge => .throw .outOfFuel

section

variable (cfg : StoreConfig)

/-- Model of `readStorePath`. -/
def readStorePath : SourceM κ Path := do
  let path ← readString
  .ofOutcome (assertStorePath cfg path)
  return path

/-- The loop of `readStorePaths` that checks the paths. -/
def assertStorePaths : List Path → SourceM κ Unit
  | [] => pure ()
  | path :: paths => do
    .ofOutcome (assertStorePath cfg path)
    assertStorePaths paths

/-- Model of `readStorePaths` for a set. -/
def readStorePaths : SourceM κ PathSet := do
  let paths ← readStrings
  assertStorePaths cfg paths.toList
  return paths

/-- Model of `readStorePaths` for a list. -/
def readStorePathList : SourceM κ (List Path) := do
  let paths ← readStringList
  assertStorePaths cfg paths
  return paths

/-- A path that can be missing. -/
def readOptionalPath : SourceM κ Path := do
  let path ← readString
  if path ≠ [] then .ofOutcome (assertStorePath cfg path)
  return path

end

/-! ### Operations -/

/-- Model of `WorkerOp`, without `wopQuit`, which is disabled, and without the two operations that only
clients of an older version use. -/
inductive WorkerOp where
  | wopIsValidPath
  | wopQueryPathHash
  | wopQueryReferences
  | wopQueryReferrers
  | wopAddToStore
  | wopAddTextToStore
  | wopBuildPaths
  | wopEnsurePath
  | wopAddTempRoot
  | wopAddIndirectRoot
  | wopSyncWithGC
  | wopFindRoots
  | wopExportPath
  | wopQueryDeriver
  | wopSetOptions
  | wopCollectGarbage
  | wopQueryDerivationOutputs
  | wopQueryAllValidPaths
  | wopQueryFailedPaths
  | wopClearFailedPaths
  | wopQueryPathInfo
  | wopImportPaths
  | wopQueryDerivationOutputNames
  | wopQueryPathFromHashPart
  | wopQuerySubstitutablePathInfos
  | wopQueryValidPaths
  | wopQuerySubstitutablePaths
deriving DecidableEq

/-- The number of an operation. -/
def WorkerOp.toNat : WorkerOp → ℕ
  | wopIsValidPath => 1
  | wopQueryPathHash => 4
  | wopQueryReferences => 5
  | wopQueryReferrers => 6
  | wopAddToStore => 7
  | wopAddTextToStore => 8
  | wopBuildPaths => 9
  | wopEnsurePath => 10
  | wopAddTempRoot => 11
  | wopAddIndirectRoot => 12
  | wopSyncWithGC => 13
  | wopFindRoots => 14
  | wopExportPath => 16
  | wopQueryDeriver => 18
  | wopSetOptions => 19
  | wopCollectGarbage => 20
  | wopQueryDerivationOutputs => 22
  | wopQueryAllValidPaths => 23
  | wopQueryFailedPaths => 24
  | wopClearFailedPaths => 25
  | wopQueryPathInfo => 26
  | wopImportPaths => 27
  | wopQueryDerivationOutputNames => 28
  | wopQueryPathFromHashPart => 29
  | wopQuerySubstitutablePathInfos => 30
  | wopQueryValidPaths => 31
  | wopQuerySubstitutablePaths => 32

/-- The settings that `setOptions` sends; enumerations are numbers, as in the cast of the daemon. -/
structure WorkerOptions where
  keepFailed : Bool
  keepGoing : Bool
  tryFallback : Bool
  verbosity : UInt32
  maxBuildJobs : UInt32
  /-- A `time_t`. -/
  maxSilentTime : ℤ
  useBuildHook : Bool
  buildVerbosity : UInt32
  logType : UInt32
  printBuildTrace : Bool
  buildCores : UInt32
  useSubstitutes : Bool
  overrides : SortedMap Str Str

/-- The file that the client adds to the store. -/
structure SourceFile where
  /-- `srcPath`, an absolute path. -/
  path : Path
  filter : PathFilter
  tree : FileTree

/-- The file that the daemon adds to the store: the arguments of `addToStoreFromDump`. -/
structure DumpedFile where
  dump : Str
  baseName : Str
deriving DecidableEq

/-- An operation with its arguments; `φ` are the files that can be added. -/
inductive WorkerRequest (φ : Type) where
  | isValidPath (path : Path)
  | queryValidPaths (paths : PathSet)
  | querySubstitutablePaths (paths : PathSet)
  | queryPathHash (path : Path)
  | queryReferences (path : Path)
  | queryReferrers (path : Path)
  | queryDerivationOutputs (path : Path)
  | queryDerivationOutputNames (path : Path)
  | queryDeriver (path : Path)
  | queryPathFromHashPart (hashPart : Str)
  | addToStore (file : φ) (recursive : Bool) (hashAlgo : HashType)
  | addTextToStore (name s : Str) (references : PathSet)
  | exportPath (path : Path) (sign : Bool)
  | importPaths
  | buildPaths (drvPaths : PathSet)
  | ensurePath (path : Path)
  | addTempRoot (path : Path)
  | addIndirectRoot (path : Path)
  | syncWithGC
  | findRoots
  | collectGarbage (options : GCOptions)
  | setOptions (options : WorkerOptions)
  | querySubstitutablePathInfos (paths : PathSet)
  | queryAllValidPaths
  | queryFailedPaths
  | clearFailedPaths (paths : PathSet)
  | queryPathInfo (path : Path)

/-- Model of `GCResults`. -/
structure GCResults where
  paths : PathSet
  bytesFreed : UInt64

/-- What an operation returns. -/
def WorkerRequest.Reply {φ : Type} : WorkerRequest φ → Type
  | isValidPath _ => Bool
  | queryValidPaths _ => PathSet
  | querySubstitutablePaths _ => PathSet
  | queryPathHash _ => Hash
  | queryReferences _ => PathSet
  | queryReferrers _ => PathSet
  | queryDerivationOutputs _ => PathSet
  | queryDerivationOutputNames _ => SortedSet Str
  | queryDeriver _ => Path
  | queryPathFromHashPart _ => Path
  | addToStore _ _ _ => Path
  | addTextToStore _ _ _ => Path
  | exportPath _ _ => Unit
  | importPaths => List Path
  | buildPaths _ => Unit
  | ensurePath _ => Unit
  | addTempRoot _ => Unit
  | addIndirectRoot _ => Unit
  | syncWithGC => Unit
  | findRoots => SortedMap Path Path
  | collectGarbage _ => GCResults
  | setOptions _ => Unit
  | querySubstitutablePathInfos _ => SortedMap Path SubstitutablePathInfo
  | queryAllValidPaths => PathSet
  | queryFailedPaths => PathSet
  | clearFailedPaths _ => Unit
  | queryPathInfo _ => ValidPathInfo

/-! ### The client -/

/-- A `bool` as a number. -/
def writeBool (b : Bool) : Str := writeInt b.toNat

/-- The conversion of a `time_t` to `unsigned int`. -/
def writeTime (t : ℤ) : Str := writeInt (t % 2 ^ 32).toNat

/-- The numbers of `GCAction`. -/
def GCAction.toNat : GCAction → ℕ
  | .gcReturnLive => 0
  | .gcReturnDead => 1
  | .gcDeleteDead => 2
  | .gcDeleteSpecific => 3

/-- A loop that writes the entries of a map, behind their number. -/
def writeMapEntries {α β : Type} [LinearOrder α] (item : α × β → Str) (m : SortedMap α β) : Str :=
  writeInt m.entries.length ++ m.entries.flatMap item

/-- What the client sends in `setOptions` behind the operation. -/
def writeOptions (daemonVersion : ℕ) (o : WorkerOptions) : Str :=
  writeBool o.keepFailed ++ (writeBool o.keepGoing ++ (writeBool o.tryFallback ++
    (writeInt o.verbosity.toNat ++ (writeInt o.maxBuildJobs.toNat ++ (writeTime o.maxSilentTime ++
    ((if GET_PROTOCOL_MINOR daemonVersion ≥ 2 then writeBool o.useBuildHook else []) ++
    ((if GET_PROTOCOL_MINOR daemonVersion ≥ 4 then
      writeInt o.buildVerbosity.toNat ++ (writeInt o.logType.toNat ++ writeBool o.printBuildTrace)
      else []) ++
    ((if GET_PROTOCOL_MINOR daemonVersion ≥ 6 then writeInt o.buildCores.toNat else []) ++
    ((if GET_PROTOCOL_MINOR daemonVersion ≥ 10 then writeBool o.useSubstitutes else []) ++
    (if GET_PROTOCOL_MINOR daemonVersion ≥ 12 then
      writeMapEntries (fun e => writeString e.1 ++ writeString e.2) o.overrides
      else []))))))))))

/-- What the client sends in `collectGarbage` behind the operation. -/
def writeGCOptions (daemonVersion : ℕ) (options : GCOptions) : Str :=
  writeInt options.action.toNat ++ (writeStrings options.pathsToDelete.toList ++
    (writeBool options.ignoreLiveness ++ (writeLongLong options.maxFreed.toNat ++ (writeInt 0 ++
    (if GET_PROTOCOL_MINOR daemonVersion ≥ 5 then writeInt 0 ++ writeInt 0 else [])))))

/-- The operations that the client answers without the daemon, with the result:
`querySubstitutablePathInfos` returns at once if there are no paths to ask about. -/
def WorkerRequest.early? {φ : Type} : (r : WorkerRequest φ) → Option r.Reply
  | .querySubstitutablePathInfos paths =>
    if paths.toList = [] then some (∅ : SortedMap Path SubstitutablePathInfo) else none
  | _ => none

/-- What the client sends for an operation, unless it answers without the daemon. -/
def writeRequest (daemonVersion : ℕ) : WorkerRequest SourceFile → Outcome Str Str
  | .isValidPath path => .ok (writeInt WorkerOp.wopIsValidPath.toNat ++ writeString path)
  | .queryValidPaths paths =>
    .ok (writeInt WorkerOp.wopQueryValidPaths.toNat ++ writeStrings paths.toList)
  | .querySubstitutablePaths paths =>
    .ok (writeInt WorkerOp.wopQuerySubstitutablePaths.toNat ++ writeStrings paths.toList)
  | .queryPathHash path => .ok (writeInt WorkerOp.wopQueryPathHash.toNat ++ writeString path)
  | .queryReferences path => .ok (writeInt WorkerOp.wopQueryReferences.toNat ++ writeString path)
  | .queryReferrers path => .ok (writeInt WorkerOp.wopQueryReferrers.toNat ++ writeString path)
  | .queryDerivationOutputs path =>
    .ok (writeInt WorkerOp.wopQueryDerivationOutputs.toNat ++ writeString path)
  | .queryDerivationOutputNames path =>
    .ok (writeInt WorkerOp.wopQueryDerivationOutputNames.toNat ++ writeString path)
  | .queryDeriver path => .ok (writeInt WorkerOp.wopQueryDeriver.toNat ++ writeString path)
  | .queryPathFromHashPart hashPart =>
    .ok (writeInt WorkerOp.wopQueryPathFromHashPart.toNat ++ writeString hashPart)
  | .addToStore file recursive hashAlgo => do
    let baseName ← baseNameOf file.path
    let algo ← printHashType hashAlgo
    .ok (writeInt WorkerOp.wopAddToStore.toNat ++ (writeString baseName ++
      -- backwards compatibility hack
      (writeInt (if hashAlgo = .htSHA256 ∧ recursive = true then 0 else 1) ++
      (writeInt (if recursive then 1 else 0) ++ (writeString algo ++
      dumpPath file.path file.filter file.tree)))))
  | .addTextToStore name s references =>
    .ok (writeInt WorkerOp.wopAddTextToStore.toNat ++ (writeString name ++ (writeString s ++
      writeStrings references.toList)))
  | .exportPath path sign =>
    .ok (writeInt WorkerOp.wopExportPath.toNat ++ (writeString path ++
      writeInt (if sign then 1 else 0)))
  | .importPaths => .ok (writeInt WorkerOp.wopImportPaths.toNat)
  | .buildPaths drvPaths =>
    .ok (writeInt WorkerOp.wopBuildPaths.toNat ++ writeStrings drvPaths.toList)
  | .ensurePath path => .ok (writeInt WorkerOp.wopEnsurePath.toNat ++ writeString path)
  | .addTempRoot path => .ok (writeInt WorkerOp.wopAddTempRoot.toNat ++ writeString path)
  | .addIndirectRoot path => .ok (writeInt WorkerOp.wopAddIndirectRoot.toNat ++ writeString path)
  | .syncWithGC => .ok (writeInt WorkerOp.wopSyncWithGC.toNat)
  | .findRoots => .ok (writeInt WorkerOp.wopFindRoots.toNat)
  | .collectGarbage options =>
    .ok (writeInt WorkerOp.wopCollectGarbage.toNat ++ writeGCOptions daemonVersion options)
  | .setOptions options =>
    .ok (writeInt WorkerOp.wopSetOptions.toNat ++ writeOptions daemonVersion options)
  | .querySubstitutablePathInfos paths =>
    .ok (writeInt WorkerOp.wopQuerySubstitutablePathInfos.toNat ++ writeStrings paths.toList)
  | .queryAllValidPaths => .ok (writeInt WorkerOp.wopQueryAllValidPaths.toNat)
  | .queryFailedPaths => .ok (writeInt WorkerOp.wopQueryFailedPaths.toNat)
  | .clearFailedPaths paths =>
    .ok (writeInt WorkerOp.wopClearFailedPaths.toNat ++ writeStrings paths.toList)
  | .queryPathInfo path => .ok (writeInt WorkerOp.wopQueryPathInfo.toNat ++ writeString path)

/-- A loop that reads the entries of a map. -/
def readMapEntries {α β : Type} [LinearOrder α] (item : SourceM κ (α × β)) :
    ℕ → SortedMap α β → SourceM κ (SortedMap α β)
  | 0, m => pure m
  | count + 1, m => do
    let e ← item
    readMapEntries item count (m.insert e.1 e.2)

/-- One round of the loop of `findRoots` over the reply. -/
def readRoot (cfg : StoreConfig) : SourceM κ (Path × Path) := do
  let link ← readString
  let target ← readStorePath cfg
  return (link, target)

/-- One round of the loop of `querySubstitutablePathInfos` over the reply. -/
def readSubstitutablePathInfo (cfg : StoreConfig) : SourceM κ (Path × SubstitutablePathInfo) := do
  let path ← readStorePath cfg
  let deriver ← readOptionalPath cfg
  let references ← readStorePaths cfg
  let downloadSize ← readLongLong
  let narSize ← readLongLong
  return (path, ⟨deriver, references, UInt64.ofNat downloadSize, UInt64.ofNat narSize⟩)

/-- `readInt(from)` where the number does not matter. -/
def readDone : SourceM κ Unit := do
  let _ ← readInt
  return ()

/-- How the client reads the reply. -/
def readReply (cfg : StoreConfig) : (r : WorkerRequest SourceFile) → SourceM κ r.Reply
  | .isValidPath _ => do
    let reply ← readInt
    return (reply ≠ 0 : Bool)
  | .queryValidPaths _ => readStorePaths cfg
  | .querySubstitutablePaths _ => readStorePaths cfg
  | .queryPathHash _ => do
    let hash ← readString
    .ofOutcome (parseHash .htSHA256 hash)
  | .queryReferences _ => readStorePaths cfg
  | .queryReferrers _ => readStorePaths cfg
  | .queryDerivationOutputs _ => readStorePaths cfg
  | .queryDerivationOutputNames _ => readStrings
  | .queryDeriver _ => readOptionalPath cfg
  | .queryPathFromHashPart _ => readOptionalPath cfg
  | .addToStore _ _ _ => readStorePath cfg
  | .addTextToStore _ _ _ => readStorePath cfg
  | .exportPath _ _ => readDone
  | .importPaths => readStorePathList cfg
  | .buildPaths _ => readDone
  | .ensurePath _ => readDone
  | .addTempRoot _ => readDone
  | .addIndirectRoot _ => readDone
  | .syncWithGC => readDone
  | .findRoots => do
    let count ← readInt
    readMapEntries (readRoot cfg) count ∅
  | .collectGarbage _ => do
    let paths ← readStrings
    let bytesFreed ← readLongLong
    let _ ← readLongLong -- obsolete
    return ⟨paths, UInt64.ofNat bytesFreed⟩
  | .setOptions _ => pure ()
  | .querySubstitutablePathInfos _ => do
    let count ← readInt
    readMapEntries (readSubstitutablePathInfo cfg) count ∅
  | .queryAllValidPaths => readStorePaths cfg
  | .queryFailedPaths => readStorePaths cfg
  | .clearFailedPaths _ => readDone
  | .queryPathInfo path => do
    let deriver ← readOptionalPath cfg
    let hash ← readString
    let hash ← .ofOutcome (parseHash .htSHA256 hash)
    let references ← readStorePaths cfg
    let registrationTime ← readInt
    let narSize ← readLongLong
    return ⟨path, deriver, hash, references, registrationTime, narSize⟩

/-! ### The daemon -/

/-- The operation with a number. -/
def WorkerOp.ofNat? : ℕ → Option WorkerOp
  | 1 => some wopIsValidPath
  | 4 => some wopQueryPathHash
  | 5 => some wopQueryReferences
  | 6 => some wopQueryReferrers
  | 7 => some wopAddToStore
  | 8 => some wopAddTextToStore
  | 9 => some wopBuildPaths
  | 10 => some wopEnsurePath
  | 11 => some wopAddTempRoot
  | 12 => some wopAddIndirectRoot
  | 13 => some wopSyncWithGC
  | 14 => some wopFindRoots
  | 16 => some wopExportPath
  | 18 => some wopQueryDeriver
  | 19 => some wopSetOptions
  | 20 => some wopCollectGarbage
  | 22 => some wopQueryDerivationOutputs
  | 23 => some wopQueryAllValidPaths
  | 24 => some wopQueryFailedPaths
  | 25 => some wopClearFailedPaths
  | 26 => some wopQueryPathInfo
  | 27 => some wopImportPaths
  | 28 => some wopQueryDerivationOutputNames
  | 29 => some wopQueryPathFromHashPart
  | 30 => some wopQuerySubstitutablePathInfos
  | 31 => some wopQueryValidPaths
  | 32 => some wopQuerySubstitutablePaths
  | _ => none

/-- The base class of sinks, which does nothing. -/
def nullSink : ParseSink Unit where
  createDirectory _ := pure ()
  createRegularFile _ := pure ()
  isExecutable := pure ()
  preallocateContents _ := pure ()
  receiveContents _ := pure ()
  createSymlink _ _ := pure ()

/-- Model of `RetrieveRegularNARSink`: `regular` and `s`. -/
def retrieveRegularNARSink : ParseSink (Bool × Str) where
  createDirectory _ := Prog.modify fun k => (false, k.2)
  createRegularFile _ := pure ()
  isExecutable := pure ()
  preallocateContents _ := pure ()
  receiveContents data := Prog.modify fun k => (k.1, k.2 ++ data)
  createSymlink _ _ := Prog.modify fun k => (false, k.2)

/-- Read with a sink of its own, which is returned.  As for `restorePath`, the number of bytes in the
source bounds the depth of the parser. -/
def parseDumpWith {ρ : Type} (sink : ParseSink ρ) (init : ρ) : SourceM κ ρ := fun s =>
  match parseDump sink s.source.rest.length ⟨s.source, init⟩ with
  | (.ok (), s') => (.ok s'.other, ⟨s'.source, s.other⟩)
  | (.error e, s') => (.error e, ⟨s'.source, s.other⟩)

/-- Reading through a `SavingSourceAdapter`: the bytes that were read are returned. -/
def saving (m : SourceM κ Unit) : SourceM κ Str := fun s =>
  match m s with
  | (.ok (), s') => (.ok (s.source.rest.take (s.source.rest.length - s'.source.rest.length)), s')
  | (.error e, s') => (.error e, s')

/-- The arguments of `wopAddToStore`. -/
def readAddToStore : SourceM κ (WorkerRequest DumpedFile) := do
  let baseName ← readString
  let fixed ← readInt
  let recursive ← readInt
  let s ← readString
  -- compatibility hack
  let s := if fixed = 1 then s else str "sha256"
  let recursive : Bool := if fixed = 1 then recursive = 1 else true
  let hashAlgo := parseHashType s
  if recursive then
    let dump ← saving (do
      parseDumpWith nullSink ()
      return ())
    return .addToStore ⟨dump, baseName⟩ true hashAlgo
  else
    let (regular, contents) ← parseDumpWith retrieveRegularNARSink (true, [])
    if regular then return .addToStore ⟨contents, baseName⟩ false hashAlgo
    else .throw (.error (str "regular file expected"))

/-- A number that is not 0. -/
def readFlag : SourceM κ Bool := do
  let n ← readInt
  return (n ≠ 0 : Bool)

/-- A number as an `unsigned int`. -/
def readUInt : SourceM κ UInt32 := do
  let n ← readInt
  return UInt32.ofNat n

/-- One round of the loop of `wopSetOptions` over the overrides. -/
def readOverride : SourceM κ (Str × Str) := do
  let name ← readString
  let value ← readString
  return (name, value)

/-- The arguments of `wopSetOptions`; what older clients do not send has no value. -/
def readOptions (clientVersion : ℕ) (old : WorkerOptions) : SourceM κ WorkerOptions := do
  let keepFailed ← readFlag
  let keepGoing ← readFlag
  let tryFallback ← readFlag
  let verbosity ← readUInt
  let maxBuildJobs ← readUInt
  let maxSilentTime ← readInt
  let useBuildHook ←
    if GET_PROTOCOL_MINOR clientVersion ≥ 2 then readFlag else pure old.useBuildHook
  let (buildVerbosity, logType, printBuildTrace) ←
    if GET_PROTOCOL_MINOR clientVersion ≥ 4 then do
      let buildVerbosity ← readUInt
      let logType ← readUInt
      let printBuildTrace ← readFlag
      pure (buildVerbosity, logType, printBuildTrace)
    else pure (old.buildVerbosity, old.logType, old.printBuildTrace)
  let buildCores ← if GET_PROTOCOL_MINOR clientVersion ≥ 6 then readUInt else pure old.buildCores
  let useSubstitutes ←
    if GET_PROTOCOL_MINOR clientVersion ≥ 10 then readFlag else pure old.useSubstitutes
  let overrides ←
    if GET_PROTOCOL_MINOR clientVersion ≥ 12 then do
      let n ← readInt
      readMapEntries readOverride n ∅
    else pure ∅
  return ⟨keepFailed, keepGoing, tryFallback, verbosity, maxBuildJobs, maxSilentTime, useBuildHook,
    buildVerbosity, logType, printBuildTrace, buildCores, useSubstitutes, overrides⟩

/-- The cast of a number to `GCAction`; other numbers are not sent. -/
def gcAction : ℕ → GCAction
  | 0 => .gcReturnLive
  | 1 => .gcReturnDead
  | 2 => .gcDeleteDead
  | _ => .gcDeleteSpecific

/-- The arguments of `wopCollectGarbage`. -/
def readGCOptions (cfg : StoreConfig) (clientVersion : ℕ) : SourceM κ GCOptions := do
  let action ← readInt
  let pathsToDelete ← readStorePaths cfg
  let ignoreLiveness ← readFlag
  let maxFreed ← readLongLong
  readDone -- obsolete field
  if GET_PROTOCOL_MINOR clientVersion ≥ 5 then
    -- removed options
    readDone
    readDone
  return ⟨gcAction action, ignoreLiveness, pathsToDelete, UInt64.ofNat maxFreed⟩

/-- The surroundings of the daemon. -/
structure DaemonEnv where
  cfg : StoreConfig
  /-- The current directory. -/
  dir : Path
  absolute : isAbsolute dir = true
  /-- The settings before `setOptions`. -/
  options : WorkerOptions

/-- How the cases of `performOp` read the arguments of an operation. -/
def readArguments (env : DaemonEnv) (clientVersion : ℕ) :
    WorkerOp → SourceM κ (WorkerRequest DumpedFile)
  | .wopIsValidPath => .isValidPath <$> readStorePath env.cfg
  | .wopQueryValidPaths => .queryValidPaths <$> readStorePaths env.cfg
  | .wopQuerySubstitutablePaths => .querySubstitutablePaths <$> readStorePaths env.cfg
  | .wopQueryPathHash => .queryPathHash <$> readStorePath env.cfg
  | .wopQueryReferences => .queryReferences <$> readStorePath env.cfg
  | .wopQueryReferrers => .queryReferrers <$> readStorePath env.cfg
  | .wopQueryDerivationOutputs => .queryDerivationOutputs <$> readStorePath env.cfg
  | .wopQueryDerivationOutputNames => .queryDerivationOutputNames <$> readStorePath env.cfg
  | .wopQueryDeriver => .queryDeriver <$> readStorePath env.cfg
  | .wopQueryPathFromHashPart => .queryPathFromHashPart <$> readString
  | .wopAddToStore => readAddToStore
  | .wopAddTextToStore => do
    let suffix ← readString
    let s ← readString
    let refs ← readStorePaths env.cfg
    return .addTextToStore suffix s refs
  | .wopExportPath => do
    let path ← readStorePath env.cfg
    let sign ← readInt
    return .exportPath path (sign = 1 : Bool)
  | .wopImportPaths => pure .importPaths
  | .wopBuildPaths => .buildPaths <$> readStorePaths env.cfg
  | .wopEnsurePath => .ensurePath <$> readStorePath env.cfg
  | .wopAddTempRoot => .addTempRoot <$> readStorePath env.cfg
  | .wopAddIndirectRoot => do
    let path ← readString
    let path ← .ofOutcome (absPath env.dir path)
    return .addIndirectRoot path
  | .wopSyncWithGC => pure .syncWithGC
  | .wopFindRoots => pure .findRoots
  | .wopCollectGarbage => .collectGarbage <$> readGCOptions env.cfg clientVersion
  | .wopSetOptions => .setOptions <$> readOptions clientVersion env.options
  | .wopQuerySubstitutablePathInfos => .querySubstitutablePathInfos <$> readStorePaths env.cfg
  | .wopQueryAllValidPaths => pure .queryAllValidPaths
  | .wopQueryFailedPaths => pure .queryFailedPaths
  | .wopClearFailedPaths => .clearFailedPaths <$> readStrings
  | .wopQueryPathInfo => .queryPathInfo <$> readStorePath env.cfg

/-- How `processConnection` and `performOp` read an operation. -/
def readRequest (env : DaemonEnv) (clientVersion : ℕ) : SourceM κ (WorkerRequest DumpedFile) := do
  let op ← readInt
  match WorkerOp.ofNat? op with
  | some op => readArguments env clientVersion op
  | none => .throw (.error (str "invalid operation " ++ str (toString op)))

/-- What `wopQuerySubstitutablePathInfos` replies for a path. -/
def writeSubstitutablePathInfo (e : Path × SubstitutablePathInfo) : Str :=
  writeString e.1 ++ (writeString e.2.deriver ++ (writeStrings e.2.references.toList ++
    (writeLongLong e.2.downloadSize.toNat ++ writeLongLong e.2.narSize.toNat)))

/-- What the cases of `performOp` write behind `stopWork`, if the local store has returned. -/
def writeReply : (r : WorkerRequest SourceFile) → r.Reply → Str
  | .isValidPath _, result => writeBool result
  | .queryValidPaths _, paths => writeStrings (SortedSet.toList paths)
  | .querySubstitutablePaths _, paths => writeStrings (SortedSet.toList paths)
  | .queryPathHash _, hash => writeString (printHash hash)
  | .queryReferences _, paths => writeStrings (SortedSet.toList paths)
  | .queryReferrers _, paths => writeStrings (SortedSet.toList paths)
  | .queryDerivationOutputs _, paths => writeStrings (SortedSet.toList paths)
  | .queryDerivationOutputNames _, names => writeStrings (SortedSet.toList names)
  | .queryDeriver _, deriver => writeString deriver
  | .queryPathFromHashPart _, path => writeString path
  | .addToStore _ _ _, path => writeString path
  | .addTextToStore _ _ _, path => writeString path
  | .exportPath _ _, _ => writeInt 1
  | .importPaths, paths => writeStrings paths
  | .buildPaths _, _ => writeInt 1
  | .ensurePath _, _ => writeInt 1
  | .addTempRoot _, _ => writeInt 1
  | .addIndirectRoot _, _ => writeInt 1
  | .syncWithGC, _ => writeInt 1
  | .findRoots, roots =>
    writeMapEntries (α := Path) (β := Path) (fun e => writeString e.1 ++ writeString e.2) roots
  | .collectGarbage _, results =>
    writeStrings (SortedSet.toList (GCResults.paths results)) ++
      (writeLongLong (GCResults.bytesFreed results).toNat ++ writeLongLong 0)
  | .setOptions _, _ => []
  | .querySubstitutablePathInfos _, infos => writeMapEntries writeSubstitutablePathInfo infos
  | .queryAllValidPaths, paths => writeStrings (SortedSet.toList paths)
  | .queryFailedPaths, paths => writeStrings (SortedSet.toList paths)
  | .clearFailedPaths _, _ => writeInt 1
  | .queryPathInfo _, info =>
    let info : ValidPathInfo := info
    writeString info.deriver ++ (writeString (printHash info.hash) ++
      (writeStrings info.references.toList ++ (writeInt info.registrationTime ++
      writeLongLong info.narSize)))

/-! ### Sessions -/

/-- A call of an operation by the client, with the source that `importPaths` reads from. -/
structure Call where
  request : WorkerRequest SourceFile
  source : Source

/-- Whether an operation has a sink. -/
def WorkerRequest.hasSink {φ : Type} : WorkerRequest φ → Bool
  | exportPath _ _ => true
  | _ => false

/-- Whether an operation has a source. -/
def WorkerRequest.hasSource {φ : Type} : WorkerRequest φ → Bool
  | importPaths => true
  | _ => false

/-- The client at the beginning of a call, when it has sent `w`. -/
def ClientState.begin (k : ClientState) (c : Call) (w : Str) : ClientState :=
  { k with
    sink := if c.request.hasSink then some [] else none
    source := if c.request.hasSource then some c.source else none
    sent := k.sent ++ w }

/-- An operation of `RemoteStore` that asks the daemon. -/
def remoteCall (cfg : StoreConfig) (c : Call) :
    SourceM ClientState (Except WorkerError c.request.Reply) := do
  let w ← .ofOutcome (writeRequest PROTOCOL_VERSION c.request)
  SourceM.lift (Prog.modify fun k => k.begin c w)
  match ← processStderr PROTOCOL_VERSION with
  | .error e => return .error e
  | .ok () => do
    let reply ← readReply cfg c.request
    return .ok reply

/-- An operation of `RemoteStore`. -/
def clientCall (cfg : StoreConfig) (c : Call) :
    SourceM ClientState (Except WorkerError c.request.Reply) :=
  match c.request.early? with
  | some reply => return .ok reply
  | none => remoteCall cfg c

/-- Operations of `RemoteStore`, one after the other. -/
def clientSession (cfg : StoreConfig) :
    List Call → SourceM ClientState (Except WorkerError (List (Σ c : Call, c.request.Reply)))
  | [] => return .ok []
  | c :: cs => do
    match ← clientCall cfg c with
    | .error e => return .error e
    | .ok reply =>
      match ← clientSession cfg cs with
      | .error e => return .error e
      | .ok replies => return .ok (⟨c, reply⟩ :: replies)

/-- Model of `readUnbuffered` of `TunnelSource`, behind the message to the client. -/
def readData (len : ℕ) : SourceM κ Str := do
  let n ← readInt
  if n > len then .throw (.error (str "string is too long"))
  else do
    let data ← Source.get n
    readPadding n
    if n = 0 then .throw (.endOfFile (str "unexpected end-of-file")) else return data

/-- What the daemon reads while it works on an operation. -/
def readFrames : List Frame → SourceM κ (List Str)
  | [] => pure []
  | .read len :: frames => do
    let data ← readData len
    let rest ← readFrames frames
    return data :: rest
  | .next _ :: frames => readFrames frames
  | .write _ :: frames => readFrames frames

/-- What the daemon reads for an operation of which these are the messages. -/
def daemonCall (env : DaemonEnv) (frames : List Frame) :
    SourceM κ (WorkerRequest DumpedFile × List Str) := do
  let request ← readRequest env PROTOCOL_VERSION
  let data ← readFrames frames
  return (request, data)

/-- What the daemon reads for operations, one after the other. -/
def daemonSession (env : DaemonEnv) :
    List (List Frame) → SourceM κ (List (WorkerRequest DumpedFile × List Str))
  | [] => pure []
  | frames :: rest => do
    let received ← daemonCall env frames
    let others ← daemonSession env rest
    return received :: others

/-- A call that succeeds: the messages of the daemon while it works, and the result of its store. -/
structure Exchange extends Call where
  frames : List Frame
  reply : request.Reply

/-- Whether the daemon is asked in an exchange. -/
def Exchange.asks (x : Exchange) : Bool := x.request.early?.isNone

/-- What the daemon sends in an exchange. -/
def Exchange.answer (x : Exchange) : Str :=
  if x.asks then x.frames.flatMap Frame.bytes ++ (stopWork true [] 0 ++ writeReply x.request x.reply)
  else []

/-- What the client returns in an exchange. -/
def Exchange.result (x : Exchange) : Σ c : Call, c.request.Reply := ⟨x.toCall, x.reply⟩

end Nix
