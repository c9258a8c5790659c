import NixStore.Build.Worker
import NixStore.Derivations.OutputRequests
import NixStore.Store.Closure

/-!
# The states of derivation and substitution goals

Model of the member functions of `DerivationGoal` and `SubstitutionGoal` in `build.cc` that a worker
calls through `work` and `cancel`.  What happens outside of the worker during such a call is a value of
type `Answers`: the outcome of system calls, of child processes and of the code that sets up, checks
and registers a build.  Other processes change the store between two calls of `work`, not inside of
one.  Log files, temporary directories, chroots, build users and the texts printed for the user are
left out, and killing a child does not fail.
-/

namespace Nix

/-! ### Surroundings -/

/-- The settings that goals depend on. -/
structure BuildSettings where
  keepGoing : Bool
  tryFallback : Bool
  readOnlyMode : Bool
  useSubstitutes : Bool
  cacheFailure : Bool
  useBuildHook : Bool
  /-- The value of `NIX_BUILD_HOOK`. -/
  buildHook : Str
  maxBuildJobs : ℕ
  maxSilentTime : ℤ
  buildTimeout : ℤ
  pollInterval : ℤ
  thisSystem : Str
  /-- `CAN_DO_LINUX32_BUILDS` -/
  linux32Builds : Bool
  substituters : List Path

/-- What does not change during a run. -/
structure BuildEnv where
  settings : BuildSettings
  cfg : StoreConfig
  /-- The contents that a derivation file has when its path is valid. -/
  readFile : Path → Outcome Str Str
  /-- What `expect` compares where a derivation file ends too early. -/
  uninit : Str → Str
  /-- The bound on the depth of `computeFSClosure`. -/
  fuel : ℕ

/-- The exit status of a process. -/
inductive ExitStatus where
  | exited (code : ℕ)
  | signaled (signal : ℕ)
deriving DecidableEq

/-- Model of `statusOk`. -/
def statusOk (status : ExitStatus) : Bool := status = .exited 0

/-- How a piece of code ends that is left out here: the goal catches a `BuildError` or `SubstError`
and does not catch other exceptions. -/
inductive Attempt where
  | done
  | failed (msg : Str)
  | threw (msg : Str)
deriving DecidableEq

/-- What the outside world has to say during a call of `work`. -/
structure Answers where
  /-- The clock. -/
  now : ℤ
  /-- `pathContentsGood` -/
  contentsGood : Path → Bool
  /-- The paths whose lock files another process has locked. -/
  lockedElsewhere : Path → Bool
  /-- `querySubstitutablePathInfos`: what a substituter says about the path of the goal, namely the
  references that it would have. -/
  substitute : Path → Outcome Str (Option PathSet)
  /-- System calls that can only fail or succeed. -/
  io : Outcome Str Unit
  /-- The line with which the hook replies. -/
  hookReply : Outcome Str Str
  /-- Telling the hook the inputs and outputs after it has accepted. -/
  hookAccepted : Outcome Str Unit
  /-- The process of a new hook. -/
  hookPid : Pid
  /-- The process of a new builder or substituter. -/
  pid : Pid
  /-- Setting up the builder. -/
  builder : Attempt
  /-- The exit status of the process that is waited for. -/
  status : ExitStatus
  /-- The checks on the outputs of a build after the builder is done. -/
  outputs : Attempt
  /-- What comes after: the scan of the outputs and their registration, or the check of a substitute
  against its hash. -/
  checked : Attempt
  /-- The references found in the outputs of a build. -/
  scanned : Path → PathSet
  /-- `registerValidPath` -/
  registered : Outcome Str Unit

namespace World

/-- `queryReferences` on the local store. -/
def queryReferences (world : World) (cfg : StoreConfig) (path : Path) : Outcome Str PathSet := do
  assertStorePath cfg path
  if world.isValidPath path then return world.references path
  else .error (str "path `" ++ path ++ str "' is not valid")

/-- The queries of `computeFSClosure`; the ones that goals do not use are left out. -/
def closureStore (world : World) (cfg : StoreConfig) : ClosureStore where
  queryReferences := world.queryReferences cfg
  queryReferrers _ := .diverge
  queryDerivationOutputs _ := .diverge
  isValidPath := world.isValidPath

/-- What `registerValidPaths` makes of the store when it returns. -/
def register (world : World) (paths : List Path) (references : Path → PathSet) : World :=
  { world with
    isValidPath := fun p => decide (p ∈ paths) || world.isValidPath p
    references := fun p =>
      if p ∈ paths then
        if world.isValidPath p then (references p).toList.foldl SortedSet.insert (world.references p)
        else references p
      else world.references p }

/-- What `registerFailedPath` makes of the store. -/
def registerFailed (world : World) (paths : List Path) : World :=
  { world with hasPathFailed := fun p => decide (p ∈ paths) || world.hasPathFailed p }

end World

/-! ### Helpers -/

/-- The lock files that a goal holds. -/
def Goal.locks (goal : Goal) : PathSet :=
  match goal.kind with
  | .derivation d => d.outputLocks
  | .substitution s => s.outputLock

/-- Replace the lock files that a goal holds. -/
def Goal.setLocks (locks : PathSet) (goal : Goal) : Goal :=
  (goal.mapDerivation fun d => { d with outputLocks := locks }).mapSubstitution
    fun s => { s with outputLock := locks }

/-- Change the fields of the goal `g`. -/
def modifyGoal (g : GoalId) (f : Goal → Goal) : WorkerM Unit :=
  Prog.modify fun w => w.updateGoal g f

/-- Change the fields of the derivation goal `g`. -/
def modifyDerivation (g : GoalId) (f : DerivationGoal → DerivationGoal) : WorkerM Unit :=
  modifyGoal g (Goal.mapDerivation f)

/-- Change the fields of the substitution goal `g`. -/
def modifySubstitution (g : GoalId) (f : SubstitutionGoal → SubstitutionGoal) : WorkerM Unit :=
  modifyGoal g (Goal.mapSubstitution f)

/-- Whether the goal `g` waits for no other goal. -/
def waiteesEmpty (g : GoalId) : WorkerM Bool := do
  let w ← Prog.get
  return (w.goals.find? g).all fun goal => goal.waitees = ∅

/-- `addWaitee(worker.makeSubstitutionGoal(path, repair))` -/
def addSubstitutionWaitee (g : GoalId) (path : Path) (repair : Bool) : WorkerM Unit :=
  Prog.modify fun w =>
    let r := w.makeSubstitutionGoal path repair
    r.2.addWaitee g r.1

/-- `addWaitee(worker.makeDerivationGoal(path, wantedOutputs, repair))` -/
def addDerivationWaitee (g : GoalId) (path : Path) (wantedOutputs : SortedSet Str) (repair : Bool) :
    WorkerM Unit :=
  Prog.modify fun w =>
    let r := w.makeDerivationGoal path wantedOutputs repair
    r.2.addWaitee g r.1

/-- The worker after the locks of the goal `g` are released. -/
def Worker.unlocked (w : Worker) (g : GoalId) : Worker :=
  { w with
    goals := w.goals.modify g (Goal.setLocks ∅)
    lockedPaths :=
      ((w.goals.find? g).elim ∅ Goal.locks).toList.foldl SortedSet.erase w.lockedPaths }

/-- Model of `PathLocks::unlock` on the locks of the goal `g`. -/
def unlock (g : GoalId) : WorkerM Unit := Prog.modify fun w => w.unlocked g

/-- Model of `PathLocks::lockPaths` without waiting, on the locks of the goal `g`. -/
def lockPaths (lockedElsewhere : Path → Bool) (g : GoalId) (paths : PathSet) : WorkerM Bool := do
  let w ← Prog.get
  assert .locksEmpty ((w.goals.find? g).all (fun goal => decide (goal.locks = ∅)) = true)
  Prog.all (fun path => do
    let w ← Prog.get
    if w.pathIsLockedByMe path then
      .throw (.error (str "deadlock: trying to re-acquire self-held lock"))
    else if lockedElsewhere path then do
      unlock g
      return false
    else do
      Prog.modify fun w =>
        { w.updateGoal g (fun goal => goal.setLocks (goal.locks.insert (lockPath path))) with
          lockedPaths := w.lockedPaths.insert (lockPath path) }
      return true) paths.toList

/-- Model of `derivationFromPath`; `ensurePath` on a path that is not valid makes a second worker. -/
def derivationFromPath (env : BuildEnv) (world : World) (path : Path) : WorkerM Derivation := do
  WorkerM.lift (assertStorePath env.cfg path)
  assert .notWorking (world.isValidPath path = true)
  WorkerM.lift (env.readFile path >>= parseDerivation env.uninit)

/-- Record that the derivation of a goal failed. -/
def recordFailure (drvPath : Path) (cause : FailureCause) : WorkerM Unit :=
  Prog.modify fun w =>
    { w with permanentFailure := cause.permanent, failures := w.failures ++ [(drvPath, cause)] }

/-- Model of `outputPaths`. -/
def outputPaths (drv : Derivation) : PathSet := .ofList (drv.outputs.entries.map fun i => i.2.path)

/-- Model of `checkPathValidity`. -/
def DerivationGoal.checkPathValidity (d : DerivationGoal) (world : World)
    (contentsGood : Path → Bool) (returnValid checkHash : Bool) : PathSet :=
  .ofList (d.drv.outputs.entries.filterMap fun i =>
    if wantOutput i.1 d.wantedOutputs then
      let good := world.isValidPath i.2.path && (!checkHash || contentsGood i.2.path)
      if good = returnValid then some i.2.path else none
    else none)

section

variable (env : BuildEnv) (ans : Answers)

/-! ### Derivation goals -/

/-- Model of `canBuildLocally`. -/
def canBuildLocally (platform : Str) : Bool :=
  decide (platform = env.settings.thisSystem) ||
    (env.settings.linux32Builds && decide (platform = str "i686-linux") &&
      decide (env.settings.thisSystem = str "x86_64-linux"))

/-- Model of `pathFailed`. -/
def pathFailed (g : GoalId) (d : DerivationGoal) (path : Path) : WorkerM Bool := do
  let w ← Prog.get
  if env.settings.cacheFailure && w.world.hasPathFailed path then
    recordFailure d.drvPath .cached
    amDone env.settings.keepGoing g .ecFailed
    return true
  else return false

/-- Model of `DerivationGoal::init`. -/
def derivationInit (g : GoalId) (d : DerivationGoal) : WorkerM Unit := do
  if env.settings.readOnlyMode then
    .throw (.error (str "cannot build derivation `" ++ d.drvPath ++
      str "' - no write access to the Nix store"))
  else
    addSubstitutionWaitee g d.drvPath false
    modifyDerivation g fun d => { d with state := .haveDerivation }

/-- The closure of the outputs of a derivation, without the outputs. -/
def outputClosure (world : World) (drv : Derivation) : Outcome Str PathSet := do
  let closure ← drv.outputs.entries.foldlM
    (fun paths i => computeFSClosure (world.closureStore env.cfg) false false env.fuel i.2.path paths)
    ∅
  return drv.outputs.entries.foldl (fun paths i => paths.erase i.2.path) closure

/-- The map `outputsToDrv` of `repairClosure`. -/
def outputsToDrv (world : World) (inputClosure : PathSet) : WorkerM (SortedMap Path Path) :=
  (inputClosure.toList.filter isDerivation).foldlM (fun m i => do
    let drv ← derivationFromPath env world i
    return drv.outputs.entries.foldl (fun m j => m.insert j.2.path i) m) ∅

/-- Model of `repairClosure`. -/
def repairClosure (g : GoalId) (d : DerivationGoal) : WorkerM Unit := do
  let w ← Prog.get
  let closure ← WorkerM.lift (outputClosure env w.world d.drv)
  let inputClosure ← WorkerM.lift
    (computeFSClosure (w.world.closureStore env.cfg) false false env.fuel d.drvPath ∅)
  let producers ← outputsToDrv env w.world inputClosure
  Prog.each (fun i =>
    match producers.find? i with
    | none => addSubstitutionWaitee g i true
    | some drvPath2 => addDerivationWaitee g drvPath2 ∅ true)
    (closure.toList.filter fun i => !ans.contentsGood i)
  if ← waiteesEmpty g then amDone env.settings.keepGoing g .ecSuccess
  else modifyDerivation g fun d => { d with state := .closureRepaired }

/-- Model of `closureRepaired`. -/
def closureRepaired (g : GoalId) (goal : Goal) (d : DerivationGoal) : WorkerM Unit := do
  if 0 < goal.nrFailed then
    .throw (.error (str "some paths in the output closure of derivation `" ++ d.drvPath ++
      str "' could not be repaired"))
  else amDone env.settings.keepGoing g .ecSuccess

/-- The closures of the wanted outputs of the input derivations and of the input sources. -/
def inputClosures (world : World) (d : DerivationGoal) : WorkerM PathSet := do
  let inputPaths ← d.drv.inputDrvs.entries.foldlM (fun inputPaths i => do
    assert .pathValid (world.isValidPath i.1 = true)
    let inDrv ← derivationFromPath env world i.1
    i.2.toList.foldlM (fun inputPaths j =>
      match inDrv.outputs.find? j with
      | some out => WorkerM.lift
        (computeFSClosure (world.closureStore env.cfg) false false env.fuel out.path inputPaths)
      | none => .throw (.error (str "derivation `" ++ d.drvPath ++
          str "' requires non-existent output `" ++ j ++ str "' from input derivation `" ++ i.1 ++
          str "'"))) inputPaths) ∅
  d.drv.inputSrcs.toList.foldlM (fun inputPaths i => WorkerM.lift
    (computeFSClosure (world.closureStore env.cfg) false false env.fuel i inputPaths)) inputPaths

/-- Model of `inputsRealised`. -/
def inputsRealised (g : GoalId) (goal : Goal) (d : DerivationGoal) : WorkerM Unit := do
  if goal.nrFailed ≠ 0 then amDone env.settings.keepGoing g .ecFailed
  else
    let w ← Prog.get
    let _ ← inputClosures env w.world d
    modifyDerivation g fun d => { d with
      fixedOutput := d.drv.outputs.entries.all fun i => i.2.hash ≠ []
      state := .tryToBuild }
    Prog.modify fun w => w.wakeUp g

/-- Model of `outputsSubstituted`, where `restart` is the call of `haveDerivation`. -/
def outputsSubstituted (restart : Goal → DerivationGoal → WorkerM Unit) (g : GoalId) (goal : Goal)
    (d : DerivationGoal) : WorkerM Unit := do
  if 0 < goal.nrFailed ∧ goal.nrNoSubstituters < goal.nrFailed ∧ env.settings.tryFallback = false then
    .throw (.error (str "some substitutes for the outputs of derivation `" ++ d.drvPath ++
      str "' failed; try `--fallback'"))
  else
    let goal := { goal with nrFailed := 0, nrNoSubstituters := 0 }
    modifyGoal g fun goal => { goal with nrFailed := 0, nrNoSubstituters := 0 }
    if d.needRestart then
      modifyDerivation g fun d => { d with needRestart := false }
      restart goal { d with needRestart := false }
    else
      let w ← Prog.get
      if d.checkPathValidity w.world ans.contentsGood false d.repair = ∅ then
        if d.repair then repairClosure env ans g d else amDone env.settings.keepGoing g .ecSuccess
      else
        -- from now on all outputs are checked
        modifyDerivation g fun d => { d with wantedOutputs := ∅ }
        Prog.each (fun i => addDerivationWaitee g i.1 i.2 d.repair) d.drv.inputDrvs.entries
        Prog.each (fun i => addSubstitutionWaitee g i false) d.drv.inputSrcs.toList
        if ← waiteesEmpty g then inputsRealised env g goal { d with wantedOutputs := ∅ }
        else modifyDerivation g fun d => { d with state := .inputsRealised }

/-- Model of `haveDerivation`.  The first argument bounds the number of restarts: after one of them
`needRestart` is false, so a second one does not happen in the same call. -/
def haveDerivation : ℕ → GoalId → Goal → DerivationGoal → WorkerM Unit
  | 0, _, _, _ => .throw .outOfFuel
  | restarts + 1, g, goal, d => do
    if goal.nrFailed ≠ 0 then amDone env.settings.keepGoing g .ecFailed
    else
      let w ← Prog.get
      assert .pathValid (w.world.isValidPath d.drvPath = true)
      let drv ← derivationFromPath env w.world d.drvPath
      let d := { d with drv }
      modifyDerivation g fun d => { d with drv }
      let invalidOutputs := d.checkPathValidity w.world ans.contentsGood false d.repair
      if invalidOutputs = ∅ ∧ d.repair = false then amDone env.settings.keepGoing g .ecSuccess
      -- the loop goes on as long as no output has failed before
      else if ← Prog.all (fun i => (! ·) <$> pathFailed env g d i) invalidOutputs.toList then
        if env.settings.useSubstitutes then
          Prog.each (fun i => addSubstitutionWaitee g i d.repair) invalidOutputs.toList
        if ← waiteesEmpty g then
          outputsSubstituted env ans (haveDerivation restarts g) g goal d
        else modifyDerivation g fun d => { d with state := .outputsSubstituted }

/-- Model of `tryBuildHook`, with the three replies as `some true` (accept), `some false` (postpone)
and `none` (decline). -/
def tryBuildHook (g : GoalId) : WorkerM (Option Bool) := do
  if env.settings.useBuildHook = false ∨ env.settings.buildHook = [] then return none
  else
    Prog.modify fun w => if w.hook.isNone then { w with hook := some ans.hookPid } else w
    let reply ← WorkerM.lift ans.hookReply
    if reply = str "decline" then return none
    else if reply = str "postpone" then return some false
    else if reply ≠ str "accept" then .throw (.error (str "bad hook reply `" ++ reply ++ str "'"))
    else
      WorkerM.lift ans.hookAccepted
      Prog.modify fun w =>
        match w.hook with
        | none => w
        | some pid =>
          let w := { w.updateGoal g (Goal.mapDerivation fun d => { d with hook := some (some pid) })
            with hook := none }
          w.childStarted g pid [.fromHook, .builderOut] false false ans.now
      return some true

/-- The part of `tryToBuild` after the hook has declined. -/
def buildLocally (g : GoalId) (d : DerivationGoal) (preferLocalBuild : Bool) : WorkerM Unit := do
  let w ← Prog.get
  if env.settings.maxBuildJobs ≤ w.nrLocalBuilds ∧
      ¬ (preferLocalBuild = true ∧ w.nrLocalBuilds = 0) then
    Prog.modify fun w => w.waitForBuildSlot env.settings.maxBuildJobs g
    unlock g
  else if canBuildLocally env d.drv.platform = false then
    .throw (.error (str "a `" ++ d.drv.platform ++ str "' is required to build `" ++ d.drvPath ++
      str "', but I am a `" ++ env.settings.thisSystem ++ str "'"))
  else
    match ans.builder with
    | .threw msg => .throw (.error msg)
    | .failed _ =>
      unlock g
      recordFailure d.drvPath .startFailed
      amDone env.settings.keepGoing g .ecFailed
    | .done =>
      Prog.modify fun w =>
        (w.updateGoal g (Goal.mapDerivation fun d => { d with pid := some ans.pid })).childStarted g
          ans.pid [.builderOut] true true ans.now
      modifyDerivation g fun d => { d with state := .buildDone }

/-- Model of `tryToBuild`. -/
def tryToBuild (g : GoalId) (d : DerivationGoal) : WorkerM Unit := do
  let w ← Prog.get
  if d.drv.outputs.entries.any fun i => w.pathIsLockedByMe i.2.path then
    -- locked by another goal of this process
    Prog.modify fun w => w.waitForAnyGoal g
  else if ← lockPaths ans.lockedElsewhere g (outputPaths d.drv) then
    let validPaths := d.checkPathValidity w.world ans.contentsGood true d.repair
    if validPaths.toList.length = d.drv.outputs.entries.length then
      amDone env.settings.keepGoing g .ecSuccess
    else
      WorkerM.lift ans.io
      if ← Prog.all (fun i => (! ·) <$> pathFailed env g d i.2.path) d.drv.outputs.entries then
        let preferLocalBuild :=
          decide (d.drv.env.find? (str "preferLocalBuild") = some (str "1")) &&
            canBuildLocally env d.drv.platform
        match ← (if preferLocalBuild then pure none else tryBuildHook env ans g) with
        | some true => modifyDerivation g fun d => { d with state := .buildDone }
        | some false =>
          Prog.modify fun w => w.waitForAWhile g
          unlock g
        | none => buildLocally env ans g d preferLocalBuild
  else Prog.modify fun w => w.waitForAWhile g

/-- `Pid::wait` on the process of a goal; with the value -1 it waits for any child and throws. -/
def waitPid (pid : Option Pid) : WorkerM Pid :=
  match pid with
  | some pid => pure pid
  | none => .throw (.error (str "cannot get child exit status"))

/-- The code that `BuildError`s are caught in: the checks on the outputs, the test of the exit status
and `computeClosure`. -/
def buildResult (world : World) (d : DerivationGoal) : Attempt :=
  match ans.outputs with
  | .failed msg => .failed msg
  | .threw msg => .threw msg
  | .done =>
    if statusOk ans.status = false then
      -- `childSetupFailed`
      if ans.status = .exited 189 then
        .threw (str "failed to set up the build environment for `" ++ d.drvPath ++ str "'")
      else .failed (str "builder for `" ++ d.drvPath ++ str "' failed")
    else if d.hook.isSome && d.drv.outputs.entries.all fun i => world.isValidPath i.2.path then
      .done
    else ans.checked

/-- The status tells of a problem with the hook: any but the exit code 100. -/
def hookError (d : DerivationGoal) : Bool := d.hook.isSome && decide (ans.status ≠ .exited 100)

/-- Model of `buildDone`. -/
def buildDone (g : GoalId) (d : DerivationGoal) : WorkerM Unit := do
  let savedPid ← waitPid (d.hook.getD d.pid)
  modifyDerivation g fun d =>
    if d.hook.isSome then { d with hook := some none } else { d with pid := none }
  childTerminated savedPid
  let w ← Prog.get
  match buildResult ans w.world d with
  | .threw msg => .throw (.error msg)
  | .failed _ =>
    unlock g
    if env.settings.cacheFailure && !hookError ans d && !d.fixedOutput then
      Prog.modify fun w => { w with world := w.world.registerFailed (outputPaths d.drv).toList }
    recordFailure d.drvPath (.buildFailed (hookError ans d) d.fixedOutput)
    amDone env.settings.keepGoing g .ecFailed
  | .done =>
    -- a build hook may have registered all outputs itself
    if d.hook.isSome && d.drv.outputs.entries.all fun i => w.world.isValidPath i.2.path then
      pure ()
    else
      Prog.modify fun w => { w with
        world := w.world.register (outputPaths d.drv).toList ans.scanned }
    WorkerM.lift ans.io
    unlock g
    amDone env.settings.keepGoing g .ecSuccess

/-- Model of `killChild`. -/
def killChild (g : GoalId) (d : DerivationGoal) : WorkerM Unit := do
  match d.pid with
  | some pid =>
    childTerminated pid
    modifyDerivation g fun d => { d with pid := none }
  | none => pure ()
  modifyDerivation g fun d => { d with hook := none }

/-! ### Substitution goals -/

/-- Model of `referencesValid`. -/
def referencesValid (g : GoalId) (goal : Goal) (s : SubstitutionGoal) : WorkerM Unit := do
  if 0 < goal.nrFailed then amDone env.settings.keepGoing g .ecFailed
  else
    let w ← Prog.get
    assert .pathValid (∀ i ∈ s.references.toList, i ≠ s.storePath → w.world.isValidPath i = true)
    modifySubstitution g fun s => { s with state := .tryToRun }
    Prog.modify fun w => w.wakeUp g

/-- Model of `SubstitutionGoal::tryNext`, by recursion on the remaining substituters. -/
def tryNext (g : GoalId) (goal : Goal) : List Path → SubstitutionGoal → WorkerM Unit
  | [], s =>
    -- don't indicate failure if there were no substituters
    amDone env.settings.keepGoing g (if s.hasSubstitute then .ecFailed else .ecNoSubstituters)
  | sub :: subs, s => do
    modifySubstitution g fun s => { s with subs }
    match ← WorkerM.lift (ans.substitute sub) with
    | none => tryNext g goal subs s
    | some references =>
      modifySubstitution g fun s => { s with references, hasSubstitute := true }
      Prog.each (fun i => addSubstitutionWaitee g i false)
        (references.toList.filter fun i => i ≠ s.storePath)
      if ← waiteesEmpty g then
        referencesValid env g goal { s with references, hasSubstitute := true }
      else modifySubstitution g fun s => { s with state := .referencesValid }

/-- Model of `SubstitutionGoal::init`. -/
def substitutionInit (g : GoalId) (goal : Goal) (s : SubstitutionGoal) : WorkerM Unit := do
  let w ← Prog.get
  if s.repair = false ∧ w.world.isValidPath s.storePath = true then
    amDone env.settings.keepGoing g .ecSuccess
  else if env.settings.readOnlyMode then
    .throw (.error (str "cannot substitute path `" ++ s.storePath ++
      str "' - no write access to the Nix store"))
  else
    modifySubstitution g fun s => { s with subs := env.settings.substituters }
    tryNext env ans g goal env.settings.substituters s

/-- Model of `tryToRun`.  A substituter may run even if `maxBuildJobs` is 0. -/
def tryToRun (g : GoalId) (s : SubstitutionGoal) : WorkerM Unit := do
  let w ← Prog.get
  if (if env.settings.maxBuildJobs = 0 then 1 else env.settings.maxBuildJobs) ≤ w.nrLocalBuilds then
    Prog.modify fun w => w.waitForBuildSlot env.settings.maxBuildJobs g
  else
    -- make sure this goal's lock is gone
    unlock g
    let w ← Prog.get
    if w.pathIsLockedByMe s.storePath then Prog.modify fun w => w.waitForAnyGoal g
    else if ← lockPaths ans.lockedElsewhere g (.ofList [s.storePath]) then
      if s.repair = false ∧ w.world.isValidPath s.storePath = true then
        amDone env.settings.keepGoing g .ecSuccess
      else
        WorkerM.lift ans.io
        Prog.modify fun w =>
          (w.updateGoal g (Goal.mapSubstitution fun s => { s with pid := some ans.pid })).childStarted
            g ans.pid [.logPipe] true true ans.now
        modifySubstitution g fun s => { s with state := .finished }
    else Prog.modify fun w => w.waitForAWhile g

/-- Model of `SubstitutionGoal::finished`. -/
def finished (g : GoalId) (s : SubstitutionGoal) : WorkerM Unit := do
  let savedPid ← waitPid s.pid
  modifySubstitution g fun s => { s with pid := none }
  childTerminated savedPid
  match if statusOk ans.status then ans.checked else .failed (str "fetching path failed") with
  | .threw msg => .throw (.error msg)
  | .failed _ =>
    -- try the next substitute
    modifySubstitution g fun s => { s with state := .tryNext }
    Prog.modify fun w => w.wakeUp g
  | .done =>
    WorkerM.lift ans.registered
    Prog.modify fun w => { w with world := w.world.register [s.storePath] fun _ => s.references }
    amDone env.settings.keepGoing g .ecSuccess

/-! ### Both classes -/

/-- Model of `work`. -/
def work (g : GoalId) (goal : Goal) : WorkerM Unit :=
  match goal.kind with
  | .derivation d =>
    match d.state with
    | .init => derivationInit env g d
    | .haveDerivation => haveDerivation env ans 2 g goal d
    | .outputsSubstituted => outputsSubstituted env ans (haveDerivation env ans 2 g) g goal d
    | .closureRepaired => closureRepaired env g goal d
    | .inputsRealised => inputsRealised env g goal d
    | .tryToBuild => tryToBuild env ans g d
    | .buildDone => buildDone env ans g d
  | .substitution s =>
    match s.state with
    | .init => substitutionInit env ans g goal s
    | .tryNext => tryNext env ans g goal s.subs s
    | .referencesValid => referencesValid env g goal s
    | .tryToRun => tryToRun env ans g s
    | .finished => finished env ans g s

end

/-- Model of `cancel`. -/
def cancel (keepGoing : Bool) (g : GoalId) (goal : Goal) : WorkerM Unit := do
  match goal.kind with
  | .derivation d => killChild g d
  | .substitution s =>
    match s.pid with
    | some pid =>
      modifySubstitution g fun s => { s with pid := none }
      childTerminated pid
    | none => pure ()
  amDone keepGoing g .ecFailed

/-- Model of the destructors: the child of the goal is killed and its locks are released. -/
def destroy (g : GoalId) (goal : Goal) : WorkerM Unit := do
  match goal.kind with
  | .derivation d => killChild g d
  | .substitution s =>
    match s.pid with
    | some pid => childTerminated pid
    | none => pure ()
  unlock g
  Prog.modify fun w => { w with goals := w.goals.erase g }

end Nix
