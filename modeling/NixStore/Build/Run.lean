import NixStore.Build.Goals

/-!
# The goal loop

Model of `Worker::run` and `Worker::waitForInput` of `build.cc`, and of their caller
`LocalStore::buildPaths`, as a transition system.  A state is a worker together with the place in the
loop (`Phase`); an event is a round of one of the loops, with what the outside world decides in it.
Which of the goals that are awake is called next is open, since it depends on the addresses of the
goals.

A goal is destroyed as soon as no strong pointer to it is left.  This is an event of its own, and
while there is such a goal nothing else happens.  In the source a goal can also be destroyed in the
middle of `amDone`; nothing that comes after it in `amDone` depends on it.

The computation of the time that `select` may sleep is left out: the times before and after the call
are given by the event.
-/

namespace Nix

/-! ### Input from children -/

/-- What happens to a descriptor in a round of `waitForInput`. -/
inductive ReadResult where
  /-- `select` does not report it. -/
  | notReady
  /-- `read` is interrupted. -/
  | interrupted
  | failed
  | eof
  /-- There is output, and `handleChildOutput` ends in this way. -/
  | data (handled : Outcome Str Unit)
deriving DecidableEq

/-- How the call of `select` ends. -/
inductive SelectResult where
  | ready
  | interrupted
  | failed
deriving DecidableEq

/-- What the outside world decides in a call of `waitForInput`. -/
structure Input where
  before : ℤ
  after : ℤ
  select : SelectResult
  read : Pid → ChildFd → ReadResult

/-- `getName` -/
def Goal.name (goal : Goal) : Str :=
  match goal.kind with
  | .derivation d => str "building of `" ++ d.drvPath ++ str "'"
  | .substitution s => str "substitution of `" ++ s.storePath ++ str "'"

/-- Whether `handleEOF` wakes the goal up. -/
def Goal.wakesOnEOF (goal : Goal) (fd : ChildFd) : Bool :=
  match goal.kind with
  | .derivation _ => true
  | .substitution _ => fd = .logPipe

/-- Change an entry of `children`. -/
def Worker.updateChild (w : Worker) (pid : Pid) (f : Child → Child) : Worker :=
  { w with children := w.children.modify pid f }

/-- One round of the loop over the descriptors of a child. -/
def readFd (inp : Input) (pid : Pid) (g : GoalId) (goal : Goal) (fd : ChildFd) : WorkerM Unit :=
  match inp.read pid fd with
  | .notReady => pure ()
  | .interrupted => pure ()
  | .failed => .throw (.error (str "reading from " ++ goal.name))
  | .eof => Prog.modify fun w =>
      (if goal.wakesOnEOF fd then w.wakeUp g else w).updateChild pid
        fun child => { child with fds := child.fds.erase fd }
  | .data handled => do
    WorkerM.lift handled
    Prog.modify fun w => w.updateChild pid fun child => { child with lastOutput := inp.after }

/-- Call `cancel` on a goal. -/
def cancelGoal (keepGoing : Bool) (g : GoalId) : WorkerM Unit := do
  let w ← Prog.get
  match w.goals.find? g with
  | some goal => cancel keepGoing g goal
  | none => pure ()

section

variable (env : BuildEnv)

/-- The child was silent for too long. -/
def silenceTimeout (inp : Input) (child : Child) : Bool :=
  decide (env.settings.maxSilentTime ≠ 0) && child.monitorForSilence &&
    decide (env.settings.maxSilentTime ≤ inp.after - child.lastOutput)

/-- The time limit on builds is exceeded. -/
def buildTimeout (inp : Input) : Bool :=
  decide (env.settings.buildTimeout ≠ 0) &&
    decide (env.settings.buildTimeout ≤ inp.after - inp.before)

/-- One round of the loop over the children in `waitForInput`. -/
def pollChild (inp : Input) (pid : Pid) : WorkerM Unit := do
  let w ← Prog.get
  match w.children.find? pid with
  | none => pure () -- child destroyed
  | some child =>
    match w.goals.find? child.goal with
    | none => .throw (.assertion .goalAlive)
    | some goal =>
      Prog.each (readFd inp pid child.goal goal) child.fds
      let w ← Prog.get
      if (w.children.find? pid).any (silenceTimeout env inp) then
        cancelGoal env.settings.keepGoing child.goal
      if buildTimeout env inp then cancelGoal env.settings.keepGoing child.goal

end

/-- The end of `waitForInput`: the goals that poll a lock are woken up after a while. -/
def Worker.endInput (pollInterval : ℤ) (inp : Input) (w : Worker) : Worker :=
  if w.waitingForAWhile ≠ ∅ ∧ w.lastWokenUp + pollInterval ≤ inp.after then
    { w.wakeUpAll w.waitingForAWhile with lastWokenUp := inp.after, waitingForAWhile := ∅ }
  else w

/-- The part of `waitForInput` in front of `select` that is not about the time to sleep. -/
def Worker.startInput (inp : Input) (w : Worker) : Worker :=
  { w with lastWokenUp :=
      if w.waitingForAWhile = ∅ then 0
      else if w.lastWokenUp = 0 ∨ inp.before < w.lastWokenUp then inp.before
      else w.lastWokenUp }

/-! ### The loop -/

/-- The place in `Worker::run`. -/
inductive Phase where
  /-- The head of the outer loop, and of the inner one. -/
  | ready
  /-- The loop over `awake2`, with the goals that are still to be called. -/
  | working (awake2 : SortedSet GoalId)
  /-- The loop over the children in `waitForInput`, with those that are still to be looked at. -/
  | polling (inp : Input) (pids : List Pid)
  /-- `run` has returned. -/
  | returned
  /-- An exception or a failed assertion has ended the loop. -/
  | stopped (reason : Stop)

/-- A state of the goal loop. -/
structure RunState where
  worker : Worker
  phase : Phase

/-- The rounds of the loops, and what can happen in between. -/
inductive Event where
  /-- `awake2` is made. -/
  | takeAwake
  /-- A goal of `awake2` is called. -/
  | work (g : GoalId) (ans : Answers)
  /-- The loop over `awake2` is left. -/
  | endAwake
  | waitForInput (inp : Input)
  | pollChild
  | endInput
  /-- The outer loop is left, or there is nothing to wait for. -/
  | leave
  /-- `checkInterrupt` throws. -/
  | interrupt
  /-- The caller gives up its pointers. -/
  | release
  | destroy (g : GoalId)
  /-- Other processes change the store. -/
  | other (world : World)

/-- The processes of a goal that are not waited for yet. -/
def Goal.pids (goal : Goal) : List Pid :=
  match goal.kind with
  | .derivation d => d.pid.toList ++ (d.hook.getD none).toList
  | .substitution s => s.pid.toList

namespace Worker

/-- There is a strong pointer to the goal. -/
def referenced (w : Worker) (g : GoalId) : Bool :=
  decide (g ∈ w.topGoals) || decide (g ∈ w.held) ||
    w.goals.entries.any fun e => decide (g ∈ e.2.waitees)

/-- There is a strong pointer to every goal. -/
def settled (w : Worker) : Bool := w.goals.keys.all w.referenced

/-- The child processes that are not waited for yet; none of them has the identifier of a new
process. -/
def usedPids (w : Worker) : List Pid :=
  w.goals.entries.flatMap (fun e => e.2.pids) ++ w.hook.toList

/-- The identifiers of new processes are new. -/
def freshPids (w : Worker) (ans : Answers) : Bool :=
  decide (ans.pid ∉ w.usedPids) && decide (ans.hookPid ∉ w.usedPids) &&
    decide (ans.pid ≠ ans.hookPid)

end Worker

/-- Run a program and go on at a place of the loop. -/
def RunState.exec (w : Worker) (m : WorkerM Unit) (next : Phase) : RunState :=
  match m w with
  | (.ok _, w') => ⟨w', next⟩
  | (.error e, w') => ⟨w', .stopped e⟩

/-- Call a goal if it is not destroyed. -/
def workGoal (env : BuildEnv) (ans : Answers) (g : GoalId) : WorkerM Unit := do
  let w ← Prog.get
  match w.goals.find? g with
  | some goal => work env ans g goal
  | none => pure ()

/-- Destroy a goal. -/
def destroyGoal (g : GoalId) : WorkerM Unit := do
  let w ← Prog.get
  match w.goals.find? g with
  | some goal => destroy g goal
  | none => pure ()

/-- What comes after the inner loop when it is not `waitForInput`. -/
def leaveLoop (env : BuildEnv) (w : Worker) : Phase :=
  if w.topGoals = ∅ then
    if env.settings.keepGoing = true ∧ ¬ (w.awake = ∅ ∧ w.wantingToBuild = ∅ ∧ w.children = ∅) then
      .stopped (.assertion .loopOver)
    else .returned
  else if env.settings.maxBuildJobs = 0 then
    .stopped (.error (str ("unable to start any build; either increase `--max-jobs' " ++
      "or enable distributed builds")))
  else .stopped (.assertion .awakeNonempty)

/-- One step of the loop, if the event can happen. -/
def step (env : BuildEnv) (r : RunState) (e : Event) : Option RunState :=
  let w := r.worker
  match e with
  | .destroy g =>
    if g ∈ w.goals ∧ w.referenced g = false then some (.exec w (destroyGoal g) r.phase) else none
  | .other world => some ⟨{ w with world }, r.phase⟩
  | e =>
    if w.settled then
      match r.phase, e with
      | .ready, .takeAwake =>
        if w.awake ≠ ∅ ∧ w.topGoals ≠ ∅ then some ⟨{ w with awake := ∅ }, .working w.awake⟩ else none
      | .working awake2, .work g ans =>
        if g ∈ awake2 ∧ w.topGoals ≠ ∅ ∧ w.freshPids ans then
          some (.exec w (workGoal env ans g) (.working (awake2.erase g)))
        else none
      | .working awake2, .endAwake =>
        if awake2 = ∅ ∨ w.topGoals = ∅ then some ⟨w, .ready⟩ else none
      | .ready, .waitForInput inp =>
        if w.awake = ∅ ∧ w.topGoals ≠ ∅ ∧ (w.children ≠ ∅ ∨ w.waitingForAWhile ≠ ∅) then
          let w := w.startInput inp
          match inp.select with
          | .ready => some ⟨w, .polling inp w.children.keys⟩
          | .interrupted => some ⟨w, .ready⟩
          | .failed => some ⟨w, .stopped (.error (str "waiting for input"))⟩
        else none
      | .polling inp (pid :: pids), .pollChild =>
        some (.exec w (pollChild env inp pid) (.polling inp pids))
      | .polling inp [], .endInput => some ⟨w.endInput env.settings.pollInterval inp, .ready⟩
      | .ready, .leave =>
        if w.topGoals = ∅ ∨ (w.awake = ∅ ∧ w.children = ∅ ∧ w.waitingForAWhile = ∅) then
          some ⟨w, leaveLoop env w⟩
        else none
      | .returned, .release => some ⟨{ w with held := ∅, topGoals := ∅ }, .returned⟩
      | .stopped reason, .release => some ⟨{ w with held := ∅, topGoals := ∅ }, .stopped reason⟩
      | .returned, .interrupt => none
      | .stopped _, .interrupt => none
      | _, .interrupt => some ⟨w, .stopped (.error (str "interrupted by the user"))⟩
      | _, _ => none
    else none

/-! ### The callers -/

/-- A top-level goal. -/
inductive Request where
  | derivation (drvPath : Path) (wantedOutputs : SortedSet Str)
  | path (storePath : Path)
deriving DecidableEq

/-- `makeDerivationGoal` or `makeSubstitutionGoal`. -/
def Worker.makeGoal (w : Worker) (repair : Bool) : Request → GoalId × Worker
  | .derivation drvPath wantedOutputs => w.makeDerivationGoal drvPath wantedOutputs repair
  | .path storePath => w.makeSubstitutionGoal storePath repair

/-- Make a top-level goal and keep a pointer to it. -/
def Worker.holdGoal (repair : Bool) (w : Worker) (request : Request) : Worker :=
  let r := w.makeGoal repair request
  { r.2 with held := r.2.held.insert r.1 }

/-- The state in which the loop is entered. -/
def startRun (world : World) (requests : List Request) (repair : Bool) : RunState :=
  let w := requests.foldl (Worker.holdGoal repair) (.new world)
  ⟨{ w with topGoals := w.held }, .ready⟩

/-- The requests of `buildPaths`. -/
def buildPathsRequests (drvPaths : PathSet) : List Request :=
  drvPaths.toList.map fun i =>
    let i2 := parseDrvPathWithOutputs i
    if isDerivation i2.1 then .derivation i2.1 i2.2 else .path i

/-- Model of `exitStatus`. -/
def Worker.exitStatus (w : Worker) : ℕ := if w.permanentFailure then 100 else 1

/-- `buildPaths` returns without throwing when the loop has ended in this state. -/
def buildPathsReturns (r : RunState) : Prop :=
  (∃ w, r = ⟨w, .returned⟩) ∧
    ∀ g ∈ r.worker.held, (r.worker.goals.find? g).all (fun goal => goal.exitCode ≠ .ecFailed)

/-- The states that the loop can be in after it was started with some requests, when every step
satisfies a condition. -/
def Runs (env : BuildEnv) (cond : RunState → Event → RunState → Prop) (r r' : RunState) : Prop :=
  Relation.ReflTransGen (fun r r' => ∃ e, step env r e = some r' ∧ cond r e r') r r'

/-- The states that the loop can be in after it was started with some requests. -/
def Reachable (env : BuildEnv) (r : RunState) : Prop :=
  ∃ world requests repair, Runs env (fun _ _ _ => True) (startRun world requests repair) r

end Nix
