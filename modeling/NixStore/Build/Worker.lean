import NixStore.Lib.Prog
import NixStore.Store.StorePaths

/-!
# Goals and the worker

Model of the classes `Goal` and `Worker` of `build.cc`: the goals with the two directions of the
relation between a goal and those it waits for, the sets of goals that are awake or sleep, the table
of child processes and the job limit.

A goal is an object with an identity, here a number, and `Worker::goals` is the heap: it has the goals
that are not destroyed yet.  A weak pointer is an identity that `lock` looks up there.  The strong
pointers are the sets `topGoals` and `waitees` and the set `held`, the variable `goals` of the caller
of `Worker::run`.  Identities are given out in ascending order, so the loops over sets of pointers run
in the order of creation instead of the order of addresses; the only loop for which the order could
matter is the one of `amDone`, and its rounds commute.

Three fields are not in the source: `requests` and `failures` record what was asked of a goal and why
derivations failed, and `lockedPaths` is the static variable of `pathlocks.cc`.
-/

namespace Nix

/-! ### Goals -/

/-- The identity of a goal. -/
abbrev GoalId := ℕ

/-- A process identifier; the value -1 of a `Pid` is `none`. -/
abbrev Pid := ℕ

/-- `Goal::ExitCode`. -/
inductive ExitCode where
  | ecBusy
  | ecSuccess
  | ecFailed
  | ecNoSubstituters
deriving DecidableEq

/-- The states of a derivation goal. -/
inductive DerivationGoalState where
  | init
  | haveDerivation
  | outputsSubstituted
  | closureRepaired
  | inputsRealised
  | tryToBuild
  | buildDone
deriving DecidableEq

/-- The states of a substitution goal. -/
inductive SubstitutionGoalState where
  | init
  | tryNext
  | referencesValid
  | tryToRun
  | finished
deriving DecidableEq

/-- The derivation of a goal that has not loaded it yet. -/
def Derivation.none : Derivation := ⟨∅, ∅, ∅, [], [], [], ∅⟩

/-- Model of `DerivationGoal`. -/
structure DerivationGoal where
  drvPath : Path
  /-- The specific outputs that we need to build.  Empty means all of them. -/
  wantedOutputs : SortedSet Str
  /-- Whether additional wanted outputs have been added. -/
  needRestart : Bool
  drv : Derivation
  /-- The lock files that `outputLocks` holds. -/
  outputLocks : PathSet
  /-- The process of the builder. -/
  pid : Option Pid
  /-- The build hook, and its process while that is not waited for. -/
  hook : Option (Option Pid)
  fixedOutput : Bool
  state : DerivationGoalState
  repair : Bool
  /-- The sets of outputs that were asked for. -/
  requests : List (SortedSet Str)
deriving DecidableEq

/-- Model of `SubstitutionGoal`. -/
structure SubstitutionGoal where
  storePath : Path
  /-- The remaining substituters. -/
  subs : List Path
  hasSubstitute : Bool
  /-- `info.references` -/
  references : PathSet
  /-- The process of the substituter. -/
  pid : Option Pid
  /-- The lock file that `outputLock` holds, if any. -/
  outputLock : PathSet
  state : SubstitutionGoalState
  repair : Bool
deriving DecidableEq

/-- The two classes of goals. -/
inductive GoalKind where
  | derivation (d : DerivationGoal)
  | substitution (s : SubstitutionGoal)
deriving DecidableEq

/-- Model of `Goal`. -/
structure Goal where
  /-- Goals that this goal is waiting for. -/
  waitees : SortedSet GoalId
  /-- Goals waiting for this one to finish. -/
  waiters : SortedSet GoalId
  /-- Number of goals we are/were waiting for that have failed. -/
  nrFailed : ℕ
  /-- Number of those that failed because there are no substituters. -/
  nrNoSubstituters : ℕ
  exitCode : ExitCode
  kind : GoalKind
deriving DecidableEq

/-- The constructor `Goal`. -/
def Goal.ofKind (kind : GoalKind) : Goal := ⟨∅, ∅, 0, 0, .ecBusy, kind⟩

/-- The constructor `DerivationGoal`. -/
def Goal.newDerivation (drvPath : Path) (wantedOutputs : SortedSet Str) (repair : Bool) : Goal :=
  .ofKind (.derivation ⟨drvPath, wantedOutputs, false, .none, ∅, none, none, false, .init, repair,
    [wantedOutputs]⟩)

/-- The constructor `SubstitutionGoal`. -/
def Goal.newSubstitution (storePath : Path) (repair : Bool) : Goal :=
  .ofKind (.substitution ⟨storePath, [], false, ∅, none, ∅, .init, repair⟩)

/-- Change the part of a goal that belongs to a derivation goal. -/
def Goal.mapDerivation (f : DerivationGoal → DerivationGoal) (goal : Goal) : Goal :=
  match goal.kind with
  | .derivation d => { goal with kind := .derivation (f d) }
  | .substitution _ => goal

/-- Change the part of a goal that belongs to a substitution goal. -/
def Goal.mapSubstitution (f : SubstitutionGoal → SubstitutionGoal) (goal : Goal) : Goal :=
  match goal.kind with
  | .derivation _ => goal
  | .substitution s => { goal with kind := .substitution (f s) }

/-- Model of `addWantedOutputs`. -/
def DerivationGoal.addWantedOutputs (d : DerivationGoal) (outputs : SortedSet Str) :
    DerivationGoal :=
  let d := { d with requests := d.requests ++ [outputs] }
  -- if we already want all outputs, there is nothing to do
  if d.wantedOutputs = ∅ then d
  else if outputs = ∅ then { d with wantedOutputs := ∅, needRestart := true }
  else
    outputs.toList.foldl
      (fun d i =>
        if i ∈ d.wantedOutputs then d
        else { d with wantedOutputs := d.wantedOutputs.insert i, needRestart := true }) d

/-! ### The worker -/

/-- The descriptors that a child is listened to on, under the names of their pipes. -/
inductive ChildFd where
  | fromHook
  | builderOut
  | logPipe
deriving DecidableEq

/-- Model of `Child`. -/
structure Child where
  goal : GoalId
  fds : List ChildFd
  monitorForSilence : Bool
  inBuildSlot : Bool
  /-- Time we last got output on stdout/stderr. -/
  lastOutput : ℤ
deriving DecidableEq

/-- What the goals ask the store about: the valid paths, their references, and the outputs whose
build failed before. -/
structure World where
  isValidPath : Path → Bool
  references : Path → PathSet
  hasPathFailed : Path → Bool

/-- Why a derivation failed, with the two things that decide whether the failure is permanent. -/
inductive FailureCause where
  /-- `pathFailed` -/
  | cached
  /-- A `BuildError` of `startBuilder`. -/
  | startFailed
  /-- A `BuildError` in `buildDone`. -/
  | buildFailed (hookError fixedOutput : Bool)
deriving DecidableEq

/-- The value that `permanentFailure` gets. -/
def FailureCause.permanent : FailureCause → Bool
  | .cached => true
  | .startFailed => true
  | .buildFailed hookError fixedOutput => !hookError && !fixedOutput

/-- Model of `Worker`, with the parts of the process that its goals share. -/
structure Worker where
  /-- The goals that are not destroyed. -/
  goals : SortedMap GoalId Goal
  nextGoal : GoalId
  /-- The strong pointers of the caller of `run`. -/
  held : SortedSet GoalId
  topGoals : SortedSet GoalId
  awake : SortedSet GoalId
  wantingToBuild : SortedSet GoalId
  children : SortedMap Pid Child
  nrLocalBuilds : ℕ
  derivationGoals : SortedMap Path GoalId
  substitutionGoals : SortedMap Path GoalId
  waitingForAnyGoal : SortedSet GoalId
  waitingForAWhile : SortedSet GoalId
  lastWokenUp : ℤ
  permanentFailure : Bool
  /-- The process of a build hook that is not building yet. -/
  hook : Option Pid
  lockedPaths : PathSet
  world : World
  /-- The derivations that failed, in this order. -/
  failures : List (Path × FailureCause)

/-- The constructor `Worker`. -/
def Worker.new (world : World) : Worker :=
  ⟨∅, 0, ∅, ∅, ∅, ∅, ∅, 0, ∅, ∅, ∅, ∅, 0, false, none, ∅, world, []⟩

/-- The assertions of the modelled functions. -/
inductive Assertion where
  /-- `exitCode == ecBusy` in `amDone` -/
  | exitBusy
  /-- `waitees.find(waitee) != waitees.end()` in `waiteeDone` -/
  | waiteeFound
  /-- `i != children.end()` in `childTerminated` -/
  | childFound
  /-- `nrLocalBuilds > 0` in `childTerminated` -/
  | slotUsed
  /-- `goal` in `waitForInput` -/
  | goalAlive
  /-- `worker.store.isValidPath(..)` in `haveDerivation`, `inputsRealised` and `referencesValid` -/
  | pathValid
  /-- `fds.empty()` in `lockPaths` -/
  | locksEmpty
  /-- `!awake.empty()` in `run` -/
  | awakeNonempty
  /-- `!settings.keepGoing || children.empty()` at the end of `run`, and the two like it -/
  | loopOver
  /-- `!working` in the constructor of a worker, where the source calls `abort` -/
  | notWorking
deriving DecidableEq

/-- Why a call does not return. -/
inductive Stop where
  | assertion (a : Assertion)
  | error (msg : Str)
  /-- A recursion is deeper than its bound. -/
  | outOfFuel
deriving DecidableEq

/-- Programs of the worker. -/
abbrev WorkerM := Prog Worker Stop

/-- Model of `assert`. -/
def assert (a : Assertion) (p : Prop) [Decidable p] : WorkerM Unit :=
  if p then pure () else .throw (.assertion a)

/-- An operation that has nothing to do with the state. -/
def WorkerM.lift {α : Type} : Outcome Str α → WorkerM α
  | .ok a => pure a
  | .error e => .throw (.error e)
  | .diverge => .throw .outOfFuel

/-- The rule for an assertion. -/
theorem ends_assert_bind {a : Assertion} {p : Prop} [Decidable p] {β : Type} {f : Unit → WorkerM β}
    {w : Worker} {Q : β → Worker → Prop} {E : Stop → Worker → Prop}
    (h : p → Prog.Ends (f ()) w Q E) (hE : ¬ p → E (.assertion a) w) :
    Prog.Ends (assert a p >>= f) w Q E := by
  unfold assert
  by_cases hp : p
  · rw [if_pos hp]
    exact h hp
  · rw [if_neg hp]
    exact hE hp

/-- The rule for an outcome that is lifted. -/
theorem ends_lift_bind {α β : Type} {x : Outcome Str α} {f : α → WorkerM β} {w : Worker}
    {Q : β → Worker → Prop} {E : Stop → Worker → Prop} (h : ∀ a, x = .ok a → Prog.Ends (f a) w Q E)
    (hE : ∀ e, (∀ a, e ≠ .assertion a) → E e w) : Prog.Ends (WorkerM.lift x >>= f) w Q E := by
  cases x with
  | ok a => exact h a rfl
  | error e => exact hE _ (by simp)
  | diverge => exact hE _ (by simp)

namespace Worker

/-- Replace a goal on the heap. -/
def setGoal (w : Worker) (g : GoalId) (goal : Goal) : Worker :=
  { w with goals := w.goals.insert g goal }

/-- Change a goal on the heap. -/
def updateGoal (w : Worker) (g : GoalId) (f : Goal → Goal) : Worker :=
  { w with goals := w.goals.modify g f }

/-- `weak_ptr::lock` -/
def lock (w : Worker) (g : GoalId) : Option GoalId := if g ∈ w.goals then some g else none

/-- The members of a set of weak pointers that are not destroyed. -/
def alive (w : Worker) (s : SortedSet GoalId) : List GoalId :=
  s.toList.filter fun g => decide (g ∈ w.goals)

/-- Model of `wakeUp`. -/
def wakeUp (w : Worker) (g : GoalId) : Worker := { w with awake := w.awake.insert g }

/-- The loops that wake up every goal of a set. -/
def wakeUpAll (w : Worker) (s : SortedSet GoalId) : Worker :=
  { w with awake := (w.alive s).foldl SortedSet.insert w.awake }

/-- Model of `addWaitee`. -/
def addWaitee (w : Worker) (g waitee : GoalId) : Worker :=
  (w.updateGoal g fun goal => { goal with waitees := goal.waitees.insert waitee }).updateGoal waitee
    fun goal => { goal with waiters := goal.waiters.insert g }

/-- Put a new goal on the heap. -/
def newGoal (w : Worker) (goal : Goal) : Worker :=
  { w with goals := w.goals.insert w.nextGoal goal, nextGoal := w.nextGoal + 1 }

/-- Model of `makeDerivationGoal`. -/
def makeDerivationGoal (w : Worker) (path : Path) (wantedOutputs : SortedSet Str) (repair : Bool) :
    GoalId × Worker :=
  match (w.derivationGoals.find? path).bind w.lock with
  | none =>
    let g := w.nextGoal
    let w := w.newGoal (.newDerivation path wantedOutputs repair)
    (g, { w with derivationGoals := w.derivationGoals.insert path g }.wakeUp g)
  | some g => (g, w.updateGoal g (Goal.mapDerivation fun d => d.addWantedOutputs wantedOutputs))

/-- Model of `makeSubstitutionGoal`. -/
def makeSubstitutionGoal (w : Worker) (path : Path) (repair : Bool) : GoalId × Worker :=
  match (w.substitutionGoals.find? path).bind w.lock with
  | none =>
    let g := w.nextGoal
    let w := w.newGoal (.newSubstitution path repair)
    (g, { w with substitutionGoals := w.substitutionGoals.insert path g }.wakeUp g)
  | some g => (g, w)

/-- Model of `removeGoal`. -/
def removeGoal (keepGoing : Bool) (w : Worker) (g : GoalId) : Worker :=
  let failed := (w.goals.find? g).any fun goal => goal.exitCode = .ecFailed
  let w := { w with
    derivationGoals := w.derivationGoals.filter fun e => e.2 ≠ g
    substitutionGoals := w.substitutionGoals.filter fun e => e.2 ≠ g
    topGoals :=
      if g ∈ w.topGoals then
        -- if a top-level goal failed, then kill all other goals
        if failed && !keepGoing then ∅ else w.topGoals.erase g
      else w.topGoals }
  { w.wakeUpAll w.waitingForAnyGoal with waitingForAnyGoal := ∅ }

/-- Model of `childStarted`. -/
def childStarted (w : Worker) (g : GoalId) (pid : Pid) (fds : List ChildFd)
    (inBuildSlot monitorForSilence : Bool) (now : ℤ) : Worker :=
  { w with
    children := w.children.insert pid ⟨g, fds, monitorForSilence, inBuildSlot, now⟩
    nrLocalBuilds := if inBuildSlot then w.nrLocalBuilds + 1 else w.nrLocalBuilds }

/-- Model of `waitForBuildSlot`. -/
def waitForBuildSlot (maxBuildJobs : ℕ) (w : Worker) (g : GoalId) : Worker :=
  if w.nrLocalBuilds < maxBuildJobs then w.wakeUp g -- we can do it right away
  else { w with wantingToBuild := w.wantingToBuild.insert g }

/-- Model of `waitForAnyGoal`. -/
def waitForAnyGoal (w : Worker) (g : GoalId) : Worker :=
  { w with waitingForAnyGoal := w.waitingForAnyGoal.insert g }

/-- Model of `waitForAWhile`. -/
def waitForAWhile (w : Worker) (g : GoalId) : Worker :=
  { w with waitingForAWhile := w.waitingForAWhile.insert g }

end Worker

/-- Model of `childTerminated`; no caller sets `wakeSleepers` to false. -/
def childTerminated (pid : Pid) : WorkerM Unit := do
  let w ← Prog.get
  match w.children.find? pid with
  | none => .throw (.assertion .childFound)
  | some child =>
    assert .slotUsed (child.inBuildSlot = true → 0 < w.nrLocalBuilds)
    Prog.modify fun w =>
      let w := { w with
        nrLocalBuilds := if child.inBuildSlot then w.nrLocalBuilds - 1 else w.nrLocalBuilds
        children := w.children.erase pid }
      -- wake up goals waiting for a build slot
      { w.wakeUpAll w.wantingToBuild with wantingToBuild := ∅ }

/-- The counters of a goal after one of those it waits for is done. -/
def Goal.countWaitee (goal : Goal) (waitee : GoalId) (result : ExitCode) : Goal :=
  { goal with
    waitees := goal.waitees.erase waitee
    nrFailed :=
      if result = .ecFailed ∨ result = .ecNoSubstituters then goal.nrFailed + 1 else goal.nrFailed
    nrNoSubstituters :=
      if result = .ecNoSubstituters then goal.nrNoSubstituters + 1 else goal.nrNoSubstituters }

/-- Model of `waiteeDone` on the goal `g`. -/
def waiteeDone (keepGoing : Bool) (g waitee : GoalId) (result : ExitCode) : WorkerM Unit := do
  let w ← Prog.get
  match w.goals.find? g with
  | none => pure ()
  | some goal =>
    assert .waiteeFound (waitee ∈ goal.waitees)
    let goal := goal.countWaitee waitee result
    if goal.waitees = ∅ ∨ (result = .ecFailed ∧ keepGoing = false) then
      -- if we failed and keepGoing is not set, we remove all remaining waitees
      Prog.modify fun w =>
        let goals := w.goals.insert g { goal with waitees := ∅ }
        let goals := goal.waitees.toList.foldl (fun goals i =>
          goals.modify i fun other => { other with waiters := other.waiters.erase g }) goals
        { w with goals }.wakeUp g
    else Prog.modify fun w => w.setGoal g goal

/-- Model of `amDone`. -/
def amDone (keepGoing : Bool) (g : GoalId) (result : ExitCode) : WorkerM Unit := do
  let w ← Prog.get
  match w.goals.find? g with
  | none => pure ()
  | some goal =>
    assert .exitBusy (goal.exitCode = .ecBusy)
    Prog.modify fun w => w.setGoal g { goal with exitCode := result }
    Prog.each (fun i => waiteeDone keepGoing i g result) goal.waiters.toList
    Prog.modify fun w => w.updateGoal g fun goal => { goal with waiters := ∅ }
    Prog.modify fun w => w.removeGoal keepGoing g

/-! ### Path locks -/

/-- Model of `pathIsLockedByMe`. -/
def Worker.pathIsLockedByMe (w : Worker) (path : Path) : Bool := decide (lockPath path ∈ w.lockedPaths)

end Nix
