import NixStore.Build.WorkSpec

/-!
# What the loop does to the tables of the worker

The tables of the worker are about a few fields of each goal (`GoalView`).  A step of the loop leaves
them alone (`Alike`), makes a goal (`Created`), makes a goal wait for another one, starts a process or
waits for one (`Ceased`), or ends a goal (`AfterDone`).
-/

namespace Nix

open Relation

/-! ### Views -/

/-- The fields of a goal that other goals depend on. -/
structure GoalNode where
  waitees : SortedSet GoalId
  waiters : SortedSet GoalId
  exitCode : ExitCode
  key : GoalKey

/-- The fields of a goal that other goals and the loop depend on. -/
structure GoalView extends GoalNode where
  pids : List Pid
  ownPid : Option Pid
  /-- The goal is not done, or the state it was left in waits for a child. -/
  calm : Bool

/-- What other goals depend on. -/
def Goal.node (G : Goal) : GoalNode := ⟨G.waitees, G.waiters, G.exitCode, G.key⟩

/-- The goal is in the state that waits for a child. -/
def Goal.parked (G : Goal) : Bool :=
  match G.kind with
  | .derivation d => d.state = .buildDone
  | .substitution s => s.state = .finished

/-- What the loop depends on. -/
def Goal.view (G : Goal) : GoalView :=
  ⟨G.node, G.pids, G.ownPid, decide (G.exitCode = .ecBusy) || G.parked⟩

namespace Worker

/-- What other goals depend on in the goal `h`, if it is not destroyed. -/
def node (w : Worker) (h : GoalId) : Option GoalNode := (w.goals.find? h).map Goal.node

/-- What the loop depends on in the goal `h`, if it is not destroyed. -/
def view (w : Worker) (h : GoalId) : Option GoalView := (w.goals.find? h).map Goal.view

/-- The goal that the worker has for a key. -/
def goalFor (w : Worker) : GoalKey → Option GoalId
  | .derivation drvPath => w.derivationGoals.find? drvPath
  | .substitution storePath => w.substitutionGoals.find? storePath

/-- The entry of a goal in the graph, from its entry in the table. -/
theorem node_eq_some {w : Worker} {h : GoalId} {n : GoalNode} :
    w.node h = some n ↔ ∃ H, w.goals.find? h = some H ∧ H.node = n := by
  simp [node]

/-- The entry in the graph of a goal that is there. -/
theorem node_of_find {w : Worker} {h : GoalId} {H : Goal} (hH : w.goals.find? h = some H) :
    w.node h = some H.node := by
  simp [node, hH]

/-- The entry in the graph is part of the view. -/
theorem node_eq_map_view (w : Worker) (h : GoalId) : w.node h = (w.view h).map (·.toGoalNode) := by
  simp only [node, view, Option.map_map]
  rfl

/-- The view of a goal, from its entry in the table. -/
theorem view_eq_some {w : Worker} {h : GoalId} {v : GoalView} :
    w.view h = some v ↔ ∃ H, w.goals.find? h = some H ∧ H.view = v := by
  simp [view]

/-- The view of a goal that is there. -/
theorem view_of_find {w : Worker} {h : GoalId} {H : Goal} (hH : w.goals.find? h = some H) :
    w.view h = some H.view := by
  simp [view, hH]

/-- A goal is there when it has a view. -/
theorem mem_goals_iff_view {w : Worker} {h : GoalId} : h ∈ w.goals ↔ ∃ v, w.view h = some v := by
  rw [mem_goals_iff]
  constructor
  · intro hh
    obtain ⟨H, hH⟩ := hh
    exact ⟨_, view_of_find hH⟩
  · intro hh
    obtain ⟨v, hv⟩ := hh
    obtain ⟨H, hH, -⟩ := view_eq_some.mp hv
    exact ⟨H, hH⟩

end Worker

/-! ### Steps that leave the tables alone -/

/-- The tables are the same; the fields of goals other than `g` change at most in what is wanted. -/
structure Alike (g : GoalId) (w w' : Worker) : Prop where
  view : ∀ h, w'.view h = w.view h
  kind : ∀ h H H', h ≠ g → w.goals.find? h = some H → w'.goals.find? h = some H' →
    H.kind.SameBuild H'.kind
  rest : w' = { w with
    goals := w'.goals
    lockedPaths := w'.lockedPaths
    world := w'.world
    permanentFailure := w'.permanentFailure
    failures := w'.failures
    lastWokenUp := w'.lastWokenUp }

/-- Updating one goal changes its view only. -/
theorem view_updateGoal {w : Worker} {g : GoalId} {G : Goal} {f : Goal → Goal}
    (hG : w.goals.find? g = some G) (h : GoalId) :
    (w.updateGoal g f).view h = if h = g then some (f G).view else w.view h := by
  simp only [Worker.view, Worker.updateGoal, SortedMap.find?_modify]
  by_cases hh : h = g
  · simp [hh, hG]
  · simp [hh]

/-- An update that keeps the entry in the graph keeps all of them. -/
theorem node_updateGoal {w : Worker} {g : GoalId} {G : Goal} {f : Goal → Goal}
    (hG : w.goals.find? g = some G) (hf : (f G).node = G.node) (h : GoalId) :
    (w.updateGoal g f).node h = w.node h := by
  simp only [Worker.node, Worker.updateGoal, SortedMap.find?_modify]
  by_cases hh : h = g
  · simp [hh, hG, hf]
  · simp [hh]

/-- Updating one goal leaves the others alone. -/
theorem find?_updateGoal_ne {w : Worker} {g h : GoalId} {f : Goal → Goal} (hh : h ≠ g) :
    (w.updateGoal g f).goals.find? h = w.goals.find? h := by
  rw [Worker.updateGoal, SortedMap.find?_modify, if_neg hh]

/-- A change of the record of `g` that is not seen by the loop. -/
theorem alike_updateGoal {w : Worker} {g : GoalId} {G : Goal} {f : Goal → Goal}
    (hG : w.goals.find? g = some G) (hview : (f G).view = G.view) : Alike g w (w.updateGoal g f) where
  view h := by
    rw [view_updateGoal hG]
    split_ifs with hh
    · rw [hh, Worker.view_of_find hG, hview]
    · rfl
  kind h H H' hh hH hH' := by
    rw [find?_updateGoal_ne hh, hH] at hH'
    cases hH'
    exact .refl _
  rest := rfl

/-- An edit of a busy goal keeps its view. -/
theorem Goal.Edit.view {G G' : Goal} (h : G.Edit G') (hbusy : G.exitCode = .ecBusy) :
    G'.view = G.view := by
  simp only [Goal.view, Goal.node, h.waitees, h.waiters, h.exitCode, h.key, h.pids, h.ownPid, hbusy,
    decide_true, Bool.true_or]

/-- A goal that was reaped keeps its entry in the graph. -/
theorem Goal.Reaped.node {G G' : Goal} {pids : List Pid} (h : G.Reaped G' pids) :
    G'.node = G.node := by
  simp only [Goal.node, h.waitees, h.waiters, h.exitCode, h.key]

/-- Locks are not part of the view. -/
theorem Goal.view_setLocks (G : Goal) (L : PathSet) : (G.setLocks L).view = G.view := by
  obtain ⟨_, _, _, _, _, d | s⟩ := G <;> rfl

/-- The loop does not see what is wanted. -/
theorem Goal.view_eq_of_sameBuild {G G' : Goal} (hwaitees : G'.waitees = G.waitees)
    (hwaiters : G'.waiters = G.waiters) (hexit : G'.exitCode = G.exitCode)
    (hsame : G.kind.SameBuild G'.kind) : G'.view = G.view := by
  obtain ⟨_, _, _, _, _, k⟩ := G
  obtain ⟨_, _, _, _, _, k'⟩ := G'
  dsimp only at hwaitees hwaiters hexit hsame
  subst hwaitees hwaiters hexit
  cases k with
  | substitution s =>
    rw [hsame.eq_substitution]
    rfl
  | derivation d =>
    cases k' with
    | substitution s => cases hsame
    | derivation d' =>
      change _ = d at hsame
      rw [← hsame]
      rfl

/-- Asking for more outputs keeps what is built. -/
theorem Goal.sameBuild_addWantedOutputs (G : Goal) (outputs : SortedSet Str) :
    G.kind.SameBuild (G.mapDerivation fun d => d.addWantedOutputs outputs).kind := by
  obtain ⟨_, _, _, _, _, d | s⟩ := G
  · exact d.sameBuild_addWantedOutputs outputs
  · exact .refl _

/-- Asking for more outputs keeps the view. -/
theorem Goal.view_addWantedOutputs (G : Goal) (outputs : SortedSet Str) :
    (G.mapDerivation fun d => d.addWantedOutputs outputs).view = G.view := by
  refine Goal.view_eq_of_sameBuild ?_ ?_ ?_ (G.sameBuild_addWantedOutputs outputs) <;>
    obtain ⟨_, _, _, _, _, d | s⟩ := G <;> rfl

/-- Asking any goal for more outputs. -/
theorem alike_want {w : Worker} {g i : GoalId} {outputs : SortedSet Str} :
    Alike g w (w.updateGoal i (Goal.mapDerivation fun d => d.addWantedOutputs outputs)) where
  view h := by
    simp only [Worker.view, Worker.updateGoal, SortedMap.find?_modify]
    split_ifs with hh
    · rw [Option.map_map]
      exact congrArg (fun f => Option.map f (w.goals.find? h))
        (funext fun G => G.view_addWantedOutputs outputs)
    · rfl
  kind h H H' _ hH hH' := by
    simp only [Worker.updateGoal, SortedMap.find?_modify, hH] at hH'
    split_ifs at hH' with hh
    · cases hH'
      exact H.sameBuild_addWantedOutputs outputs
    · cases hH'
      exact .refl _
  rest := rfl

/-- A goal was made for a key for which there was none, and it is awake. -/
structure Created (k : GoalKey) (N : Goal) (w w' : Worker) : Prop where
  waitees : N.waitees = ∅
  waiters : N.waiters = ∅
  exitCode : N.exitCode = .ecBusy
  key : N.key = k
  pids : N.pids = []
  resting : N.Resting
  noGoal : (w.goalFor k).bind w.lock = none
  goalFor : ∀ k', w'.goalFor k' = if k' = k then some w.nextGoal else w.goalFor k'
  rest : w' = { w with
    goals := w.goals.insert w.nextGoal N
    nextGoal := w.nextGoal + 1
    awake := w.awake.insert w.nextGoal
    derivationGoals := w'.derivationGoals
    substitutionGoals := w'.substitutionGoals }

/-- A new derivation goal is created when its key has no live goal. -/
theorem created_derivation {w : Worker} (path : Path) (wantedOutputs : SortedSet Str) (repair : Bool)
    (hno : (w.derivationGoals.find? path).bind w.lock = none) :
    Created (.derivation path) (.newDerivation path wantedOutputs repair) w
      ({ w.newGoal (.newDerivation path wantedOutputs repair) with
        derivationGoals := w.derivationGoals.insert path w.nextGoal }.wakeUp w.nextGoal) where
  waitees := rfl
  waiters := rfl
  exitCode := rfl
  key := rfl
  pids := rfl
  resting := ⟨fun h => (by cases h), rfl, rfl, rfl⟩
  noGoal := hno
  goalFor k := by
    cases k with
    | derivation p =>
      change (w.derivationGoals.insert path w.nextGoal).find? p = _
      simp only [SortedMap.find?_insert, GoalKey.derivation.injEq]
      split_ifs <;> rfl
    | substitution p =>
      rw [if_neg (by simp)]
      rfl
  rest := rfl

/-- A new substitution goal is created when its key has no live goal. -/
theorem created_substitution {w : Worker} (path : Path) (repair : Bool)
    (hno : (w.substitutionGoals.find? path).bind w.lock = none) :
    Created (.substitution path) (.newSubstitution path repair) w
      ({ w.newGoal (.newSubstitution path repair) with
        substitutionGoals := w.substitutionGoals.insert path w.nextGoal }.wakeUp w.nextGoal) where
  waitees := rfl
  waiters := rfl
  exitCode := rfl
  key := rfl
  pids := rfl
  resting := ⟨fun h => (by cases h), rfl⟩
  noGoal := hno
  goalFor k := by
    cases k with
    | derivation p =>
      rw [if_neg (by simp)]
      rfl
    | substitution p =>
      change (w.substitutionGoals.insert path w.nextGoal).find? p = _
      simp only [SortedMap.find?_insert, GoalKey.substitution.injEq]
      split_ifs <;> rfl
  rest := rfl

/-- The process `pid` was waited for and its entry is removed; the goals that want a slot are awake. -/
structure Ceased (pid : Pid) (w w' : Worker) : Prop where
  awake : ∀ j, j ∈ w'.awake ↔ j ∈ w.awake ∨ (j ∈ w.wantingToBuild ∧ j ∈ w.goals)
  entry : ∃ c, w.children.find? pid = some c ∧
    (c.inBuildSlot = true → 0 < w.nrLocalBuilds) ∧
    w' = { w with
      awake := w'.awake
      wantingToBuild := ∅
      children := w.children.erase pid
      nrLocalBuilds := if c.inBuildSlot then w.nrLocalBuilds - 1 else w.nrLocalBuilds }

/-- What `childTerminated` does; it fails only if one of its two assertions does. -/
theorem childTerminated_spec (pid : Pid) (w : Worker) :
    Prog.Ends (childTerminated pid) w (fun _ w' => Ceased pid w w') fun e w' => w' = w ∧
      ((e = .assertion .childFound ∧ w.children.find? pid = none) ∨
        (e = .assertion .slotUsed ∧ ∃ c, w.children.find? pid = some c ∧ c.inBuildSlot = true ∧
          w.nrLocalBuilds = 0)) := by
  unfold childTerminated
  refine Prog.ends_get_bind ?_
  cases hc : w.children.find? pid with
  | none => exact Prog.ends_throw ⟨rfl, Or.inl ⟨rfl, rfl⟩⟩
  | some c =>
    refine ends_assert_bind (fun hslot => Prog.ends_modify ⟨fun j => ?_, c, hc, hslot, rfl⟩)
      fun hslot => ⟨rfl, Or.inr ⟨rfl, c, rfl, ?_⟩⟩
    · exact Worker.mem_awake_wakeUpAll
    · push Not at hslot
      exact ⟨hslot.1, by omega⟩

/-- The kinds of preparing steps. -/
inductive PrepKind (g : GoalId) (w w' : Worker) : Prop
  | alike (h : Alike g w w')
  | created (k : GoalKey) (N : Goal) (h : Created k N w w')
  | link (i : GoalId) (hi : w.Listed i) (h : w' = w.addWaitee g i)
  | reap (f : Goal → Goal) (G : Goal) (pid : Pid) (hG : w.goals.find? g = some G)
      (hpid : G.pids = [pid]) (hf : G.Reaped (f G) []) (h : Ceased pid (w.updateGoal g f) w')
  | startHook (pid : Pid) (hno : w.hook = none) (hfresh : pid ∉ w.usedPids)
      (h : w' = { w with hook := some pid })

/-- Every preparing step is of one of these kinds. -/
theorem Prep.kinds {F : FailureCause → Prop} {g : GoalId} {w w' : Worker} (h : Prep F g w w')
    {G : Goal} (hG : w.goals.find? g = some G) (hbusy : G.exitCode = .ecBusy) : PrepKind g w w' := by
  have hsame : ∀ h H H', w.goals.find? h = some H → w.goals.find? h = some H' →
      H.kind.SameBuild H'.kind := by
    intro h H H' hH hH'
    rw [hH] at hH'
    cases hH'
    exact .refl _
  cases h with
  | edit f hG' hf =>
    rw [hG] at hG'
    cases hG'
    exact .alike (alike_updateGoal hG (hf.view hbusy))
  | newDerivation path wantedOutputs repair hno =>
    exact .created _ _ (created_derivation path wantedOutputs repair hno)
  | newSubstitution path repair hno => exact .created _ _ (created_substitution path repair hno)
  | want i outputs hi => exact .alike alike_want
  | link i hi => exact .link i hi rfl
  | lockPath path hG' hfree =>
    have halike := alike_updateGoal (f := fun G => G.setLocks (G.locks.insert (Nix.lockPath path)))
      hG (G.view_setLocks _)
    exact .alike ⟨halike.view, halike.kind, rfl⟩
  | unlock =>
    have halike := alike_updateGoal (f := Goal.setLocks ∅) hG (G.view_setLocks ∅)
    exact .alike ⟨halike.view, halike.kind, rfl⟩
  | reap f pid hG' hpid hf hdone =>
    exact .reap f _ pid hG' hpid hf ((childTerminated_spec pid _).of_ok hdone)
  | world world hgrows => exact .alike ⟨fun _ => rfl, fun h H H' _ => hsame h H H', rfl⟩
  | failure drvPath cause hF => exact .alike ⟨fun _ => rfl, fun h H H' _ => hsame h H H', rfl⟩
  | startHook pid hno hfresh => exact .startHook pid hno hfresh rfl

/-! ### Cancelling and destroying goals -/

/-- The entry of the process of a goal is there, and the slot that it takes is counted. -/
def Worker.HasChild (w : Worker) (pid : Pid) : Prop :=
  ∃ c, w.children.find? pid = some c ∧ (c.inBuildSlot = true → 0 < w.nrLocalBuilds)

/-- `childTerminated` takes one entry out of the table of children. -/
theorem childTerminated_ends {w : Worker} {pid : Pid} (h : w.HasChild pid) :
    Prog.Ends (childTerminated pid) w (fun _ w' => Ceased pid w w') fun _ _ => False := by
  obtain ⟨c, hc, hslot⟩ := h
  refine (childTerminated_spec pid w).mono (fun _ _ => id) fun e w' he => ?_
  obtain ⟨-, ⟨-, hno⟩ | ⟨-, c', hc', hin, hzero⟩⟩ := he
  · rw [hc] at hno
    cases hno
  · rw [hc] at hc'
    cases hc'
    have := hslot hin
    omega

/-- The goal `g` was left without processes, and its own one was taken out of the table. -/
structure Stripped (g : GoalId) (G : Goal) (w w' : Worker) : Prop where
  goal : ∃ G', w'.goals.find? g = some G' ∧ G.Reaped G' [] ∧ G'.parked = G.parked
  other : ∀ h, h ≠ g → w'.goals.find? h = w.goals.find? h
  rest : (∃ pid, G.ownPid = some pid ∧ Ceased pid w { w' with goals := w.goals }) ∨
    (G.ownPid = none ∧ w' = { w with goals := w'.goals })

/-- The first part of `cancel`. -/
def strip (g : GoalId) (goal : Goal) : WorkerM Unit :=
  match goal.kind with
  | .derivation d => killChild g d
  | .substitution s =>
    match s.pid with
    | some pid => do
      modifySubstitution g fun s => { s with pid := none }
      childTerminated pid
    | none => pure ()

/-- Cancelling is stripping and then ending in failure. -/
theorem cancel_eq (keepGoing : Bool) (g : GoalId) (goal : Goal) :
    cancel keepGoing g goal = strip g goal >>= fun _ => amDone keepGoing g .ecFailed := by
  unfold cancel strip
  cases goal.kind with
  | derivation d => rfl
  | substitution s =>
    dsimp only
    cases s.pid <;> rfl

/-- The processes of a derivation goal are forgotten. -/
theorem stripped_derivation {g : GoalId} {G : Goal} {d : DerivationGoal} {w w₁ : Worker}
    (hG : w.goals.find? g = some G) (hk : G.kind = .derivation d) (hgoals : w₁.goals = w.goals)
    (hrest : (∃ pid, d.pid = some pid ∧ Ceased pid w w₁) ∨ (d.pid = none ∧ w₁ = w)) :
    Stripped g G w
      (w₁.updateGoal g (Goal.mapDerivation fun d => { d with pid := none, hook := none })) where
  goal := by
    refine ⟨_, find?_updateGoal (hgoals ▸ hG) _, Goal.reaped_mapDerivation hk rfl rfl rfl rfl rfl, ?_⟩
    simp only [Goal.parked, Goal.mapDerivation, hk]
  other h hh := by rw [find?_updateGoal_ne hh, hgoals]
  rest := by
    have hown : G.ownPid = d.pid := by simp only [Goal.ownPid, hk]
    rw [hown]
    have hsame : { w₁.updateGoal g (Goal.mapDerivation fun d =>
        { d with pid := none, hook := none }) with goals := w.goals } = w₁ := by
      rw [← hgoals]
      rfl
    rcases hrest with ⟨pid, hpid, hceased⟩ | ⟨hpid, rfl⟩
    · exact Or.inl ⟨pid, hpid, hsame ▸ hceased⟩
    · exact Or.inr ⟨hpid, rfl⟩

/-- `killChild` takes the process of a goal out of the table. -/
theorem killChild_spec {g : GoalId} {G : Goal} {d : DerivationGoal} {w : Worker}
    (hG : w.goals.find? g = some G) (hk : G.kind = .derivation d)
    (hchild : ∀ pid, d.pid = some pid → w.HasChild pid) :
    Prog.Ends (killChild g d) w (fun _ w' => Stripped g G w w') fun _ _ => False := by
  unfold killChild
  dsimp only
  cases hpid : d.pid with
  | none =>
    dsimp only
    refine Prog.ends_modify ?_
    have hd : { d with hook := none } = { d with pid := none, hook := none } := by rw [← hpid]
    have heq : w.goals.modify g (Goal.mapDerivation fun d => { d with hook := none }) =
        w.goals.modify g (Goal.mapDerivation fun d => { d with pid := none, hook := none }) := by
      refine SortedMap.ext_find? fun h => ?_
      simp only [SortedMap.find?_modify]
      split_ifs with hh
      · rw [hh, hG]
        simp only [Option.map_some, Goal.mapDerivation, hk, hd]
      · rfl
    rw [Worker.updateGoal, heq]
    exact stripped_derivation hG hk rfl (Or.inr ⟨hpid, rfl⟩)
  | some pid =>
    dsimp only
    refine (childTerminated_ends (hchild pid hpid)).bind (fun _ w₁ hw₁ => ?_) fun _ _ => id
    refine Prog.ends_modify_bind (Prog.ends_modify ?_)
    have hgoals : w₁.goals = w.goals := by
      obtain ⟨c, -, -, hrest⟩ := hw₁.entry
      rw [hrest]
    rw [updateGoal_updateGoal]
    simp only [Goal.mapDerivation_mapDerivation]
    exact stripped_derivation hG hk hgoals (Or.inl ⟨pid, hpid, hw₁⟩)

/-- `strip` takes a goal's process away. -/
theorem strip_spec {g : GoalId} {G : Goal} {w : Worker} (hG : w.goals.find? g = some G)
    (hchild : ∀ pid, G.ownPid = some pid → w.HasChild pid) :
    Prog.Ends (strip g G) w (fun _ w' => Stripped g G w w') fun _ _ => False := by
  unfold strip
  cases hk : G.kind with
  | derivation d =>
    simp only [Goal.ownPid, hk] at hchild
    exact killChild_spec hG hk hchild
  | substitution s =>
    have hown : G.ownPid = s.pid := by simp only [Goal.ownPid, hk]
    dsimp only
    cases hpid : s.pid with
    | none =>
      dsimp only
      refine Prog.ends_pure ⟨⟨G, hG, ⟨rfl, rfl, rfl, rfl, fun d' hd' => ?_, ?_, rfl⟩, rfl⟩, fun _ _ => rfl,
        Or.inr ⟨hown.trans hpid, rfl⟩⟩
      · rw [hk] at hd'
        cases hd'
      · exact Goal.pids_substitution hk hpid
    | some pid =>
      dsimp only
      have hchild' : (w.updateGoal g (Goal.mapSubstitution fun s => { s with pid := none })).HasChild
          pid := hchild pid (hown.trans hpid)
      refine Prog.ends_modify_bind ((childTerminated_ends hchild').mono (fun _ w' hw' => ?_)
        fun _ _ => id)
      obtain ⟨c, hc, hslot, hrest⟩ := hw'.entry
      have hgoals : w'.goals =
          (w.updateGoal g (Goal.mapSubstitution fun s => { s with pid := none })).goals := by
        rw [hrest]
      refine ⟨⟨_, hgoals ▸ find?_updateGoal hG _, Goal.reaped_mapSubstitution hk rfl rfl rfl, ?_⟩,
        fun h hh => ?_, Or.inl ⟨pid, hown.trans hpid, ?_⟩⟩
      · simp only [Goal.parked, Goal.mapSubstitution, hk]
      · rw [hgoals, find?_updateGoal_ne hh]
      · refine ⟨fun j => ?_, c, hc, hslot, ?_⟩
        · rw [hw'.awake j]
          simp only [Worker.updateGoal, SortedMap.mem_modify]
        · rw [hrest]
          rfl

/-- The goal `g` is gone, with its own process and its locks. -/
structure Destroyed (g : GoalId) (G : Goal) (w w' : Worker) : Prop where
  goals : w'.goals = w.goals.erase g
  locked : w'.lockedPaths = G.locks.toList.foldl SortedSet.erase w.lockedPaths
  rest : (∃ pid, G.ownPid = some pid ∧
      Ceased pid w { w' with goals := w.goals, lockedPaths := w.lockedPaths }) ∨
    (G.ownPid = none ∧ w' = { w with goals := w'.goals, lockedPaths := w'.lockedPaths })

/-- The end of a destructor, after the process of the goal was killed. -/
theorem destroyed_of_stripped {g : GoalId} {G G' : Goal} {w w₁ : Worker}
    (hfind : w₁.goals.find? g = some G') (hlocks : G'.locks = G.locks)
    (hother : ∀ h, h ≠ g → w₁.goals.find? h = w.goals.find? h)
    (hrest : (∃ pid, G.ownPid = some pid ∧ Ceased pid w { w₁ with goals := w.goals }) ∨
      (G.ownPid = none ∧ w₁ = { w with goals := w₁.goals })) :
    Destroyed g G w { w₁.unlocked g with goals := (w₁.unlocked g).goals.erase g } := by
  have hlocked : w₁.lockedPaths = w.lockedPaths := by
    rcases hrest with ⟨pid, -, hceased⟩ | ⟨-, hw₁⟩
    · obtain ⟨c, -, -, hw₁⟩ := hceased.entry
      exact (congrArg Worker.lockedPaths hw₁ :)
    · rw [hw₁]
  refine ⟨?_, ?_, ?_⟩
  · refine SortedMap.ext_find? fun h => ?_
    simp only [Worker.unlocked, SortedMap.find?_erase, SortedMap.find?_modify]
    by_cases hh : h = g
    · rw [if_pos hh, if_pos hh]
    · rw [if_neg hh, if_neg hh, if_neg hh, hother h hh]
  · simp only [Worker.unlocked, hfind, Option.elim_some, hlocks, hlocked]
  · rcases hrest with ⟨pid, hpid, hceased⟩ | ⟨hpid, hw₁⟩
    · have hsame : { ({ w₁.unlocked g with goals := (w₁.unlocked g).goals.erase g } : Worker) with
          goals := w.goals, lockedPaths := w.lockedPaths } = { w₁ with goals := w.goals } := by
        rw [← hlocked]
        rfl
      exact Or.inl ⟨pid, hpid, hsame ▸ hceased⟩
    · refine Or.inr ⟨hpid, ?_⟩
      rw [hw₁]
      rfl

/-- `destroy` takes a goal out of the table, with its process. -/
theorem destroy_spec {g : GoalId} {G : Goal} {w : Worker} (hG : w.goals.find? g = some G)
    (hchild : ∀ pid, G.ownPid = some pid → w.HasChild pid) :
    Prog.Ends (destroy g G) w (fun _ w' => Destroyed g G w w') fun _ _ => False := by
  unfold destroy
  dsimp only
  cases hk : G.kind with
  | derivation d =>
    simp only [Goal.ownPid, hk] at hchild
    refine (killChild_spec hG hk hchild).bind (fun _ w₁ hw₁ => ?_) fun _ _ => id
    obtain ⟨G', hG', hreaped, -⟩ := hw₁.goal
    exact Prog.ends_modify_bind
      (Prog.ends_modify (destroyed_of_stripped hG' hreaped.locks hw₁.other hw₁.rest))
  | substitution s =>
    have hown : G.ownPid = s.pid := by simp only [Goal.ownPid, hk]
    dsimp only
    cases hpid : s.pid with
    | none =>
      exact Prog.ends_modify_bind (Prog.ends_modify (destroyed_of_stripped hG rfl (fun _ _ => rfl)
        (Or.inr ⟨hown.trans hpid, rfl⟩)))
    | some pid =>
      refine (childTerminated_ends (hchild pid (hown.trans hpid))).bind (fun _ w₁ hw₁ => ?_)
        fun _ _ => id
      have hgoals : w₁.goals = w.goals := by
        obtain ⟨c, -, -, hrest⟩ := hw₁.entry
        rw [hrest]
      refine Prog.ends_modify_bind (Prog.ends_modify (destroyed_of_stripped (hgoals ▸ hG) rfl
        (fun h _ => by rw [hgoals]) (Or.inl ⟨pid, hown.trans hpid, ?_⟩)))
      rw [← hgoals]
      exact hw₁

/-! ### Input from children -/

/-- There is output of the child on one of the descriptors. -/
def Input.outputs (inp : Input) (pid : Pid) (fds : List ChildFd) : Bool :=
  fds.any fun fd => match inp.read pid fd with
    | .data _ => true
    | _ => false

/-- One of the descriptors of the child is closed. -/
def Input.closes (inp : Input) (pid : Pid) (fds : List ChildFd) : Bool :=
  fds.any fun fd => decide (inp.read pid fd = .eof)

/-- Output of the child `pid` of the goal `g` was read from some descriptors. -/
structure Read (inp : Input) (pid : Pid) (g : GoalId) (fds : List ChildFd) (w w' : Worker) :
    Prop where
  awake : w'.awake = w.awake ∨ (inp.closes pid fds = true ∧ w'.awake = w.awake.insert g)
  children : ∃ f : Child → Child, w'.children = w.children.modify pid f ∧ ∀ c, (f c).goal = c.goal ∧
    (f c).inBuildSlot = c.inBuildSlot ∧ (f c).monitorForSilence = c.monitorForSilence ∧
    (f c).lastOutput = if inp.outputs pid fds then inp.after else c.lastOutput
  rest : w' = { w with awake := w'.awake, children := w'.children }

/-- Nothing to read changes nothing. -/
theorem Read.refl (inp : Input) (pid : Pid) (g : GoalId) (w : Worker) : Read inp pid g [] w w := by
  refine ⟨Or.inl rfl, ⟨id, ?_, fun c => ⟨rfl, rfl, rfl, rfl⟩⟩, rfl⟩
  exact SortedMap.ext_find? fun k => by simp

/-- The loop over the descriptors of a child. -/
theorem readFds_spec (inp : Input) (pid : Pid) (g : GoalId) (goal : Goal) (fds : List ChildFd)
    (w : Worker) :
    Prog.Ends (Prog.each (readFd inp pid g goal) fds) w (fun _ w' => Read inp pid g fds w w')
      fun e w' => (∃ fds', Read inp pid g fds' w w') ∧ e.Plain := by
  refine Prog.Ends.each (I := fun D w' => Read inp pid g D w w') fds ?_ (.refl inp pid g w)
  intro D fd rest w₁ _ hw₁
  obtain ⟨f, hf, hsame⟩ := hw₁.children
  have hcloses : inp.closes pid (D ++ [fd]) =
      (inp.closes pid D || decide (inp.read pid fd = .eof)) := by
    simp [Input.closes]
  unfold readFd
  cases hread : inp.read pid fd with
  | notReady =>
    refine Prog.ends_pure ⟨?_, ⟨f, hf, fun c => ?_⟩, hw₁.rest⟩
    · simpa [hcloses, hread] using hw₁.awake
    · simpa [Input.outputs, hread] using hsame c
  | interrupted =>
    refine Prog.ends_pure ⟨?_, ⟨f, hf, fun c => ?_⟩, hw₁.rest⟩
    · simpa [hcloses, hread] using hw₁.awake
    · simpa [Input.outputs, hread] using hsame c
  | failed => exact Prog.ends_throw ⟨⟨D, hw₁⟩, trivial⟩
  | eof =>
    refine Prog.ends_modify ⟨?_, ⟨fun c => { f c with fds := (f c).fds.erase fd }, ?_, fun c => ?_⟩, ?_⟩
    · have hins : (w.awake.insert g).insert g = w.awake.insert g := SortedMap.insert_insert_same _ _ _ _
      simp only [hcloses, hread]
      by_cases hwakes : goal.wakesOnEOF fd = true
      · rw [if_pos hwakes]
        refine Or.inr ⟨by simp, ?_⟩
        rcases hw₁.awake with h | ⟨-, h⟩
        · simp only [Worker.updateChild, Worker.wakeUp, h]
        · simp only [Worker.updateChild, Worker.wakeUp, h, hins]
      · rw [if_neg hwakes]
        rcases hw₁.awake with h | ⟨-, h⟩
        · exact Or.inl h
        · exact Or.inr ⟨by simp, h⟩
    · split_ifs <;>
      · simp only [Worker.updateChild, Worker.wakeUp, hf]
        refine SortedMap.ext_find? fun k => ?_
        simp only [SortedMap.find?_modify]
        split_ifs <;> simp [Function.comp_def]
    · simpa [Input.outputs, hread] using hsame c
    · rw [hw₁.rest]
      split_ifs <;> rfl
  | data handled =>
    cases handled with
    | error msg => exact Prog.ends_throw ⟨⟨D, hw₁⟩, trivial⟩
    | diverge => exact Prog.ends_throw ⟨⟨D, hw₁⟩, trivial⟩
    | ok u =>
      refine Prog.ends_pure_bind (Prog.ends_modify ⟨?_,
        ⟨fun c => { f c with lastOutput := inp.after }, ?_, fun c => ?_⟩, ?_⟩)
      · simpa [hcloses, hread, Worker.updateChild] using hw₁.awake
      · simp only [Worker.updateChild, hf]
        refine SortedMap.ext_find? fun k => ?_
        simp only [SortedMap.find?_modify]
        split_ifs <;> simp [Function.comp_def]
      · obtain ⟨hgoal, hslot, hmon, -⟩ := hsame c
        exact ⟨hgoal, hslot, hmon, by simp [Input.outputs, hread]⟩
      · rw [hw₁.rest]
        rfl

/-- The child is silent for too long after its output was read. -/
def silent (env : BuildEnv) (inp : Input) (pid : Pid) (child : Child) : Bool :=
  silenceTimeout env inp
    { child with lastOutput := if inp.outputs pid child.fds then inp.after else child.lastOutput }

/-- The end of a round of `waitForInput`, in which a goal is cancelled once for each time limit. -/
def cancelLate (env : BuildEnv) (inp : Input) (pid : Pid) (child : Child) : WorkerM Unit := do
  if silent env inp pid child then cancelGoal env.settings.keepGoing child.goal
  if buildTimeout env inp then cancelGoal env.settings.keepGoing child.goal

/-- `pollChild`, by whether the child and its goal are there. -/
theorem pollChild_ends {env : BuildEnv} {inp : Input} {pid : Pid} {w : Worker} {Q : Worker → Prop}
    {E : Stop → Worker → Prop} (hnone : w.children.find? pid = none → Q w)
    (hdead : ∀ c, w.children.find? pid = some c → w.goals.find? c.goal = none →
      E (.assertion .goalAlive) w)
    (hfail : ∀ c fds w₁ e, w.children.find? pid = some c → Read inp pid c.goal fds w w₁ → e.Plain →
      E e w₁)
    (hlive : ∀ c G w₁, w.children.find? pid = some c → w.goals.find? c.goal = some G →
      Read inp pid c.goal c.fds w w₁ → Prog.Ends (cancelLate env inp pid c) w₁ (fun _ => Q) E) :
    Prog.Ends (pollChild env inp pid) w (fun _ => Q) E := by
  unfold pollChild
  refine Prog.ends_get_bind ?_
  cases hc : w.children.find? pid with
  | none => exact Prog.ends_pure (hnone hc)
  | some c =>
    dsimp only
    cases hG : w.goals.find? c.goal with
    | none => exact Prog.ends_throw (hdead c hc hG)
    | some G =>
      refine (readFds_spec inp pid c.goal G c.fds w).bind (fun _ w₁ hw₁ => Prog.ends_get_bind ?_)
        fun e w₁ he => ?_
      · have hsilent : (w₁.children.find? pid).any (silenceTimeout env inp) =
            silent env inp pid c := by
          obtain ⟨f, hf, hsame⟩ := hw₁.children
          obtain ⟨-, -, hmon, hlast⟩ := hsame c
          rw [hf, SortedMap.find?_modify, if_pos rfl, hc]
          simp only [Option.map_some, Option.any_some, silent, silenceTimeout, hmon, hlast]
        rw [hsilent]
        exact hlive c G w₁ hc hG hw₁
      · obtain ⟨⟨fds, hread⟩, hplain⟩ := he
        exact hfail c fds w₁ e hc hread hplain

end Nix
