import NixStore.Build.GoalGraph

/-!
# What a call of `work` can do

A call of `work` on a goal consists of preparing steps (`Prep`) and one last step (`Ended`), after
which the goal waits for others, sleeps, has a child or is done.  Everything that is proved about the
goal loop is proved about these steps; the member functions of the goals are looked at only here.
-/

namespace Nix

open Relation

/-! ### Steps -/

/-- What a goal is made for. -/
inductive GoalKey where
  | derivation (drvPath : Path)
  | substitution (storePath : Path)
deriving DecidableEq

/-- What the goal is made for. -/
def Goal.key (G : Goal) : GoalKey :=
  match G.kind with
  | .derivation d => .derivation d.drvPath
  | .substitution s => .substitution s.storePath

/-- The outputs that a goal was asked for and wants did not change, except that it may want all of
them now. -/
def Goal.SameRequests (G G' : Goal) : Prop :=
  ∀ d', G'.kind = .derivation d' → ∃ d, G.kind = .derivation d ∧ d'.requests = d.requests ∧
    (d'.wantedOutputs = d.wantedOutputs ∨ d'.wantedOutputs = ∅)

/-- The process of the builder or the substituter of a goal. -/
def Goal.ownPid (G : Goal) : Option Pid :=
  match G.kind with
  | .derivation d => d.pid
  | .substitution s => s.pid

/-- A change of fields that concern no other goal and no process. -/
structure Goal.Edit (G G' : Goal) : Prop where
  waitees : G'.waitees = G.waitees
  waiters : G'.waiters = G.waiters
  exitCode : G'.exitCode = G.exitCode
  key : G'.key = G.key
  requests : G.SameRequests G'
  pids : G'.pids = G.pids
  ownPid : G'.ownPid = G.ownPid
  locks : G'.locks = G.locks

/-- A change of fields that leaves a goal with other processes. -/
structure Goal.Reaped (G G' : Goal) (pids : List Pid) : Prop where
  waitees : G'.waitees = G.waitees
  waiters : G'.waiters = G.waiters
  exitCode : G'.exitCode = G.exitCode
  key : G'.key = G.key
  requests : G.SameRequests G'
  pids : G'.pids = pids
  locks : G'.locks = G.locks

/-- The paths that have to be unlocked before a goal can start a child. -/
def Goal.needs (G : Goal) : List Path :=
  match G.kind with
  | .derivation d => d.drv.outputs.entries.map fun i => i.2.path
  | .substitution s => [s.storePath]

/-- The goal has no child, and a derivation goal has no locks either. -/
def Goal.Resting (G : Goal) : Prop :=
  match G.kind with
  | .derivation d => d.state ≠ .buildDone ∧ d.pid = none ∧ d.hook = none ∧ d.outputLocks = ∅
  | .substitution s => s.state ≠ .finished ∧ s.pid = none

/-- The goal rests unless it is in the state in which a child was started. -/
def Goal.Fit (G : Goal) : Prop :=
  match G.kind with
  | .derivation d => (d.hook = none ∨ d.pid = none) ∧
      (d.state ≠ .buildDone → d.pid = none ∧ d.hook = none ∧ d.outputLocks = ∅)
  | .substitution s => s.state ≠ .finished → s.pid = none

/-- A goal that rests is fit. -/
theorem Goal.Resting.fit {G : Goal} (h : G.Resting) : G.Fit := by
  obtain ⟨_, _, _, _, _, d | s⟩ := G
  · exact ⟨Or.inl h.2.2.1, fun _ => h.2⟩
  · exact fun _ => h.2

/-- A goal that rests has no process. -/
theorem Goal.Resting.pids {G : Goal} (h : G.Resting) : G.pids = [] := by
  obtain ⟨_, _, _, _, _, d | s⟩ := G
  · obtain ⟨-, hpid, hhook, -⟩ := h
    simp [Goal.pids, hpid, hhook]
  · have hpid : s.pid = none := h.2
    simp [Goal.pids, hpid]

/-- The derivation of the goal is valid and was loaded from its file. -/
def DerivationGoal.Loaded (d : DerivationGoal) (env : BuildEnv) (world : World) : Prop :=
  world.isValidPath d.drvPath = true ∧ (env.readFile d.drvPath >>= parseDerivation env.uninit) = .ok d.drv

/-- All outputs of the derivation are valid. -/
def DerivationGoal.OutputsValid (d : DerivationGoal) (world : World) : Prop :=
  ∀ i ∈ d.drv.outputs.entries, world.isValidPath i.2.path = true

/-- What holds in the states after the derivation was loaded. -/
def Goal.Ready (G : Goal) (env : BuildEnv) (world : World) : Prop :=
  match G.kind with
  | .derivation d =>
    (d.state ≠ .init → d.state ≠ .haveDerivation → d.Loaded env world) ∧
      (d.state = .closureRepaired → d.OutputsValid world)
  | .substitution _ => True

/-- What a goal that succeeds has brought about. -/
def Goal.Delivered (G : Goal) (env : BuildEnv) (world : World) : Prop :=
  match G.kind with
  | .derivation d => d.Loaded env world ∧
      ∀ i ∈ d.drv.outputs.entries, wantOutput i.1 d.wantedOutputs = true →
        world.isValidPath i.2.path = true
  | .substitution s => world.isValidPath s.storePath = true

/-- None of the substituters that are left has the path, and none had it before. -/
def Goal.NoOffer (G : Goal) (env : BuildEnv) (ans : Answers) : Prop :=
  ∃ s, G.kind = .substitution s ∧ s.hasSubstitute = false ∧
    ((s.state = .init ∧ ∀ sub ∈ env.settings.substituters, ans.substitute sub = .ok none) ∨
      (s.state = .tryNext ∧ ∀ sub ∈ s.subs, ans.substitute sub = .ok none))

/-- The failures that a call of `work` on the goal can record: that of its build if it is in the state
`buildDone`, and else one that is permanent. -/
def Goal.Fails (G : Goal) (ans : Answers) (world : World) (cause : FailureCause) : Prop :=
  ((∀ d, G.kind = .derivation d → d.state ≠ .buildDone) ∧ cause.permanent = true) ∨
    ∃ d msg, G.kind = .derivation d ∧ d.state = .buildDone ∧ buildResult ans world d = .failed msg ∧
      cause = .buildFailed (hookError ans d) d.fixedOutput

/-- The goal is the one that the worker has for its path. -/
def Worker.Listed (w : Worker) (i : GoalId) : Prop :=
  i ∈ w.goals ∧
    ∃ p, w.derivationGoals.find? p = some i ∨ w.substitutionGoals.find? p = some i

/-- A path that is valid stays valid. -/
def World.Grows (world world' : World) : Prop :=
  ∀ p, world.isValidPath p = true → world'.isValidPath p = true

/-- The steps of a call of `work` on the goal `g` before the last one; `F` says which failures can be
recorded. -/
inductive Prep (F : FailureCause → Prop) (g : GoalId) : Worker → Worker → Prop
  | edit {w : Worker} {G : Goal} (f : Goal → Goal) (hG : w.goals.find? g = some G)
      (hf : G.Edit (f G)) : Prep F g w (w.updateGoal g f)
  | newDerivation {w : Worker} (path : Path) (wantedOutputs : SortedSet Str) (repair : Bool)
      (hno : (w.derivationGoals.find? path).bind w.lock = none) :
      Prep F g w ({ w.newGoal (.newDerivation path wantedOutputs repair) with
        derivationGoals := w.derivationGoals.insert path w.nextGoal }.wakeUp w.nextGoal)
  | newSubstitution {w : Worker} (path : Path) (repair : Bool)
      (hno : (w.substitutionGoals.find? path).bind w.lock = none) :
      Prep F g w ({ w.newGoal (.newSubstitution path repair) with
        substitutionGoals := w.substitutionGoals.insert path w.nextGoal }.wakeUp w.nextGoal)
  | want {w : Worker} (i : GoalId) (outputs : SortedSet Str) (hi : w.Listed i) :
      Prep F g w (w.updateGoal i (Goal.mapDerivation fun d => d.addWantedOutputs outputs))
  | link {w : Worker} (i : GoalId) (hi : w.Listed i) : Prep F g w (w.addWaitee g i)
  | lockPath {w : Worker} {G : Goal} (path : Path) (hG : w.goals.find? g = some G)
      (hfree : lockPath path ∉ w.lockedPaths) :
      Prep F g w { w.updateGoal g (fun G => G.setLocks (G.locks.insert (Nix.lockPath path))) with
        lockedPaths := w.lockedPaths.insert (Nix.lockPath path) }
  | unlock {w : Worker} : Prep F g w (w.unlocked g)
  | reap {w w' : Worker} {G : Goal} (f : Goal → Goal) (pid : Pid) (hG : w.goals.find? g = some G)
      (hpid : G.pids = [pid]) (hf : G.Reaped (f G) [])
      (hdone : childTerminated pid (w.updateGoal g f) = (.ok (), w')) : Prep F g w w'
  | world {w : Worker} (world : World) (hgrows : w.world.Grows world) :
      Prep F g w { w with world }
  | failure {w : Worker} (drvPath : Path) (cause : FailureCause) (hF : F cause) :
      Prep F g w { w with
        permanentFailure := cause.permanent, failures := w.failures ++ [(drvPath, cause)] }
  | startHook {w : Worker} (pid : Pid) (hno : w.hook = none) (hfresh : pid ∉ w.usedPids) :
      Prep F g w { w with hook := some pid }

/-- The last step of a call of `work` on the goal `g`.  What it says about the store depends on `R`,
that the goal was ready; a goal ends without substituters only if `N` holds. -/
inductive Ended (env : BuildEnv) (g : GoalId) (R N : Prop) : Worker → Worker → Prop
  | waits {w : Worker} {G : Goal} (hG : w.goals.find? g = some G) (hne : G.waitees ≠ ∅)
      (hrest : G.Resting) (hready : R → G.Ready env w.world) : Ended env g R N w w
  | rewakes {w : Worker} {G : Goal} (hG : w.goals.find? g = some G) (hno : G.waitees = ∅)
      (hrest : G.Resting) (hready : R → G.Ready env w.world) : Ended env g R N w (w.wakeUp g)
  | wantsSlot {w : Worker} {G : Goal} (hG : w.goals.find? g = some G) (hno : G.waitees = ∅)
      (hrest : G.Resting) (hready : R → G.Ready env w.world)
      (hfull : env.settings.maxBuildJobs ≤ w.nrLocalBuilds) :
      Ended env g R N w { w with wantingToBuild := w.wantingToBuild.insert g }
  | waitsForAny {w : Worker} {G : Goal} (hG : w.goals.find? g = some G) (hno : G.waitees = ∅)
      (hrest : G.Resting) (hready : R → G.Ready env w.world) (hfree : G.locks = ∅)
      (hlocked : ∃ p ∈ G.needs, lockPath p ∈ w.lockedPaths) :
      Ended env g R N w (w.waitForAnyGoal g)
  | waitsAWhile {w : Worker} {G : Goal} (hG : w.goals.find? g = some G) (hno : G.waitees = ∅)
      (hrest : G.Resting) (hready : R → G.Ready env w.world) :
      Ended env g R N w (w.waitForAWhile g)
  | starts {w : Worker} {G : Goal} (f : Goal → Goal) (pid : Pid) (fds : List ChildFd) (now : ℤ)
      (hG : w.goals.find? g = some G) (hno : G.waitees = ∅) (hpids : G.pids = [])
      (hf : G.Reaped (f G) [pid]) (hown : (f G).ownPid = some pid) (hfit : (f G).Fit)
      (hready : R → (f G).Ready env w.world) (hfresh : pid ∉ w.usedPids)
      (hslot : w.nrLocalBuilds < max 1 env.settings.maxBuildJobs) :
      Ended env g R N w ((w.updateGoal g f).childStarted g pid fds true true now)
  | startsHook {w : Worker} {G : Goal} (f : Goal → Goal) (pid : Pid) (fds : List ChildFd) (now : ℤ)
      (hG : w.goals.find? g = some G) (hno : G.waitees = ∅) (hpids : G.pids = [])
      (hf : G.Reaped (f G) [pid]) (hfit : (f G).Fit) (hready : R → (f G).Ready env w.world)
      (hhook : w.hook = some pid) :
      Ended env g R N w
        ({ w.updateGoal g f with hook := none }.childStarted g pid fds false false now)
  | finishes {w w' : Worker} {G : Goal} (r : ExitCode) (hG : w.goals.find? g = some G)
      (hno : G.waitees = ∅) (hpids : G.pids = []) (hr : r ≠ .ecBusy)
      (hdone : amDone env.settings.keepGoing g r w = (.ok (), w'))
      (hsuccess : r = .ecSuccess → R → G.Delivered env w.world) (hnone : r = .ecNoSubstituters → N) :
      Ended env g R N w w'

/-- A call of `work` on `g` leads from `w` to `w'`. -/
def Worked (env : BuildEnv) (F : FailureCause → Prop) (g : GoalId) (R N : Prop) (w w' : Worker) : Prop :=
  ∃ w₁, ReflTransGen (Prep F g) w w₁ ∧ Ended env g R N w₁ w'

/-- The exceptions that a goal throws by itself. -/
def Stop.Plain : Stop → Prop
  | .assertion a => a = .pathValid ∨ a = .locksEmpty ∨ a = .notWorking
  | _ => True

/-- A call of `work` on `g` that started in `w` throws `e` in the state `w'`. -/
def Broke (env : BuildEnv) (F : FailureCause → Prop) (g : GoalId) (w : Worker) (e : Stop)
    (w' : Worker) : Prop :=
  ∃ w₁, ReflTransGen (Prep F g) w w₁ ∧
    ((w' = w₁ ∧ e.Plain) ∨
      (∃ r, amDone env.settings.keepGoing g r w₁ = (.error e, w')) ∨
      ∃ (G : Goal) (f : Goal → Goal) (pid : Pid), w₁.goals.find? g = some G ∧ G.pids = [pid] ∧
        G.Reaped (f G) [] ∧ childTerminated pid (w₁.updateGoal g f) = (.error e, w'))

/-! ### Rules -/

section

variable {env : BuildEnv} {ans : Answers} {F : FailureCause → Prop} {g : GoalId} {R N : Prop}
  {w₀ w : Worker}

/-- A program is the rest of a call of `work` on `g` that started in `w₀`. -/
abbrev Goes (env : BuildEnv) (F : FailureCause → Prop) (g : GoalId) (R N : Prop) (w₀ : Worker)
    (m : WorkerM Unit) (w : Worker) : Prop :=
  Prog.Ends m w (fun _ w' => Worked env F g R N w₀ w') fun e w' => Broke env F g w₀ e w'

/-- A step may stop in the plain way. -/
theorem broke_of_plain (hp : ReflTransGen (Prep F g) w₀ w) {e : Stop} (he : e.Plain) :
    Broke env F g w₀ e w :=
  ⟨w, hp, Or.inl ⟨rfl, he⟩⟩

/-- A step may throw in the plain way. -/
theorem goes_throw (hp : ReflTransGen (Prep F g) w₀ w) {e : Stop} (he : e.Plain) :
    Goes env F g R N w₀ (.throw e) w :=
  Prog.ends_throw (broke_of_plain hp he)

/-- An outcome that is lifted comes before the rest of a step. -/
theorem goes_lift_bind {α : Type} {x : Outcome Str α} {f : α → WorkerM Unit}
    (hp : ReflTransGen (Prep F g) w₀ w) (h : ∀ a, x = .ok a → Goes env F g R N w₀ (f a) w) :
    Goes env F g R N w₀ (WorkerM.lift x >>= f) w := by
  refine ends_lift_bind h fun e he => broke_of_plain hp ?_
  cases e with
  | assertion a => exact absurd rfl (he a)
  | error msg => trivial
  | outOfFuel => trivial

/-- A step may end its goal when it waits for nothing and has no process. -/
theorem goes_amDone {G : Goal} {r : ExitCode} (hp : ReflTransGen (Prep F g) w₀ w)
    (hG : w.goals.find? g = some G) (hno : G.waitees = ∅) (hpids : G.pids = []) (hr : r ≠ .ecBusy)
    (hsuccess : r = .ecSuccess → R → G.Delivered env w.world)
    (hnone : r = .ecNoSubstituters → N) :
    Goes env F g R N w₀ (amDone env.settings.keepGoing g r) w := by
  unfold Goes Prog.Ends
  rcases hdone : amDone env.settings.keepGoing g r w with ⟨e | u, w'⟩
  · exact ⟨w, hp, Or.inr (Or.inl ⟨r, hdone⟩)⟩
  · exact ⟨w, hp, .finishes r hG hno hpids hr hdone hsuccess hnone⟩

/-- After an update the goal is there, updated. -/
theorem find?_updateGoal {w : Worker} {G : Goal} (hG : w.goals.find? g = some G) (f : Goal → Goal) :
    (w.updateGoal g f).goals.find? g = some (f G) := by
  rw [Worker.updateGoal, SortedMap.find?_modify, if_pos rfl, hG, Option.map_some]

/-- A change of fields of a derivation goal that concern no other goal and no process. -/
structure DerivationGoal.Edit (d d' : DerivationGoal) : Prop where
  drvPath : d'.drvPath = d.drvPath
  requests : d'.requests = d.requests
  wanted : d'.wantedOutputs = d.wantedOutputs ∨ d'.wantedOutputs = ∅
  pid : d'.pid = d.pid
  hook : d'.hook = d.hook
  locks : d'.outputLocks = d.outputLocks

/-- A change of fields of a substitution goal that concern no other goal and no process. -/
structure SubstitutionGoal.Edit (s s' : SubstitutionGoal) : Prop where
  storePath : s'.storePath = s.storePath
  pid : s'.pid = s.pid
  locks : s'.outputLock = s.outputLock

/-- Changing a derivation goal is an edit when the change of its state is one. -/
theorem Goal.edit_mapDerivation {G : Goal} {d : DerivationGoal} {f : DerivationGoal → DerivationGoal}
    (hk : G.kind = .derivation d) (hf : d.Edit (f d)) : G.Edit (G.mapDerivation f) := by
  obtain ⟨_, _, _, _, _, k⟩ := G
  dsimp only at hk
  subst hk
  refine ⟨rfl, rfl, rfl, ?_, ?_, ?_, hf.pid, hf.locks⟩
  · simp [Goal.key, Goal.mapDerivation, hf.drvPath]
  · intro d' hd'
    cases hd'
    exact ⟨d, rfl, hf.requests, hf.wanted⟩
  · simp [Goal.pids, Goal.mapDerivation, hf.pid, hf.hook]

/-- Changing a substitution goal is an edit when the change of its state is one. -/
theorem Goal.edit_mapSubstitution {G : Goal} {s : SubstitutionGoal}
    {f : SubstitutionGoal → SubstitutionGoal} (hk : G.kind = .substitution s) (hf : s.Edit (f s)) :
    G.Edit (G.mapSubstitution f) := by
  obtain ⟨_, _, _, _, _, k⟩ := G
  dsimp only at hk
  subst hk
  refine ⟨rfl, rfl, rfl, ?_, ?_, ?_, hf.pid, hf.locks⟩
  · simp [Goal.key, Goal.mapSubstitution, hf.storePath]
  · intro d' hd'
    cases hd'
  · simp [Goal.pids, Goal.mapSubstitution, hf.pid]

/-- The goal `g` has the class and the fields `k`, it waits for nothing, and its identity was given
out before. -/
structure KindAt (g : GoalId) (k : GoalKind) (w : Worker) (G : Goal) : Prop where
  find : w.goals.find? g = some G
  kind : G.kind = k
  waitees : G.waitees = ∅
  lt : g < w.nextGoal

/-- Changing a derivation goal is a preparation. -/
theorem KindAt.modifyDerivation {d : DerivationGoal} {G : Goal} (h : KindAt g (.derivation d) w G)
    {f : DerivationGoal → DerivationGoal} (hf : d.Edit (f d)) :
    Prep F g w (w.updateGoal g (Goal.mapDerivation f)) ∧
      KindAt g (.derivation (f d)) (w.updateGoal g (Goal.mapDerivation f)) (G.mapDerivation f) := by
  refine ⟨.edit _ h.find (Goal.edit_mapDerivation h.kind hf), find?_updateGoal h.find _, ?_, ?_, h.lt⟩
  · rw [Goal.mapDerivation, h.kind]
  · rw [(Goal.edit_mapDerivation h.kind hf).waitees, h.waitees]

/-- Changing a substitution goal is a preparation. -/
theorem KindAt.modifySubstitution {s : SubstitutionGoal} {G : Goal}
    (h : KindAt g (.substitution s) w G) {f : SubstitutionGoal → SubstitutionGoal}
    (hf : s.Edit (f s)) :
    Prep F g w (w.updateGoal g (Goal.mapSubstitution f)) ∧
      KindAt g (.substitution (f s)) (w.updateGoal g (Goal.mapSubstitution f))
        (G.mapSubstitution f) := by
  refine ⟨.edit _ h.find (Goal.edit_mapSubstitution h.kind hf), find?_updateGoal h.find _, ?_, ?_,
    h.lt⟩
  · rw [Goal.mapSubstitution, h.kind]
  · rw [(Goal.edit_mapSubstitution h.kind hf).waitees, h.waitees]

/-! ### Making goals to wait for -/

/-- The two kinds differ at most in the outputs that are wanted. -/
def GoalKind.SameBuild : GoalKind → GoalKind → Prop
  | .derivation d, .derivation d' =>
    { d' with
      wantedOutputs := d.wantedOutputs, needRestart := d.needRestart, requests := d.requests } = d
  | k, k' => k = k'

/-- A goal builds the same as itself. -/
theorem GoalKind.SameBuild.refl (k : GoalKind) : k.SameBuild k := by
  cases k <;> rfl

/-- Building the same is transitive. -/
theorem GoalKind.SameBuild.trans {k k' k'' : GoalKind} (h : k.SameBuild k') (h' : k'.SameBuild k'') :
    k.SameBuild k'' := by
  cases k <;> cases k' <;> cases k'' <;> simp_all only [SameBuild, reduceCtorEq]
  rw [← h'] at h
  exact h

/-- Asking for more outputs keeps what is built. -/
theorem DerivationGoal.sameBuild_addWantedOutputs (d : DerivationGoal) (outputs : SortedSet Str) :
    (GoalKind.derivation d).SameBuild (.derivation (d.addWantedOutputs outputs)) := by
  unfold addWantedOutputs
  dsimp only
  split_ifs
  · rfl
  · rfl
  · have hloop : ∀ (l : List Str) (d' : DerivationGoal),
        (GoalKind.derivation d).SameBuild (.derivation d') →
          (GoalKind.derivation d).SameBuild (.derivation (l.foldl (fun d i =>
            if i ∈ d.wantedOutputs then d
            else { d with wantedOutputs := d.wantedOutputs.insert i, needRestart := true }) d')) := by
      intro l
      induction l with
      | nil => exact fun _ => id
      | cons a l ih =>
        intro d' hd'
        rw [List.foldl_cons]
        apply ih
        split_ifs
        · exact hd'
        · exact hd'
    exact hloop _ _ rfl

/-- Preparing steps of `g` that only make goals and wait for them. -/
structure Spawns (F : FailureCause → Prop) (g : GoalId) (w : Worker) (G : Goal) (w' : Worker)
    (G' : Goal) : Prop where
  path : ReflTransGen (Prep F g) w w'
  find : w'.goals.find? g = some G'
  same : G.kind.SameBuild G'.kind
  waitees : ∀ i ∈ G.waitees, i ∈ G'.waitees
  world : w'.world = w.world
  lt : g < w'.nextGoal

/-- Spawning nothing. -/
theorem Spawns.refl {G : Goal} (hG : w.goals.find? g = some G) (hlt : g < w.nextGoal) :
    Spawns F g w G w G :=
  ⟨.refl, hG, .refl _, fun _ => id, rfl, hlt⟩

/-- Spawning goals in a row. -/
theorem Spawns.trans {w₁ w₂ : Worker} {G G₁ G₂ : Goal} (h : Spawns F g w G w₁ G₁)
    (h' : Spawns F g w₁ G₁ w₂ G₂) : Spawns F g w G w₂ G₂ :=
  ⟨h.path.trans h'.path, h'.find, h.same.trans h'.same, fun i hi => h'.waitees i (h.waitees i hi),
    h'.world.trans h.world, h'.lt⟩

/-- Waiting for a goal that the worker has. -/
theorem spawns_addWaitee {G : Goal} {i : GoalId} (hG : w.goals.find? g = some G)
    (hlt : g < w.nextGoal) (hi : w.Listed i) :
    ∃ G', Spawns F g w G (w.addWaitee g i) G' ∧ i ∈ G'.waitees ∧ G'.kind = G.kind := by
  have hfind : (w.addWaitee g i).goals.find? g = some (if i = g then
        { G with waitees := G.waitees.insert i, waiters := G.waiters.insert g }
      else { G with waitees := G.waitees.insert i }) := by
    simp only [Worker.addWaitee, Worker.updateGoal, SortedMap.find?_modify, if_true, hG,
      Option.map_some]
    by_cases hig : i = g
    · simp [hig]
    · simp [hig, Ne.symm hig]
  refine ⟨_, ⟨.single (.link i hi), hfind, ?_, ?_, rfl, hlt⟩, ?_, ?_⟩
  · split_ifs <;> exact .refl _
  · intro j hj
    split_ifs <;> exact SortedSet.mem_insert.mpr (Or.inr hj)
  · split_ifs <;> exact SortedSet.mem_insert.mpr (Or.inl rfl)
  · split_ifs <;> rfl

/-- A weak pointer leads to its goal while that lives. -/
theorem lock_eq_some_iff {w : Worker} {i j : GoalId} : w.lock i = some j ↔ i = j ∧ i ∈ w.goals := by
  unfold Worker.lock
  split_ifs with h <;> simp [h]

/-- Waiting for a substitution goal, which is made when there is none. -/
theorem spawns_substitution {G : Goal} (hG : w.goals.find? g = some G) (hlt : g < w.nextGoal)
    (path : Path) (repair : Bool) :
    ∃ G', Spawns F g w G ((w.makeSubstitutionGoal path repair).2.addWaitee g
      (w.makeSubstitutionGoal path repair).1) G' ∧ G'.waitees ≠ ∅ ∧ G'.kind = G.kind := by
  unfold Worker.makeSubstitutionGoal
  cases hfind : (w.substitutionGoals.find? path).bind w.lock with
  | none =>
    have hne : g ≠ w.nextGoal := hlt.ne
    let w₁ := { w.newGoal (.newSubstitution path repair) with
      substitutionGoals := w.substitutionGoals.insert path w.nextGoal }.wakeUp w.nextGoal
    have hG₁ : w₁.goals.find? g = some G := by
      change (w.goals.insert _ _).find? g = some G
      rw [SortedMap.find?_insert, if_neg hne, hG]
    have hnew : Spawns F g w G w₁ G :=
      ⟨.single (.newSubstitution path repair hfind), hG₁, .refl _, fun _ => id, rfl,
        Nat.lt_succ_of_lt hlt⟩
    have hlisted : w₁.Listed w.nextGoal := by
      refine ⟨SortedMap.mem_insert.mpr (Or.inl rfl), path, Or.inr ?_⟩
      change (w.substitutionGoals.insert _ _).find? path = _
      rw [SortedMap.find?_insert, if_pos rfl]
    obtain ⟨G', hG', hmem, hkind⟩ := spawns_addWaitee hG₁ hnew.lt hlisted
    exact ⟨G', hnew.trans hG', SortedMap.ne_empty_iff.mpr ⟨_, hmem⟩, hkind⟩
  | some i =>
    obtain ⟨j, hj, hji⟩ := Option.bind_eq_some_iff.mp hfind
    obtain ⟨rfl, hlive⟩ := lock_eq_some_iff.mp hji
    obtain ⟨G', hG', hmem, hkind⟩ := spawns_addWaitee hG hlt ⟨hlive, path, Or.inr hj⟩
    exact ⟨G', hG', SortedMap.ne_empty_iff.mpr ⟨_, hmem⟩, hkind⟩

/-- Waiting for a derivation goal, which is made when there is none. -/
theorem spawns_derivation {G : Goal} (hG : w.goals.find? g = some G) (hlt : g < w.nextGoal)
    (path : Path) (wanted : SortedSet Str) (repair : Bool) :
    ∃ G', Spawns F g w G ((w.makeDerivationGoal path wanted repair).2.addWaitee g
      (w.makeDerivationGoal path wanted repair).1) G' ∧ G'.waitees ≠ ∅ := by
  unfold Worker.makeDerivationGoal
  cases hfind : (w.derivationGoals.find? path).bind w.lock with
  | none =>
    have hne : g ≠ w.nextGoal := hlt.ne
    let w₁ := { w.newGoal (.newDerivation path wanted repair) with
      derivationGoals := w.derivationGoals.insert path w.nextGoal }.wakeUp w.nextGoal
    have hG₁ : w₁.goals.find? g = some G := by
      change (w.goals.insert _ _).find? g = some G
      rw [SortedMap.find?_insert, if_neg hne, hG]
    have hnew : Spawns F g w G w₁ G :=
      ⟨.single (.newDerivation path wanted repair hfind), hG₁, .refl _, fun _ => id, rfl,
        Nat.lt_succ_of_lt hlt⟩
    have hlisted : w₁.Listed w.nextGoal := by
      refine ⟨SortedMap.mem_insert.mpr (Or.inl rfl), path, Or.inl ?_⟩
      change (w.derivationGoals.insert _ _).find? path = _
      rw [SortedMap.find?_insert, if_pos rfl]
    obtain ⟨G', hG', hmem, -⟩ := spawns_addWaitee hG₁ hnew.lt hlisted
    exact ⟨G', hnew.trans hG', SortedMap.ne_empty_iff.mpr ⟨_, hmem⟩⟩
  | some i =>
    obtain ⟨j, hj, hji⟩ := Option.bind_eq_some_iff.mp hfind
    obtain ⟨rfl, hlive⟩ := lock_eq_some_iff.mp hji
    let f := Goal.mapDerivation fun d => d.addWantedOutputs wanted
    -- the goal that is asked can be `g` itself
    have hG₁ : (w.updateGoal j f).goals.find? g = some (if g = j then f G else G) := by
      simp only [Worker.updateGoal, SortedMap.find?_modify, hG, Option.map_some]
      split_ifs <;> rfl
    have hsame : G.kind.SameBuild (if g = j then f G else G).kind := by
      split_ifs
      · obtain ⟨_, _, _, _, _, d | s⟩ := G
        · exact d.sameBuild_addWantedOutputs wanted
        · exact .refl _
      · exact .refl _
    have hwaitees : (if g = j then f G else G).waitees = G.waitees := by
      split_ifs
      · obtain ⟨_, _, _, _, _, d | s⟩ := G <;> rfl
      · rfl
    have hwant : Spawns F g w G (w.updateGoal j f) (if g = j then f G else G) :=
      ⟨.single (.want j wanted ⟨hlive, path, Or.inl hj⟩), hG₁, hsame, fun i hi => by rwa [hwaitees],
        rfl, hlt⟩
    have hlisted : (w.updateGoal j f).Listed j :=
      ⟨SortedMap.mem_modify.mpr hlive, path, Or.inl hj⟩
    obtain ⟨G', hG', hmem, -⟩ := spawns_addWaitee hG₁ hlt hlisted
    exact ⟨G', hwant.trans hG', SortedMap.ne_empty_iff.mpr ⟨_, hmem⟩⟩

/-- `addSubstitutionWaitee` makes the goal and waits for it. -/
theorem addSubstitutionWaitee_spec {G : Goal} (hG : w.goals.find? g = some G)
    (hlt : g < w.nextGoal) (path : Path) (repair : Bool) :
    Prog.Ends (addSubstitutionWaitee g path repair) w
      (fun _ w' => ∃ G', Spawns F g w G w' G' ∧ G'.waitees ≠ ∅) fun _ _ => False := by
  obtain ⟨G', hG', hne, -⟩ := spawns_substitution hG hlt path repair
  exact Prog.ends_modify ⟨G', hG', hne⟩

/-- `addDerivationWaitee` makes the goal and waits for it. -/
theorem addDerivationWaitee_spec {G : Goal} (hG : w.goals.find? g = some G) (hlt : g < w.nextGoal)
    (path : Path) (wanted : SortedSet Str) (repair : Bool) :
    Prog.Ends (addDerivationWaitee g path wanted repair) w
      (fun _ w' => ∃ G', Spawns F g w G w' G' ∧ G'.waitees ≠ ∅) fun _ _ => False :=
  Prog.ends_modify (spawns_derivation hG hlt path wanted repair)

/-- A loop that makes goals to wait for. -/
theorem spawns_each {α : Type} {f : α → WorkerM Unit} {G : Goal} (hG : w.goals.find? g = some G)
    (hlt : g < w.nextGoal) (l : List α)
    (hf : ∀ a w G, w.goals.find? g = some G → g < w.nextGoal → Prog.Ends (f a) w
      (fun _ w' => ∃ G', Spawns F g w G w' G' ∧ G'.waitees ≠ ∅) fun _ _ => False) :
    Prog.Ends (Prog.each f l) w (fun _ w' => ∃ G', Spawns F g w G w' G') fun _ _ => False := by
  refine Prog.Ends.each (I := fun _ w' => ∃ G', Spawns F g w G w' G') l ?_ ⟨G, .refl hG hlt⟩
  intro _ a _ w₁ _ hw₁
  obtain ⟨G₁, hG₁⟩ := hw₁
  refine (hf a w₁ G₁ hG₁.find hG₁.lt).mono (fun _ w₂ hw₂ => ?_) fun _ _ => id
  obtain ⟨G₂, hG₂, -⟩ := hw₂
  exact ⟨G₂, hG₁.trans hG₂⟩

/-- A loop that makes substitution goals to wait for does not change the fields of the goal. -/
theorem spawns_each_substitution {G : Goal} (hG : w.goals.find? g = some G) (hlt : g < w.nextGoal)
    (l : List Path) (repair : Bool) :
    Prog.Ends (Prog.each (fun i => addSubstitutionWaitee g i repair) l) w
      (fun _ w' => ∃ G', Spawns F g w G w' G' ∧ G'.kind = G.kind) fun _ _ => False := by
  refine Prog.Ends.each (I := fun _ w' => ∃ G', Spawns F g w G w' G' ∧ G'.kind = G.kind) l ?_
    ⟨G, .refl hG hlt, rfl⟩
  intro _ a _ w₁ _ hw₁
  obtain ⟨G₁, hG₁, hk₁⟩ := hw₁
  obtain ⟨G₂, hG₂, -, hk₂⟩ := spawns_substitution hG₁.find hG₁.lt a repair
  exact Prog.ends_modify ⟨G₂, hG₁.trans hG₂, hk₂.trans hk₁⟩

/-- Going on after goals were made to wait for. -/
theorem goes_spawns_bind {m : WorkerM Unit} {k : Unit → WorkerM Unit} {G : Goal}
    (hp : ReflTransGen (Prep F g) w₀ w)
    (hm : Prog.Ends m w (fun _ w' => ∃ G', Spawns F g w G w' G') fun _ _ => False)
    (hk : ∀ w' G', Spawns F g w G w' G' → ReflTransGen (Prep F g) w₀ w' → Goes env F g R N w₀ (k ()) w') :
    Goes env F g R N w₀ (m >>= k) w := by
  refine hm.bind (fun _ w' hw' => ?_) fun _ _ => False.elim
  obtain ⟨G', hG'⟩ := hw'
  exact hk w' G' hG' (hp.trans hG'.path)

/-- The test whether there is something to wait for. -/
theorem goes_waiteesEmpty_bind {k : Bool → WorkerM Unit} {G : Goal} (hG : w.goals.find? g = some G)
    (hempty : G.waitees = ∅ → Goes env F g R N w₀ (k true) w)
    (hne : G.waitees ≠ ∅ → Goes env F g R N w₀ (k false) w) :
    Goes env F g R N w₀ (waiteesEmpty g >>= k) w := by
  have hval : waiteesEmpty g w = (.ok (decide (G.waitees = ∅)), w) := by
    simp [waiteesEmpty, Prog.bind_apply, hG]
  unfold Goes Prog.Ends
  rw [Prog.bind_apply, hval]
  by_cases h : G.waitees = ∅
  · simp only [h, decide_true]
    exact hempty h
  · simp only [h, decide_false]
    exact hne h

/-- The end of a call after which a derivation goal waits. -/
theorem goes_waits_derivation {d : DerivationGoal} {G : Goal} {state : DerivationGoalState}
    (hp : ReflTransGen (Prep F g) w₀ w) (hG : w.goals.find? g = some G)
    (hk : G.kind = .derivation d) (hne : G.waitees ≠ ∅) (hstate : state ≠ .buildDone)
    (hpid : d.pid = none) (hhook : d.hook = none) (hlocks : d.outputLocks = ∅)
    (hready : R → (state ≠ .init → state ≠ .haveDerivation → d.Loaded env w.world) ∧
      (state = .closureRepaired → d.OutputsValid w.world)) :
    Goes env F g R N w₀ (modifyDerivation g fun d => { d with state }) w := by
  have hedit : G.Edit (G.mapDerivation fun d => { d with state }) :=
    Goal.edit_mapDerivation hk ⟨rfl, rfl, Or.inl rfl, rfl, rfl, rfl⟩
  refine Prog.ends_modify ⟨_, hp.tail (.edit _ hG hedit), .waits (find?_updateGoal hG _) ?_ ?_ ?_⟩
  · rwa [hedit.waitees]
  · simp only [Goal.Resting, Goal.mapDerivation, hk]
    exact ⟨hstate, hpid, hhook, hlocks⟩
  · intro hR
    simp only [Goal.Ready, Goal.mapDerivation, hk]
    exact hready hR

end

/-! ### Checks of outputs -/

/-- Which outputs `checkPathValidity` returns. -/
theorem mem_checkPathValidity {d : DerivationGoal} {world : World} {contentsGood : Path → Bool}
    {returnValid checkHash : Bool} {p : Path} :
    p ∈ d.checkPathValidity world contentsGood returnValid checkHash ↔
      ∃ i ∈ d.drv.outputs.entries, wantOutput i.1 d.wantedOutputs = true ∧
        (world.isValidPath i.2.path && (!checkHash || contentsGood i.2.path)) = returnValid ∧
        i.2.path = p := by
  unfold DerivationGoal.checkPathValidity
  rw [SortedSet.mem_ofList, List.mem_filterMap]
  constructor
  · intro h
    obtain ⟨i, hi, h⟩ := h
    dsimp only at h
    split_ifs at h with hw hg
    exact ⟨i, hi, hw, hg, by simpa using h⟩
  · intro h
    obtain ⟨i, hi, hw, hg, rfl⟩ := h
    exact ⟨i, hi, by simp [hw, hg]⟩

/-- If no wanted output is reported as invalid, then all of them are valid. -/
theorem valid_of_checkPathValidity {d : DerivationGoal} {world : World} {contentsGood : Path → Bool}
    {checkHash : Bool} (h : d.checkPathValidity world contentsGood false checkHash = ∅) :
    ∀ i ∈ d.drv.outputs.entries, wantOutput i.1 d.wantedOutputs = true →
      world.isValidPath i.2.path = true := by
  intro i hi hw
  by_contra hv
  have hmem : i.2.path ∈ d.checkPathValidity world contentsGood false checkHash :=
    mem_checkPathValidity.mpr ⟨i, hi, hw, by simp [hv], rfl⟩
  rw [h] at hmem
  exact SortedMap.notMem_empty _ hmem

/-- If as many paths are reported as valid as there are outputs, then all outputs are valid. -/
theorem outputsValid_of_checkPathValidity {d : DerivationGoal} {world : World}
    {contentsGood : Path → Bool} {checkHash : Bool}
    (h : (d.checkPathValidity world contentsGood true checkHash).toList.length =
      d.drv.outputs.entries.length) : d.OutputsValid world := by
  intro i hi
  by_contra hv
  let good := d.drv.outputs.entries.filter fun i => world.isValidPath i.2.path
  have hle : (d.checkPathValidity world contentsGood true checkHash).toList.length ≤
      (good.map fun i => i.2.path).length := by
    refine SortedSet.length_le_of_subset fun p hp => ?_
    obtain ⟨j, hj, -, hgood, rfl⟩ := mem_checkPathValidity.mp hp
    rw [Bool.and_eq_true] at hgood
    exact List.mem_map.mpr ⟨j, List.mem_filter.mpr ⟨hj, hgood.1⟩, rfl⟩
  have hlt : good.length < d.drv.outputs.entries.length :=
    List.length_filter_lt_length_iff_exists.mpr ⟨i, hi, hv⟩
  rw [List.length_map] at hle
  omega

/-- The closure of the outputs can only be computed if all of them are valid. -/
theorem outputsValid_of_outputClosure {env : BuildEnv} {world : World} {d : DerivationGoal}
    {closure : PathSet} (h : outputClosure env world d.drv = .ok closure) : d.OutputsValid world := by
  obtain ⟨paths, hpaths, -⟩ := Outcome.bind_eq_ok.mp h
  have hquery : ∀ (p : Path) (refs : PathSet),
      (world.closureStore env.cfg).queryReferences p = .ok refs → world.isValidPath p = true := by
    intro p refs hp
    change world.queryReferences env.cfg p = _ at hp
    obtain ⟨-, -, hp⟩ := Outcome.bind_eq_ok.mp hp
    split_ifs at hp with hv
    exact hv
  have hloop : ∀ (l : List (Str × DerivationOutput)) (s s' : PathSet),
      l.foldlM (fun paths i => computeFSClosure (world.closureStore env.cfg) false false env.fuel
        i.2.path paths) s = .ok s' → (∀ q ∈ s, world.isValidPath q = true) →
        ∀ i ∈ l, world.isValidPath i.2.path = true := by
    intro l
    induction l with
    | nil => intro s s' _ _ i hi; exact absurd hi List.not_mem_nil
    | cons a l ih =>
      intro s s' hs hvalid i hi
      rw [List.foldlM_cons] at hs
      obtain ⟨s₁, hs₁, hs⟩ := Outcome.bind_eq_ok.mp hs
      obtain ⟨ha, -, hvalid₁⟩ := computeFSClosure_spec hquery env.fuel hs₁ hvalid
      rcases List.mem_cons.mp hi with rfl | hi
      · exact hvalid₁ _ ha
      · exact ih s₁ s' hs hvalid₁ i hi
  exact hloop _ _ _ hpaths fun q hq => absurd hq (SortedMap.notMem_empty q)

end Nix
