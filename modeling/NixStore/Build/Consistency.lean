import NixStore.Build.LoopInvariant

/-!
# The graph of goals and the build slots

What the tables of the worker satisfy in every state that the goal loop reaches: the two directions
of the relation between a goal and those it waits for agree, a goal is woken up when it has nothing
left to wait for, and `nrLocalBuilds` counts the children in build slots.
-/

namespace Nix

open Relation

/-! ### The reasons for which the loop stops -/

/-- No assertion about the tables of the worker has failed. -/
def Stop.KeepsTables : Stop → Prop
  | .assertion a => a ≠ .waiteeFound ∧ a ≠ .childFound ∧ a ≠ .slotUsed
  | _ => True

/-- The loop is not left because of such an assertion. -/
def Phase.KeepsTables : Phase → Prop
  | .stopped reason => reason.KeepsTables
  | _ => True

/-- A plain stop leaves the tables in order. -/
theorem Stop.Plain.keepsTables {e : Stop} (h : e.Plain) : e.KeepsTables := by
  cases e with
  | assertion a =>
    rcases h with rfl | rfl | rfl <;> exact ⟨by decide, by decide, by decide⟩
  | error msg => trivial
  | outOfFuel => trivial

/-- A stop while polling leaves the tables in order. -/
theorem Polled.keepsTables {env : BuildEnv} {inp : Input} {pid : Pid} {w w' : Worker} {e : Stop}
    (h : Polled env inp pid w (some e) w') : e.KeepsTables := by
  cases h with
  | dead c hc hG => exact ⟨by decide, by decide, by decide⟩
  | failed c fds e hc hr he => exact he.keepsTables
  | refused c G hc hG hr hspent hlate hs => exact ⟨by decide, by decide, by decide⟩
  | twice c G G₂ hc hG hr hlate hd hG₂ hs => exact ⟨by decide, by decide, by decide⟩

/-- Leaving the loop leaves the tables in order. -/
theorem keepsTables_leaveLoop (env : BuildEnv) (w : Worker) : (leaveLoop env w).KeepsTables := by
  unfold leaveLoop
  split_ifs
  · exact ⟨by decide, by decide, by decide⟩
  · trivial
  · trivial
  · exact ⟨by decide, by decide, by decide⟩

/-- Every step leaves the tables in order, also one that stops. -/
theorem StepCase.keepsTables {env : BuildEnv} {r r' : RunState} {e : Event}
    (h : StepCase env r e r') (hr : r.phase.KeepsTables) : r'.phase.KeepsTables := by
  cases h with
  | destroy hG hfree hd => exact hr
  | other world => exact hr
  | takeAwake hp htop => trivial
  | skip hp hdead => trivial
  | work hp hg hs htop hc => trivial
  | workThrew hp hg hs hG hbusy he hpreps => exact he.keepsTables
  | workSpent hp hg hs htop hG hspent => trivial
  | endAwake hp hend => trivial
  | waitForInput hp hs htop hawake hphase =>
    rcases hphase with rfl | rfl | ⟨msg, rfl⟩ <;> trivial
  | @poll inp pid pids o w' hp hs hpoll =>
    cases o with
    | none => trivial
    | some e => exact hpoll.keepsTables
  | endInput hp => trivial
  | leave hp hs hend => exact keepsTables_leaveLoop env r.worker
  | release hp => exact hr
  | interrupt => trivial

/-- The tables are in order in every reachable state. -/
theorem reachable_keepsTables {env : BuildEnv} {r : RunState} (hr : Reachable env r) :
    LoopInv env r ∧ r.phase.KeepsTables := by
  obtain ⟨world, requests, repair, hruns⟩ := hr
  refine hruns.invariant (I := fun r => r.phase.KeepsTables)
    (loopInv_startRun env world requests repair) trivial ?_
  intro r e r' _ hI hcase _ _
  exact hcase.keepsTables hI

/-! ### Goals that have nothing left to wait for -/

namespace Worker

/-- No goal is gone, and those that wait for others still do. -/
def KeepsWaiting (w w' : Worker) : Prop :=
  ∀ k v, w.view k = some v → ∃ v', w'.view k = some v' ∧ (v.waitees ≠ ∅ → v'.waitees ≠ ∅)

/-- A goal that has nothing to wait for any more is awake. -/
def Frees (w w' : Worker) : Prop :=
  ∀ k v v', w.view k = some v → w'.view k = some v' → v.waitees ≠ ∅ → v'.waitees = ∅ →
    k ∈ w'.awake

/-- With the same views, the same goals wait. -/
theorem keepsWaiting_of_view {w w' : Worker} (h : ∀ k, w'.view k = w.view k) : w.KeepsWaiting w' := by
  intro k v hv
  exact ⟨v, (h k).trans hv, id⟩

/-- Goals that keep waiting through two steps. -/
theorem KeepsWaiting.trans {w w₁ w' : Worker} (h : w.KeepsWaiting w₁) (h' : w₁.KeepsWaiting w') :
    w.KeepsWaiting w' := by
  intro k v hv
  obtain ⟨v₁, hv₁, hne₁⟩ := h k v hv
  obtain ⟨v', hv', hne'⟩ := h' k v₁ hv₁
  exact ⟨v', hv', fun hne => hne' (hne₁ hne)⟩

/-- Who keeps waiting has not been freed of anything. -/
theorem KeepsWaiting.frees {w w' : Worker} (h : w.KeepsWaiting w') : w.Frees w' := by
  intro k v v' hv hv' hne hno
  obtain ⟨v'', hv'', hne''⟩ := h k v hv
  rw [hv'] at hv''
  cases hv''
  exact absurd hno (hne'' hne)

/-- Waiting first and freeing then. -/
theorem KeepsWaiting.trans_frees {w w₁ w' : Worker} (h : w.KeepsWaiting w₁) (h' : w₁.Frees w') :
    w.Frees w' := by
  intro k v v' hv hv' hne hno
  obtain ⟨v₁, hv₁, hne₁⟩ := h k v hv
  exact h' k v₁ v' hv₁ hv' (hne₁ hne) hno

/-- With the same views, nothing is freed. -/
theorem frees_of_view {w w' : Worker} (h : ∀ k, w'.view k = w.view k) : w.Frees w' :=
  (keepsWaiting_of_view h).frees

/-- A change of the record of one goal that does not concern the goals it waits for. -/
theorem keepsWaiting_of_other {w w' : Worker} {g : GoalId} {G G' : Goal}
    (hG : w.goals.find? g = some G) (hG' : w'.goals.find? g = some G')
    (hsame : G'.waitees = G.waitees) (hother : ∀ k, k ≠ g → w'.goals.find? k = w.goals.find? k) :
    w.KeepsWaiting w' := by
  intro k v hv
  by_cases hk : k = g
  · rw [hk, view_of_find hG] at hv
    cases hv
    refine ⟨G'.view, hk ▸ view_of_find hG', fun hne => ?_⟩
    exact fun hno => hne (hsame.symm.trans hno)
  · refine ⟨v, ?_, id⟩
    rw [view, hother k hk]
    exact hv

end Worker

/-- A preparation takes no waiting away. -/
theorem PrepKind.keepsWaiting {g : GoalId} {w w' : Worker} (h : PrepKind g w w')
    (hlt : ∀ k v, w.view k = some v → k < w.nextGoal) : w.KeepsWaiting w' := by
  cases h with
  | alike ha => exact Worker.keepsWaiting_of_view ha.view
  | created k N hc =>
    intro j v hv
    refine ⟨v, ?_, id⟩
    rw [Worker.view_created hc, if_neg (hlt j v hv).ne, hv]
  | link i hi heq =>
    intro j v hv
    obtain ⟨H, hH, rfl⟩ := Worker.view_eq_some.mp hv
    subst heq
    have hfind : ∃ H', (w.addWaitee g i).goals.find? j = some H' ∧
        (H'.waitees = H.waitees ∨ H'.waitees = H.waitees.insert i) := by
      simp only [Worker.addWaitee, Worker.updateGoal, SortedMap.find?_modify, hH]
      split_ifs
      · exact ⟨_, rfl, Or.inr rfl⟩
      · exact ⟨_, rfl, Or.inl rfl⟩
      · exact ⟨_, rfl, Or.inr rfl⟩
      · exact ⟨_, rfl, Or.inl rfl⟩
    obtain ⟨H', hH', hwaitees⟩ := hfind
    refine ⟨H'.view, Worker.view_of_find hH', fun hne hno => ?_⟩
    change H'.waitees = ∅ at hno
    rcases hwaitees with heq | heq
    · exact hne (heq.symm.trans hno)
    · have hmem : i ∈ H'.waitees := by
        rw [heq]
        exact SortedSet.mem_insert.mpr (Or.inl rfl)
      rw [hno] at hmem
      exact SortedMap.notMem_empty i hmem
  | reap f G pid hG hpid hf hc =>
    obtain ⟨c, -, -, hw'⟩ := hc.entry
    have hgoals : w'.goals = (w.updateGoal g f).goals := (congrArg Worker.goals hw' :)
    refine Worker.keepsWaiting_of_other hG (?_ : w'.goals.find? g = some (f G)) hf.waitees
      fun k hk => ?_
    · rw [hgoals, find?_updateGoal hG]
    · rw [hgoals, find?_updateGoal_ne hk]
  | startHook pid hno hfresh heq =>
    subst heq
    exact Worker.keepsWaiting_of_view fun _ => rfl

/-- While a goal is at work, the others keep waiting. -/
theorem During.keepsWaiting {env : BuildEnv} {batch : SortedSet GoalId} {F : FailureCause → Prop}
    {g : GoalId} {w w' : Worker} (h : During env batch g w) (hp : ReflTransGen (Prep F g) w w') :
    w.KeepsWaiting w' := by
  induction hp with
  | refl => exact Worker.keepsWaiting_of_view fun _ => rfl
  | @tail w₁ w₂ hp hstep ih =>
    have h₁ := h.preps hp
    obtain ⟨G, hG, hbusy⟩ := h₁.busy
    refine ih.trans ((hstep.kinds hG hbusy).keepsWaiting fun k v hv => ?_)
    obtain ⟨K, hK, -⟩ := Worker.view_eq_some.mp hv
    exact h₁.tables.sound.lt k _ (Worker.node_of_find hK)

/-- The goals that `amDone` leaves without anything to wait for are awake. -/
theorem AfterDone.frees {keepGoing : Bool} {g : GoalId} {r : ExitCode} {w w' : Worker} {G : Goal}
    (h : AfterDone keepGoing g r w G w') : w.Frees w' := by
  intro k v v' hv hv' hne hno
  obtain ⟨K, hK, rfl⟩ := Worker.view_eq_some.mp hv
  obtain ⟨K', hK', rfl⟩ := Worker.view_eq_some.mp hv'
  change K.waitees ≠ ∅ at hne
  change K'.waitees = ∅ at hno
  obtain ⟨K'', hK'', -, -, hin, hout, -⟩ := h.goal k K hK
  rw [hK'] at hK''
  cases hK''
  by_cases hk : k ∈ G.waiters
  · by_cases hfreed : K.Freed keepGoing g r
    · exact (h.awake k).mpr (Or.inr (Or.inr ⟨hk, K, hK, hfreed⟩))
    · have herase := (hin hk).2 hfreed
      exact absurd (Or.inl (herase.symm.trans hno)) hfreed
  · exact absurd ((hout hk).symm.trans hno) hne

/-- The end of a turn frees goals by ending one. -/
theorem Ended.frees {env : BuildEnv} {batch : SortedSet GoalId} {g : GoalId} {R N : Prop}
    {w w' : Worker} (h : During env batch g w) (he : Ended env g R N w w') : w.Frees w' := by
  cases he with
  | waits hG hne hrest hready => exact Worker.frees_of_view fun _ => rfl
  | rewakes hG hno hrest hready => exact Worker.frees_of_view fun _ => rfl
  | wantsSlot hG hno hrest hready hfull => exact Worker.frees_of_view fun _ => rfl
  | waitsForAny hG hno hrest hready hfree hlocked =>
    exact Worker.frees_of_view fun _ => rfl
  | waitsAWhile hG hno hrest hready => exact Worker.frees_of_view fun _ => rfl
  | @starts G f pid fds now hG hno hpids hf hown hfit hready hfresh hslot =>
    exact (Worker.keepsWaiting_of_other hG (find?_updateGoal hG f) hf.waitees
      fun k hk => find?_updateGoal_ne hk).frees
  | @startsHook G f pid fds now hG hno hpids hf hfit hready hhook =>
    exact (Worker.keepsWaiting_of_other hG (find?_updateGoal hG f) hf.waitees
      fun k hk => find?_updateGoal_ne hk).frees
  | @finishes _ G r hG hno hpids hr hdone hsuccess hnone =>
    obtain ⟨G₀, hG₀, hbusy⟩ := h.busy
    rw [hG] at hG₀
    cases hG₀
    exact ((amDone_spec h.tables.sound.linked hG hbusy).of_ok hdone).frees

/-- Stripping takes no waiting away. -/
theorem Stripped.keepsWaiting {g : GoalId} {G : Goal} {w w' : Worker}
    (hG : w.goals.find? g = some G) (h : Stripped g G w w') : w.KeepsWaiting w' := by
  obtain ⟨G', hG', hreaped, -⟩ := h.goal
  exact Worker.keepsWaiting_of_other hG hG' hreaped.waitees h.other

/-- Cancelling frees goals by ending one. -/
theorem Cancelled.frees {keepGoing : Bool} {g : GoalId} {G : Goal} {w w' : Worker}
    (hG : w.goals.find? g = some G) (h : Cancelled keepGoing g G w w') : w.Frees w' := by
  obtain ⟨w₁, G₁, hs, -, -, -, hd⟩ := h.steps
  exact (hs.keepsWaiting hG).trans_frees hd.frees

/-- Destroying a goal frees nothing that waits for another. -/
theorem Destroyed.frees {g : GoalId} {G : Goal} {w w' : Worker} (h : Destroyed g G w w') :
    w.Frees w' := by
  intro k v v' hv hv' hne hno
  obtain ⟨K', hK', rfl⟩ := Worker.view_eq_some.mp hv'
  rw [h.goals, SortedMap.find?_erase] at hK'
  split_ifs at hK'
  rw [Worker.view_of_find hK'] at hv
  cases hv
  exact absurd hno hne

/-- Nothing is taken out of `awake` when a goal loses its process. -/
theorem Stripped.awake_sub {g : GoalId} {G : Goal} {w w' : Worker} (h : Stripped g G w w')
    {k : GoalId} (hk : k ∈ w.awake) : k ∈ w'.awake := by
  rcases h.rest with ⟨pid, -, hceased⟩ | ⟨-, hw'⟩
  · exact (hceased.awake k).mpr (Or.inl hk)
  · rw [hw']
    exact hk

/-- Polling frees goals by ending one. -/
theorem Polled.frees {env : BuildEnv} {inp : Input} {pid : Pid} {w w' : Worker} {o : Option Stop}
    (h : Polled env inp pid w o w') : w.Frees w' := by
  have hread : ∀ {g fds w₁}, Read inp pid g fds w w₁ → ∀ k, w₁.view k = w.view k := by
    intro g fds w₁ hr k
    rw [hr.rest]
    rfl
  have hfind : ∀ {g fds w₁ G}, Read inp pid g fds w w₁ → w.goals.find? g = some G →
      w₁.goals.find? g = some G := by
    intro g fds w₁ G hr hG
    rw [hr.rest]
    exact hG
  cases h with
  | gone hc => exact Worker.frees_of_view fun _ => rfl
  | dead c hc hG => exact Worker.frees_of_view fun _ => rfl
  | failed c fds e hc hr he => exact Worker.frees_of_view (hread hr)
  | read c G hc hG hr hlate => exact Worker.frees_of_view (hread hr)
  | cancelled c G hc hG hr hlate hd =>
    exact (Worker.keepsWaiting_of_view (hread hr)).trans_frees (hd.frees (hfind hr hG))
  | refused c G hc hG hr hspent hlate hs =>
    exact ((Worker.keepsWaiting_of_view (hread hr)).trans (hs.keepsWaiting (hfind hr hG))).frees
  | @twice w₁ w₂ _ c G G₂ hc hG hr hlate hd hG₂ hs =>
    have hfrees := (Worker.keepsWaiting_of_view (hread hr)).trans_frees (hd.frees (hfind hr hG))
    intro k v v' hv hv' hne hno
    -- the second call of `cancel` only takes processes away
    have hmid : ∃ v₂, w₂.view k = some v₂ := by
      by_cases hk : k = c.goal
      · exact ⟨_, hk ▸ Worker.view_of_find hG₂⟩
      · refine ⟨v', ?_⟩
        rwa [Worker.view, hs.other k hk] at hv'
    obtain ⟨v₂, hv₂⟩ := hmid
    obtain ⟨v'', hv'', hkeeps⟩ := hs.keepsWaiting hG₂ k v₂ hv₂
    rw [hv'] at hv''
    cases hv''
    have hno₂ : v₂.waitees = ∅ := by
      by_contra hne₂
      exact hkeeps hne₂ hno
    exact hs.awake_sub (hfrees k v v₂ hv hv₂ hne hno₂)

/-- Every step frees goals only by ending what they wait for. -/
theorem StepCase.frees {env : BuildEnv} {r r' : RunState} {e : Event} (hinv : LoopInv env r)
    (h : StepCase env r e r') : r.worker.Frees r'.worker := by
  cases h with
  | destroy hG hfree hd => exact hd.frees
  | other world => exact Worker.frees_of_view fun _ => rfl
  | takeAwake hp htop => exact Worker.frees_of_view fun _ => rfl
  | skip hp hdead => exact Worker.frees_of_view fun _ => rfl
  | @work awake2 g ans G w' hp hg hs htop hc =>
    have hduring := hinv.during hp hg hc.find hc.busy
    obtain ⟨w₁, hpreps, hended⟩ := hc.worked
    exact (hduring.keepsWaiting hpreps).trans_frees (hended.frees (hduring.preps hpreps))
  | @workThrew awake2 g ans G w' e hp hg hs hG hbusy he hpreps =>
    have hduring := hinv.during hp hg hG hbusy
    exact (hduring.keepsWaiting hpreps).frees
  | workSpent hp hg hs htop hG hspent => exact Worker.frees_of_view fun _ => rfl
  | endAwake hp hend => exact Worker.frees_of_view fun _ => rfl
  | waitForInput hp hs htop hawake hphase => exact Worker.frees_of_view fun _ => rfl
  | poll hp hs hpoll => exact hpoll.frees
  | endInput hp =>
    refine Worker.frees_of_view fun k => ?_
    unfold Worker.endInput
    split_ifs <;> rfl
  | leave hp hs hend => exact Worker.frees_of_view fun _ => rfl
  | release hp => exact Worker.frees_of_view fun _ => rfl
  | interrupt => exact Worker.frees_of_view fun _ => rfl

/-! ### A run -/

/-- The state after a list of events, if they can happen and every step passes a test. -/
def schedule (env : BuildEnv) (ok : RunState → Event → RunState → Bool) :
    RunState → List Event → Option RunState
  | r, [] => some r
  | r, e :: events =>
    (step env r e).bind fun r' => if ok r e r' then schedule env ok r' events else none

/-- A schedule whose steps pass a test is a run under the condition. -/
theorem runs_of_schedule {env : BuildEnv} {ok : RunState → Event → RunState → Bool}
    {cond : RunState → Event → RunState → Prop} (hok : ∀ r e r', ok r e r' = true → cond r e r')
    {events : List Event} {r r' : RunState} (h : schedule env ok r events = some r') :
    Runs env cond r r' := by
  induction events generalizing r with
  | nil =>
    cases h
    exact .refl
  | cons e events ih =>
    obtain ⟨r₁, hs, h₁⟩ := Option.bind_eq_some_iff.mp h
    split_ifs at h₁ with hpass
    exact (ih h₁).head ⟨e, hs, hok r e r₁ hpass⟩

/-- A property of the state after a list of events holds in a state that is reached. -/
theorem exists_runs_of_schedule (env : BuildEnv) (ok : RunState → Event → RunState → Bool)
    (cond : RunState → Event → RunState → Prop) (hok : ∀ r e r', ok r e r' = true → cond r e r')
    (events : List Event) (r : RunState) (p : RunState → Bool)
    (h : (schedule env ok r events).any p = true) : ∃ r', Runs env cond r r' ∧ p r' = true := by
  obtain ⟨r', hr', hp⟩ := (Option.any_eq_true _ _).mp h
  exact ⟨r', runs_of_schedule hok hr', hp⟩

/-- A derivation with one output. -/
def sampleDrv : Derivation where
  outputs := .ofList [(str "out", ⟨str "/nix/store/app", [], []⟩)]
  inputDrvs := ∅
  inputSrcs := ∅
  platform := str "x86_64-linux"
  builder := str "/bin/sh"
  args := []
  env := ∅

/-- Settings without a build hook, substituters and time limits. -/
def sampleSettings : BuildSettings where
  keepGoing := true
  tryFallback := false
  readOnlyMode := false
  useSubstitutes := true
  cacheFailure := false
  useBuildHook := false
  buildHook := []
  maxBuildJobs := 1
  maxSilentTime := 0
  buildTimeout := 0
  pollInterval := 5
  thisSystem := str "x86_64-linux"
  linux32Builds := false
  substituters := []

/-- An environment with some derivation files. -/
def sampleEnv (settings : BuildSettings) (drvs : Path → Derivation) : BuildEnv :=
  ⟨settings, defaultConfig, fun p => .ok (unparseDerivation (drvs p)), fun _ => [], 10⟩

/-- Answers with which everything succeeds. -/
def sampleAnswers : Answers where
  now := 0
  contentsGood _ := true
  lockedElsewhere _ := false
  substitute _ := .ok none
  io := .ok ()
  hookReply := .ok (str "decline")
  hookAccepted := .ok ()
  hookPid := 100
  pid := 101
  builder := .done
  status := .exited 0
  outputs := .done
  checked := .done
  scanned _ := ∅
  registered := .ok ()

/-- A store in which some paths are valid. -/
def sampleWorld (valid : List Path) : World := ⟨fun p => decide (p ∈ valid), fun _ => ∅, fun _ => false⟩

/-- The build of a derivation with one output up to the start of the builder: the goal 1 is for the
derivation file, and the goal 2 finds no substitute for the output. -/
def sampleBuild (ans : Answers) : List Event :=
  [.takeAwake, .work 0 ans, .endAwake, .takeAwake, .work 1 ans, .destroy 1, .endAwake,
    .takeAwake, .work 0 ans, .endAwake, .takeAwake, .work 2 ans, .destroy 2, .endAwake,
    .takeAwake, .work 0 ans, .endAwake, .takeAwake, .work 0 ans, .endAwake]

/-- The state in which the derivation is asked for. -/
def sampleStart : RunState :=
  startRun (sampleWorld [str "/nix/store/app.drv"]) [.derivation (str "/nix/store/app.drv") ∅] false

/-! ### Every reachable state -/

/-- The relation between goals is the same from both sides, a goal that is done occurs neither in the
maps from paths to goals nor among the goals that others wait for, and a goal is put in `awake` by the
step that takes the last goal it waits for. -/
theorem reachable_goalGraph {env : BuildEnv} {r : RunState} (hr : Reachable env r) :
    (∀ g G h H, r.worker.goals.find? g = some G → r.worker.goals.find? h = some H →
      (h ∈ G.waitees ↔ g ∈ H.waiters)) ∧
    (∀ g G, r.worker.goals.find? g = some G → G.exitCode ≠ .ecBusy →
      (∀ p, r.worker.derivationGoals.find? p ≠ some g ∧
        r.worker.substitutionGoals.find? p ≠ some g) ∧
      ∀ h H, r.worker.goals.find? h = some H → g ∉ H.waitees) ∧
    r.phase ≠ .stopped (.assertion .waiteeFound) ∧
    (r.phase.Running → ∀ g G, r.worker.goals.find? g = some G →
      g ∈ r.worker.awake ∨ g ∈ r.phase.batch → G.waitees = ∅) ∧
    ∀ e r', step env r e = some r' → ∀ g G G', r.worker.goals.find? g = some G →
      r'.worker.goals.find? g = some G' → G.waitees ≠ ∅ → G'.waitees = ∅ → g ∈ r'.worker.awake := by
  obtain ⟨hinv, hkeeps⟩ := reachable_keepsTables hr
  have hsound := hinv.tables.sound
  refine ⟨hsound.linked.waiter_iff, fun g G hG hdone => ⟨fun p => ⟨fun hp => ?_, fun hp => ?_⟩,
    fun h H hH hg => ?_⟩, fun hstop => ?_, fun hrun g G hG hawake => ?_, fun e r' hs g G G' hG hG' => ?_⟩
  · exact hdone (hsound.goalFor_busy (.derivation p) g _ hp (Worker.node_of_find hG)).1
  · exact hdone (hsound.goalFor_busy (.substitution p) g _ hp (Worker.node_of_find hG)).1
  · obtain ⟨G', hG', hbusy⟩ := hsound.linked.waitee_busy h H hH g hg
    rw [hG] at hG'
    cases hG'
    exact hdone hbusy
  · rw [hstop] at hkeeps
    exact hkeeps.1 rfl
  · rcases hawake with hg | hg
    · exact (hinv.between hrun).queued.free g _ .awake (Worker.view_of_find hG) hg
    · exact (hinv.between hrun).queued.free g _ .batch (Worker.view_of_find hG) hg
  · exact (step_cases hinv hs).frees hinv g _ _ (Worker.view_of_find hG) (Worker.view_of_find hG')

/-- A sample with a goal that waits. -/
theorem reachable_goalGraph_sample :
    ∃ r, Reachable (sampleEnv sampleSettings fun _ => sampleDrv) r ∧
      (∃ G, r.worker.goals.find? 0 = some G ∧ G.waitees ≠ ∅) ∧
      (∀ g G h H, r.worker.goals.find? g = some G → r.worker.goals.find? h = some H →
        (h ∈ G.waitees ↔ g ∈ H.waiters)) := by
  obtain ⟨r, hruns, hp⟩ := exists_runs_of_schedule (sampleEnv sampleSettings fun _ => sampleDrv)
    (fun _ _ _ => true) (fun _ _ _ => True) (fun _ _ _ _ => trivial)
    ((sampleBuild sampleAnswers).take 2) sampleStart
    (fun r => (r.worker.goals.find? 0).any fun G : Goal => decide (G.waitees ≠ ∅))
    (by decide +kernel)
  have hr : Reachable (sampleEnv sampleSettings fun _ => sampleDrv) r := ⟨_, _, _, hruns⟩
  obtain ⟨G, hG, hne⟩ := (Option.any_eq_true _ _).mp hp
  exact ⟨r, hr, ⟨G, hG, of_decide_eq_true hne⟩, (reachable_goalGraph hr).1⟩

/-- The worker counts the children in build slots and keeps to the limit on their number. -/
theorem reachable_slots {env : BuildEnv} {r : RunState} (hr : Reachable env r) :
    r.worker.nrLocalBuilds = r.worker.slots ∧
      r.worker.nrLocalBuilds ≤ max 1 env.settings.maxBuildJobs ∧
      r.phase ≠ .stopped (.assertion .slotUsed) := by
  obtain ⟨hinv, hkeeps⟩ := reachable_keepsTables hr
  refine ⟨hinv.tables.kids.count, hinv.tables.limit, fun hstop => ?_⟩
  rw [hstop] at hkeeps
  exact hkeeps.2.2 rfl

/-- A sample with a build that has its slot. -/
theorem reachable_slots_sample :
    ∃ r, Reachable (sampleEnv sampleSettings fun _ => sampleDrv) r ∧ r.worker.nrLocalBuilds = 1 ∧
      r.worker.nrLocalBuilds = r.worker.slots ∧
      r.worker.nrLocalBuilds ≤ max 1 sampleSettings.maxBuildJobs ∧
      r.phase ≠ .stopped (.assertion .slotUsed) := by
  obtain ⟨r, hruns, hp⟩ := exists_runs_of_schedule (sampleEnv sampleSettings fun _ => sampleDrv)
    (fun _ _ _ => true) (fun _ _ _ => True) (fun _ _ _ _ => trivial) (sampleBuild sampleAnswers)
    sampleStart
    (fun r => decide (r.worker.nrLocalBuilds = 1)) (by decide +kernel)
  have hr : Reachable (sampleEnv sampleSettings fun _ => sampleDrv) r := ⟨_, _, _, hruns⟩
  exact ⟨r, hr, of_decide_eq_true hp, reachable_slots hr⟩

end Nix
