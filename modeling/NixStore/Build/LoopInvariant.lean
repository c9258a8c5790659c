import NixStore.Build.Queues

/-!
# The invariant of the goal loop

Every state that the loop reaches satisfies `LoopInv`: the tables always agree with the goals, and
while the loop runs so do the queues.
-/

namespace Nix

open Relation

namespace Worker

/-! ### Entries of children -/

/-- An entry of `children` belongs to a process of its goal, unless the goal is done or destroyed. -/
def Tended (w : Worker) : Prop :=
  ∀ p c v, w.children.find? p = some c → w.view c.goal = some v →
    p ∈ v.pids ∨ (v.exitCode ≠ .ecBusy ∧ v.calm = true)

/-- That goals are tended depends on the views and the children. -/
theorem Tended.congr {w w' : Worker} (h : w.Tended) (hview : ∀ k, w'.view k = w.view k)
    (hchildren : w'.children = w.children) : w'.Tended := by
  intro p c v hp hv
  rw [hchildren] at hp
  rw [hview] at hv
  exact h p c v hp hv

/-- A goal that is not done has no entries but those of its processes. -/
theorem Tended.mem_pids {w : Worker} (h : w.Tended) {p : Pid} {c : Child}
    (hp : w.children.find? p = some c) {G : Goal} (hG : w.goals.find? c.goal = some G)
    (hbusy : G.exitCode = .ecBusy) : p ∈ G.pids := by
  rcases h p c _ hp (view_of_find hG) with hmem | ⟨hnot, -⟩
  · exact hmem
  · exact absurd hbusy hnot

/-- A goal that waits for one more is still tended. -/
theorem Tended.link {w : Worker} {g i : GoalId} (h : w.Tended) : (w.addWaitee g i).Tended := by
  intro p c v' hp hv'
  obtain ⟨H', hH', rfl⟩ := view_eq_some.mp hv'
  simp only [addWaitee, updateGoal, SortedMap.find?_modify] at hH'
  have hsame : ∃ H, w.goals.find? c.goal = some H ∧ H'.kind = H.kind ∧ H'.exitCode = H.exitCode := by
    cases hH : w.goals.find? c.goal with
    | none =>
      rw [hH] at hH'
      split_ifs at hH' <;> cases hH'
    | some H =>
      rw [hH] at hH'
      refine ⟨H, rfl, ?_⟩
      split_ifs at hH' <;> cases hH' <;> exact ⟨rfl, rfl⟩
  obtain ⟨H, hH, hkind, hexit⟩ := hsame
  have hold := h p c _ hp (view_of_find hH)
  simpa only [Goal.view, Goal.node, Goal.pids, Goal.parked, hkind, hexit] using hold

/-- The only process of a goal that is not done is waited for. -/
theorem Tended.reap {w w' : Worker} {g : GoalId} {f : Goal → Goal} {G : Goal} {pid : Pid}
    (h : w.Tended) (hG : w.goals.find? g = some G) (hbusy : G.exitCode = .ecBusy)
    (hpid : G.pids = [pid]) (hc : Ceased pid (w.updateGoal g f) w') : w'.Tended := by
  obtain ⟨c₀, hc₀, -, hw'⟩ := hc.entry
  have hgoals : w'.goals = (w.updateGoal g f).goals := (congrArg goals hw' :)
  have hchildren : w'.children = w.children.erase pid := (congrArg children hw' :)
  intro p c v hp hv
  rw [hchildren, SortedMap.find?_erase] at hp
  split_ifs at hp with hpp
  have hcg : c.goal ≠ g := by
    intro hcg
    have hmem := h.mem_pids hp (hcg ▸ hG) hbusy
    rw [hpid] at hmem
    exact hpp (List.mem_singleton.mp hmem)
  refine h p c v hp ?_
  rwa [view, hgoals, find?_updateGoal_ne hcg] at hv

/-- Preparing a step keeps the other goals tended. -/
theorem Tended.prep {w w' : Worker} {g : GoalId} {G : Goal} {batch : SortedSet GoalId}
    {x : Option GoalId} (h : w.Tended) (hq : w.Queued batch x) (hG : w.goals.find? g = some G)
    (hbusy : G.exitCode = .ecBusy) (hp : PrepKind g w w') : w'.Tended := by
  cases hp with
  | alike ha =>
    refine h.congr ha.view ?_
    rw [ha.rest]
  | created k N hc =>
    intro p c v hp hv
    have hchildren : w'.children = w.children := by rw [hc.rest]
    rw [hchildren] at hp
    rw [view_created hc, if_neg (hq.entry_lt p c hp).ne] at hv
    exact h p c v hp hv
  | link i hi heq =>
    subst heq
    exact h.link
  | reap f G₀ pid hG₀ hpid hf hc =>
    rw [hG] at hG₀
    cases hG₀
    exact h.reap hG hbusy hpid hc
  | startHook pid hno hfresh heq =>
    subst heq
    exact h

/-- A goal that is not done starts a process. -/
theorem Tended.gain {w w' : Worker} {g : GoalId} {f : Goal → Goal} {G : Goal} {pid : Pid} {c : Child}
    (h : w.Tended) (hG : w.goals.find? g = some G) (hbusy : G.exitCode = .ecBusy)
    (hpids : G.pids = []) (hf : G.Reaped (f G) [pid]) (hgoal : c.goal = g)
    (hgoals : w'.goals = (w.updateGoal g f).goals)
    (hchildren : w'.children = w.children.insert pid c) : w'.Tended := by
  intro p c' v hp hv
  rw [hchildren, SortedMap.find?_insert] at hp
  split_ifs at hp with hpp
  · cases hp
    rw [hgoal, view, hgoals, find?_updateGoal hG] at hv
    cases hv
    left
    change p ∈ (f G).pids
    rw [hf.pids, hpp]
    exact List.mem_singleton.mpr rfl
  · have hcg : c'.goal ≠ g := by
      intro hcg
      have hmem := h.mem_pids hp (hcg ▸ hG) hbusy
      rw [hpids] at hmem
      exact List.not_mem_nil hmem
    refine h p c' v hp ?_
    rwa [view, hgoals, find?_updateGoal_ne hcg] at hv

/-- The end of a goal that has no entries, or is in a state that waits for a child; it does not matter
whether the other entries of `g` belonged to processes. -/
theorem Tended.afterDone {keepGoing : Bool} {g : GoalId} {r : ExitCode} {w w' : Worker} {G : Goal}
    (hd : AfterDone keepGoing g r w G w') (hl : w.Linked) (hG : w.goals.find? g = some G)
    (hr : r ≠ .ecBusy)
    (h : ∀ p c v, w.children.find? p = some c → c.goal ≠ g → w.view c.goal = some v →
      p ∈ v.pids ∨ (v.exitCode ≠ .ecBusy ∧ v.calm = true))
    (hself : ∀ p c, w.children.find? p = some c → c.goal = g → G.parked = true) : w'.Tended := by
  intro p c v' hp hv'
  have hchildren : w'.children = w.children := by rw [hd.rest]
  rw [hchildren] at hp
  by_cases hcg : c.goal = g
  · right
    obtain ⟨K', hK', rfl⟩ := view_eq_some.mp hv'
    obtain ⟨K, hK, hkind, hexit, -⟩ := hd.goal_before hK'
    rw [hcg, hG] at hK
    cases hK
    rw [if_pos hcg] at hexit
    have hparked : K'.parked = true := by
      rw [← hself p c hp hcg]
      simp only [Goal.parked, hkind]
    refine ⟨fun hbusy => hr (hexit.symm.trans hbusy), ?_⟩
    simp only [Goal.view, hparked, Bool.or_true]
  · obtain ⟨v, hv, hpids, hexit, hcalm, -⟩ := view_afterDone hd hl hG hv'
    rw [hpids, hexit, if_neg hcg, hcalm hcg]
    exact h p c v hp hcg hv

end Worker

/-! ### Calling a goal -/

/-- The state of the worker during a call of `work` on the goal `g`. -/
structure During (env : BuildEnv) (batch : SortedSet GoalId) (g : GoalId) (w : Worker) : Prop where
  tables : w.Tables env
  queued : w.Queued batch (some g)
  tended : w.Tended
  busy : ∃ G, w.goals.find? g = some G ∧ G.exitCode = .ecBusy

/-- The state of the worker while the loop runs. -/
structure Between (env : BuildEnv) (batch : SortedSet GoalId) (w : Worker) : Prop where
  tables : w.Tables env
  queued : w.Queued batch none
  tended : w.Tended

/-- The goal that is called is still there after a step, and it is not done. -/
theorem PrepKind.busy {g : GoalId} {w w' : Worker} {G : Goal} (h : PrepKind g w w')
    (hG : w.goals.find? g = some G) (hbusy : G.exitCode = .ecBusy) (hlt : g < w.nextGoal) :
    ∃ G', w'.goals.find? g = some G' ∧ G'.exitCode = .ecBusy := by
  cases h with
  | alike ha =>
    have hv := ha.view g
    rw [Worker.view_of_find hG] at hv
    obtain ⟨G', hG', hv'⟩ := Worker.view_eq_some.mp hv
    exact ⟨G', hG', (congrArg (·.exitCode) hv').trans hbusy⟩
  | created k N hc =>
    refine ⟨G, ?_, hbusy⟩
    rw [hc.rest]
    rw [SortedMap.find?_insert, if_neg hlt.ne, hG]
  | link i hi heq =>
    subst heq
    simp only [Worker.addWaitee, Worker.updateGoal, SortedMap.find?_modify, hG]
    split_ifs <;> exact ⟨_, rfl, hbusy⟩
  | reap f G₀ pid hG₀ hpid hf hc =>
    obtain ⟨c, -, -, hw'⟩ := hc.entry
    have hgoals : w'.goals = (w.updateGoal g f).goals := (congrArg Worker.goals hw' :)
    rw [hG] at hG₀
    cases hG₀
    exact ⟨f G, by rw [hgoals, find?_updateGoal hG], hf.exitCode.trans hbusy⟩
  | startHook pid hno hfresh heq =>
    subst heq
    exact ⟨G, hG, hbusy⟩

/-- A step of preparation goes on with the turn of the goal. -/
theorem During.prep {env : BuildEnv} {batch : SortedSet GoalId} {F : FailureCause → Prop} {g : GoalId}
    {w w' : Worker} (h : During env batch g w) (hp : Prep F g w w') : During env batch g w' := by
  obtain ⟨G, hG, hbusy⟩ := h.busy
  have hk := hp.kinds hG hbusy
  exact ⟨h.tables.prep hG hbusy hk, h.queued.prep h.tables.sound hG hk,
    h.tended.prep h.queued hG hbusy hk,
    hk.busy hG hbusy (h.tables.sound.lt g _ (Worker.node_of_find hG))⟩

/-- So do all the steps of preparation. -/
theorem During.preps {env : BuildEnv} {batch : SortedSet GoalId} {F : FailureCause → Prop} {g : GoalId}
    {w w' : Worker} (h : During env batch g w) (hp : ReflTransGen (Prep F g) w w') :
    During env batch g w' := by
  induction hp with
  | refl => exact h
  | tail _ hstep ih => exact ih.prep hstep

/-- The process of a new builder or substituter is not used yet. -/
theorem not_mem_pids_of_fresh {w : Worker} {pid : Pid} (h : pid ∉ w.usedPids) {k : GoalId}
    {q : GoalProcs} (hq : w.procs k = some q) : pid ∉ q.pids := by
  obtain ⟨K, hK, rfl⟩ := Worker.procs_eq_some.mp hq
  exact fun hmem => h (mem_usedPids.mpr (Or.inl ⟨k, K, hK, hmem⟩))

/-- The end of a goal that waits for nothing, has no process and is in no queue. -/
theorem During.done {env : BuildEnv} {batch : SortedSet GoalId} {g : GoalId} {w w' : Worker} {G : Goal}
    {keepGoing : Bool} {r : ExitCode} (h : During env batch g w) (hG : w.goals.find? g = some G)
    (hno : G.waitees = ∅) (hpids : G.pids = []) (hr : r ≠ .ecBusy)
    (hd : AfterDone keepGoing g r w G w') : Between env batch w' := by
  obtain ⟨G₀, hG₀, hbusy⟩ := h.busy
  rw [hG] at hG₀
  cases hG₀
  refine ⟨h.tables.afterDone hd hG hr hno hpids,
    h.queued.afterDone h.tables.sound hd hG hr hno hpids (fun j hj => (Option.some.inj hj).symm)
      fun q hq => absurd hq (h.queued.called g rfl q),
    Worker.Tended.afterDone hd h.tables.sound.linked hG hr (fun p c v hp _ hv => h.tended p c v hp hv)
      fun p c hp hcg => ?_⟩
  have hmem := h.tended.mem_pids hp (hcg ▸ hG) hbusy
  rw [hpids] at hmem
  exact absurd hmem List.not_mem_nil

/-- The turn of a goal ends between two turns. -/
theorem During.ended {env : BuildEnv} {batch : SortedSet GoalId} {g : GoalId} {R N : Prop}
    {w w' : Worker} (h : During env batch g w) (he : Ended env g R N w w') : Between env batch w' := by
  obtain ⟨G₀, hG₀, hbusy⟩ := h.busy
  have hsound := h.tables.sound
  have hsame : ∀ {G}, w.goals.find? g = some G → G.exitCode = .ecBusy := by
    intro G hG
    rw [hG₀] at hG
    cases hG
    exact hbusy
  cases he with
  | waits hG hne hrest hready => exact ⟨h.tables, h.queued.waits hG hrest, h.tended⟩
  | rewakes hG hno hrest hready =>
    refine ⟨h.tables.congr rfl rfl rfl rfl rfl rfl rfl,
      h.queued.enqueue (q := .awake) hsound hG (hsame hG) hno hrest (fun q' j => ?_) rfl rfl rfl,
      h.tended⟩
    cases q' <;> simp [Worker.queue, Worker.wakeUp, or_comm]
  | wantsSlot hG hno hrest hready hfull =>
    refine ⟨h.tables.congr rfl rfl rfl rfl rfl rfl rfl,
      h.queued.enqueue (q := .wantingToBuild) hsound hG (hsame hG) hno hrest (fun q' j => ?_) rfl rfl
        rfl, h.tended⟩
    cases q' <;> simp [Worker.queue, or_comm]
  | waitsForAny hG hno hrest hready hfree hlocked =>
    refine ⟨h.tables.congr rfl rfl rfl rfl rfl rfl rfl,
      h.queued.enqueue (q := .waitingForAnyGoal) hsound hG (hsame hG) hno hrest (fun q' j => ?_) rfl
        rfl rfl, h.tended⟩
    cases q' <;> simp [Worker.queue, Worker.waitForAnyGoal, or_comm]
  | waitsAWhile hG hno hrest hready =>
    refine ⟨h.tables.congr rfl rfl rfl rfl rfl rfl rfl,
      h.queued.enqueue (q := .waitingForAWhile) hsound hG (hsame hG) hno hrest (fun q' j => ?_) rfl
        rfl rfl, h.tended⟩
    cases q' <;> simp [Worker.queue, Worker.waitForAWhile, or_comm]
  | starts f pid fds now hG hno hpids hf hown hfit hready hfresh hslot =>
    refine ⟨h.tables.gain hG (hsame hG) hpids hf (fun _ _ => not_mem_pids_of_fresh hfresh) rfl
        (fun _ => hown) (fun _ => hslot) rfl rfl rfl rfl rfl rfl (Or.inr ⟨rfl, fun hhook => ?_⟩),
      h.queued.started hsound hG hno hf hfit rfl (fun q => ?_) rfl rfl rfl,
      h.tended.gain hG (hsame hG) hpids hf rfl rfl rfl⟩
    · exact hfresh (mem_usedPids.mpr (Or.inr hhook))
    · cases q <;> rfl
  | startsHook f pid fds now hG hno hpids hf hfit hready hhook =>
    refine ⟨h.tables.gain hG (hsame hG) hpids hf (h.tables.kids.hook pid hhook) rfl
        (fun hslot => by cases hslot) (fun hslot => by cases hslot) rfl rfl rfl rfl rfl rfl
        (Or.inl rfl),
      h.queued.started hsound hG hno hf hfit rfl (fun q => ?_) rfl rfl rfl,
      h.tended.gain hG (hsame hG) hpids hf rfl rfl rfl⟩
    cases q <;> rfl
  | finishes r hG hno hpids hr hdone hsuccess hnone =>
    have hd := (amDone_spec hsound.linked hG (hsame hG)).of_ok hdone
    exact h.done hG hno hpids hr hd

/-- A goal that is done and waits for a child in its last state cannot be called. -/
theorem work_spent {env : BuildEnv} {ans : Answers} {g : GoalId} {G : Goal} {w : Worker}
    (hparked : G.parked = true) (hpids : G.pids = []) :
    work env ans g G w = (.error (.error (str "cannot get child exit status")), w) := by
  obtain ⟨_, _, _, _, _, d | s⟩ := G
  · have hstate : d.state = .buildDone := by simpa [Goal.parked] using hparked
    have hnone : d.hook.getD d.pid = none := by
      simp only [Goal.pids, List.append_eq_nil_iff, Option.toList_eq_nil_iff] at hpids
      cases hhook : d.hook with
      | none => exact hpids.1
      | some x =>
        have := hpids.2
        rw [hhook] at this
        exact this
    simp only [work, hstate, buildDone, hnone]
    rfl
  · have hstate : s.state = .finished := by simpa [Goal.parked] using hparked
    have hnone : s.pid = none := by
      simpa only [Goal.pids, Option.toList_eq_nil_iff] using hpids
    simp only [work, hstate, finished, hnone]
    rfl

/-- A call of `work` on `g` has led from `w` to `w'`. -/
structure Called (env : BuildEnv) (ans : Answers) (g : GoalId) (G : Goal) (w w' : Worker) : Prop where
  find : w.goals.find? g = some G
  busy : G.exitCode = .ecBusy
  worked : Worked env (G.Fails ans w.world) g (G.Ready env w.world) (G.NoOffer env ans) w w'

/-- How a call of a goal that is awake ends. -/
theorem workGoal_spec {env : BuildEnv} {ans : Answers} {batch : SortedSet GoalId} {g : GoalId}
    {w : Worker} (h : Between env batch w) (hg : g ∈ batch) (hfresh : w.freshPids ans = true) :
    Prog.Ends (workGoal env ans g) w
      (fun _ w' => (g ∉ w.goals ∧ w' = w) ∨ ∃ G, Called env ans g G w w')
      fun e w' => ∃ G, w.goals.find? g = some G ∧
        ((G.exitCode ≠ .ecBusy ∧ w' = w ∧ ∃ msg, e = .error msg) ∨
          (G.exitCode = .ecBusy ∧ e.Plain ∧
            ReflTransGen (Prep (G.Fails ans w.world) g) w w')) := by
  unfold workGoal
  refine Prog.ends_get_bind ?_
  cases hG : w.goals.find? g with
  | none => exact Prog.ends_pure (Or.inl ⟨SortedMap.find?_eq_none_iff.mp hG, rfl⟩)
  | some G =>
    dsimp only
    have hview := Worker.view_of_find hG
    by_cases hbusy : G.exitCode = .ecBusy
    · have hlive := Worker.mem_goals_iff.mpr ⟨G, hG⟩
      have hduring : During env (batch.erase g) g w :=
        ⟨h.tables, h.queued.call hg hlive, h.tended, G, hG, hbusy⟩
      refine (work_spec hG (h.queued.free g _ .batch hview hg) (h.queued.fit g G (by simp) hG hbusy)
        (h.tables.sound.lt g _ (Worker.node_of_find hG)) hfresh).mono
        (fun _ w' hw' => Or.inr ⟨G, hG, hbusy, hw'⟩) fun e w' he => ?_
      refine ⟨G, rfl, Or.inr ⟨hbusy, ?_⟩⟩
      obtain ⟨w₁, hp, ⟨rfl, hplain⟩ | ⟨r, hdone⟩ | ⟨G₁, f, pid, hG₁, hpids, hf, hterm⟩⟩ := he
      · exact ⟨hplain, hp⟩
      · -- the goal is not done, so `amDone` does not fail
        obtain ⟨G₁, hG₁, hbusy₁⟩ := (hduring.preps hp).busy
        have hspec : Prog.Ends (amDone env.settings.keepGoing g r) w₁
            (fun _ w' => AfterDone env.settings.keepGoing g r w₁ G₁ w') fun _ _ => False :=
          amDone_spec (hduring.preps hp).tables.sound.linked hG₁ hbusy₁
        exact (hspec.of_error hdone).elim
      · have hchild := (hduring.preps hp).tables.kids.hasChild (p := pid) hG₁
          (by rw [hpids]; exact List.mem_singleton.mpr rfl)
        have hchild' : (w₁.updateGoal g f).HasChild pid := hchild
        exact ((childTerminated_ends hchild').of_error hterm).elim
    · have hcalm : G.view.calm = true := h.queued.calm g _ .batch hview hg
      have hparked : G.parked = true := by
        simpa only [Goal.view, hbusy, decide_false, Bool.false_or] using hcalm
      have hpids : G.pids = [] := by
        by_contra hne
        exact hbusy (h.tables.kids.busy g _ (Worker.procs_of_find hG) hne)
      unfold Prog.Ends
      rw [work_spent hparked hpids]
      exact ⟨G, rfl, Or.inl ⟨hbusy, rfl, _, rfl⟩⟩

/-- A goal that was called is taken off the batch. -/
theorem Between.called {env : BuildEnv} {ans : Answers} {batch : SortedSet GoalId} {g : GoalId} {G : Goal}
    {w w' : Worker} (h : Between env batch w) (hg : g ∈ batch) (hc : Called env ans g G w w') :
    Between env (batch.erase g) w' := by
  have hduring : During env (batch.erase g) g w :=
    ⟨h.tables, h.queued.call hg (Worker.mem_goals_iff.mpr ⟨G, hc.find⟩), h.tended, G, hc.find, hc.busy⟩
  obtain ⟨w₁, hp, he⟩ := hc.worked
  exact (hduring.preps hp).ended he

/-! ### Cancelling a goal -/

/-- The goal `g` was cancelled. -/
structure Cancelled (keepGoing : Bool) (g : GoalId) (G : Goal) (w w' : Worker) : Prop where
  busy : G.exitCode = .ecBusy
  steps : ∃ w₁ G₁, Stripped g G w w₁ ∧ w₁.goals.find? g = some G₁ ∧ G.Reaped G₁ [] ∧
    G₁.parked = G.parked ∧ AfterDone keepGoing g .ecFailed w₁ G₁ w'

/-- Cancelling a goal strips it and ends it. -/
theorem cancelGoal_spec {env : BuildEnv} (keepGoing : Bool) {g : GoalId} {G : Goal} {w : Worker}
    (h : w.Tables env) (hG : w.goals.find? g = some G) :
    Prog.Ends (cancelGoal keepGoing g) w (fun _ w' => Cancelled keepGoing g G w w')
      fun e w' => G.exitCode ≠ .ecBusy ∧ e = .assertion .exitBusy ∧ Stripped g G w w' := by
  unfold cancelGoal
  refine Prog.ends_get_bind ?_
  rw [hG]
  dsimp only
  rw [cancel_eq]
  refine (strip_spec hG fun pid hpid => h.kids.hasChild hG (Goal.ownPid_mem_pids hpid)).bind
    (fun _ w₁ hw₁ => ?_) fun _ _ => False.elim
  obtain ⟨G₁, hG₁, hreaped, hparked⟩ := hw₁.goal
  by_cases hbusy : G.exitCode = .ecBusy
  · refine (amDone_spec (h.stripped hG hw₁).sound.linked hG₁ (hreaped.exitCode.trans hbusy)).mono
      (fun _ w' hw' => ⟨hbusy, w₁, G₁, hw₁, hG₁, hreaped, hparked, hw'⟩) fun _ _ => False.elim
  · unfold amDone
    refine Prog.ends_get_bind ?_
    rw [hG₁]
    exact ends_assert_bind (fun hbusy₁ => absurd (hreaped.exitCode.symm.trans hbusy₁) hbusy)
      fun _ => ⟨hbusy, rfl, hw₁⟩

/-- Only in the state that waits for a child a goal has one. -/
theorem Goal.Fit.parked {G : Goal} (h : G.Fit) (hpids : G.pids ≠ []) : G.parked = true := by
  obtain ⟨_, _, _, _, _, d | s⟩ := G
  · by_contra hn
    have hstate : d.state ≠ .buildDone := by simpa [Goal.parked] using hn
    obtain ⟨hpid, hhook, -⟩ := h.2 hstate
    exact hpids (by simp [Goal.pids, hpid, hhook])
  · by_contra hn
    have hstate : s.state ≠ .finished := by simpa [Goal.parked] using hn
    exact hpids (Goal.pids_substitution rfl (h hstate))

/-- A parked goal without processes is fit. -/
theorem Goal.fit_of_parked {G : Goal} (h : G.parked = true) (hpids : G.pids = []) : G.Fit := by
  obtain ⟨_, _, _, _, _, d | s⟩ := G
  · have hstate : d.state = .buildDone := by simpa [Goal.parked] using h
    simp only [Goal.pids, List.append_eq_nil_iff, Option.toList_eq_nil_iff] at hpids
    exact ⟨Or.inr hpids.1, fun hn => absurd hstate hn⟩
  · have hstate : s.state = .finished := by simpa [Goal.parked] using h
    exact fun hn => absurd hstate hn

namespace Worker

/-- Stripping starts no child. -/
theorem Stripped.children_sub {g : GoalId} {G : Goal} {w w' : Worker} (h : Stripped g G w w') {p : Pid}
    {c : Child} (hp : w'.children.find? p = some c) : w.children.find? p = some c := by
  rcases h.rest with ⟨pid, -, hceased⟩ | ⟨-, hw'⟩
  · obtain ⟨c₀, -, hchildren, -⟩ := Ceased.entry_eq hceased
    change w'.children = _ at hchildren
    rw [hchildren, SortedMap.find?_erase] at hp
    split_ifs at hp
    exact hp
  · rwa [hw'] at hp

/-- A goal that has lost its process is awake. -/
theorem Queued.stripped {w w' : Worker} {batch : SortedSet GoalId} {g : GoalId} {G : Goal}
    (h : w.Queued batch none) (hG : w.goals.find? g = some G) (hbusy : G.exitCode = .ecBusy)
    (hchild : G.pids ≠ []) (hs : Stripped g G w w') : w'.Queued batch none := by
  obtain ⟨G', hG', hreaped, hparked⟩ := hs.goal
  have hview : ∀ k v', w'.view k = some v' → (none : Option GoalId) ≠ some k →
      ∃ v, w.view k = some v ∧ Unharmed v v' := by
    intro k v' hv' _
    by_cases hkg : k = g
    · rw [hkg, view_of_find hG'] at hv'
      cases hv'
      refine ⟨G.view, hkg ▸ view_of_find hG, hreaped.waitees, hreaped.exitCode, Or.inr hreaped.pids, ?_⟩
      rw [Goal.view_calm_of_busy hbusy, Goal.view_calm_of_busy (hreaped.exitCode.trans hbusy)]
    · refine ⟨v', ?_, .refl v'⟩
      rwa [view, hs.other k hkg] at hv'
  have hlive : ∀ k, k ∈ w'.goals → k ∈ w.goals := by
    intro k hk
    rw [mem_goals_iff] at hk ⊢
    by_cases hkg : k = g
    · exact ⟨G, hkg ▸ hG⟩
    · rwa [hs.other k hkg] at hk
  have hfit : ∀ k K', (none : Option GoalId) ≠ some k → w'.goals.find? k = some K' →
      K'.exitCode = .ecBusy → K'.Fit := by
    intro k K' hk hK' hKbusy
    by_cases hkg : k = g
    · rw [hkg, hG'] at hK'
      cases hK'
      have hpark := (h.fit g G (by simp) hG hbusy).parked hchild
      exact Goal.fit_of_parked (hparked.trans hpark) hreaped.pids
    · rw [hs.other k hkg] at hK'
      exact h.fit k K' hk hK' hKbusy
  have hentry : ∀ p c, w'.children.find? p = some c → c.goal < w.nextGoal := fun p c hp =>
    h.entry_lt p c (Stripped.children_sub hs hp)
  rcases hs.rest with ⟨pid, -, hceased⟩ | ⟨-, hw'⟩
  · obtain ⟨c, -, -, hw'⟩ := hceased.entry
    have hwoken := Ceased.woken hceased
    have hwoken' : Woken .wantingToBuild w w' := by
      refine ⟨hwoken.awake, hwoken.empty, fun q hqa hq => ?_⟩
      rw [← hwoken.other q hqa hq]
      cases q <;> rfl
    exact h.woken hwoken' trivial (congrArg nextGoal hw' :) hview hlive hfit hentry
  · refine h.unharmed (fun q => ?_) (congrArg nextGoal hw' :) hview hlive hfit hentry
    rw [hw']
    cases q <;> rfl

end Worker

/-- Cancelling a goal that has a child. -/
theorem Between.cancelled {env : BuildEnv} {batch : SortedSet GoalId} {keepGoing : Bool} {g : GoalId}
    {G : Goal} {w w' : Worker} (h : Between env batch w) (hG : w.goals.find? g = some G)
    (hchild : G.pids ≠ []) (hc : Cancelled keepGoing g G w w') : Between env batch w' := by
  obtain ⟨hbusy, w₁, G₁, hs, hG₁, hreaped, hparked, hd⟩ := hc
  have htables := h.tables.stripped hG hs
  have hno : G₁.waitees = ∅ :=
    hreaped.waitees.trans (h.queued.child g _ (by simp) (Worker.view_of_find hG) hchild)
  have hpark : G₁.parked = true :=
    hparked.trans ((h.queued.fit g G (by simp) hG hbusy).parked hchild)
  have hqueued := h.queued.stripped hG hbusy hchild hs
  -- a goal with a child does not sleep
  have hqueue : ∀ q, g ∈ w₁.queue batch q → ¬ q.Sleeps := by
    intro q hq hsleeps
    have hold : g ∈ w.queue batch q := by
      rcases hs.rest with ⟨pid, -, hceased⟩ | ⟨-, hw₁⟩
      · have hq' : g ∈ Worker.queue { w₁ with goals := w.goals } batch q := by
          cases q <;> exact hq
        rcases (Worker.Ceased.woken hceased).mem_queue trivial hq' with ⟨-, hold⟩ | ⟨hqa, -⟩
        · exact hold
        · rw [hqa] at hsleeps
          exact hsleeps.elim
      · rw [hw₁] at hq
        cases q <;> exact hq
    exact hchild (h.queued.asleep g _ q (Worker.view_of_find hG) hold hsleeps).2
  refine ⟨htables.afterDone hd hG₁ (by decide) hno hreaped.pids,
    hqueued.afterDone htables.sound hd hG₁ (by decide) hno hreaped.pids (fun j hj => by cases hj)
      fun q hq => ⟨hqueue q hq, hpark⟩,
    Worker.Tended.afterDone hd htables.sound.linked hG₁ (by decide) (fun p c v hp hcg hv => ?_)
      fun _ _ _ _ => hpark⟩
  refine h.tended p c v (Worker.Stripped.children_sub hs hp) ?_
  rwa [Worker.view, hs.other _ hcg] at hv

/-! ### Destroying a goal -/

/-- A goal may be destroyed between two turns. -/
theorem Between.destroyed {env : BuildEnv} {batch : SortedSet GoalId} {g : GoalId} {G : Goal}
    {w w' : Worker} (h : Between env batch w) (hG : w.goals.find? g = some G)
    (hfree : w.referenced g = false) (hd : Destroyed g G w w') : Between env batch w' := by
  have hfind : ∀ k K, w'.goals.find? k = some K → k ≠ g ∧ w.goals.find? k = some K := by
    intro k K hK
    rw [hd.goals, SortedMap.find?_erase] at hK
    split_ifs at hK with hkg
    exact ⟨hkg, hK⟩
  have hview : ∀ k v, w'.view k = some v → w.view k = some v := by
    intro k v hv
    obtain ⟨K, hK, rfl⟩ := Worker.view_eq_some.mp hv
    exact Worker.view_of_find (hfind k K hK).2
  have hlive : ∀ k, k ∈ w'.goals → k ∈ w.goals := by
    intro k hk
    obtain ⟨K, hK⟩ := Worker.mem_goals_iff.mp hk
    exact Worker.mem_goals_iff.mpr ⟨K, (hfind k K hK).2⟩
  have hentry : ∀ p c, w'.children.find? p = some c → w.children.find? p = some c := by
    intro p c hp
    rcases hd.rest with ⟨pid, -, hceased⟩ | ⟨-, hw'⟩
    · obtain ⟨c₀, -, hchildren, -⟩ := Worker.Ceased.entry_eq hceased
      change w'.children = _ at hchildren
      rw [hchildren, SortedMap.find?_erase] at hp
      split_ifs at hp
      exact hp
    · rwa [hw'] at hp
  refine ⟨h.tables.destroyed hG hd hfree, ?_, fun p c v hp hv =>
    h.tended p c v (hentry p c hp) (hview _ v hv)⟩
  rcases hd.rest with ⟨pid, -, hceased⟩ | ⟨-, hw'⟩
  · obtain ⟨c, -, -, hw'⟩ := hceased.entry
    have hwoken := Worker.Ceased.woken hceased
    have hwoken' : Worker.Woken .wantingToBuild w w' := by
      refine ⟨hwoken.awake, hwoken.empty, fun q hqa hq => ?_⟩
      rw [← hwoken.other q hqa hq]
      cases q <;> rfl
    exact h.queued.woken hwoken' trivial (congrArg Worker.nextGoal hw' :)
      (fun k v hv _ => ⟨v, hview k v hv, .refl v⟩) hlive
      (fun k K hk hK => h.queued.fit k K hk (hfind k K hK).2)
      fun p c hp => h.queued.entry_lt p c (hentry p c hp)
  · refine h.queued.unharmed (fun q => ?_) (congrArg Worker.nextGoal hw' :)
      (fun k v hv _ => ⟨v, hview k v hv, .refl v⟩) hlive
      (fun k K hk hK => h.queued.fit k K hk (hfind k K hK).2)
      fun p c hp => h.queued.entry_lt p c (hentry p c hp)
    rw [hw']
    cases q <;> rfl

/-! ### Input -/

/-- The entries of children keep their goals when output is read. -/
theorem Read.entry {inp : Input} {pid : Pid} {g : GoalId} {fds : List ChildFd} {w w' : Worker}
    (h : Read inp pid g fds w w') {p : Pid} {c' : Child} (hp : w'.children.find? p = some c') :
    ∃ c, w.children.find? p = some c ∧ c'.goal = c.goal := by
  obtain ⟨f, hf, hsame⟩ := h.children
  rw [hf, SortedMap.find?_modify] at hp
  split_ifs at hp
  · obtain ⟨c, hc, rfl⟩ := Option.map_eq_some_iff.mp hp
    exact ⟨c, hc, (hsame c).1⟩
  · exact ⟨c', hp, rfl⟩

/-- Reading output wakes up at most the goal of the child. -/
theorem Between.read {env : BuildEnv} {inp : Input} {pid : Pid} {c : Child} {fds : List ChildFd}
    {w w' : Worker} (h : Between env ∅ w) (hc : w.children.find? pid = some c)
    (hr : Read inp pid c.goal fds w w') : Between env ∅ w' := by
  have hgoals : w'.goals = w.goals := by rw [hr.rest]
  have hnext : w'.nextGoal = w.nextGoal := by rw [hr.rest]
  have hview : ∀ k, w'.view k = w.view k := fun k => by rw [Worker.view, Worker.view, hgoals]
  have hentry : ∀ p c', w'.children.find? p = some c' → c'.goal < w.nextGoal := by
    intro p c' hp
    obtain ⟨c₀, hc₀, hgoal⟩ := hr.entry hp
    rw [hgoal]
    exact h.queued.entry_lt p c₀ hc₀
  have htended : w'.Tended := by
    intro p c' v hp hv
    obtain ⟨c₀, hc₀, hgoal⟩ := hr.entry hp
    rw [hview, hgoal] at hv
    exact h.tended p c₀ v hc₀ hv
  -- the goal of the child waits for nothing and does not sleep
  have hself : ∀ v, w.view c.goal = some v → v.waitees = ∅ ∧ v.calm = true ∧
      ∀ q, q.Sleeps → c.goal ∉ w.queue ∅ q := by
    intro v hv
    rcases h.tended pid c v hc hv with hmem | ⟨hspent, hcalm⟩
    · have hne : v.pids ≠ [] := List.ne_nil_of_mem hmem
      obtain ⟨G, hG, rfl⟩ := Worker.view_eq_some.mp hv
      refine ⟨h.queued.child _ _ (by simp) hv hne,
        Goal.view_calm_of_busy (h.tables.kids.busy _ _ (Worker.procs_of_find hG) hne), fun q hq hin => ?_⟩
      exact hne (h.queued.asleep _ _ q hv hin hq).2
    · obtain ⟨G, hG, rfl⟩ := Worker.view_eq_some.mp hv
      exact ⟨h.tables.sound.spent _ _ (Worker.node_of_find hG) hspent, hcalm,
        fun q hq hin => hspent (h.queued.asleep _ _ q hv hin hq).1⟩
  refine ⟨h.tables.read hr, ?_, htended⟩
  have hqueue : ∀ q j, j ∈ w'.queue ∅ q → j ∈ w.queue ∅ q ∨ (q = .awake ∧ j = c.goal) := by
    intro q j hj
    cases q with
    | awake =>
      change j ∈ w'.awake at hj
      rcases hr.awake with ha | ⟨-, ha⟩
      · rw [ha] at hj
        exact Or.inl hj
      · rw [ha] at hj
        exact (SortedSet.mem_insert.mp hj).symm.imp id fun hj => ⟨rfl, hj⟩
    | batch => exact Or.inl hj
    | wantingToBuild =>
      rw [hr.rest] at hj
      exact Or.inl hj
    | waitingForAnyGoal =>
      rw [hr.rest] at hj
      exact Or.inl hj
    | waitingForAWhile =>
      rw [hr.rest] at hj
      exact Or.inl hj
  -- a queue of the goal of the child other than `awake` would be one in which it sleeps
  have hawake : ∀ q, c.goal ∈ w.goals → c.goal ∈ w.queue ∅ q → q = .awake := by
    intro q hlive hq
    obtain ⟨v, hv⟩ := Worker.mem_goals_iff_view.mp hlive
    obtain ⟨-, -, hsleep⟩ := hself v hv
    cases q with
    | awake => rfl
    | batch => exact absurd hq (SortedMap.notMem_empty _)
    | wantingToBuild => exact absurd hq (hsleep .wantingToBuild trivial)
    | waitingForAnyGoal => exact absurd hq (hsleep .waitingForAnyGoal trivial)
    | waitingForAWhile => exact absurd hq (hsleep .waitingForAWhile trivial)
  constructor
  · intro j hj q q' hq hq'
    rw [hgoals] at hj
    rcases hqueue q j hq with hq | ⟨hqa, hjc⟩ <;> rcases hqueue q' j hq' with hq' | ⟨hqa', hjc'⟩
    · exact h.queued.once j hj q q' hq hq'
    · rw [hqa']
      exact hawake q (hjc' ▸ hj) (hjc' ▸ hq)
    · rw [hqa]
      exact (hawake q' (hjc ▸ hj) (hjc ▸ hq')).symm
    · rw [hqa, hqa']
  · intro q j hj
    rw [hnext]
    rcases hqueue q j hj with hj | ⟨-, rfl⟩
    · exact h.queued.lt q j hj
    · exact h.queued.entry_lt pid c hc
  · intro j v q hv hj
    rw [hview] at hv
    rcases hqueue q j hj with hj | ⟨-, rfl⟩
    · exact h.queued.free j v q hv hj
    · exact (hself v hv).1
  · intro j v q hv hj hs
    rw [hview] at hv
    rcases hqueue q j hj with hj | ⟨rfl, -⟩
    · exact h.queued.asleep j v q hv hj hs
    · exact hs.elim
  · intro j v q hv hj
    rw [hview] at hv
    rcases hqueue q j hj with hj | ⟨-, rfl⟩
    · exact h.queued.calm j v q hv hj
    · exact (hself v hv).2.1
  · intro j hj
    cases hj
  · simpa only [hview] using h.queued.child
  · simpa only [hgoals] using h.queued.fit
  · simpa only [hnext] using hentry

/-- How a round of `waitForInput` ends.  Two time limits at once cancel a goal that is done. -/
inductive Polled (env : BuildEnv) (inp : Input) (pid : Pid) (w : Worker) : Option Stop → Worker → Prop
  | gone (hc : w.children.find? pid = none) : Polled env inp pid w none w
  | dead (c : Child) (hc : w.children.find? pid = some c) (hG : w.goals.find? c.goal = none) :
      Polled env inp pid w (some (.assertion .goalAlive)) w
  | failed {w' : Worker} (c : Child) (fds : List ChildFd) (e : Stop)
      (hc : w.children.find? pid = some c) (hr : Read inp pid c.goal fds w w') (he : e.Plain) :
      Polled env inp pid w (some e) w'
  | read {w' : Worker} (c : Child) (G : Goal) (hc : w.children.find? pid = some c)
      (hG : w.goals.find? c.goal = some G) (hr : Read inp pid c.goal c.fds w w')
      (hlate : silent env inp pid c = false ∧ buildTimeout env inp = false) :
      Polled env inp pid w none w'
  | cancelled {w₁ w' : Worker} (c : Child) (G : Goal) (hc : w.children.find? pid = some c)
      (hG : w.goals.find? c.goal = some G) (hr : Read inp pid c.goal c.fds w w₁)
      (hlate : silent env inp pid c ≠ buildTimeout env inp)
      (hd : Cancelled env.settings.keepGoing c.goal G w₁ w') : Polled env inp pid w none w'
  | refused {w₁ w' : Worker} (c : Child) (G : Goal) (hc : w.children.find? pid = some c)
      (hG : w.goals.find? c.goal = some G) (hr : Read inp pid c.goal c.fds w w₁)
      (hspent : G.exitCode ≠ .ecBusy)
      (hlate : silent env inp pid c = true ∨ buildTimeout env inp = true)
      (hs : Stripped c.goal G w₁ w') : Polled env inp pid w (some (.assertion .exitBusy)) w'
  | twice {w₁ w₂ w' : Worker} (c : Child) (G G₂ : Goal) (hc : w.children.find? pid = some c)
      (hG : w.goals.find? c.goal = some G) (hr : Read inp pid c.goal c.fds w w₁)
      (hlate : silent env inp pid c = true ∧ buildTimeout env inp = true)
      (hd : Cancelled env.settings.keepGoing c.goal G w₁ w₂)
      (hG₂ : w₂.goals.find? c.goal = some G₂) (hs : Stripped c.goal G₂ w₂ w') :
      Polled env inp pid w (some (.assertion .exitBusy)) w'

/-- Polling a child reads from it, ends it, or cancels its goal. -/
theorem pollChild_spec {env : BuildEnv} {inp : Input} {pid : Pid} {w : Worker}
    (h : Between env ∅ w) :
    Prog.Ends (pollChild env inp pid) w (fun _ w' => Polled env inp pid w none w')
      fun e w' => Polled env inp pid w (some e) w' := by
  refine pollChild_ends (fun hc => .gone hc) (fun c hc hG => .dead c hc hG)
    (fun c fds w₁ e hc hr he => .failed c fds e hc hr he) fun c G w₁ hc hG hr => ?_
  have h₁ := h.read hc hr
  have hG₁ : w₁.goals.find? c.goal = some G := by
    rw [hr.rest]
    exact hG
  have hcancel := cancelGoal_spec env.settings.keepGoing h₁.tables hG₁
  unfold cancelLate
  cases hsilent : silent env inp pid c with
  | false =>
    rw [if_neg (by decide)]
    cases hlate : buildTimeout env inp with
    | false => exact Prog.ends_pure (.read c G hc hG hr ⟨hsilent, hlate⟩)
    | true =>
      rw [if_pos rfl]
      refine hcancel.mono (fun _ w' hd => .cancelled c G hc hG hr ?_ hd) fun e w' he => ?_
      · rw [hsilent, hlate]
        decide
      · obtain ⟨hspent, rfl, hs⟩ := he
        exact .refused c G hc hG hr hspent (Or.inr hlate) hs
  | true =>
    rw [if_pos rfl]
    refine hcancel.bind (fun _ w₂ hd => ?_) fun e w' he => ?_
    · cases hlate : buildTimeout env inp with
      | false =>
        refine Prog.ends_pure (.cancelled c G hc hG hr ?_ hd)
        rw [hsilent, hlate]
        decide
      | true =>
        -- the goal is done when it is cancelled again
        rw [if_pos rfl]
        obtain ⟨w₃, G₃, -, hG₃, -, -, hdone⟩ := hd.steps
        obtain ⟨G₂, hG₂, -, hexit, -⟩ := hdone.goal c.goal G₃ hG₃
        rw [if_pos rfl] at hexit
        have hchild : G.pids ≠ [] := List.ne_nil_of_mem (h.tended.mem_pids hc hG hd.busy)
        have h₂ := h₁.cancelled hG₁ hchild hd
        refine (cancelGoal_spec _ h₂.tables hG₂).mono (fun _ w' hd' => ?_) fun e w' he => ?_
        · have hbusy := hd'.busy
          rw [hexit] at hbusy
          cases hbusy
        · obtain ⟨-, rfl, hs⟩ := he
          exact .twice c G G₂ hc hG hr ⟨hsilent, hlate⟩ hd hG₂ hs
    · obtain ⟨hspent, rfl, hs⟩ := he
      exact .refused c G hc hG hr hspent (Or.inl hsilent) hs

/-! ### All steps -/

/-- The goals of the copy of `awake` that are still to be called. -/
def Phase.batch : Phase → SortedSet GoalId
  | .working awake2 => awake2
  | _ => ∅

/-- The loop is not left yet. -/
def Phase.Running : Phase → Prop
  | .returned => False
  | .stopped _ => False
  | _ => True

/-- Where the loop goes on after a round of `waitForInput`. -/
def Phase.afterPoll (inp : Input) (pids : List Pid) : Option Stop → Phase
  | none => .polling inp pids
  | some e => .stopped e

/-- The tables always agree with the goals, and while the loop runs the queues do. -/
structure LoopInv (env : BuildEnv) (r : RunState) : Prop where
  tables : r.worker.Tables env
  between : r.phase.Running → Between env r.phase.batch r.worker

/-- The state in which a goal is called. -/
theorem LoopInv.during {env : BuildEnv} {r : RunState} (h : LoopInv env r) {awake2 : SortedSet GoalId}
    {g : GoalId} {G : Goal} (hp : r.phase = .working awake2) (hg : g ∈ awake2)
    (hG : r.worker.goals.find? g = some G) (hbusy : G.exitCode = .ecBusy) :
    During env (awake2.erase g) g r.worker := by
  have hb := h.between (by rw [hp]; trivial)
  rw [hp] at hb
  exact ⟨hb.tables, hb.queued.call hg (Worker.mem_goals_iff.mpr ⟨G, hG⟩), hb.tended, G, hG, hbusy⟩

/-- What each event does. -/
inductive StepCase (env : BuildEnv) (r : RunState) : Event → RunState → Prop
  | destroy {g : GoalId} {G : Goal} {w' : Worker} (hG : r.worker.goals.find? g = some G)
      (hfree : r.worker.referenced g = false) (hd : Destroyed g G r.worker w') :
      StepCase env r (.destroy g) ⟨w', r.phase⟩
  | other (world : World) : StepCase env r (.other world) ⟨{ r.worker with world }, r.phase⟩
  | takeAwake (hp : r.phase = .ready) (htop : r.worker.topGoals ≠ ∅) :
      StepCase env r .takeAwake ⟨{ r.worker with awake := ∅ }, .working r.worker.awake⟩
  | skip {awake2 : SortedSet GoalId} {g : GoalId} {ans : Answers} (hp : r.phase = .working awake2)
      (hdead : g ∉ r.worker.goals) :
      StepCase env r (.work g ans) ⟨r.worker, .working (awake2.erase g)⟩
  | work {awake2 : SortedSet GoalId} {g : GoalId} {ans : Answers} {G : Goal} {w' : Worker}
      (hp : r.phase = .working awake2) (hg : g ∈ awake2) (hs : r.worker.settled = true)
      (htop : r.worker.topGoals ≠ ∅) (hc : Called env ans g G r.worker w') :
      StepCase env r (.work g ans) ⟨w', .working (awake2.erase g)⟩
  | workThrew {awake2 : SortedSet GoalId} {g : GoalId} {ans : Answers} {G : Goal} {w' : Worker}
      {e : Stop} (hp : r.phase = .working awake2) (hg : g ∈ awake2) (hs : r.worker.settled = true)
      (hG : r.worker.goals.find? g = some G) (hbusy : G.exitCode = .ecBusy) (he : e.Plain)
      (hpreps : ReflTransGen (Prep (G.Fails ans r.worker.world) g) r.worker w') :
      StepCase env r (.work g ans) ⟨w', .stopped e⟩
  | workSpent {awake2 : SortedSet GoalId} {g : GoalId} {ans : Answers} {G : Goal} {msg : Str}
      (hp : r.phase = .working awake2) (hg : g ∈ awake2) (hs : r.worker.settled = true)
      (htop : r.worker.topGoals ≠ ∅) (hG : r.worker.goals.find? g = some G)
      (hspent : G.exitCode ≠ .ecBusy) :
      StepCase env r (.work g ans) ⟨r.worker, .stopped (.error msg)⟩
  | endAwake {awake2 : SortedSet GoalId} (hp : r.phase = .working awake2)
      (hend : awake2 = ∅ ∨ r.worker.topGoals = ∅) : StepCase env r .endAwake ⟨r.worker, .ready⟩
  | waitForInput {inp : Input} {phase : Phase} (hp : r.phase = .ready)
      (hs : r.worker.settled = true) (htop : r.worker.topGoals ≠ ∅) (hawake : r.worker.awake = ∅)
      (hphase : phase = .polling inp r.worker.children.keys ∨ phase = .ready ∨
        ∃ msg, phase = .stopped (.error msg)) :
      StepCase env r (.waitForInput inp) ⟨r.worker.startInput inp, phase⟩
  | poll {inp : Input} {pid : Pid} {pids : List Pid} {o : Option Stop} {w' : Worker}
      (hp : r.phase = .polling inp (pid :: pids)) (hs : r.worker.settled = true)
      (h : Polled env inp pid r.worker o w') :
      StepCase env r .pollChild ⟨w', .afterPoll inp pids o⟩
  | endInput {inp : Input} (hp : r.phase = .polling inp []) :
      StepCase env r .endInput ⟨r.worker.endInput env.settings.pollInterval inp, .ready⟩
  | leave (hp : r.phase = .ready) (hs : r.worker.settled = true)
      (hend : r.worker.topGoals = ∅ ∨ (r.worker.awake = ∅ ∧ r.worker.children = ∅ ∧
        r.worker.waitingForAWhile = ∅)) :
      StepCase env r .leave ⟨r.worker, leaveLoop env r.worker⟩
  | release (hp : ¬ r.phase.Running) :
      StepCase env r .release ⟨{ r.worker with held := ∅, topGoals := ∅ }, r.phase⟩
  | interrupt {msg : Str} : StepCase env r .interrupt ⟨r.worker, .stopped (.error msg)⟩

/-- A computation of the worker ends in the next phase or in a stop. -/
theorem exec_eq {w : Worker} {m : WorkerM Unit} (next : Phase) {Q : Worker → Prop}
    {E : Stop → Worker → Prop} (h : Prog.Ends m w (fun _ => Q) E) :
    (∃ w', RunState.exec w m next = ⟨w', next⟩ ∧ Q w') ∨
      ∃ e w', RunState.exec w m next = ⟨w', .stopped e⟩ ∧ E e w' := by
  unfold RunState.exec
  unfold Prog.Ends at h
  rcases hm : m w with ⟨e | u, w'⟩
  · rw [hm] at h
    exact Or.inr ⟨e, w', rfl, h⟩
  · rw [hm] at h
    exact Or.inl ⟨w', rfl, h⟩

/-- Every step from a state that satisfies the invariant is one of these. -/
theorem step_cases {env : BuildEnv} {r r' : RunState} {e : Event} (h : LoopInv env r)
    (hs : step env r e = some r') : StepCase env r e r' := by
  obtain ⟨w, phase⟩ := r
  have htables := h.tables
  have hbetween := h.between
  dsimp only at htables hbetween
  unfold step at hs
  dsimp only at hs
  split at hs
  next g =>
    split_ifs at hs with hg
    obtain ⟨G, hG⟩ := Worker.mem_goals_iff.mp hg.1
    have hspec : Prog.Ends (destroyGoal g) w (fun _ w' => Destroyed g G w w') fun _ _ => False := by
      unfold destroyGoal
      refine Prog.ends_get_bind ?_
      rw [hG]
      exact destroy_spec hG fun pid hpid => htables.kids.hasChild hG (Goal.ownPid_mem_pids hpid)
    rcases exec_eq phase hspec with ⟨w', heq, hd⟩ | ⟨_, _, _, hf⟩
    · rw [heq] at hs
      cases hs
      exact .destroy hG hg.2 hd
    · exact hf.elim
  next world =>
    cases hs
    exact .other world
  next e hdestroy hother =>
    by_cases hsettled : w.settled = true
    · rw [if_pos hsettled] at hs
      split at hs
      next =>
        split_ifs at hs with hg
        cases hs
        exact .takeAwake rfl hg.2
      next awake2 g ans =>
        split_ifs at hs with hg
        rcases exec_eq _ (workGoal_spec (hbetween trivial) hg.1 hg.2.2) with
          ⟨w', heq, ⟨hdead, rfl⟩ | ⟨G, hc⟩⟩ | ⟨e, w', heq, G, hG, hcase⟩
        · rw [heq] at hs
          cases hs
          exact .skip rfl hdead
        · rw [heq] at hs
          cases hs
          exact .work rfl hg.1 hsettled hg.2.1 hc
        · rw [heq] at hs
          cases hs
          rcases hcase with ⟨hspent, rfl, msg, rfl⟩ | ⟨hbusy, he, hpreps⟩
          · exact .workSpent rfl hg.1 hsettled hg.2.1 hG hspent
          · exact .workThrew rfl hg.1 hsettled hG hbusy he hpreps
      next awake2 =>
        split_ifs at hs with hend
        cases hs
        exact .endAwake rfl hend
      next inp =>
        split_ifs at hs with hg
        split at hs
        · cases hs
          exact .waitForInput rfl hsettled hg.2.1 hg.1 (Or.inl rfl)
        · cases hs
          exact .waitForInput rfl hsettled hg.2.1 hg.1 (Or.inr (Or.inl rfl))
        · cases hs
          exact .waitForInput rfl hsettled hg.2.1 hg.1 (Or.inr (Or.inr ⟨_, rfl⟩))
      next inp pid pids =>
        rcases exec_eq _ (pollChild_spec (hbetween trivial)) with ⟨w', heq, hd⟩ | ⟨e, w', heq, hd⟩
        · rw [heq] at hs
          cases hs
          exact StepCase.poll (r := ⟨w, .polling inp (pid :: pids)⟩) (o := none) rfl hsettled hd
        · rw [heq] at hs
          cases hs
          exact StepCase.poll (r := ⟨w, .polling inp (pid :: pids)⟩) (o := some e) rfl hsettled hd
      next inp =>
        cases hs
        exact .endInput rfl
      next =>
        split_ifs at hs with hend
        cases hs
        exact .leave rfl hsettled hend
      next =>
        cases hs
        exact .release id
      next reason =>
        cases hs
        exact .release id
      next => cases hs
      next => cases hs
      next =>
        cases hs
        exact .interrupt
      next => cases hs
    · rw [if_neg hsettled] at hs
      cases hs

/-- The awake goals become the batch. -/
theorem Between.takeAwake {env : BuildEnv} {w : Worker} (h : Between env ∅ w) :
    Between env w.awake { w with awake := ∅ } := by
  refine ⟨h.tables.congr rfl rfl rfl rfl rfl rfl rfl, ?_, h.tended⟩
  -- the goals of `awake` are in the copy now
  have hqueue : ∀ q j, j ∈ Worker.queue { w with awake := ∅ } w.awake q →
      j ∈ w.queue ∅ (if q = .batch then .awake else q) ∧ q ≠ .awake := by
    intro q j hj
    cases q with
    | awake => exact absurd hj (SortedMap.notMem_empty j)
    | batch => exact ⟨hj, by decide⟩
    | wantingToBuild => exact ⟨hj, by decide⟩
    | waitingForAnyGoal => exact ⟨hj, by decide⟩
    | waitingForAWhile => exact ⟨hj, by decide⟩
  refine h.queued.moved (fun q j hj => ⟨_, (hqueue q j hj).1, fun hs => ?_⟩) (fun j hj q q' hq hq' => ?_)
    rfl (fun k v hv _ => ⟨v, hv, .refl v⟩) h.queued.fit h.queued.entry_lt
  · rw [if_neg]
    intro hb
    rw [hb] at hs
    exact hs
  · obtain ⟨hq, hne⟩ := hqueue q j hq
    obtain ⟨hq', hne'⟩ := hqueue q' j hq'
    have heq := h.queued.once j hj _ _ hq hq'
    split_ifs at heq with hb hb' hb'
    · rw [hb, hb']
    · exact absurd heq.symm hne'
    · exact absurd heq hne
    · exact heq

/-- A smaller batch is a batch. -/
theorem Between.shrink {env : BuildEnv} {w : Worker} {batch batch' : SortedSet GoalId}
    (h : Between env batch w) (hsub : ∀ j ∈ batch', j ∈ batch) : Between env batch' w := by
  have hqueue : ∀ q j, j ∈ w.queue batch' q → j ∈ w.queue batch q := by
    intro q j hj
    cases q with
    | batch => exact hsub j hj
    | _ => exact hj
  refine ⟨h.tables, h.queued.moved (fun q j hj => ⟨q, hqueue q j hj, fun _ => rfl⟩)
    (fun j hj q q' hq hq' => h.queued.once j hj q q' (hqueue q j hq) (hqueue q' j hq')) rfl
    (fun k v hv _ => ⟨v, hv, .refl v⟩) h.queued.fit h.queued.entry_lt, h.tended⟩

/-- A change of fields that the invariant does not depend on. -/
theorem Between.congr {env : BuildEnv} {w w' : Worker} {batch : SortedSet GoalId}
    (h : Between env batch w) (hgoals : w'.goals = w.goals) (hnext : w'.nextGoal = w.nextGoal)
    (hd : w'.derivationGoals = w.derivationGoals) (hs : w'.substitutionGoals = w.substitutionGoals)
    (hchildren : w'.children = w.children) (hnr : w'.nrLocalBuilds = w.nrLocalBuilds)
    (hhook : w'.hook = w.hook) (hqueue : ∀ q, w'.queue batch q = w.queue batch q) :
    Between env batch w' := by
  have hview : ∀ k, w'.view k = w.view k := fun k => by rw [Worker.view, Worker.view, hgoals]
  refine ⟨h.tables.congr hgoals hnext hd hs hchildren hnr hhook,
    h.queued.unharmed hqueue hnext (fun k v hv _ => ⟨v, hview k ▸ hv, .refl v⟩)
      (fun k hk => hgoals ▸ hk) ?_ ?_, h.tended.congr hview hchildren⟩
  · rw [hgoals]
    exact h.queued.fit
  · rw [hchildren]
    exact h.queued.entry_lt

/-- The end of the input keeps the worker between turns. -/
theorem Between.endInput {env : BuildEnv} {w : Worker} (h : Between env ∅ w) (pollInterval : ℤ)
    (inp : Input) : Between env ∅ (w.endInput pollInterval inp) := by
  unfold Worker.endInput
  split_ifs
  · refine ⟨h.tables.congr rfl rfl rfl rfl rfl rfl rfl, ?_, h.tended⟩
    have hwoken : Worker.Woken .waitingForAWhile w { w.wakeUpAll w.waitingForAWhile with
        lastWokenUp := inp.after, waitingForAWhile := ∅ } := by
      refine ⟨fun j => Worker.mem_awake_wakeUpAll, rfl, fun q hqa hq => ?_⟩
      cases q with
      | awake => exact absurd rfl hqa
      | waitingForAWhile => exact absurd rfl hq
      | _ => rfl
    exact h.queued.woken hwoken trivial rfl (fun k v hv _ => ⟨v, hv, .refl v⟩) (fun _ => id)
      h.queued.fit h.queued.entry_lt
  · exact h

/-- Polling keeps the tables, and without a stop the worker is between turns. -/
theorem Between.polled {env : BuildEnv} {inp : Input} {pid : Pid} {w w' : Worker} {o : Option Stop}
    (h : Between env ∅ w) (hp : Polled env inp pid w o w') :
    w'.Tables env ∧ (o = none → Between env ∅ w') := by
  cases hp with
  | gone hc => exact ⟨h.tables, fun _ => h⟩
  | dead c hc hG => exact ⟨h.tables, fun ho => by cases ho⟩
  | failed c fds e hc hr he => exact ⟨h.tables.read hr, fun ho => by cases ho⟩
  | read c G hc hG hr hlate => exact ⟨(h.read hc hr).tables, fun _ => h.read hc hr⟩
  | @cancelled w₁ _ c G hc hG hr hlate hd =>
    have hG₁ : w₁.goals.find? c.goal = some G := by
      rw [hr.rest]
      exact hG
    have hchild : G.pids ≠ [] := List.ne_nil_of_mem (h.tended.mem_pids hc hG hd.busy)
    have h' := (h.read hc hr).cancelled hG₁ hchild hd
    exact ⟨h'.tables, fun _ => h'⟩
  | @refused w₁ _ c G hc hG hr hspent hlate hs =>
    have hG₁ : w₁.goals.find? c.goal = some G := by
      rw [hr.rest]
      exact hG
    exact ⟨(h.tables.read hr).stripped hG₁ hs, fun ho => by cases ho⟩
  | @twice w₁ w₂ _ c G G₂ hc hG hr hlate hd hG₂ hs =>
    have hG₁ : w₁.goals.find? c.goal = some G := by
      rw [hr.rest]
      exact hG
    have hchild : G.pids ≠ [] := List.ne_nil_of_mem (h.tended.mem_pids hc hG hd.busy)
    exact ⟨((h.read hc hr).cancelled hG₁ hchild hd).tables.stripped hG₂ hs, fun ho => by cases ho⟩

/-- Every step keeps the invariant of the loop. -/
theorem LoopInv.step {env : BuildEnv} {r r' : RunState} {e : Event} (h : LoopInv env r)
    (hs : step env r e = some r') : LoopInv env r' := by
  have hcase := step_cases h hs
  cases hcase with
  | destroy hG hfree hd =>
    exact ⟨h.tables.destroyed hG hd hfree, fun hrun => (h.between hrun).destroyed hG hfree hd⟩
  | other world =>
    exact ⟨h.tables.congr rfl rfl rfl rfl rfl rfl rfl, fun hrun =>
      (h.between hrun).congr rfl rfl rfl rfl rfl rfl rfl fun q => by cases q <;> rfl⟩
  | takeAwake hp htop =>
    have hb := h.between (by rw [hp]; trivial)
    rw [hp] at hb
    exact ⟨hb.takeAwake.tables, fun _ => hb.takeAwake⟩
  | skip hp hdead =>
    have hb := h.between (by rw [hp]; trivial)
    rw [hp] at hb
    exact ⟨h.tables, fun _ => hb.shrink fun j hj => (SortedSet.mem_erase.mp hj).2⟩
  | work hp hg hset htop hc =>
    have hb := h.between (by rw [hp]; trivial)
    rw [hp] at hb
    exact ⟨(hb.called hg hc).tables, fun _ => hb.called hg hc⟩
  | @workThrew awake2 g ans G w' e hp hg hset hG hbusy he hpreps =>
    have hduring := h.during hp hg hG hbusy
    exact ⟨(hduring.preps hpreps).tables, fun hrun => hrun.elim⟩
  | workSpent hp hg hset htop hG hspent => exact ⟨h.tables, fun hrun => hrun.elim⟩
  | endAwake hp hend =>
    have hb := h.between (by rw [hp]; trivial)
    exact ⟨h.tables, fun _ => hb.shrink fun j hj => absurd hj (SortedMap.notMem_empty j)⟩
  | @waitForInput inp phase hp hset htop hawake hphase =>
    have hb := h.between (by rw [hp]; trivial)
    rw [hp] at hb
    have hb' : Between env ∅ (r.worker.startInput inp) :=
      hb.congr rfl rfl rfl rfl rfl rfl rfl fun q => by cases q <;> rfl
    refine ⟨hb'.tables, fun hrun => ?_⟩
    rcases hphase with rfl | rfl | ⟨msg, rfl⟩
    · exact hb'
    · exact hb'
    · exact hrun.elim
  | @poll inp pid pids o w' hp hset hpoll =>
    have hb := h.between (by rw [hp]; trivial)
    rw [hp] at hb
    obtain ⟨htables, hbetween⟩ := hb.polled hpoll
    refine ⟨htables, fun hrun => ?_⟩
    cases o with
    | none => exact hbetween rfl
    | some e => exact hrun.elim
  | endInput hp =>
    have hb := h.between (by rw [hp]; trivial)
    rw [hp] at hb
    exact ⟨(hb.endInput _ _).tables, fun _ => hb.endInput _ _⟩
  | leave hp hset hend =>
    refine ⟨h.tables, fun hrun => ?_⟩
    simp only [leaveLoop] at hrun
    split_ifs at hrun <;> exact hrun.elim
  | release hp =>
    exact ⟨h.tables.congr rfl rfl rfl rfl rfl rfl rfl, fun hrun => absurd hrun hp⟩
  | interrupt => exact ⟨h.tables, fun hrun => hrun.elim⟩

/-! ### The start -/

/-- A new worker is between turns. -/
theorem Between.new (env : BuildEnv) (world : World) : Between env ∅ (.new world) := by
  have hnode : ∀ k, (Worker.new world).node k = none := fun _ => rfl
  have hview : ∀ k, (Worker.new world).view k = none := fun _ => rfl
  have hprocs : ∀ k, (Worker.new world).procs k = none := fun _ => rfl
  have hfor : ∀ k, (Worker.new world).goalFor k = none := by
    intro k
    cases k <;> rfl
  have hqueue : ∀ q j, j ∉ (Worker.new world).queue ∅ q := by
    intro q j
    cases q <;> exact SortedMap.notMem_empty j
  have hchild : ∀ p, (Worker.new world).children.find? p = none := fun _ => rfl
  refine ⟨⟨⟨?_, ?_, ?_, ?_, ?_, ?_, ?_⟩, ⟨?_, ?_, ?_, ?_, rfl⟩, Nat.zero_le _⟩,
    ⟨?_, ?_, ?_, ?_, ?_, ?_, ?_, ?_, ?_⟩, ?_⟩
  · exact Worker.linked_iff.mpr ⟨fun g n h m hn => by simp [hnode] at hn,
      fun g n hn => by simp [hnode] at hn⟩
  · exact fun k n hn => by simp [hnode] at hn
  · exact fun k n hn => by simp [hnode] at hn
  · exact fun k i hi => by simp [hfor] at hi
  · exact fun k i n hi => by simp [hfor] at hi
  · exact fun k n hn => by simp [hnode] at hn
  · exact fun k n hn => by simp [hnode] at hn
  · exact fun k q hq => by simp [hprocs] at hq
  · exact fun k q hq => by simp [hprocs] at hq
  · exact fun p c hc => by simp [hchild] at hc
  · exact fun p hp => by cases hp
  · exact fun j _ q q' hq => absurd hq (hqueue q j)
  · exact fun q j hj => absurd hj (hqueue q j)
  · exact fun j v q hv => by simp [hview] at hv
  · exact fun j v q hv => by simp [hview] at hv
  · exact fun j v q hv => by simp [hview] at hv
  · exact fun j hj => by cases hj
  · exact fun j v _ hv => by simp [hview] at hv
  · exact fun j H _ hH => by cases hH
  · exact fun p c hc => by simp [hchild] at hc
  · exact fun p c v hc => by simp [hchild] at hc

/-- A goal may be created between two turns. -/
theorem Between.created {env : BuildEnv} {batch : SortedSet GoalId} {w w' : Worker} {k : GoalKey}
    {N : Goal} (h : Between env batch w) (hc : Created k N w w') : Between env batch w' := by
  refine ⟨⟨h.tables.sound.created hc, h.tables.kids.created h.tables.sound hc, ?_⟩,
    h.queued.created hc (by simp), fun p c v hp hv => ?_⟩
  · rw [hc.rest]
    exact h.tables.limit
  · have hchildren : w'.children = w.children := by rw [hc.rest]
    rw [hchildren] at hp
    rw [Worker.view_created hc, if_neg (h.queued.entry_lt p c hp).ne] at hv
    exact h.tended p c v hp hv

/-- More outputs may be asked for between two turns. -/
theorem Between.want {env : BuildEnv} {batch : SortedSet GoalId} {w : Worker} (h : Between env batch w)
    (i : GoalId) (outputs : SortedSet Str) :
    Between env batch (w.updateGoal i (Goal.mapDerivation fun d => d.addWantedOutputs outputs)) := by
  -- the goal that is not looked at is one that is not there
  have ha : Alike w.nextGoal w
    (w.updateGoal i (Goal.mapDerivation fun d => d.addWantedOutputs outputs)) := alike_want
  refine ⟨⟨h.tables.sound.alike ha, h.tables.kids.alike ha, h.tables.limit⟩,
    h.queued.unharmed (fun q => by cases q <;> rfl) rfl
      (fun k v hv _ => ⟨v, ha.view k ▸ hv, .refl v⟩) (fun k hk => ?_) (fun k K' hk hK' hbusy => ?_)
      h.queued.entry_lt, h.tended.congr ha.view rfl⟩
  · rw [Worker.mem_goals_iff_view] at hk ⊢
    rwa [ha.view] at hk
  · have hv := Worker.view_of_find hK'
    rw [ha.view] at hv
    obtain ⟨K, hK, hKv⟩ := Worker.view_eq_some.mp hv
    have hexit : K.exitCode = .ecBusy := (congrArg (·.exitCode) hKv).trans hbusy
    have hne : k ≠ w.nextGoal := (h.tables.sound.lt k _ (Worker.node_of_find hK)).ne
    exact (ha.kind k K K' hne hK hK').fit (h.queued.fit k K hk hK hexit)

/-- How a top-level goal is made: it is a new one, or more is asked of the one that is there. -/
theorem makeGoal_cases (w : Worker) (repair : Bool) (request : Request) :
    (∃ k N, (w.makeGoal repair request).1 = w.nextGoal ∧ Created k N w (w.makeGoal repair request).2) ∨
      (w.Listed (w.makeGoal repair request).1 ∧ ((w.makeGoal repair request).2 = w ∨
        ∃ outputs, (w.makeGoal repair request).2 = w.updateGoal (w.makeGoal repair request).1
          (Goal.mapDerivation fun d => d.addWantedOutputs outputs))) := by
  cases request with
  | derivation drvPath wantedOutputs =>
    unfold Worker.makeGoal Worker.makeDerivationGoal
    dsimp only
    cases hfind : (w.derivationGoals.find? drvPath).bind w.lock with
    | none => exact Or.inl ⟨_, _, rfl, created_derivation drvPath wantedOutputs repair hfind⟩
    | some i =>
      obtain ⟨j, hj, hji⟩ := Option.bind_eq_some_iff.mp hfind
      obtain ⟨rfl, hlive⟩ := lock_eq_some_iff.mp hji
      exact Or.inr ⟨⟨hlive, drvPath, Or.inl hj⟩, Or.inr ⟨wantedOutputs, rfl⟩⟩
  | path storePath =>
    unfold Worker.makeGoal Worker.makeSubstitutionGoal
    dsimp only
    cases hfind : (w.substitutionGoals.find? storePath).bind w.lock with
    | none => exact Or.inl ⟨_, _, rfl, created_substitution storePath repair hfind⟩
    | some i =>
      obtain ⟨j, hj, hji⟩ := Option.bind_eq_some_iff.mp hfind
      obtain ⟨rfl, hlive⟩ := lock_eq_some_iff.mp hji
      exact Or.inr ⟨⟨hlive, storePath, Or.inr hj⟩, Or.inl rfl⟩

/-- A request may be taken between two turns. -/
theorem Between.holdGoal {env : BuildEnv} {w : Worker} (h : Between env ∅ w) (repair : Bool)
    (request : Request) : Between env ∅ (w.holdGoal repair request) := by
  have hmake : Between env ∅ (w.makeGoal repair request).2 := by
    rcases makeGoal_cases w repair request with ⟨k, N, -, hc⟩ | ⟨-, heq | ⟨outputs, heq⟩⟩
    · exact h.created hc
    · rw [heq]
      exact h
    · rw [heq]
      exact h.want _ outputs
  exact hmake.congr rfl rfl rfl rfl rfl rfl rfl fun q => by cases q <;> rfl

/-- The invariant of the loop holds at the start. -/
theorem loopInv_startRun (env : BuildEnv) (world : World) (requests : List Request) (repair : Bool) :
    LoopInv env (startRun world requests repair) := by
  have hfold : ∀ (l : List Request) (w : Worker), Between env ∅ w →
      Between env ∅ (l.foldl (Worker.holdGoal repair) w) := by
    intro l
    induction l with
    | nil => exact fun w h => h
    | cons request l ih => exact fun w h => ih _ (h.holdGoal repair request)
  have hb : Between env ∅ (startRun world requests repair).worker :=
    (hfold requests _ (.new env world)).congr rfl rfl rfl rfl rfl rfl rfl fun q => by cases q <;> rfl
  exact ⟨hb.tables, fun _ => hb⟩

/-- An invariant of the steps that satisfy a condition holds in every state of a run. -/
theorem Runs.invariant {env : BuildEnv} {cond : RunState → Event → RunState → Prop}
    {I : RunState → Prop} {r r' : RunState} (hr : Runs env cond r r') (hinv : LoopInv env r) (hI : I r)
    (hstep : ∀ r e r', LoopInv env r → I r → StepCase env r e r' → cond r e r' → LoopInv env r' →
      I r') : LoopInv env r' ∧ I r' := by
  induction hr with
  | refl => exact ⟨hinv, hI⟩
  | tail _ hs ih =>
    obtain ⟨e, hs, hc⟩ := hs
    have hinv' := ih.1.step hs
    exact ⟨hinv', hstep _ e _ ih.1 ih.2 (step_cases ih.1 hs) hc hinv'⟩

/-- The invariant of the loop holds throughout a run. -/
theorem loopInv_of_runs {env : BuildEnv} {cond : RunState → Event → RunState → Prop} {world : World}
    {requests : List Request} {repair : Bool} {r : RunState}
    (hr : Runs env cond (startRun world requests repair) r) : LoopInv env r :=
  (hr.invariant (I := fun _ => True) (loopInv_startRun env world requests repair) trivial
    fun _ _ _ _ _ _ _ _ => trivial).1

end Nix
