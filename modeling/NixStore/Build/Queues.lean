import NixStore.Build.Bookkeeping

/-!
# The queues of the worker

A goal that is not destroyed is in at most one of the sets `awake`, `wantingToBuild`,
`waitingForAnyGoal`, `waitingForAWhile` and the copy of `awake` that the loop goes through, and only
if it waits for no other goal (`Queued`).  While the loop runs this holds in every state.
-/

namespace Nix

open Relation

/-! ### The invariant -/

/-- The sets of goals of a worker, with the copy of `awake` in `run`. -/
inductive Queue where
  | awake
  | batch
  | wantingToBuild
  | waitingForAnyGoal
  | waitingForAWhile
deriving DecidableEq

/-- The goals in the queue are not called before something happens. -/
def Queue.Sleeps : Queue → Prop
  | .awake => False
  | .batch => False
  | _ => True

namespace Worker

/-- The goals in a queue. -/
def queue (w : Worker) (batch : SortedSet GoalId) : Queue → SortedSet GoalId
  | .awake => w.awake
  | .batch => batch
  | .wantingToBuild => w.wantingToBuild
  | .waitingForAnyGoal => w.waitingForAnyGoal
  | .waitingForAWhile => w.waitingForAWhile

/-- The queues agree with the goals; the goal `x`, if any, is just being called. -/
structure Queued (w : Worker) (batch : SortedSet GoalId) (x : Option GoalId) : Prop where
  once : ∀ h ∈ w.goals, ∀ q q', h ∈ w.queue batch q → h ∈ w.queue batch q' → q = q'
  lt : ∀ q, ∀ h ∈ w.queue batch q, h < w.nextGoal
  free : ∀ h v q, w.view h = some v → h ∈ w.queue batch q → v.waitees = ∅
  asleep : ∀ h v q, w.view h = some v → h ∈ w.queue batch q → q.Sleeps →
    v.exitCode = .ecBusy ∧ v.pids = []
  calm : ∀ h v q, w.view h = some v → h ∈ w.queue batch q → v.calm = true
  called : ∀ h, x = some h → ∀ q, h ∉ w.queue batch q
  child : ∀ h v, x ≠ some h → w.view h = some v → v.pids ≠ [] → v.waitees = ∅
  fit : ∀ h H, x ≠ some h → w.goals.find? h = some H → H.exitCode = .ecBusy → H.Fit
  entry_lt : ∀ p c, w.children.find? p = some c → c.goal < w.nextGoal

/-- A goal of the copy of `awake` is taken out of it to be called. -/
theorem Queued.call {w : Worker} {batch : SortedSet GoalId} (h : w.Queued batch none) {g : GoalId}
    (hg : g ∈ batch) (hlive : g ∈ w.goals) : w.Queued (batch.erase g) (some g) := by
  have hsub : ∀ q j, j ∈ w.queue (batch.erase g) q → j ∈ w.queue batch q := by
    intro q j hj
    cases q with
    | batch => exact (SortedSet.mem_erase.mp hj).2
    | _ => exact hj
  refine ⟨fun j hj q q' hq hq' => h.once j hj q q' (hsub q j hq) (hsub q' j hq'),
    fun q j hj => h.lt q j (hsub q j hj), fun j v q hv hj => h.free j v q hv (hsub q j hj),
    fun j v q hv hj => h.asleep j v q hv (hsub q j hj), fun j v q hv hj => h.calm j v q hv (hsub q j hj),
    fun j hj q hq => ?_, fun j v _ => h.child j v (by simp), fun j H _ => h.fit j H (by simp),
    h.entry_lt⟩
  cases hj
  have hqb := h.once g hlive q .batch (hsub q g hq) hg
  subst hqb
  exact (SortedSet.mem_erase.mp hq).1 rfl

/-- The view `v'` differs from `v` at most in that there are no processes any more. -/
structure Unharmed (v v' : GoalView) : Prop where
  waitees : v'.waitees = v.waitees
  exitCode : v'.exitCode = v.exitCode
  pids : v'.pids = v.pids ∨ v'.pids = []
  calm : v'.calm = v.calm

/-- A view is not harmed by nothing. -/
theorem Unharmed.refl (v : GoalView) : Unharmed v v := ⟨rfl, rfl, Or.inl rfl, rfl⟩

/-- Goals that are in a queue move to other queues or lose their processes, and no goal is put to
sleep. -/
theorem Queued.moved {w w' : Worker} {batch batch' : SortedSet GoalId} {x : Option GoalId}
    (h : w.Queued batch x)
    (hold : ∀ q j, j ∈ w'.queue batch' q → ∃ q', j ∈ w.queue batch q' ∧ (q.Sleeps → q' = q))
    (honce : ∀ j ∈ w'.goals, ∀ q q', j ∈ w'.queue batch' q → j ∈ w'.queue batch' q' → q = q')
    (hnext : w'.nextGoal = w.nextGoal)
    (hview : ∀ k v', w'.view k = some v' → x ≠ some k → ∃ v, w.view k = some v ∧ Unharmed v v')
    (hfit : ∀ k K', x ≠ some k → w'.goals.find? k = some K' → K'.exitCode = .ecBusy → K'.Fit)
    (hentry : ∀ p c, w'.children.find? p = some c → c.goal < w.nextGoal) : w'.Queued batch' x := by
  have hcalled : ∀ q j, j ∈ w'.queue batch' q → x ≠ some j := by
    intro q j hj hx
    obtain ⟨q', hq', -⟩ := hold q j hj
    exact h.called j hx q' hq'
  constructor
  · exact honce
  · intro q j hj
    obtain ⟨q', hq', -⟩ := hold q j hj
    exact hnext ▸ h.lt q' j hq'
  · intro j v' q hv' hj
    obtain ⟨q', hq', -⟩ := hold q j hj
    obtain ⟨v, hv, hsame⟩ := hview j v' hv' (hcalled q j hj)
    rw [hsame.waitees]
    exact h.free j v q' hv hq'
  · intro j v' q hv' hj hs
    obtain ⟨q', hq', hqq⟩ := hold q j hj
    obtain ⟨v, hv, hsame⟩ := hview j v' hv' (hcalled q j hj)
    rw [hqq hs] at hq'
    obtain ⟨hbusy, hpids⟩ := h.asleep j v q hv hq' hs
    refine ⟨hsame.exitCode.trans hbusy, ?_⟩
    rcases hsame.pids with hsame | hsame
    · exact hsame.trans hpids
    · exact hsame
  · intro j v' q hv' hj
    obtain ⟨q', hq', -⟩ := hold q j hj
    obtain ⟨v, hv, hsame⟩ := hview j v' hv' (hcalled q j hj)
    rw [hsame.calm]
    exact h.calm j v q' hv hq'
  · intro j hj q hq
    exact hcalled q j hq hj
  · intro j v' hj hv' hne
    obtain ⟨v, hv, hsame⟩ := hview j v' hv' hj
    rw [hsame.waitees]
    refine h.child j v hj hv ?_
    rw [← hsame.pids.resolve_right hne]
    exact hne
  · exact hfit
  · intro p c hp
    rw [hnext]
    exact hentry p c hp

/-- The same when the queues do not change. -/
theorem Queued.unharmed {w w' : Worker} {batch : SortedSet GoalId} {x : Option GoalId}
    (h : w.Queued batch x) (hqueue : ∀ q, w'.queue batch q = w.queue batch q)
    (hnext : w'.nextGoal = w.nextGoal)
    (hview : ∀ k v', w'.view k = some v' → x ≠ some k → ∃ v, w.view k = some v ∧ Unharmed v v')
    (hlive : ∀ k, k ∈ w'.goals → k ∈ w.goals)
    (hfit : ∀ k K', x ≠ some k → w'.goals.find? k = some K' → K'.exitCode = .ecBusy → K'.Fit)
    (hentry : ∀ p c, w'.children.find? p = some c → c.goal < w.nextGoal) : w'.Queued batch x := by
  refine h.moved (fun q j hj => ⟨q, hqueue q ▸ hj, fun _ => rfl⟩) (fun j hj q q' hq hq' => ?_) hnext
    hview hfit hentry
  rw [hqueue] at hq hq'
  exact h.once j (hlive j hj) q q' hq hq'

end Worker

/-- A busy goal is calm. -/
theorem Goal.view_calm_of_busy {G : Goal} (h : G.exitCode = .ecBusy) : G.view.calm = true := by
  simp only [Goal.view, h, decide_true, Bool.true_or]

/-- A goal that builds the same is fit when the other is. -/
theorem GoalKind.SameBuild.fit {G G' : Goal} (h : G.kind.SameBuild G'.kind) (hfit : G.Fit) :
    G'.Fit := by
  obtain ⟨_, _, _, _, _, k⟩ := G
  obtain ⟨_, _, _, _, _, k'⟩ := G'
  dsimp only at h
  cases k with
  | substitution s =>
    cases h.eq_substitution
    exact hfit
  | derivation d =>
    cases k' with
    | substitution s => cases h
    | derivation d' =>
      change _ = d at h
      rw [← h] at hfit
      exact hfit

namespace Worker

/-- A worker that looks alike has the same queues, except for the goal at work. -/
theorem Queued.alike {w w' : Worker} {batch : SortedSet GoalId} {g : GoalId}
    (h : w.Queued batch (some g)) (ha : Alike g w w') : w'.Queued batch (some g) := by
  have hchildren : w'.children = w.children := by rw [ha.rest]
  refine h.unharmed (fun q => ?_) ?_ (fun k v' hv' _ => ?_) (fun k hk => ?_)
    (fun k K' hk hK' hbusy => ?_) fun p c hp => h.entry_lt p c (hchildren ▸ hp)
  · rw [ha.rest]
    cases q <;> rfl
  · rw [ha.rest]
  · exact ⟨v', ha.view k ▸ hv', .refl v'⟩
  · rw [mem_goals_iff_view] at hk ⊢
    rwa [ha.view] at hk
  · have hv := view_of_find hK'
    rw [ha.view] at hv
    obtain ⟨K, hK, hKv⟩ := view_eq_some.mp hv
    have hexit : K.exitCode = .ecBusy := (congrArg (·.exitCode) hKv).trans hbusy
    exact (ha.kind k K K' (fun hkg => hk (congrArg some hkg.symm)) hK hK').fit (h.fit k K hk hK hexit)

/-- The new goal has its view, the others keep theirs. -/
theorem view_created {w w' : Worker} {k : GoalKey} {N : Goal} (hc : Created k N w w') (j : GoalId) :
    w'.view j = if j = w.nextGoal then some N.view else w.view j := by
  have hgoals : w'.goals = w.goals.insert w.nextGoal N := by rw [hc.rest]
  simp only [view, hgoals, SortedMap.find?_insert]
  split_ifs <;> rfl

/-- A new goal is queued where it belongs. -/
theorem Queued.created {w w' : Worker} {batch : SortedSet GoalId} {x : Option GoalId} {k : GoalKey}
    {N : Goal} (h : w.Queued batch x) (hc : Created k N w w')
    (hx : x ≠ some w.nextGoal) : w'.Queued batch x := by
  have hnext : w'.nextGoal = w.nextGoal + 1 := by rw [hc.rest]
  have hchildren : w'.children = w.children := by rw [hc.rest]
  have hqueue : ∀ q j, j ∈ w'.queue batch q ↔
      j ∈ w.queue batch q ∨ (q = .awake ∧ j = w.nextGoal) := by
    intro q j
    rw [hc.rest]
    cases q with
    | awake => exact SortedSet.mem_insert.trans (by simp [queue, or_comm])
    | _ => simp [queue]
  -- a goal that was in a queue before is an old one
  have hold : ∀ q j, j ∈ w'.queue batch q → j ≠ w.nextGoal → j ∈ w.queue batch q := by
    intro q j hj hne
    exact ((hqueue q j).mp hj).resolve_right fun hn => hne hn.2
  have hnew : ∀ q, w.nextGoal ∈ w'.queue batch q → q = .awake := by
    intro q hj
    rcases (hqueue q _).mp hj with hj | hj
    · exact absurd (h.lt q _ hj) (lt_irrefl _)
    · exact hj.1
  have hview : ∀ j v, w'.view j = some v → (j = w.nextGoal ∧ v = N.view) ∨
      (j ≠ w.nextGoal ∧ w.view j = some v) := by
    intro j v hv
    rw [view_created hc] at hv
    split_ifs at hv with hj
    · exact Or.inl ⟨hj, (Option.some.inj hv).symm⟩
    · exact Or.inr ⟨hj, hv⟩
  constructor
  · intro j hj q q' hq hq'
    by_cases hjn : j = w.nextGoal
    · subst hjn
      rw [hnew q hq, hnew q' hq']
    · refine h.once j ?_ q q' (hold q j hq hjn) (hold q' j hq' hjn)
      obtain ⟨v, hv⟩ := mem_goals_iff_view.mp hj
      rcases hview j v hv with ⟨hjn', -⟩ | ⟨-, hv⟩
      · exact absurd hjn' hjn
      · exact mem_goals_iff_view.mpr ⟨v, hv⟩
  · intro q j hj
    rw [hnext]
    by_cases hjn : j = w.nextGoal
    · rw [hjn]
      exact Nat.lt_succ_self _
    · exact Nat.lt_succ_of_lt (h.lt q j (hold q j hj hjn))
  · intro j v q hv hj
    rcases hview j v hv with ⟨-, rfl⟩ | ⟨hjn, hv⟩
    · exact hc.waitees
    · exact h.free j v q hv (hold q j hj hjn)
  · intro j v q hv hj hs
    rcases hview j v hv with ⟨rfl, rfl⟩ | ⟨hjn, hv⟩
    · rw [hnew q hj] at hs
      exact hs.elim
    · exact h.asleep j v q hv (hold q j hj hjn) hs
  · intro j v q hv hj
    rcases hview j v hv with ⟨-, rfl⟩ | ⟨hjn, hv⟩
    · exact Goal.view_calm_of_busy hc.exitCode
    · exact h.calm j v q hv (hold q j hj hjn)
  · intro j hj q hq
    refine h.called j hj q (hold q j hq fun hjn => hx ?_)
    rw [hj, hjn]
  · intro j v hj hv hne
    rcases hview j v hv with ⟨-, rfl⟩ | ⟨-, hv⟩
    · exact hc.waitees
    · exact h.child j v hj hv hne
  · intro j H hj hH hbusy
    have hgoals : w'.goals = w.goals.insert w.nextGoal N := by rw [hc.rest]
    rw [hgoals, SortedMap.find?_insert] at hH
    split_ifs at hH
    · cases hH
      exact hc.resting.fit
    · exact h.fit j H hj hH hbusy
  · intro p c hp
    rw [hchildren] at hp
    rw [hnext]
    exact Nat.lt_succ_of_lt (h.entry_lt p c hp)

/-- The queues do not depend on who waits for the goals. -/
theorem Queued.link {w : Worker} {batch : SortedSet GoalId} {g i : GoalId}
    (h : w.Queued batch (some g)) : (w.addWaitee g i).Queued batch (some g) := by
  have hgoal : ∀ j H', (w.addWaitee g i).goals.find? j = some H' → ∃ H, w.goals.find? j = some H ∧
      H'.kind = H.kind ∧ H'.exitCode = H.exitCode ∧ (j ≠ g → H'.waitees = H.waitees) := by
    intro j H' hH'
    simp only [addWaitee, updateGoal, SortedMap.find?_modify] at hH'
    cases hH : w.goals.find? j with
    | none =>
      rw [hH] at hH'
      split_ifs at hH' <;> cases hH'
    | some H =>
      rw [hH] at hH'
      refine ⟨H, rfl, ?_⟩
      split_ifs at hH' with hji hjg hjg
      · cases hH'
        exact ⟨rfl, rfl, fun hn => absurd hjg hn⟩
      · cases hH'
        exact ⟨rfl, rfl, fun _ => rfl⟩
      · cases hH'
        exact ⟨rfl, rfl, fun hn => absurd hjg hn⟩
      · cases hH'
        exact ⟨rfl, rfl, fun _ => rfl⟩
  have hview : ∀ j v', (w.addWaitee g i).view j = some v' → ∃ v, w.view j = some v ∧
      v'.exitCode = v.exitCode ∧ v'.pids = v.pids ∧ v'.calm = v.calm ∧
      (j ≠ g → v'.waitees = v.waitees) := by
    intro j v' hv'
    obtain ⟨H', hH', rfl⟩ := view_eq_some.mp hv'
    obtain ⟨H, hH, hkind, hexit, hwaitees⟩ := hgoal j H' hH'
    refine ⟨H.view, view_of_find hH, hexit, ?_, ?_, hwaitees⟩
    · simp only [Goal.view, Goal.pids, hkind]
    · simp only [Goal.view, hexit, Goal.parked, hkind]
  have hne : ∀ q j, j ∈ w.queue batch q → j ≠ g := fun q j hj hjg =>
    h.called g rfl q (hjg ▸ hj)
  constructor
  · intro j hj
    obtain ⟨v', hv'⟩ := mem_goals_iff_view.mp hj
    obtain ⟨v, hv, -⟩ := hview j v' hv'
    exact h.once j (mem_goals_iff_view.mpr ⟨v, hv⟩)
  · exact h.lt
  · intro j v' q hv' hj
    obtain ⟨v, hv, -, -, -, hwaitees⟩ := hview j v' hv'
    rw [hwaitees (hne q j hj)]
    exact h.free j v q hv hj
  · intro j v' q hv' hj hs
    obtain ⟨v, hv, hexit, hpids, -⟩ := hview j v' hv'
    rw [hexit, hpids]
    exact h.asleep j v q hv hj hs
  · intro j v' q hv' hj
    obtain ⟨v, hv, -, -, hcalm, -⟩ := hview j v' hv'
    rw [hcalm]
    exact h.calm j v q hv hj
  · exact h.called
  · intro j v' hj hv' hpids
    obtain ⟨v, hv, -, hsame, -, hwaitees⟩ := hview j v' hv'
    rw [hwaitees fun hjg => hj (congrArg some hjg.symm)]
    exact h.child j v hj hv (hsame ▸ hpids)
  · intro j H' hj hH' hbusy
    obtain ⟨H, hH, hkind, hexit, -⟩ := hgoal j H' hH'
    have hsame : H.kind.SameBuild H'.kind := hkind ▸ .refl _
    exact hsame.fit (h.fit j H hj hH (hexit ▸ hbusy))
  · exact h.entry_lt

/-- The goals of the queue `q₀` that are not destroyed are awake now, and the other queues are the
same. -/
structure Woken (q₀ : Queue) (w w' : Worker) : Prop where
  awake : ∀ j, j ∈ w'.awake ↔ j ∈ w.awake ∨ (j ∈ w.queue ∅ q₀ ∧ j ∈ w.goals)
  empty : w'.queue ∅ q₀ = ∅
  other : ∀ q, q ≠ .awake → q ≠ q₀ → w'.queue ∅ q = w.queue ∅ q

/-- The batch does not matter to the other queues. -/
theorem queue_eq {w : Worker} {batch : SortedSet GoalId} {q : Queue} (hq : q ≠ .batch) :
    w.queue batch q = w.queue ∅ q := by
  cases q with
  | batch => exact absurd rfl hq
  | _ => rfl

/-- Where a goal is after the goals of a queue were woken up. -/
theorem Woken.mem_queue {q₀ : Queue} {w w' : Worker} (h : Woken q₀ w w') (hq₀ : q₀.Sleeps)
    {batch : SortedSet GoalId} {q : Queue} {j : GoalId} (hj : j ∈ w'.queue batch q) :
    (q ≠ q₀ ∧ j ∈ w.queue batch q) ∨ (q = .awake ∧ j ∈ w.queue batch q₀ ∧ j ∈ w.goals) := by
  have hb : q₀ ≠ .batch := by
    intro hb
    rw [hb] at hq₀
    exact hq₀
  have ha : q₀ ≠ .awake := by
    intro ha
    rw [ha] at hq₀
    exact hq₀
  by_cases hqa : q = .awake
  · subst hqa
    rcases (h.awake j).mp hj with hj | ⟨hj, hlive⟩
    · exact Or.inl ⟨ha.symm, hj⟩
    · exact Or.inr ⟨rfl, by rwa [queue_eq hb], hlive⟩
  · by_cases hqq : q = q₀
    · subst hqq
      rw [queue_eq hb, h.empty] at hj
      exact absurd hj (SortedMap.notMem_empty j)
    · refine Or.inl ⟨hqq, ?_⟩
      by_cases hqb : q = .batch
      · subst hqb
        exact hj
      · rw [queue_eq hqb, h.other q hqa hqq] at hj
        rwa [queue_eq hqb]

/-- Waking up the goals of a queue, while goals lose their processes. -/
theorem Queued.woken {w w' : Worker} {batch : SortedSet GoalId} {x : Option GoalId} {q₀ : Queue}
    (h : w.Queued batch x) (hw : Woken q₀ w w') (hq₀ : q₀.Sleeps) (hnext : w'.nextGoal = w.nextGoal)
    (hview : ∀ k v', w'.view k = some v' → x ≠ some k → ∃ v, w.view k = some v ∧ Unharmed v v')
    (hlive : ∀ k, k ∈ w'.goals → k ∈ w.goals)
    (hfit : ∀ k K', x ≠ some k → w'.goals.find? k = some K' → K'.exitCode = .ecBusy → K'.Fit)
    (hentry : ∀ p c, w'.children.find? p = some c → c.goal < w.nextGoal) : w'.Queued batch x := by
  refine h.moved (fun q j hj => ?_) (fun j hj q q' hq hq' => ?_) hnext hview hfit hentry
  · rcases hw.mem_queue hq₀ hj with ⟨-, hj⟩ | ⟨rfl, hj, -⟩
    · exact ⟨q, hj, fun _ => rfl⟩
    · exact ⟨q₀, hj, fun hs => hs.elim⟩
  · have hj := hlive j hj
    rcases hw.mem_queue hq₀ hq with ⟨hne, hq⟩ | ⟨rfl, hq, -⟩ <;>
      rcases hw.mem_queue hq₀ hq' with ⟨hne', hq'⟩ | ⟨rfl, hq', -⟩
    · exact h.once j hj q q' hq hq'
    · exact absurd (h.once j hj q q₀ hq hq') hne
    · exact absurd (h.once j hj q' q₀ hq' hq) hne'
    · rfl

/-- When a process ceases, the goals that want to build are woken. -/
theorem Ceased.woken {pid : Pid} {w w' : Worker} (h : Ceased pid w w') :
    Woken .wantingToBuild w w' := by
  obtain ⟨c, -, -, hw'⟩ := h.entry
  refine ⟨h.awake, ?_, fun q hqa hq => ?_⟩
  · rw [hw']
    rfl
  · rw [hw']
    cases q with
    | awake => exact absurd rfl hqa
    | wantingToBuild => exact absurd rfl hq
    | _ => rfl

/-- A goal whose process was reaped is awake. -/
theorem Queued.reap {w w' : Worker} {batch : SortedSet GoalId} {g : GoalId} {f : Goal → Goal}
    {pid : Pid} (h : w.Queued batch (some g)) (hc : Ceased pid (w.updateGoal g f) w') :
    w'.Queued batch (some g) := by
  obtain ⟨c₀, hc₀, -, hw'⟩ := hc.entry
  have hgoals : w'.goals = (w.updateGoal g f).goals := (congrArg goals hw' :)
  have hchildren : w'.children = w.children.erase pid := (congrArg children hw' :)
  have hfind : ∀ k, k ≠ g → w'.goals.find? k = w.goals.find? k := by
    intro k hk
    rw [hgoals, find?_updateGoal_ne hk]
  have hne : ∀ {k}, (some g : Option GoalId) ≠ some k → k ≠ g := fun hk hkg =>
    hk (congrArg some hkg.symm)
  have hwoken : Woken .wantingToBuild w w' := by
    refine ⟨fun j => ?_, (Ceased.woken hc).empty, fun q hqa hq => ?_⟩
    · rw [hc.awake j, updateGoal, SortedMap.mem_modify]
      rfl
    · rw [(Ceased.woken hc).other q hqa hq]
      cases q <;> rfl
  refine h.woken hwoken trivial (congrArg nextGoal hw' :) (fun k v' hv' hk => ?_) (fun k hk => ?_)
    (fun k K' hk hK' hbusy => ?_) fun p c hp => ?_
  · rw [view, hfind k (hne hk)] at hv'
    exact ⟨v', hv', .refl v'⟩
  · rwa [hgoals, updateGoal, SortedMap.mem_modify] at hk
  · rw [hfind k (hne hk)] at hK'
    exact h.fit k K' hk hK' hbusy
  · rw [hchildren, SortedMap.find?_erase] at hp
    split_ifs at hp
    exact h.entry_lt p c hp

/-- Preparing a step keeps the other goals queued. -/
theorem Queued.prep {w w' : Worker} {batch : SortedSet GoalId} {g : GoalId} {G : Goal}
    (h : w.Queued batch (some g)) (hw : w.Sound) (hG : w.goals.find? g = some G)
    (hp : PrepKind g w w') : w'.Queued batch (some g) := by
  cases hp with
  | alike ha => exact h.alike ha
  | created k N hc =>
    refine h.created hc fun hx => ?_
    have hlt := hw.lt g _ (node_of_find hG)
    rw [Option.some.inj hx] at hlt
    exact lt_irrefl _ hlt
  | link i hi heq =>
    subst heq
    exact h.link
  | reap f G₀ pid hG₀ hpid hf hc =>
    exact h.reap hc
  | startHook pid hno hfresh heq =>
    subst heq
    exact ⟨h.once, h.lt, h.free, h.asleep, h.calm, h.called, h.child, h.fit, h.entry_lt⟩

/-- A call is over, and the goal waits for others. -/
theorem Queued.waits {w : Worker} {batch : SortedSet GoalId} {g : GoalId} {G : Goal}
    (h : w.Queued batch (some g)) (hG : w.goals.find? g = some G) (hrest : G.Resting) :
    w.Queued batch none := by
  refine ⟨h.once, h.lt, h.free, h.asleep, h.calm, fun j hj => (by cases hj), fun j v _ hv hne => ?_,
    fun j H _ hH hbusy => ?_, h.entry_lt⟩
  · by_cases hjg : j = g
    · rw [hjg, view_of_find hG] at hv
      cases hv
      exact absurd hrest.pids hne
    · exact h.child j v (fun hx => hjg (Option.some.inj hx).symm) hv hne
  · by_cases hjg : j = g
    · rw [hjg, hG] at hH
      cases hH
      exact hrest.fit
    · exact h.fit j H (fun hx => hjg (Option.some.inj hx).symm) hH hbusy

/-- A call is over, and the goal is put into the queue `q`. -/
theorem Queued.enqueue {w w' : Worker} {batch : SortedSet GoalId} {g : GoalId} {G : Goal} {q : Queue}
    (h : w.Queued batch (some g)) (hw : w.Sound) (hG : w.goals.find? g = some G)
    (hbusy : G.exitCode = .ecBusy) (hno : G.waitees = ∅) (hrest : G.Resting)
    (hqueue : ∀ q' j, j ∈ w'.queue batch q' ↔ j ∈ w.queue batch q' ∨ (q' = q ∧ j = g))
    (hgoals : w'.goals = w.goals) (hnext : w'.nextGoal = w.nextGoal)
    (hchildren : w'.children = w.children) : w'.Queued batch none := by
  have h₀ := h.waits hG hrest
  have hview : ∀ k, w'.view k = w.view k := fun k => by rw [view, view, hgoals]
  have hG' := view_of_find hG
  have hcase : ∀ q' j, j ∈ w'.queue batch q' → (j ≠ g ∧ j ∈ w.queue batch q') ∨ (q' = q ∧ j = g) := by
    intro q' j hj
    rcases (hqueue q' j).mp hj with hj | hj
    · exact Or.inl ⟨fun hjg => h.called g rfl q' (hjg ▸ hj), hj⟩
    · exact Or.inr hj
  constructor
  · intro j hj q₁ q₂ hq₁ hq₂
    rw [hgoals] at hj
    rcases hcase q₁ j hq₁ with ⟨hjg, hq₁⟩ | ⟨rfl, hjg⟩ <;>
      rcases hcase q₂ j hq₂ with ⟨hjg', hq₂⟩ | ⟨rfl, hjg'⟩
    · exact h.once j hj q₁ q₂ hq₁ hq₂
    · exact absurd hjg' hjg
    · exact absurd hjg hjg'
    · rfl
  · intro q' j hj
    rw [hnext]
    rcases hcase q' j hj with ⟨-, hj⟩ | ⟨-, rfl⟩
    · exact h.lt q' j hj
    · exact hw.lt j _ (node_of_find hG)
  · intro j v q' hv hj
    rw [hview] at hv
    rcases hcase q' j hj with ⟨-, hj⟩ | ⟨-, rfl⟩
    · exact h.free j v q' hv hj
    · rw [hG'] at hv
      cases hv
      exact hno
  · intro j v q' hv hj hs
    rw [hview] at hv
    rcases hcase q' j hj with ⟨-, hj⟩ | ⟨-, rfl⟩
    · exact h.asleep j v q' hv hj hs
    · rw [hG'] at hv
      cases hv
      exact ⟨hbusy, hrest.pids⟩
  · intro j v q' hv hj
    rw [hview] at hv
    rcases hcase q' j hj with ⟨-, hj⟩ | ⟨-, rfl⟩
    · exact h.calm j v q' hv hj
    · rw [hG'] at hv
      cases hv
      exact Goal.view_calm_of_busy hbusy
  · intro j hj
    cases hj
  · simpa only [hview] using h₀.child
  · simpa only [hgoals] using h₀.fit
  · simpa only [hchildren, hnext] using h₀.entry_lt

/-- A call is over, and the goal has a child. -/
theorem Queued.started {w w' : Worker} {batch : SortedSet GoalId} {g : GoalId} {f : Goal → Goal}
    {G : Goal} {pid : Pid} {c : Child} (h : w.Queued batch (some g)) (hw : w.Sound)
    (hG : w.goals.find? g = some G) (hno : G.waitees = ∅) (hf : G.Reaped (f G) [pid])
    (hfit : (f G).Fit) (hgoal : c.goal = g)
    (hqueue : ∀ q, w'.queue batch q = w.queue batch q)
    (hgoals : w'.goals = (w.updateGoal g f).goals) (hnext : w'.nextGoal = w.nextGoal)
    (hchildren : w'.children = w.children.insert pid c) : w'.Queued batch none := by
  have hfind : ∀ k, k ≠ g → w'.goals.find? k = w.goals.find? k := by
    intro k hk
    rw [hgoals, find?_updateGoal_ne hk]
  have hview : ∀ k, k ≠ g → w'.view k = w.view k := fun k hk => by rw [view, view, hfind k hk]
  have hG' : w'.goals.find? g = some (f G) := by rw [hgoals, find?_updateGoal hG]
  have hne : ∀ q j, j ∈ w'.queue batch q → j ≠ g := by
    intro q j hj hjg
    rw [hqueue] at hj
    exact h.called g rfl q (hjg ▸ hj)
  constructor
  · intro j hj q q' hq hq'
    have hjg := hne q j hq
    rw [hqueue] at hq hq'
    refine h.once j ?_ q q' hq hq'
    rw [mem_goals_iff] at hj ⊢
    rwa [hfind j hjg] at hj
  · intro q j hj
    rw [hqueue] at hj
    rw [hnext]
    exact h.lt q j hj
  · intro j v q hv hj
    rw [hview j (hne q j hj)] at hv
    rw [hqueue] at hj
    exact h.free j v q hv hj
  · intro j v q hv hj
    rw [hview j (hne q j hj)] at hv
    rw [hqueue] at hj
    exact h.asleep j v q hv hj
  · intro j v q hv hj
    rw [hview j (hne q j hj)] at hv
    rw [hqueue] at hj
    exact h.calm j v q hv hj
  · intro j hj
    cases hj
  · intro j v _ hv hp
    by_cases hjg : j = g
    · rw [hjg, view_of_find hG'] at hv
      cases hv
      exact hf.waitees.trans hno
    · rw [hview j hjg] at hv
      exact h.child j v (fun hx => hjg (Option.some.inj hx).symm) hv hp
  · intro j H _ hH hHbusy
    by_cases hjg : j = g
    · rw [hjg, hG'] at hH
      cases hH
      exact hfit
    · rw [hfind j hjg] at hH
      exact h.fit j H (fun hx => hjg (Option.some.inj hx).symm) hH hHbusy
  · intro p c' hp
    rw [hchildren, SortedMap.find?_insert] at hp
    rw [hnext]
    split_ifs at hp
    · cases hp
      rw [hgoal]
      exact hw.lt g _ (node_of_find hG)
    · exact h.entry_lt p c' hp

/-- What the loop depends on in a goal after the end of `g`. -/
theorem view_afterDone {keepGoing : Bool} {g : GoalId} {r : ExitCode} {w w' : Worker} {G : Goal}
    (h : AfterDone keepGoing g r w G w') (hl : w.Linked) (hG : w.goals.find? g = some G) {k : GoalId}
    {v' : GoalView} (hv' : w'.view k = some v') :
    ∃ v, w.view k = some v ∧ v'.pids = v.pids ∧
      v'.exitCode = (if k = g then r else v.exitCode) ∧ (k ≠ g → v'.calm = v.calm) ∧
      (∀ j ∈ v'.waitees, j ∈ v.waitees) ∧
      (k ∈ G.waiters → ∀ K, w.goals.find? k = some K → K.Freed keepGoing g r → v'.waitees = ∅) := by
  obtain ⟨K', hK', rfl⟩ := view_eq_some.mp hv'
  obtain ⟨K, hK, hkind, hexit, hin, -, -⟩ := h.goal_before hK'
  refine ⟨K.view, view_of_find hK, ?_, hexit, fun hkg => ?_,
    fun j hj => (h.waitee_before hl hG hK hK' j hj).1, fun hkG K₀ hK₀ hf => ?_⟩
  · simp only [Goal.view, Goal.pids, hkind]
  · rw [if_neg hkg] at hexit
    simp only [Goal.view, hexit, Goal.parked, hkind]
  · rw [hK] at hK₀
    cases hK₀
    exact (hin hkG).1 hf

/-- The end of a goal wakes up the goals that wait for any goal, and those that wait for nothing else
any more. -/
theorem Queued.afterDone {keepGoing : Bool} {g : GoalId} {r : ExitCode} {w w' : Worker} {G : Goal}
    {batch : SortedSet GoalId} {x : Option GoalId} (h : w.Queued batch x) (hw : w.Sound)
    (hd : AfterDone keepGoing g r w G w') (hG : w.goals.find? g = some G) (hr : r ≠ .ecBusy)
    (hno : G.waitees = ∅) (hpids : G.pids = []) (hx : ∀ j, x = some j → j = g)
    (hcalm : ∀ q, g ∈ w.queue batch q → ¬ q.Sleeps ∧ G.parked = true) : w'.Queued batch none := by
  have hnext : w'.nextGoal = w.nextGoal := by rw [hd.rest]
  have hview := @view_afterDone _ _ _ _ _ _ hd hw.linked hG
  -- a goal that was waiting for `g` is in no queue
  have hwaiter : ∀ q j J, j ∈ G.waiters → w.goals.find? j = some J → j ∉ w.queue batch q := by
    intro q j J hj hJ hq
    have hmem := (hw.linked.waiter_iff j J g G hJ hG).mpr hj
    have hfree : J.waitees = ∅ := h.free j _ q (view_of_find hJ) hq
    rw [hfree] at hmem
    exact SortedMap.notMem_empty g hmem
  -- where a goal that is in a queue comes from
  have hmem : ∀ q j, j ∈ w'.queue batch q → (q ≠ .waitingForAnyGoal ∧ j ∈ w.queue batch q) ∨
      (q = .awake ∧ (j ∈ w.waitingForAnyGoal ∧ j ∈ w.goals ∨
        j ∈ G.waiters ∧ ∃ J, w.goals.find? j = some J ∧ J.Freed keepGoing g r)) := by
    intro q j hj
    cases q with
    | awake =>
      rcases (hd.awake j).mp hj with hj | hj
      · exact Or.inl ⟨by decide, hj⟩
      · exact Or.inr ⟨rfl, hj⟩
    | waitingForAnyGoal =>
      rw [hd.rest] at hj
      exact absurd hj (SortedMap.notMem_empty j)
    | batch => exact Or.inl ⟨by decide, hj⟩
    | wantingToBuild =>
      rw [hd.rest] at hj
      exact Or.inl ⟨by decide, hj⟩
    | waitingForAWhile =>
      rw [hd.rest] at hj
      exact Or.inl ⟨by decide, hj⟩
  have hchildren : w'.children = w.children := by rw [hd.rest]
  constructor
  · intro j hj q q' hq hq'
    have hj := hd.mem_goals.mp hj
    rcases hmem q j hq with ⟨hne, hold⟩ | ⟨hqa, hfrom⟩ <;>
      rcases hmem q' j hq' with ⟨hne', hold'⟩ | ⟨hqa', hfrom'⟩
    · exact h.once j hj q q' hold hold'
    · rcases hfrom' with ⟨hany, -⟩ | ⟨hwait, J, hJ, -⟩
      · exact absurd (h.once j hj q .waitingForAnyGoal hold hany) hne
      · exact absurd hold (hwaiter q j J hwait hJ)
    · rcases hfrom with ⟨hany, -⟩ | ⟨hwait, J, hJ, -⟩
      · exact absurd (h.once j hj q' .waitingForAnyGoal hold' hany) hne'
      · exact absurd hold' (hwaiter q' j J hwait hJ)
    · rw [hqa, hqa']
  · intro q j hj
    rw [hnext]
    rcases hmem q j hj with ⟨-, hj⟩ | ⟨-, ⟨hj, -⟩ | ⟨hj, -⟩⟩
    · exact h.lt q j hj
    · exact h.lt .waitingForAnyGoal j hj
    · exact hw.waiter_lt g _ (node_of_find hG) j hj
  · intro j v' q hv' hj
    obtain ⟨v, hv, -, -, -, hsub, hfreed⟩ := hview hv'
    have hempty : ∀ q', j ∈ w.queue batch q' → v'.waitees = ∅ := by
      intro q' hq'
      have hnone := h.free j v q' hv hq'
      refine SortedMap.eq_empty_iff.mpr fun i hi => ?_
      have := hsub i hi
      rw [hnone] at this
      exact SortedMap.notMem_empty i this
    rcases hmem q j hj with ⟨-, hj⟩ | ⟨-, ⟨hj, -⟩ | ⟨hwait, J, hJ, hf⟩⟩
    · exact hempty q hj
    · exact hempty .waitingForAnyGoal hj
    · exact hfreed hwait J hJ hf
  · intro j v' q hv' hj hs
    obtain ⟨v, hv, hpidsv, hexit, -⟩ := hview hv'
    rcases hmem q j hj with ⟨-, hj⟩ | ⟨rfl, -⟩
    · have hjg : j ≠ g := fun hjg => (hcalm q (hjg ▸ hj)).1 hs
      rw [hpidsv, hexit, if_neg hjg]
      exact h.asleep j v q hv hj hs
    · exact hs.elim
  · intro j v' q hv' hj
    obtain ⟨v, hv, -, hexit, hcalmv, -⟩ := hview hv'
    by_cases hjg : j = g
    · subst hjg
      have hparked : G.parked = true := by
        rcases hmem q j hj with ⟨-, hj⟩ | ⟨-, ⟨hj, -⟩ | ⟨hwait, -⟩⟩
        · exact (hcalm q hj).2
        · exact (hcalm .waitingForAnyGoal hj).2
        · have hself := (hw.linked.waiter_iff j G j G hG hG).mpr hwait
          rw [hno] at hself
          exact absurd hself (SortedMap.notMem_empty j)
      obtain ⟨J', hJ', rfl⟩ := view_eq_some.mp hv'
      obtain ⟨J, hJ, hkind, -⟩ := hd.goal_before hJ'
      rw [hG] at hJ
      cases hJ
      have hparked' : J'.parked = true := by
        rw [← hparked]
        simp only [Goal.parked, hkind]
      simp only [Goal.view, hparked', Bool.or_true]
    · rw [hcalmv hjg]
      rcases hmem q j hj with ⟨-, hj⟩ | ⟨-, ⟨hj, -⟩ | ⟨hwait, J, hJ, -⟩⟩
      · exact h.calm j v q hv hj
      · exact h.calm j v .waitingForAnyGoal hv hj
      · -- a goal that waits is not done
        rw [view_of_find hJ] at hv
        cases hv
        refine Goal.view_calm_of_busy ?_
        by_contra hspent
        have hmem := (hw.linked.waiter_iff j J g G hJ hG).mpr hwait
        have hnone : J.waitees = ∅ := hw.spent j _ (node_of_find hJ) hspent
        rw [hnone] at hmem
        exact SortedMap.notMem_empty g hmem
  · intro j hj
    cases hj
  · intro j v' _ hv' hne
    obtain ⟨v, hv, hpidsv, -, -, hsub, -⟩ := hview hv'
    have hjg : j ≠ g := by
      intro hjg
      rw [hjg, view_of_find hG] at hv
      cases hv
      exact hne (hpidsv.trans hpids)
    have hnone := h.child j v (fun hxj => hjg (hx j hxj)) hv (hpidsv ▸ hne)
    refine SortedMap.eq_empty_iff.mpr fun i hi => ?_
    have := hsub i hi
    rw [hnone] at this
    exact SortedMap.notMem_empty i this
  · intro j J' _ hJ' hbusy
    obtain ⟨J, hJ, hkind, hexit, -⟩ := hd.goal_before hJ'
    have hjg : j ≠ g := by
      intro hjg
      rw [hexit, if_pos hjg] at hbusy
      exact hr hbusy
    rw [hexit, if_neg hjg] at hbusy
    have hsame : J.kind.SameBuild J'.kind := hkind ▸ .refl _
    exact hsame.fit (h.fit j J (fun hxj => hjg (hx j hxj)) hJ hbusy)
  · simpa only [hnext, hchildren] using h.entry_lt

end Worker

end Nix
