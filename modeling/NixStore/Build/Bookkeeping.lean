import NixStore.Build.Moves

/-!
# The tables of the worker

Two invariants of the tables hold in every state, whatever is asked of the worker and however its
children behave: the goals that wait for each other and the maps from paths to goals agree with the
goals (`Sound`), and so do the entries of `children` that take a build slot (`Kids`).
-/

namespace Nix

open Relation

/-! ### The graph of goals -/

namespace Worker

/-- The two directions of the waiting relation, and that what is waited for is busy. -/
theorem linked_iff {w : Worker} : w.Linked ↔
    (∀ g n h m, w.node g = some n → w.node h = some m → (h ∈ n.waitees ↔ g ∈ m.waiters)) ∧
      ∀ g n, w.node g = some n → ∀ h ∈ n.waitees, ∃ m, w.node h = some m ∧ m.exitCode = .ecBusy := by
  constructor
  · intro hl
    refine ⟨fun g n h m hn hm => ?_, fun g n hn h hh => ?_⟩
    · obtain ⟨G, hG, rfl⟩ := node_eq_some.mp hn
      obtain ⟨H, hH, rfl⟩ := node_eq_some.mp hm
      exact hl.waiter_iff g G h H hG hH
    · obtain ⟨G, hG, rfl⟩ := node_eq_some.mp hn
      obtain ⟨H, hH, hbusy⟩ := hl.waitee_busy g G hG h hh
      exact ⟨H.node, node_of_find hH, hbusy⟩
  · intro hl
    obtain ⟨hiff, hbusy⟩ := hl
    refine ⟨fun g G h H hG hH => hiff g _ h _ (node_of_find hG) (node_of_find hH),
      fun g G hG h hh => ?_⟩
    obtain ⟨m, hm, hmbusy⟩ := hbusy g _ (node_of_find hG) h hh
    obtain ⟨H, hH, rfl⟩ := node_eq_some.mp hm
    exact ⟨H, hH, hmbusy⟩

/-- The graph of goals and the maps from paths to goals agree with the goals. -/
structure Sound (w : Worker) : Prop where
  linked : w.Linked
  lt : ∀ h n, w.node h = some n → h < w.nextGoal
  waiter_lt : ∀ h n, w.node h = some n → ∀ j ∈ n.waiters, j < w.nextGoal
  goalFor_lt : ∀ k i, w.goalFor k = some i → i < w.nextGoal
  goalFor_busy : ∀ k i n, w.goalFor k = some i → w.node i = some n →
    n.exitCode = .ecBusy ∧ n.key = k
  busy_goalFor : ∀ h n, w.node h = some n → n.exitCode = .ecBusy → w.goalFor n.key = some h
  spent : ∀ h n, w.node h = some n → n.exitCode ≠ .ecBusy → n.waitees = ∅

/-- Which goal belongs to a key depends on the two maps and on which goals live. -/
theorem goalFor_congr {w w' : Worker} (hd : w'.derivationGoals = w.derivationGoals)
    (hs : w'.substitutionGoals = w.substitutionGoals) (k : GoalKey) : w'.goalFor k = w.goalFor k := by
  cases k with
  | derivation p => rw [goalFor, goalFor, hd]
  | substitution p => rw [goalFor, goalFor, hs]

/-- The invariant depends only on what other goals depend on. -/
theorem Sound.congr {w w' : Worker} (h : w.Sound) (hnode : ∀ k, w'.node k = w.node k)
    (hnext : w'.nextGoal = w.nextGoal) (hd : w'.derivationGoals = w.derivationGoals)
    (hs : w'.substitutionGoals = w.substitutionGoals) : w'.Sound := by
  have hfor := goalFor_congr hd hs
  obtain ⟨hiff, hbusy⟩ := linked_iff.mp h.linked
  constructor
  · exact linked_iff.mpr ⟨by simpa only [hnode] using hiff, by simpa only [hnode] using hbusy⟩
  · simpa only [hnode, hnext] using h.lt
  · simpa only [hnode, hnext] using h.waiter_lt
  · simpa only [hfor, hnext] using h.goalFor_lt
  · simpa only [hfor, hnode] using h.goalFor_busy
  · simpa only [hfor, hnode] using h.busy_goalFor
  · simpa only [hnode] using h.spent

/-- A goal that is waited for is not destroyed. -/
theorem Sound.waitee_lt {w : Worker} (h : w.Sound) {g : GoalId} {n : GoalNode}
    (hn : w.node g = some n) {i : GoalId} (hi : i ∈ n.waitees) : i < w.nextGoal := by
  obtain ⟨m, hm, -⟩ := (linked_iff.mp h.linked).2 g n hn i hi
  exact h.lt i m hm

/-- A worker that looks alike is sound. -/
theorem Sound.alike {w w' : Worker} {g : GoalId} (h : w.Sound) (ha : Alike g w w') : w'.Sound := by
  refine h.congr (fun k => ?_) ?_ ?_ ?_
  · rw [node_eq_map_view, ha.view, ← node_eq_map_view]
  all_goals rw [ha.rest]

/-- A goal that was created under its key is added. -/
theorem Sound.created {w w' : Worker} {k : GoalKey} {N : Goal} (h : w.Sound)
    (hc : Created k N w w') : w'.Sound := by
  have hnode : ∀ j, w'.node j = if j = w.nextGoal then some N.node else w.node j := by
    intro j
    have hgoals : w'.goals = w.goals.insert w.nextGoal N := by rw [hc.rest]
    simp only [node, hgoals, SortedMap.find?_insert]
    split_ifs <;> rfl
  have hnext : w'.nextGoal = w.nextGoal + 1 := by rw [hc.rest]
  -- the node of an old goal is the same
  have hold : ∀ j n, w'.node j = some n → j ≠ w.nextGoal → w.node j = some n := by
    intro j n hn hj
    rwa [hnode, if_neg hj] at hn
  have hnew : ∀ n, w'.node w.nextGoal = some n → n = N.node := by
    intro n hn
    rw [hnode, if_pos rfl] at hn
    exact (Option.some.inj hn).symm
  have hNwaitees : N.node.waitees = ∅ := hc.waitees
  have hNwaiters : N.node.waiters = ∅ := hc.waiters
  obtain ⟨hiff, hbusy⟩ := linked_iff.mp h.linked
  constructor
  · refine linked_iff.mpr ⟨fun g n j m hn hm => ?_, fun g n hn j hj => ?_⟩
    · by_cases hg : g = w.nextGoal
      · subst hg
        rw [hnew n hn, hNwaitees]
        refine iff_of_false (SortedMap.notMem_empty j) fun hmem => ?_
        by_cases hj : j = w.nextGoal
        · subst hj
          rw [hnew m hm, hNwaiters] at hmem
          exact SortedMap.notMem_empty _ hmem
        · exact lt_irrefl _ (h.waiter_lt j m (hold j m hm hj) _ hmem)
      · by_cases hj : j = w.nextGoal
        · subst hj
          rw [hnew m hm, hNwaiters]
          refine iff_of_false (fun hmem => ?_) (SortedMap.notMem_empty g)
          exact lt_irrefl _ (h.waitee_lt (hold g n hn hg) hmem)
        · exact hiff g n j m (hold g n hn hg) (hold j m hm hj)
    · by_cases hg : g = w.nextGoal
      · subst hg
        rw [hnew n hn, hNwaitees] at hj
        exact absurd hj (SortedMap.notMem_empty j)
      · obtain ⟨m, hm, hmbusy⟩ := hbusy g n (hold g n hn hg) j hj
        refine ⟨m, ?_, hmbusy⟩
        rw [hnode, if_neg (h.lt j m hm).ne, hm]
  · intro j n hn
    rw [hnext]
    by_cases hj : j = w.nextGoal
    · rw [hj]
      exact Nat.lt_succ_self _
    · exact Nat.lt_succ_of_lt (h.lt j n (hold j n hn hj))
  · intro j n hn i hi
    rw [hnext]
    by_cases hj : j = w.nextGoal
    · subst hj
      rw [hnew n hn, hNwaiters] at hi
      exact absurd hi (SortedMap.notMem_empty i)
    · exact Nat.lt_succ_of_lt (h.waiter_lt j n (hold j n hn hj) i hi)
  · intro k' i hi
    rw [hnext]
    rw [hc.goalFor] at hi
    split_ifs at hi with hk'
    · cases hi
      exact Nat.lt_succ_self _
    · exact Nat.lt_succ_of_lt (h.goalFor_lt k' i hi)
  · intro k' i n hi hn
    rw [hc.goalFor] at hi
    split_ifs at hi with hk'
    · cases hi
      rw [hnew n hn]
      exact ⟨hc.exitCode, hc.key.trans hk'.symm⟩
    · exact h.goalFor_busy k' i n hi (hold i n hn (h.goalFor_lt k' i hi).ne)
  · intro j n hn hnbusy
    rw [hc.goalFor]
    by_cases hj : j = w.nextGoal
    · subst hj
      rw [hnew n hn]
      exact if_pos hc.key
    · have hn' := hold j n hn hj
      have hfor := h.busy_goalFor j n hn' hnbusy
      rw [if_neg, hfor]
      -- there was no goal for the new key
      intro hk
      have hno := hc.noGoal
      obtain ⟨J, hJ, -⟩ := node_eq_some.mp hn'
      rw [← hk, hfor] at hno
      simp [lock, mem_goals_iff.mpr ⟨J, hJ⟩] at hno
  · intro j n hn hspent
    by_cases hj : j = w.nextGoal
    · subst hj
      rw [hnew n hn] at hspent
      exact absurd hc.exitCode hspent
    · exact h.spent j n (hold j n hn hj) hspent

/-- A goal in a list has an entry and is the goal of its key. -/
theorem Listed.goalFor {w : Worker} {i : GoalId} (h : w.Listed i) :
    (∃ n, w.node i = some n) ∧ ∃ k, w.goalFor k = some i := by
  obtain ⟨hlive, p, hp⟩ := h
  obtain ⟨G, hG⟩ := mem_goals_iff.mp hlive
  refine ⟨⟨_, node_of_find hG⟩, ?_⟩
  rcases hp with hp | hp
  · exact ⟨.derivation p, hp⟩
  · exact ⟨.substitution p, hp⟩

/-- The nodes after `g` was made to wait for `i`. -/
theorem node_addWaitee (w : Worker) (g i h : GoalId) :
    (w.addWaitee g i).node h = (w.node h).map fun n => { n with
      waitees := if h = g then n.waitees.insert i else n.waitees
      waiters := if h = i then n.waiters.insert g else n.waiters } := by
  simp only [node, addWaitee, updateGoal, SortedMap.find?_modify]
  cases w.goals.find? h with
  | none => split_ifs <;> rfl
  | some H => split_ifs <;> rfl

/-- A busy goal may wait for a listed one. -/
theorem Sound.link {w : Worker} {g i : GoalId} (h : w.Sound) (hi : w.Listed i) {n : GoalNode}
    (hg : w.node g = some n) (hgbusy : n.exitCode = .ecBusy) : (w.addWaitee g i).Sound := by
  obtain ⟨⟨ni, hni⟩, k, hk⟩ := hi.goalFor
  have hibusy := (h.goalFor_busy k i ni hk hni).1
  have hold : ∀ j m, (w.addWaitee g i).node j = some m → ∃ m₀, w.node j = some m₀ ∧ m = { m₀ with
      waitees := if j = g then m₀.waitees.insert i else m₀.waitees
      waiters := if j = i then m₀.waiters.insert g else m₀.waiters } := by
    intro j m hm
    rw [node_addWaitee] at hm
    obtain ⟨m₀, hm₀, rfl⟩ := Option.map_eq_some_iff.mp hm
    exact ⟨m₀, hm₀, rfl⟩
  obtain ⟨hiff, hbusy⟩ := linked_iff.mp h.linked
  constructor
  · refine linked_iff.mpr ⟨fun a na b nb hna hnb => ?_, fun a na hna b hb => ?_⟩
    · obtain ⟨ma, hma, rfl⟩ := hold a na hna
      obtain ⟨mb, hmb, rfl⟩ := hold b nb hnb
      have hab := hiff a ma b mb hma hmb
      by_cases ha : a = g <;> by_cases hb : b = i <;> simp [ha, hb] <;> simp_all
    · obtain ⟨ma, hma, rfl⟩ := hold a na hna
      have hb' : b = i ∨ b ∈ ma.waitees := by
        dsimp only at hb
        split_ifs at hb
        · exact SortedSet.mem_insert.mp hb
        · exact Or.inr hb
      have hmb : ∃ mb, w.node b = some mb ∧ mb.exitCode = .ecBusy := by
        rcases hb' with rfl | hb'
        · exact ⟨ni, hni, hibusy⟩
        · exact hbusy a ma hma b hb'
      obtain ⟨mb, hmb, hbbusy⟩ := hmb
      rw [node_addWaitee, hmb]
      exact ⟨_, rfl, hbbusy⟩
  · intro j m hm
    obtain ⟨m₀, hm₀, -⟩ := hold j m hm
    exact h.lt j m₀ hm₀
  · intro j m hm a ha
    obtain ⟨m₀, hm₀, rfl⟩ := hold j m hm
    dsimp only at ha
    split_ifs at ha
    · rcases SortedSet.mem_insert.mp ha with rfl | ha
      · exact h.lt a n hg
      · exact h.waiter_lt j m₀ hm₀ a ha
    · exact h.waiter_lt j m₀ hm₀ a ha
  · exact h.goalFor_lt
  · intro k' j m hj hm
    obtain ⟨m₀, hm₀, rfl⟩ := hold j m hm
    exact h.goalFor_busy k' j m₀ hj hm₀
  · intro j m hm hmbusy
    obtain ⟨m₀, hm₀, rfl⟩ := hold j m hm
    exact h.busy_goalFor j m₀ hm₀ hmbusy
  · intro j m hm hspent
    obtain ⟨m₀, hm₀, rfl⟩ := hold j m hm
    dsimp only at hspent ⊢
    rw [if_neg]
    · exact h.spent j m₀ hm₀ hspent
    · intro hjg
      rw [hjg, hg] at hm₀
      cases hm₀
      exact hspent hgbusy

/-- A goal that has ended is taken out of the maps. -/
theorem goalFor_afterDone {keepGoing : Bool} {g : GoalId} {r : ExitCode} {w w' : Worker} {G : Goal}
    (h : AfterDone keepGoing g r w G w') (k : GoalKey) :
    w'.goalFor k = (w.goalFor k).filter fun i => i ≠ g := by
  have hfind : ∀ (m : SortedMap Path GoalId) (p : Path),
      (m.filter fun e => e.2 ≠ g).find? p = (m.find? p).filter fun i => i ≠ g := by
    intro m p
    rw [SortedMap.find?_filter]
  cases k with
  | derivation p =>
    have hmap : w'.derivationGoals = w.derivationGoals.filter fun e => e.2 ≠ g := by rw [h.rest]
    rw [goalFor, goalFor, hmap, hfind]
  | substitution p =>
    have hmap : w'.substitutionGoals = w.substitutionGoals.filter fun e => e.2 ≠ g := by rw [h.rest]
    rw [goalFor, goalFor, hmap, hfind]

/-- The other goals keep their keys. -/
theorem goalFor_afterDone_eq_some {keepGoing : Bool} {g : GoalId} {r : ExitCode} {w w' : Worker}
    {G : Goal} (h : AfterDone keepGoing g r w G w') {k : GoalKey} {i : GoalId} :
    w'.goalFor k = some i ↔ w.goalFor k = some i ∧ i ≠ g := by
  rw [goalFor_afterDone h, Option.filter_eq_some_iff, decide_eq_true_eq]

/-- What other goals depend on in a goal after the end of `g`. -/
theorem node_afterDone {keepGoing : Bool} {g : GoalId} {r : ExitCode} {w w' : Worker} {G : Goal}
    (h : AfterDone keepGoing g r w G w') (hl : w.Linked) (hG : w.goals.find? g = some G) {k : GoalId}
    {n' : GoalNode} (hn' : w'.node k = some n') :
    ∃ n, w.node k = some n ∧ n'.key = n.key ∧ n'.exitCode = (if k = g then r else n.exitCode) ∧
      (∀ j ∈ n'.waitees, j ∈ n.waitees ∧ j ≠ g) ∧ ∀ j ∈ n'.waiters, j ∈ n.waiters := by
  obtain ⟨K', hK', rfl⟩ := node_eq_some.mp hn'
  obtain ⟨K, hK, hkind, hexit, -, -, hwaiters⟩ := h.goal_before hK'
  refine ⟨K.node, node_of_find hK, ?_, hexit, h.waitee_before hl hG hK hK',
    fun j hj => ((hwaiters j).mp hj).2.1⟩
  simp only [Goal.node, Goal.key, hkind]

/-- The end of a goal that waits for nothing keeps the worker sound. -/
theorem Sound.afterDone {keepGoing : Bool} {g : GoalId} {r : ExitCode} {w w' : Worker} {G : Goal}
    (hw : w.Sound) (h : AfterDone keepGoing g r w G w') (hG : w.goals.find? g = some G)
    (hr : r ≠ .ecBusy) (hno : G.waitees = ∅) : w'.Sound := by
  have hnode := @node_afterDone _ _ _ _ _ _ h hw.linked hG
  have hnext : w'.nextGoal = w.nextGoal := by rw [h.rest]
  constructor
  · exact h.linked hw.linked hG
  · intro k n' hn'
    obtain ⟨n, hn, -⟩ := hnode hn'
    exact hnext ▸ hw.lt k n hn
  · intro k n' hn' j hj
    obtain ⟨n, hn, -, -, -, hwaiters⟩ := hnode hn'
    exact hnext ▸ hw.waiter_lt k n hn j (hwaiters j hj)
  · intro k i hi
    exact hnext ▸ hw.goalFor_lt k i ((goalFor_afterDone_eq_some h).mp hi).1
  · intro k i n' hi hn'
    obtain ⟨hi, hig⟩ := (goalFor_afterDone_eq_some h).mp hi
    obtain ⟨n, hn, hkey, hexit, -⟩ := hnode hn'
    rw [hkey, hexit, if_neg hig]
    exact hw.goalFor_busy k i n hi hn
  · intro k n' hn' hbusy
    obtain ⟨n, hn, hkey, hexit, -⟩ := hnode hn'
    have hkg : k ≠ g := fun hkg => by
      rw [hexit, if_pos hkg] at hbusy
      exact hr hbusy
    rw [hexit, if_neg hkg] at hbusy
    rw [hkey]
    exact (goalFor_afterDone_eq_some h).mpr ⟨hw.busy_goalFor k n hn hbusy, hkg⟩
  · intro k n' hn' hspent
    obtain ⟨n, hn, -, hexit, hwaitees, -⟩ := hnode hn'
    have hnone : n.waitees = ∅ := by
      by_cases hkg : k = g
      · rw [hkg, node_of_find hG] at hn
        cases hn
        exact hno
      · rw [hexit, if_neg hkg] at hspent
        exact hw.spent k n hn hspent
    refine SortedMap.eq_empty_iff.mpr fun j hj => ?_
    have := (hwaitees j hj).1
    rw [hnone] at this
    exact SortedMap.notMem_empty j this

/-- A goal that nothing refers to may be destroyed. -/
theorem Sound.destroyed {g : GoalId} {G : Goal} {w w' : Worker} (hw : w.Sound)
    (h : Destroyed g G w w') (hfree : w.referenced g = false) : w'.Sound := by
  have hnode : ∀ k n, w'.node k = some n → k ≠ g ∧ w.node k = some n := by
    intro k n hn
    rw [node, h.goals, SortedMap.find?_erase] at hn
    split_ifs at hn with hkg
    · cases hn
    · exact ⟨hkg, hn⟩
  have hrest : w'.nextGoal = w.nextGoal ∧ w'.derivationGoals = w.derivationGoals ∧
      w'.substitutionGoals = w.substitutionGoals := by
    rcases h.rest with ⟨pid, -, hceased⟩ | ⟨-, hw'⟩
    · obtain ⟨c, -, -, hw'⟩ := hceased.entry
      exact ⟨(congrArg nextGoal hw' :), (congrArg derivationGoals hw' :),
        (congrArg substitutionGoals hw' :)⟩
    · exact ⟨(congrArg nextGoal hw' :), (congrArg derivationGoals hw' :),
        (congrArg substitutionGoals hw' :)⟩
  obtain ⟨hnext, hd, hs⟩ := hrest
  have hfor := goalFor_congr hd hs
  -- nobody waits for `g`
  have hwaitee : ∀ k n, w.node k = some n → g ∉ n.waitees := by
    intro k n hn hg
    obtain ⟨K, hK, rfl⟩ := node_eq_some.mp hn
    have hany : w.referenced g = true := by
      simp only [referenced, Bool.or_eq_true]
      exact Or.inr (List.any_eq_true.mpr
        ⟨(k, K), SortedMap.find?_eq_some_iff.mp hK, decide_eq_true hg⟩)
    rw [hfree] at hany
    cases hany
  obtain ⟨hiff, hbusy⟩ := linked_iff.mp hw.linked
  constructor
  · refine linked_iff.mpr ⟨fun a na b nb hna hnb => ?_, fun a na hna b hb => ?_⟩
    · exact hiff a na b nb (hnode a na hna).2 (hnode b nb hnb).2
    · obtain ⟨-, hna⟩ := hnode a na hna
      obtain ⟨m, hm, hmbusy⟩ := hbusy a na hna b hb
      refine ⟨m, ?_, hmbusy⟩
      have hbg : b ≠ g := fun hbg => hwaitee a na hna (hbg ▸ hb)
      rw [node, h.goals, SortedMap.find?_erase, if_neg hbg]
      exact hm
  · intro k n hn
    exact hnext ▸ hw.lt k n (hnode k n hn).2
  · intro k n hn
    exact hnext ▸ hw.waiter_lt k n (hnode k n hn).2
  · intro k i hi
    rw [hfor] at hi
    exact hnext ▸ hw.goalFor_lt k i hi
  · intro k i n hi hn
    rw [hfor] at hi
    exact hw.goalFor_busy k i n hi (hnode i n hn).2
  · intro k n hn hnbusy
    rw [hfor]
    exact hw.busy_goalFor k n (hnode k n hn).2 hnbusy
  · intro k n hn
    exact hw.spent k n (hnode k n hn).2

end Worker

/-! ### The table of children -/

/-- The fields of a goal that the table of children depends on. -/
structure GoalProcs where
  exitCode : ExitCode
  pids : List Pid
  ownPid : Option Pid

/-- What the table of children depends on. -/
def Goal.procs (G : Goal) : GoalProcs := ⟨G.exitCode, G.pids, G.ownPid⟩

/-- The process of a goal is one of its processes. -/
theorem Goal.ownPid_mem_pids {G : Goal} {p : Pid} (h : G.ownPid = some p) : p ∈ G.pids := by
  obtain ⟨_, _, _, _, _, d | s⟩ := G
  · have hp : d.pid = some p := h
    simp [Goal.pids, hp]
  · have hp : s.pid = some p := h
    simp [Goal.pids, hp]

namespace Worker

/-- What the table of children depends on in the goal `h`, if it is not destroyed. -/
def procs (w : Worker) (h : GoalId) : Option GoalProcs := (w.goals.find? h).map Goal.procs

/-- The processes of a goal, from its entry. -/
theorem procs_eq_some {w : Worker} {h : GoalId} {q : GoalProcs} :
    w.procs h = some q ↔ ∃ H, w.goals.find? h = some H ∧ H.procs = q := by
  simp [procs]

/-- The processes of a goal that is there. -/
theorem procs_of_find {w : Worker} {h : GoalId} {H : Goal} (hH : w.goals.find? h = some H) :
    w.procs h = some H.procs := by
  simp [procs, hH]

/-- The processes of a goal are part of its view. -/
theorem procs_eq_map_view (w : Worker) (h : GoalId) :
    w.procs h = (w.view h).map fun v => ⟨v.exitCode, v.pids, v.ownPid⟩ := by
  simp only [procs, view, Option.map_map]
  rfl

/-- The number of entries of `children` that take a build slot. -/
def slots (w : Worker) : ℕ := w.children.count Child.inBuildSlot

/-- Every process of a goal has an entry in `children`, the entries that take a slot are those of
builders and substituters, and `nrLocalBuilds` is their number. -/
structure Kids (w : Worker) : Prop where
  entry : ∀ h q, w.procs h = some q → ∀ p ∈ q.pids, ∃ c, w.children.find? p = some c ∧ c.goal = h
  busy : ∀ h q, w.procs h = some q → q.pids ≠ [] → q.exitCode = .ecBusy
  slot : ∀ p c, w.children.find? p = some c → c.inBuildSlot = true →
    ∃ q, w.procs c.goal = some q ∧ q.ownPid = some p
  hook : ∀ p, w.hook = some p → ∀ h q, w.procs h = some q → p ∉ q.pids
  count : w.nrLocalBuilds = w.slots

/-- The table of children depends on the processes, the children, the count and the hook. -/
theorem Kids.congr {w w' : Worker} (h : w.Kids) (hprocs : ∀ k, w'.procs k = w.procs k)
    (hchildren : w'.children = w.children) (hnr : w'.nrLocalBuilds = w.nrLocalBuilds)
    (hhook : w'.hook = w.hook) : w'.Kids := by
  constructor
  · simpa only [hprocs, hchildren] using h.entry
  · simpa only [hprocs] using h.busy
  · simpa only [hprocs, hchildren] using h.slot
  · simpa only [hprocs, hhook] using h.hook
  · simpa only [slots, hnr, hchildren] using h.count

/-- A process of a goal has an entry in the table of children. -/
theorem Kids.hasChild {w : Worker} (h : w.Kids) {g : GoalId} {G : Goal} {p : Pid}
    (hG : w.goals.find? g = some G) (hp : p ∈ G.pids) : w.HasChild p := by
  obtain ⟨c, hc, -⟩ := h.entry g _ (procs_of_find hG) p hp
  refine ⟨c, hc, fun hslot => ?_⟩
  rw [h.count]
  exact SortedMap.count_pos hc hslot

/-- A process belongs to one goal. -/
theorem Kids.pid_unique {w : Worker} (h : w.Kids) {a b : GoalId} {qa qb : GoalProcs} {p : Pid}
    (ha : w.procs a = some qa) (hb : w.procs b = some qb) (hpa : p ∈ qa.pids) (hpb : p ∈ qb.pids) :
    a = b := by
  obtain ⟨c, hc, hca⟩ := h.entry a qa ha p hpa
  obtain ⟨c', hc', hcb⟩ := h.entry b qb hb p hpb
  rw [hc] at hc'
  cases hc'
  exact hca.symm.trans hcb

/-- A worker that looks alike has its children in order. -/
theorem Kids.alike {w w' : Worker} {g : GoalId} (h : w.Kids) (ha : Alike g w w') : w'.Kids := by
  refine h.congr (fun k => ?_) ?_ ?_ ?_
  · rw [procs_eq_map_view, ha.view, ← procs_eq_map_view]
  all_goals rw [ha.rest]

/-- A new goal has no child. -/
theorem Kids.created {w w' : Worker} {k : GoalKey} {N : Goal} (h : w.Kids) (hw : w.Sound)
    (hc : Created k N w w') : w'.Kids := by
  have hprocs : ∀ j, w'.procs j = if j = w.nextGoal then some N.procs else w.procs j := by
    intro j
    have hgoals : w'.goals = w.goals.insert w.nextGoal N := by rw [hc.rest]
    simp only [procs, hgoals, SortedMap.find?_insert]
    split_ifs <;> rfl
  have hchildren : w'.children = w.children := by rw [hc.rest]
  have hNpids : N.procs.pids = [] := hc.pids
  have hold : ∀ j q, w'.procs j = some q → q.pids = [] ∨ w.procs j = some q := by
    intro j q hq
    rw [hprocs] at hq
    split_ifs at hq
    · cases hq
      exact Or.inl hNpids
    · exact Or.inr hq
  constructor
  · intro j q hq p hp
    rcases hold j q hq with hno | hq
    · rw [hno] at hp
      exact absurd hp List.not_mem_nil
    · rw [hchildren]
      exact h.entry j q hq p hp
  · intro j q hq hne
    exact h.busy j q ((hold j q hq).resolve_left hne) hne
  · intro p c hcp hslot
    rw [hchildren] at hcp
    obtain ⟨q, hq, hown⟩ := h.slot p c hcp hslot
    refine ⟨q, ?_, hown⟩
    obtain ⟨H, hH, -⟩ := procs_eq_some.mp hq
    rw [hprocs, if_neg (hw.lt _ _ (node_of_find hH)).ne, hq]
  · intro p hp j q hq hmem
    rcases hold j q hq with hno | hq
    · rw [hno] at hmem
      exact absurd hmem List.not_mem_nil
    · have hhook : w'.hook = w.hook := by rw [hc.rest]
      exact h.hook p (hhook ▸ hp) j q hq hmem
  · have hnr : w'.nrLocalBuilds = w.nrLocalBuilds := by rw [hc.rest]
    rw [hnr, h.count, slots, slots, hchildren]

/-- Waiting for a goal concerns no child. -/
theorem Kids.link {w : Worker} {g i : GoalId} (h : w.Kids) : (w.addWaitee g i).Kids := by
  refine h.congr (fun k => ?_) rfl rfl rfl
  simp only [procs, addWaitee, updateGoal, SortedMap.find?_modify]
  cases w.goals.find? k with
  | none => split_ifs <;> rfl
  | some H => split_ifs <;> rfl

/-- The hook is started under a number that is not in use. -/
theorem Kids.startHook {w : Worker} {pid : Pid} (h : w.Kids) (hfresh : pid ∉ w.usedPids) :
    Kids { w with hook := some pid } := by
  refine ⟨h.entry, h.busy, h.slot, fun p hp j q hq hmem => hfresh ?_, h.count⟩
  cases hp
  obtain ⟨H, hH, rfl⟩ := procs_eq_some.mp hq
  exact mem_usedPids.mpr (Or.inl ⟨j, H, hH, hmem⟩)

/-- The entry of a process of the goal `G` is removed, or the goal had none with a slot. -/
def Dropped (G : Goal) (w w' : Worker) : Prop :=
  (∃ pid c, (G.ownPid = some pid ∨ G.pids = [pid]) ∧ w.children.find? pid = some c ∧
      w'.children = w.children.erase pid ∧
      w'.nrLocalBuilds = if c.inBuildSlot then w.nrLocalBuilds - 1 else w.nrLocalBuilds) ∨
    (G.ownPid = none ∧ w'.children = w.children ∧ w'.nrLocalBuilds = w.nrLocalBuilds)

/-- Dropping a child does not raise the number of local builds. -/
theorem Dropped.nrLocalBuilds_le {G : Goal} {w w' : Worker} (h : Dropped G w w') :
    w'.nrLocalBuilds ≤ w.nrLocalBuilds := by
  rcases h with ⟨pid, c, -, -, -, hnr⟩ | ⟨-, -, hnr⟩
  · rw [hnr]
    split_ifs
    · exact Nat.sub_le _ _
    · exact le_rfl
  · exact hnr.le

/-- A goal loses its processes, and the entry of the one that has a slot is removed. -/
theorem Kids.lose {w w' : Worker} (h : w.Kids) {g : GoalId} {G : Goal}
    (hG : w.goals.find? g = some G) (hother : ∀ k, k ≠ g → w'.procs k = w.procs k)
    (hself : ∀ q, w'.procs g = some q → q.pids = []) (hhook : w'.hook = w.hook)
    (hrest : Dropped G w w') : w'.Kids := by
  have hold : ∀ k q p, w'.procs k = some q → p ∈ q.pids → k ≠ g ∧ w.procs k = some q := by
    intro k q p hq hp
    have hkg : k ≠ g := by
      intro hkg
      rw [hself q (hkg ▸ hq)] at hp
      exact absurd hp List.not_mem_nil
    exact ⟨hkg, by rwa [← hother k hkg]⟩
  -- the entries that are removed belong to `g`
  have hentries : ∀ p c, w.children.find? p = some c → c.goal ≠ g → w'.children.find? p = some c := by
    intro p c hc hcg
    rcases hrest with ⟨pid, c₀, hpid, hc₀, hchildren, -⟩ | ⟨-, hchildren, -⟩
    · have hmem : pid ∈ G.pids := by
        rcases hpid with hpid | hpid
        · exact Goal.ownPid_mem_pids hpid
        · rw [hpid]
          exact List.mem_singleton.mpr rfl
      obtain ⟨c₁, hc₁, hgoal⟩ := h.entry g _ (procs_of_find hG) pid hmem
      have hpp : p ≠ pid := by
        intro hpp
        rw [hpp, hc₁] at hc
        cases hc
        exact hcg hgoal
      rw [hchildren, SortedMap.find?_erase, if_neg hpp, hc]
    · rw [hchildren, hc]
  constructor
  · intro k q hq p hp
    obtain ⟨hkg, hq⟩ := hold k q p hq hp
    obtain ⟨c, hc, hgoal⟩ := h.entry k q hq p hp
    exact ⟨c, hentries p c hc (hgoal ▸ hkg), hgoal⟩
  · intro k q hq hne
    obtain ⟨p, hp⟩ := List.exists_mem_of_ne_nil _ hne
    exact h.busy k q (hold k q p hq hp).2 hne
  · intro p c hc hslot
    have hc₀ : w.children.find? p = some c ∧ G.ownPid ≠ some p := by
      rcases hrest with ⟨pid, c₀, hpid, hc₀, hchildren, -⟩ | ⟨hown, hchildren, -⟩
      · rw [hchildren, SortedMap.find?_erase] at hc
        split_ifs at hc with hpp
        refine ⟨hc, fun hown => hpp ?_⟩
        rcases hpid with hpid | hpid
        · exact Option.some.inj (hown.symm.trans hpid)
        · have hmem := Goal.ownPid_mem_pids hown
          rw [hpid] at hmem
          exact List.mem_singleton.mp hmem
      · rw [hchildren] at hc
        exact ⟨hc, by rw [hown]; simp⟩
    obtain ⟨q, hq, hown⟩ := h.slot p c hc₀.1 hslot
    have hcg : c.goal ≠ g := by
      intro hcg
      rw [hcg, procs_of_find hG] at hq
      cases hq
      exact hc₀.2 hown
    exact ⟨q, by rw [hother _ hcg, hq], hown⟩
  · intro p hp k q hq hmem
    exact h.hook p (hhook ▸ hp) k q (hold k q p hq hmem).2 hmem
  · rcases hrest with ⟨pid, c, -, hc, hchildren, hnr⟩ | ⟨-, hchildren, hnr⟩
    · have hcount : w'.children.count Child.inBuildSlot +
          w.children.countAt Child.inBuildSlot pid = w.children.count Child.inBuildSlot +
          w'.children.countAt Child.inBuildSlot pid :=
        SortedMap.count_add_countAt fun k hk => by
          rw [hchildren, SortedMap.find?_erase, if_neg hk]
      have hnone : w'.children.find? pid = none := by
        rw [hchildren, SortedMap.find?_erase, if_pos rfl]
      simp only [SortedMap.countAt, hc, hnone, Option.any_some, Option.any_none, Bool.false_eq_true,
        if_false] at hcount
      rw [hnr, h.count]
      unfold slots
      cases hslot : c.inBuildSlot with
      | true =>
        rw [hslot, if_pos rfl] at hcount
        rw [if_pos rfl]
        omega
      | false =>
        rw [hslot, if_neg (by decide)] at hcount
        rw [if_neg (by decide)]
        omega
    · rw [hnr, h.count, slots, slots, hchildren]

/-- A goal without processes gets one, whose identifier is not used. -/
theorem Kids.gain {w w' : Worker} (h : w.Kids) {g : GoalId} {G G' : Goal} {pid : Pid} {c : Child}
    (hG : w.goals.find? g = some G) (hG' : w'.goals.find? g = some G') (hpids : G.pids = [])
    (hbusy : G'.exitCode = .ecBusy) (hpids' : G'.pids = [pid])
    (hother : ∀ k, k ≠ g → w'.procs k = w.procs k)
    (hfresh : ∀ k q, w.procs k = some q → pid ∉ q.pids) (hgoal : c.goal = g)
    (hown : c.inBuildSlot = true → G'.ownPid = some pid)
    (hchildren : w'.children = w.children.insert pid c)
    (hnr : w'.nrLocalBuilds = if c.inBuildSlot then w.nrLocalBuilds + 1 else w.nrLocalBuilds)
    (hhook : w'.hook = none ∨ (w'.hook = w.hook ∧ w.hook ≠ some pid)) : w'.Kids := by
  -- an old entry for the identifier has no slot
  have hold : ∀ c₀, w.children.find? pid = some c₀ → c₀.inBuildSlot = false := by
    intro c₀ hc₀
    by_contra hslot
    obtain ⟨q, hq, hq'⟩ := h.slot pid c₀ hc₀ (by simpa using hslot)
    obtain ⟨H, hH, rfl⟩ := procs_eq_some.mp hq
    exact hfresh _ _ hq (Goal.ownPid_mem_pids hq')
  have hself : ∀ q, w'.procs g = some q → q = G'.procs := by
    intro q hq
    rw [procs_of_find hG'] at hq
    exact (Option.some.inj hq).symm
  constructor
  · intro k q hq p hp
    rw [hchildren]
    by_cases hkg : k = g
    · subst hkg
      rw [hself q hq] at hp
      have hpp : p = pid := by
        change p ∈ G'.pids at hp
        rw [hpids'] at hp
        exact List.mem_singleton.mp hp
      exact ⟨c, by rw [SortedMap.find?_insert, if_pos hpp], hgoal⟩
    · rw [hother k hkg] at hq
      obtain ⟨c₀, hc₀, hgoal₀⟩ := h.entry k q hq p hp
      have hpp : p ≠ pid := fun hpp => hfresh k q hq (hpp ▸ hp)
      exact ⟨c₀, by rw [SortedMap.find?_insert, if_neg hpp, hc₀], hgoal₀⟩
  · intro k q hq hne
    by_cases hkg : k = g
    · subst hkg
      rw [hself q hq]
      exact hbusy
    · exact h.busy k q (hother k hkg ▸ hq) hne
  · intro p c₀ hc₀ hslot
    rw [hchildren, SortedMap.find?_insert] at hc₀
    split_ifs at hc₀ with hpp
    · cases hc₀
      rw [hgoal, hpp]
      exact ⟨_, procs_of_find hG', hown hslot⟩
    · obtain ⟨q, hq, hq'⟩ := h.slot p c₀ hc₀ hslot
      have hcg : c₀.goal ≠ g := by
        intro hcg
        rw [hcg, procs_of_find hG] at hq
        cases hq
        have hmem := Goal.ownPid_mem_pids hq'
        rw [hpids] at hmem
        exact List.not_mem_nil hmem
      exact ⟨q, by rw [hother _ hcg, hq], hq'⟩
  · intro p hp k q hq hmem
    rcases hhook with hnone | ⟨hsame, hne⟩
    · rw [hnone] at hp
      cases hp
    · rw [hsame] at hp
      by_cases hkg : k = g
      · subst hkg
        rw [hself q hq] at hmem
        change p ∈ G'.pids at hmem
        rw [hpids'] at hmem
        rw [List.mem_singleton.mp hmem] at hp
        exact hne hp
      · exact h.hook p hp k q (hother k hkg ▸ hq) hmem
  · have hcount : w'.children.count Child.inBuildSlot +
        w.children.countAt Child.inBuildSlot pid = w.children.count Child.inBuildSlot +
        w'.children.countAt Child.inBuildSlot pid :=
      SortedMap.count_add_countAt fun k hk => by
        rw [hchildren, SortedMap.find?_insert, if_neg hk]
    have hzero : w.children.countAt Child.inBuildSlot pid = 0 := by
      unfold SortedMap.countAt
      rw [if_neg]
      intro hany
      obtain ⟨c₀, hc₀, hslot⟩ := (Option.any_eq_true _ _).mp hany
      rw [hold c₀ hc₀] at hslot
      cases hslot
    have hone : w'.children.countAt Child.inBuildSlot pid = if c.inBuildSlot then 1 else 0 := by
      rw [SortedMap.countAt, hchildren, SortedMap.find?_insert, if_pos rfl, Option.any_some]
    rw [hzero, hone] at hcount
    rw [hnr, h.count]
    unfold slots
    split_ifs at hcount ⊢
    · omega
    · omega

/-- When a process ceases, its entry is erased, and the slot that it had is free. -/
theorem Ceased.entry_eq {pid : Pid} {w w' : Worker} (h : Ceased pid w w') :
    ∃ c, w.children.find? pid = some c ∧ w'.children = w.children.erase pid ∧
      w'.nrLocalBuilds = if c.inBuildSlot then w.nrLocalBuilds - 1 else w.nrLocalBuilds := by
  obtain ⟨c, hc, -, hw'⟩ := h.entry
  exact ⟨c, hc, (congrArg children hw' :), (congrArg nrLocalBuilds hw' :)⟩

/-! ### Both together -/

/-- The tables agree with the goals, and no more slots are taken than there are. -/
structure Tables (env : BuildEnv) (w : Worker) : Prop where
  sound : w.Sound
  kids : w.Kids
  limit : w.nrLocalBuilds ≤ max 1 env.settings.maxBuildJobs

/-- A change of fields that the tables do not depend on. -/
theorem Tables.congr {env : BuildEnv} {w w' : Worker} (h : w.Tables env) (hgoals : w'.goals = w.goals)
    (hnext : w'.nextGoal = w.nextGoal) (hd : w'.derivationGoals = w.derivationGoals)
    (hs : w'.substitutionGoals = w.substitutionGoals) (hchildren : w'.children = w.children)
    (hnr : w'.nrLocalBuilds = w.nrLocalBuilds) (hhook : w'.hook = w.hook) : w'.Tables env := by
  refine ⟨h.sound.congr (fun k => ?_) hnext hd hs, h.kids.congr (fun k => ?_) hchildren hnr hhook,
    hnr ▸ h.limit⟩
  · rw [node, node, hgoals]
  · rw [procs, procs, hgoals]

/-- The processes of a goal are waited for or forgotten. -/
theorem Tables.lose {env : BuildEnv} {w w' : Worker} {g : GoalId} {G G' : Goal} (h : w.Tables env)
    (hG : w.goals.find? g = some G) (hG' : w'.goals.find? g = some G') (hreaped : G.Reaped G' [])
    (hother : ∀ k, k ≠ g → w'.goals.find? k = w.goals.find? k)
    (hnext : w'.nextGoal = w.nextGoal) (hd : w'.derivationGoals = w.derivationGoals)
    (hs : w'.substitutionGoals = w.substitutionGoals) (hhook : w'.hook = w.hook)
    (hrest : Dropped G w w') : w'.Tables env := by
  refine ⟨h.sound.congr (fun k => ?_) hnext hd hs,
    h.kids.lose hG (fun k hk => ?_) (fun q hq => ?_) hhook hrest, ?_⟩
  · by_cases hk : k = g
    · rw [hk, node_of_find hG', node_of_find hG, hreaped.node]
    · rw [node, node, hother k hk]
  · rw [procs, procs, hother k hk]
  · rw [procs_of_find hG'] at hq
    cases hq
    exact hreaped.pids
  · exact hrest.nrLocalBuilds_le.trans h.limit

/-- Stripping a goal of its process keeps the tables. -/
theorem Tables.stripped {env : BuildEnv} {w w' : Worker} {g : GoalId} {G : Goal} (h : w.Tables env)
    (hG : w.goals.find? g = some G) (hs : Stripped g G w w') : w'.Tables env := by
  obtain ⟨G', hG', hreaped, -⟩ := hs.goal
  rcases hs.rest with ⟨pid, hpid, hceased⟩ | ⟨hpid, hw'⟩
  · obtain ⟨c, -, -, hw'⟩ := hceased.entry
    obtain ⟨c', hc', hchildren, hnr⟩ := Ceased.entry_eq hceased
    exact h.lose hG hG' hreaped hs.other (congrArg nextGoal hw' :) (congrArg derivationGoals hw' :)
      (congrArg substitutionGoals hw' :) (congrArg hook hw' :)
      (Or.inl ⟨pid, c', Or.inl hpid, hc', hchildren, hnr⟩)
  · exact h.lose hG hG' hreaped hs.other (congrArg nextGoal hw' :) (congrArg derivationGoals hw' :)
      (congrArg substitutionGoals hw' :) (congrArg hook hw' :)
      (Or.inr ⟨hpid, (congrArg children hw' :), (congrArg nrLocalBuilds hw' :)⟩)

/-- Preparing a step keeps the tables. -/
theorem Tables.prep {env : BuildEnv} {w w' : Worker} {g : GoalId} {G : Goal} (h : w.Tables env)
    (hG : w.goals.find? g = some G) (hbusy : G.exitCode = .ecBusy) (hp : PrepKind g w w') :
    w'.Tables env := by
  cases hp with
  | alike ha =>
    refine ⟨h.sound.alike ha, h.kids.alike ha, ?_⟩
    rw [ha.rest]
    exact h.limit
  | created k N hc =>
    refine ⟨h.sound.created hc, h.kids.created h.sound hc, ?_⟩
    rw [hc.rest]
    exact h.limit
  | link i hi heq =>
    subst heq
    exact ⟨h.sound.link hi (node_of_find hG) hbusy, h.kids.link, h.limit⟩
  | reap f G₀ pid hG₀ hpid hf hceased =>
    obtain ⟨c, -, -, hw'⟩ := hceased.entry
    obtain ⟨c', hc', hchildren, hnr⟩ := Ceased.entry_eq hceased
    have hgoals : w'.goals = (w.updateGoal g f).goals := (congrArg goals hw' :)
    refine h.lose hG₀ ?_ hf (fun k hk => ?_) (congrArg nextGoal hw' :)
      (congrArg derivationGoals hw' :) (congrArg substitutionGoals hw' :) (congrArg hook hw' :)
      (Or.inl ⟨pid, c', Or.inr hpid, hc', hchildren, hnr⟩)
    · rw [hgoals, find?_updateGoal hG₀]
    · rw [hgoals, find?_updateGoal_ne hk]
  | startHook pid hno hfresh heq =>
    subst heq
    exact ⟨h.sound.congr (fun _ => rfl) rfl rfl rfl, h.kids.startHook hfresh, h.limit⟩

/-- The end of a goal keeps the tables. -/
theorem Tables.afterDone {env : BuildEnv} {keepGoing : Bool} {g : GoalId} {r : ExitCode}
    {w w' : Worker} {G : Goal} (h : w.Tables env) (hd : AfterDone keepGoing g r w G w')
    (hG : w.goals.find? g = some G) (hr : r ≠ .ecBusy) (hno : G.waitees = ∅) (hpids : G.pids = []) :
    w'.Tables env := by
  have hchildren : w'.children = w.children := by rw [hd.rest]
  have hnr : w'.nrLocalBuilds = w.nrLocalBuilds := by rw [hd.rest]
  have hhook : w'.hook = w.hook := by rw [hd.rest]
  -- the processes of goals are the same, and only the exit code of `g` is not
  have hprocs : ∀ k q', w'.procs k = some q' → ∃ q, w.procs k = some q ∧ q'.pids = q.pids ∧
      q'.ownPid = q.ownPid ∧ (q'.pids ≠ [] → q'.exitCode = q.exitCode) := by
    intro k q' hq'
    obtain ⟨K', hK', rfl⟩ := procs_eq_some.mp hq'
    obtain ⟨K, hK, hkind, hexit, -⟩ := hd.goal_before hK'
    have hpk : K'.pids = K.pids := by simp only [Goal.pids, hkind]
    refine ⟨K.procs, procs_of_find hK, hpk, ?_, fun hne => ?_⟩
    · simp only [Goal.procs, Goal.ownPid, hkind]
    · have hkg : k ≠ g := by
        intro hkg
        rw [hkg, hG] at hK
        cases hK
        exact hne (hpk.trans hpids)
      change K'.exitCode = K.exitCode
      rw [hexit, if_neg hkg]
  refine ⟨h.sound.afterDone hd hG hr hno, ⟨?_, ?_, ?_, ?_, ?_⟩, hnr ▸ h.limit⟩
  · intro k q' hq' p hp
    obtain ⟨q, hq, hpq, -⟩ := hprocs k q' hq'
    rw [hchildren]
    exact h.kids.entry k q hq p (hpq ▸ hp)
  · intro k q' hq' hne
    obtain ⟨q, hq, hpq, -, hexit⟩ := hprocs k q' hq'
    rw [hexit hne]
    exact h.kids.busy k q hq (hpq ▸ hne)
  · intro p c hc hslot
    rw [hchildren] at hc
    obtain ⟨q, hq, hown⟩ := h.kids.slot p c hc hslot
    obtain ⟨K, hK, rfl⟩ := procs_eq_some.mp hq
    obtain ⟨K', hK', hkind, -⟩ := hd.goal c.goal K hK
    refine ⟨K'.procs, procs_of_find hK', ?_⟩
    rw [← hown]
    simp only [Goal.procs, Goal.ownPid, hkind]
  · intro p hp k q' hq' hmem
    obtain ⟨q, hq, hpq, -⟩ := hprocs k q' hq'
    exact h.kids.hook p (hhook ▸ hp) k q hq (hpq ▸ hmem)
  · rw [hnr, h.kids.count, slots, slots, hchildren]

/-- The destruction of a goal keeps the tables. -/
theorem Tables.destroyed {env : BuildEnv} {w w' : Worker} {g : GoalId} {G : Goal} (h : w.Tables env)
    (hG : w.goals.find? g = some G) (hd : Destroyed g G w w') (hfree : w.referenced g = false) :
    w'.Tables env := by
  have hrest : w'.hook = w.hook ∧ Dropped G w w' := by
    rcases hd.rest with ⟨pid, hpid, hceased⟩ | ⟨hpid, hw'⟩
    · obtain ⟨c, -, -, hw'⟩ := hceased.entry
      obtain ⟨c', hc', hchildren, hnr⟩ := Ceased.entry_eq hceased
      exact ⟨(congrArg hook hw' :), Or.inl ⟨pid, c', Or.inl hpid, hc', hchildren, hnr⟩⟩
    · exact ⟨(congrArg hook hw' :),
        Or.inr ⟨hpid, (congrArg children hw' :), (congrArg nrLocalBuilds hw' :)⟩⟩
  obtain ⟨hhook, hrest⟩ := hrest
  refine ⟨h.sound.destroyed hd hfree,
    h.kids.lose hG (fun k hk => ?_) (fun q hq => ?_) hhook hrest, ?_⟩
  · rw [procs, procs, hd.goals, SortedMap.find?_erase, if_neg hk]
  · rw [procs, hd.goals, SortedMap.find?_erase, if_pos rfl] at hq
    cases hq
  · exact hrest.nrLocalBuilds_le.trans h.limit

/-- A goal starts a process. -/
theorem Tables.gain {env : BuildEnv} {w w' : Worker} {g : GoalId} {f : Goal → Goal} {G : Goal}
    {pid : Pid} {c : Child} (h : w.Tables env) (hG : w.goals.find? g = some G)
    (hbusy : G.exitCode = .ecBusy) (hpids : G.pids = []) (hf : G.Reaped (f G) [pid])
    (hfresh : ∀ k q, w.procs k = some q → pid ∉ q.pids) (hgoal : c.goal = g)
    (hown : c.inBuildSlot = true → (f G).ownPid = some pid)
    (hslot : c.inBuildSlot = true → w.nrLocalBuilds < max 1 env.settings.maxBuildJobs)
    (hgoals : w'.goals = (w.updateGoal g f).goals) (hnext : w'.nextGoal = w.nextGoal)
    (hd : w'.derivationGoals = w.derivationGoals)
    (hs : w'.substitutionGoals = w.substitutionGoals)
    (hchildren : w'.children = w.children.insert pid c)
    (hnr : w'.nrLocalBuilds = if c.inBuildSlot then w.nrLocalBuilds + 1 else w.nrLocalBuilds)
    (hhook : w'.hook = none ∨ (w'.hook = w.hook ∧ w.hook ≠ some pid)) : w'.Tables env := by
  have hG' : w'.goals.find? g = some (f G) := by rw [hgoals, find?_updateGoal hG]
  refine ⟨h.sound.congr (fun k => ?_) hnext hd hs,
    h.kids.gain hG hG' hpids (hf.exitCode.trans hbusy) hf.pids (fun k hk => ?_) hfresh hgoal hown
      hchildren hnr hhook, ?_⟩
  · rw [node, hgoals]
    exact node_updateGoal hG hf.node k
  · rw [procs, procs, hgoals, find?_updateGoal_ne hk]
  · rw [hnr]
    split_ifs with hin
    · exact hslot hin
    · exact h.limit

/-- Reading from a child keeps the tables. -/
theorem Tables.read {env : BuildEnv} {inp : Input} {pid : Pid} {g : GoalId} {fds : List ChildFd}
    {w w' : Worker} (h : w.Tables env) (hr : Read inp pid g fds w w') : w'.Tables env := by
  have hw' := hr.rest
  obtain ⟨f, hf, hsame⟩ := hr.children
  have hprocs : ∀ k, w'.procs k = w.procs k := by
    intro k
    rw [hw']
    rfl
  -- an entry has the same goal and slot as before
  have hentry : ∀ p, w'.children.find? p =
      (w.children.find? p).map fun c => if p = pid then f c else c := by
    intro p
    rw [hf, SortedMap.find?_modify]
    split_ifs
    · rfl
    · rw [Option.map_id']
  have hkeep : ∀ p c', w'.children.find? p = some c' → ∃ c, w.children.find? p = some c ∧
      c'.goal = c.goal ∧ c'.inBuildSlot = c.inBuildSlot := by
    intro p c' hc'
    rw [hentry] at hc'
    obtain ⟨c, hc, rfl⟩ := Option.map_eq_some_iff.mp hc'
    refine ⟨c, hc, ?_⟩
    split_ifs
    · exact ⟨(hsame c).1, (hsame c).2.1⟩
    · exact ⟨rfl, rfl⟩
  refine ⟨h.sound.congr (fun k => ?_) ?_ ?_ ?_, ⟨?_, ?_, ?_, ?_, ?_⟩, ?_⟩
  · rw [hw']
    rfl
  · rw [hw']
  · rw [hw']
  · rw [hw']
  · intro k q hq p hp
    rw [hprocs] at hq
    obtain ⟨c, hc, hgoal⟩ := h.kids.entry k q hq p hp
    rw [hentry, hc]
    refine ⟨_, rfl, ?_⟩
    split_ifs
    · exact (hsame c).1.trans hgoal
    · exact hgoal
  · simpa only [hprocs] using h.kids.busy
  · intro p c' hc' hslot
    obtain ⟨c, hc, hgoal, hin⟩ := hkeep p c' hc'
    rw [hprocs, hgoal]
    exact h.kids.slot p c hc (hin ▸ hslot)
  · have hhook : w'.hook = w.hook := by rw [hw']
    simpa only [hprocs, hhook] using h.kids.hook
  · have hnr : w'.nrLocalBuilds = w.nrLocalBuilds := by rw [hw']
    have hcount : w'.children.count Child.inBuildSlot +
        w.children.countAt Child.inBuildSlot pid = w.children.count Child.inBuildSlot +
        w'.children.countAt Child.inBuildSlot pid :=
      SortedMap.count_add_countAt fun k hk => by
        rw [hf, SortedMap.find?_modify, if_neg hk]
    have hat : w'.children.countAt Child.inBuildSlot pid =
        w.children.countAt Child.inBuildSlot pid := by
      unfold SortedMap.countAt
      rw [hf, SortedMap.find?_modify, if_pos rfl]
      cases w.children.find? pid with
      | none => rfl
      | some c => simp only [Option.map_some, Option.any_some, (hsame c).2.1]
    rw [hnr, h.kids.count]
    unfold slots
    omega
  · rw [hw']
    exact h.limit

end Worker

end Nix
