import NixStore.Build.Consistency

/-!
# Top-level goals

How the steps of the loop change the graph of goals and the strong pointers to it (`Move`).  What
follows for the top-level goals: those that are left are not done, and the others that the caller
holds are, unless one of them has failed and `keepGoing` is off.
-/

namespace Nix

open Relation

/-! ### Changes of the graph -/

namespace Worker

/-- There is a strong pointer to a goal exactly if it is a top-level goal, the caller has one, or a
goal waits for it. -/
theorem referenced_iff {w : Worker} {g : GoalId} :
    w.referenced g = true ↔
      g ∈ w.topGoals ∨ g ∈ w.held ∨ ∃ k n, w.node k = some n ∧ g ∈ n.waitees := by
  unfold referenced
  simp only [Bool.or_eq_true, decide_eq_true_eq, List.any_eq_true, or_assoc]
  refine or_congr Iff.rfl (or_congr Iff.rfl ⟨fun h => ?_, fun h => ?_⟩)
  · obtain ⟨e, he, hg⟩ := h
    exact ⟨e.1, e.2.node, node_of_find (SortedMap.find?_eq_some_iff.mpr he), hg⟩
  · obtain ⟨k, n, hn, hg⟩ := h
    obtain ⟨K, hK, rfl⟩ := node_eq_some.mp hn
    exact ⟨(k, K), SortedMap.find?_eq_some_iff.mp hK, hg⟩

/-- A worker is settled when every goal is referred to. -/
theorem settled_iff {w : Worker} :
    w.settled = true ↔ ∀ k n, w.node k = some n → w.referenced k = true := by
  unfold settled
  rw [List.all_eq_true]
  refine ⟨fun h k n hn => ?_, fun h k hk => ?_⟩
  · obtain ⟨K, hK, -⟩ := node_eq_some.mp hn
    exact h k (mem_goals_iff.mpr ⟨K, hK⟩)
  · obtain ⟨K, hK⟩ := mem_goals_iff.mp hk
    exact h k _ (node_of_find hK)

end Worker

/-- A change of the graph of goals, or of the strong pointers to them. -/
inductive Move (keepGoing : Bool) (w w' : Worker) : Prop
  | still (hnode : ∀ k, w'.node k = w.node k) (htop : w'.topGoals = w.topGoals)
      (hheld : w'.held = w.held)
  | created (i : GoalId) (n : GoalNode) (hnew : w.node i = none) (hno : n.waitees = ∅)
      (hbusy : n.exitCode = .ecBusy)
      (hnode : ∀ k, w'.node k = if k = i then some n else w.node k)
      (htop : w'.topGoals = w.topGoals) (hheld : w'.held = w.held)
  | link (g i : GoalId) (n : GoalNode) (hg : w.node g = some n) (hbusy : n.exitCode = .ecBusy)
      (href : w.referenced g = true) (hi : w.Listed i) (h : w' = w.addWaitee g i)
  | done (g : GoalId) (r : ExitCode) (G : Goal) (hl : w.Linked) (hG : w.goals.find? g = some G)
      (hbusy : G.exitCode = .ecBusy) (hno : G.waitees = ∅) (hr : r ≠ .ecBusy)
      (h : AfterDone keepGoing g r w G w')
  | destroyed (g : GoalId) (hfree : w.referenced g = false)
      (hnode : ∀ k, w'.node k = if k = g then none else w.node k)
      (htop : w'.topGoals = w.topGoals) (hheld : w'.held = w.held)
  | release (hnode : ∀ k, w'.node k = w.node k) (htop : w'.topGoals = ∅) (hheld : w'.held = ∅)

/-- A worker that looks alike has the same entries in the graph. -/
theorem Alike.node {g : GoalId} {w w' : Worker} (h : Alike g w w') (k : GoalId) :
    w'.node k = w.node k := by
  rw [Worker.node_eq_map_view, Worker.node_eq_map_view, h.view]

/-- The graph does not depend on the record of a goal but for its node. -/
theorem node_of_other {w w' : Worker} {g : GoalId} {G G' : Goal} (hG : w.goals.find? g = some G)
    (hG' : w'.goals.find? g = some G') (hsame : G'.node = G.node)
    (hother : ∀ k, k ≠ g → w'.goals.find? k = w.goals.find? k) (k : GoalId) :
    w'.node k = w.node k := by
  by_cases hk : k = g
  · rw [hk, Worker.node_of_find hG, Worker.node_of_find hG', hsame]
  · rw [Worker.node, Worker.node, hother k hk]

/-- A preparing step of a goal to which there is a strong pointer. -/
theorem PrepKind.move {g : GoalId} {w w' : Worker} (keepGoing : Bool) (h : PrepKind g w w')
    (hsound : w.Sound) {n : GoalNode} (hg : w.node g = some n) (hbusy : n.exitCode = .ecBusy)
    (href : w.referenced g = true) : Move keepGoing w w' ∧ w'.referenced g = true := by
  have hkeeps : ∀ w₁ : Worker, (∀ k m, w.node k = some m → ∃ m', w₁.node k = some m' ∧
      ∀ j ∈ m.waitees, j ∈ m'.waitees) → w₁.topGoals = w.topGoals → w₁.held = w.held →
      w₁.referenced g = true := by
    intro w₁ hnode htop hheld
    rw [Worker.referenced_iff] at href ⊢
    rw [htop, hheld]
    refine href.imp id (Or.imp id fun hw => ?_)
    obtain ⟨k, m, hm, hgm⟩ := hw
    obtain ⟨m', hm', hsub⟩ := hnode k m hm
    exact ⟨k, m', hm', hsub g hgm⟩
  have hstill : (∀ k, w'.node k = w.node k) → w'.topGoals = w.topGoals → w'.held = w.held →
      Move keepGoing w w' ∧ w'.referenced g = true := fun hnode htop hheld =>
    ⟨.still hnode htop hheld,
      hkeeps w' (fun k m hm => ⟨m, (hnode k).trans hm, fun _ => id⟩) htop hheld⟩
  cases h with
  | alike ha =>
    refine hstill ha.node ?_ ?_
    · rw [ha.rest]
    · rw [ha.rest]
  | created key N hc =>
    have hnew : w.node w.nextGoal = none := by
      cases hn : w.node w.nextGoal with
      | none => rfl
      | some m => exact absurd (hsound.lt _ m hn) (Nat.lt_irrefl _)
    have hnode : ∀ k, w'.node k = if k = w.nextGoal then some N.node else w.node k := by
      intro k
      rw [Worker.node_eq_map_view, Worker.view_created hc, Worker.node_eq_map_view]
      split_ifs <;> rfl
    have htop : w'.topGoals = w.topGoals := by rw [hc.rest]
    have hheld : w'.held = w.held := by rw [hc.rest]
    refine ⟨.created w.nextGoal N.node hnew hc.waitees hc.exitCode hnode htop hheld,
      hkeeps w' (fun k m hm => ⟨m, ?_, fun _ => id⟩) htop hheld⟩
    rw [hnode, if_neg (hsound.lt k m hm).ne, hm]
  | link i hi heq =>
    subst heq
    refine ⟨.link g i n hg hbusy href hi rfl, hkeeps _ (fun k m hm => ?_) rfl rfl⟩
    rw [Worker.node_addWaitee, hm]
    refine ⟨_, rfl, fun j hj => ?_⟩
    dsimp only
    split_ifs
    · exact SortedSet.mem_insert.mpr (Or.inr hj)
    · exact hj
  | reap f G pid hG hpid hf hc =>
    obtain ⟨c, -, -, hw'⟩ := hc.entry
    have hgoals : w'.goals = (w.updateGoal g f).goals := (congrArg Worker.goals hw' :)
    refine hstill (node_of_other hG (?_ : w'.goals.find? g = some (f G)) hf.node fun k hk => ?_)
      (congrArg Worker.topGoals hw' :) (congrArg Worker.held hw' :)
    · rw [hgoals, find?_updateGoal hG]
    · rw [hgoals, find?_updateGoal_ne hk]
  | startHook pid hno hfresh heq =>
    subst heq
    exact hstill (fun _ => rfl) rfl rfl

/-- The turn of a goal is made of moves. -/
theorem During.moves {env : BuildEnv} {batch : SortedSet GoalId} {F : FailureCause → Prop} {g : GoalId}
    {w w' : Worker} (keepGoing : Bool) (h : During env batch g w) (href : w.referenced g = true)
    (hp : ReflTransGen (Prep F g) w w') :
    ReflTransGen (Move keepGoing) w w' ∧ w'.referenced g = true := by
  induction hp with
  | refl => exact ⟨.refl, href⟩
  | @tail w₁ w₂ hp hstep ih =>
    have h₁ := h.preps hp
    obtain ⟨G, hG, hbusy⟩ := h₁.busy
    obtain ⟨hmove, href₂⟩ := (hstep.kinds hG hbusy).move keepGoing h₁.tables.sound
      (Worker.node_of_find hG) hbusy ih.2
    exact ⟨ih.1.tail hmove, href₂⟩

/-- The record of one goal changes, but not its node. -/
theorem Move.of_other {keepGoing : Bool} {w w' : Worker} {g : GoalId} {G G' : Goal}
    (hG : w.goals.find? g = some G) (hG' : w'.goals.find? g = some G') (hsame : G'.node = G.node)
    (hother : ∀ k, k ≠ g → w'.goals.find? k = w.goals.find? k) (htop : w'.topGoals = w.topGoals)
    (hheld : w'.held = w.held) : Move keepGoing w w' :=
  .still (node_of_other hG hG' hsame hother) htop hheld

/-- The end of a turn is a move. -/
theorem Ended.move {env : BuildEnv} {batch : SortedSet GoalId} {g : GoalId} {R N : Prop}
    {w w' : Worker} (h : During env batch g w) (he : Ended env g R N w w') :
    Move env.settings.keepGoing w w' := by
  cases he with
  | @starts G f pid fds now hG hno hpids hf hown hfit hready hfresh hslot =>
    exact .of_other hG (find?_updateGoal hG f) hf.node (fun k hk => find?_updateGoal_ne hk) rfl rfl
  | @startsHook G f pid fds now hG hno hpids hf hfit hready hhook =>
    exact .of_other hG (find?_updateGoal hG f) hf.node (fun k hk => find?_updateGoal_ne hk) rfl rfl
  | @finishes _ G r hG hno hpids hr hdone hsuccess hnone =>
    obtain ⟨G₀, hG₀, hbusy⟩ := h.busy
    rw [hG] at hG₀
    cases hG₀
    have hlinked := h.tables.sound.linked
    exact .done g r G hlinked hG hbusy hno hr ((amDone_spec hlinked hG hbusy).of_ok hdone)
  | _ => exact .still (fun _ => rfl) rfl rfl

/-- Stripping is a move. -/
theorem Stripped.move {keepGoing : Bool} {g : GoalId} {G : Goal} {w w' : Worker}
    (hG : w.goals.find? g = some G) (h : Stripped g G w w') : Move keepGoing w w' := by
  obtain ⟨G', hG', hreaped, -⟩ := h.goal
  have hsame : w'.topGoals = w.topGoals ∧ w'.held = w.held := by
    rcases h.rest with ⟨pid, -, hceased⟩ | ⟨-, hw'⟩
    · obtain ⟨c, -, -, hw'⟩ := hceased.entry
      exact ⟨(congrArg Worker.topGoals hw' :), (congrArg Worker.held hw' :)⟩
    · rw [hw']
      exact ⟨rfl, rfl⟩
  exact .of_other hG hG' hreaped.node h.other hsame.1 hsame.2

/-- Cancelling a goal that waits for nothing. -/
theorem Cancelled.moves {keepGoing : Bool} {g : GoalId} {G : Goal} {w w' : Worker} (hl : w.Linked)
    (hG : w.goals.find? g = some G) (hno : G.waitees = ∅) (h : Cancelled keepGoing g G w w') :
    ReflTransGen (Move keepGoing) w w' := by
  obtain ⟨hbusy, w₁, G₁, hs, hG₁, hreaped, -, hd⟩ := h
  have hnode := node_of_other hG hG₁ hreaped.node hs.other
  have hl₁ : w₁.Linked := by
    rw [Worker.linked_iff] at hl ⊢
    simpa only [hnode] using hl
  exact (ReflTransGen.single (hs.move hG)).tail (.done g .ecFailed G₁ hl₁ hG₁
    (hreaped.exitCode.trans hbusy) (hreaped.waitees.trans hno) (by decide) hd)

/-- Destroying a goal that nothing refers to is a move. -/
theorem Destroyed.move {keepGoing : Bool} {g : GoalId} {G : Goal} {w w' : Worker}
    (hfree : w.referenced g = false) (h : Destroyed g G w w') : Move keepGoing w w' := by
  have hsame : w'.topGoals = w.topGoals ∧ w'.held = w.held := by
    rcases h.rest with ⟨pid, -, hceased⟩ | ⟨-, hw'⟩
    · obtain ⟨c, -, -, hw'⟩ := hceased.entry
      exact ⟨(congrArg Worker.topGoals hw' :), (congrArg Worker.held hw' :)⟩
    · rw [hw']
      exact ⟨rfl, rfl⟩
  refine .destroyed g hfree (fun k => ?_) hsame.1 hsame.2
  rw [Worker.node, h.goals, SortedMap.find?_erase]
  split_ifs <;> rfl

/-- Reading from a child is a move. -/
theorem Read.move {keepGoing : Bool} {inp : Input} {pid : Pid} {g : GoalId} {fds : List ChildFd}
    {w w' : Worker} (h : Read inp pid g fds w w') : Move keepGoing w w' := by
  rw [h.rest]
  exact .still (fun k => rfl) rfl rfl

/-- Polling is made of moves. -/
theorem Polled.moves {env : BuildEnv} {inp : Input} {pid : Pid} {w w' : Worker} {o : Option Stop}
    (hb : Between env ∅ w) (h : Polled env inp pid w o w') :
    ReflTransGen (Move env.settings.keepGoing) w w' := by
  have hfind : ∀ {g fds w₁ G}, Read inp pid g fds w w₁ → w.goals.find? g = some G →
      w₁.goals.find? g = some G := by
    intro g fds w₁ G hr hG
    rw [hr.rest]
    exact hG
  -- the goal that is cancelled has a child and waits for nothing
  have hcancel : ∀ {c : Child} {G : Goal} {w₁ w₂ : Worker}, w.children.find? pid = some c →
      w.goals.find? c.goal = some G → Read inp pid c.goal c.fds w w₁ →
      Cancelled env.settings.keepGoing c.goal G w₁ w₂ →
      ReflTransGen (Move env.settings.keepGoing) w w₂ := by
    intro c G w₁ w₂ hc hG hr hd
    have hchild : G.pids ≠ [] := List.ne_nil_of_mem (hb.tended.mem_pids hc hG hd.busy)
    have hno : G.waitees = ∅ := hb.queued.child c.goal _ (by simp) (Worker.view_of_find hG) hchild
    exact (ReflTransGen.single hr.move).trans
      (hd.moves (hb.read hc hr).tables.sound.linked (hfind hr hG) hno)
  cases h with
  | gone hc => exact .refl
  | dead c hc hG => exact .refl
  | failed c fds e hc hr he => exact .single hr.move
  | read c G hc hG hr hlate => exact .single hr.move
  | cancelled c G hc hG hr hlate hd => exact hcancel hc hG hr hd
  | refused c G hc hG hr hspent hlate hs =>
    exact (ReflTransGen.single hr.move).tail (hs.move (hfind hr hG))
  | twice c G G₂ hc hG hr hlate hd hG₂ hs => exact (hcancel hc hG hr hd).tail (hs.move hG₂)

/-- Every step of the loop consists of such changes; only a goal with a strong pointer to it is
called. -/
theorem StepCase.moves {env : BuildEnv} {r r' : RunState} {e : Event} (hinv : LoopInv env r)
    (h : StepCase env r e r') :
    ReflTransGen (Move env.settings.keepGoing) r.worker r'.worker := by
  cases h with
  | destroy hG hfree hd => exact .single (hd.move hfree)
  | @work awake2 g ans G w' hp hg hs htop hc =>
    have hduring := hinv.during hp hg hc.find hc.busy
    obtain ⟨w₁, hpreps, hended⟩ := hc.worked
    have href := Worker.settled_iff.mp hs g _ (Worker.node_of_find hc.find)
    exact (hduring.moves _ href hpreps).1.tail (hended.move (hduring.preps hpreps))
  | @workThrew awake2 g ans G w' e hp hg hs hG hbusy he hpreps =>
    have hduring := hinv.during hp hg hG hbusy
    have href := Worker.settled_iff.mp hs g _ (Worker.node_of_find hG)
    exact (hduring.moves _ href hpreps).1
  | poll hp hs hpoll =>
    have hb := hinv.between (by rw [hp]; trivial)
    rw [hp] at hb
    exact hpoll.moves hb
  | endInput hp =>
    refine .single (.still (fun k => ?_) ?_ ?_) <;>
    · unfold Worker.endInput
      split_ifs <;> rfl
  | release hp => exact .single (.release (fun _ => rfl) rfl rfl)
  | _ => exact .single (.still (fun _ => rfl) rfl rfl)

/-! ### The goals of the caller -/

namespace Worker

/-- The top-level goals that are left are not done.  The other goals that the caller holds are done,
unless one of them has failed and `keepGoing` is off. -/
structure Top (keepGoing : Bool) (w : Worker) : Prop where
  top_held : ∀ g ∈ w.topGoals, g ∈ w.held
  top_busy : ∀ g ∈ w.topGoals, ∃ n, w.node g = some n ∧ n.exitCode = .ecBusy
  held_live : ∀ g ∈ w.held, ∃ n, w.node g = some n
  held_busy : ∀ g ∈ w.held, ∀ n, w.node g = some n → n.exitCode = .ecBusy → g ∈ w.topGoals ∨
    (w.topGoals = ∅ ∧ keepGoing = false ∧
      ∃ f ∈ w.held, ∃ m, w.node f = some m ∧ m.exitCode = .ecFailed)

/-- While there are top-level goals, the caller holds no other goals that are not done. -/
theorem Top.mem_topGoals {keepGoing : Bool} {w : Worker} (h : w.Top keepGoing)
    (hne : w.topGoals ≠ ∅) {g : GoalId} (hg : g ∈ w.held) {n : GoalNode} (hn : w.node g = some n)
    (hbusy : n.exitCode = .ecBusy) : g ∈ w.topGoals := by
  rcases h.held_busy g hg n hn hbusy with htop | ⟨hno, -⟩
  · exact htop
  · exact absurd hno hne

/-- The invariant depends only on the exit codes of the goals that the caller holds. -/
theorem Top.congr {keepGoing : Bool} {w w' : Worker} (h : w.Top keepGoing)
    (htop : w'.topGoals = w.topGoals) (hheld : w'.held = w.held)
    (hnode : ∀ k ∈ w.held, ∀ n, w.node k = some n →
      ∃ n', w'.node k = some n' ∧ n'.exitCode = n.exitCode) : w'.Top keepGoing := by
  have hlive : ∀ k ∈ w.held, ∀ n', w'.node k = some n' →
      ∃ n, w.node k = some n ∧ n'.exitCode = n.exitCode := by
    intro k hk n' hn'
    obtain ⟨n, hn⟩ := h.held_live k hk
    obtain ⟨n'', hn'', hexit⟩ := hnode k hk n hn
    rw [hn'] at hn''
    cases hn''
    exact ⟨n, hn, hexit⟩
  constructor
  · rw [htop, hheld]
    exact h.top_held
  · intro g hg
    rw [htop] at hg
    obtain ⟨n, hn, hbusy⟩ := h.top_busy g hg
    obtain ⟨n', hn', hexit⟩ := hnode g (h.top_held g hg) n hn
    exact ⟨n', hn', hexit.trans hbusy⟩
  · intro g hg
    rw [hheld] at hg
    obtain ⟨n, hn⟩ := h.held_live g hg
    obtain ⟨n', hn', -⟩ := hnode g hg n hn
    exact ⟨n', hn'⟩
  · intro g hg n' hn' hbusy
    rw [hheld] at hg
    obtain ⟨n, hn, hexit⟩ := hlive g hg n' hn'
    rw [htop, hheld]
    refine (h.held_busy g hg n hn (hexit.symm.trans hbusy)).imp id fun hfail => ?_
    obtain ⟨hno, hkeep, f, hf, m, hm, hfailed⟩ := hfail
    obtain ⟨m', hm', hexit'⟩ := hnode f hf m hm
    exact ⟨hno, hkeep, f, hf, m', hm', hexit'.trans hfailed⟩

end Worker

/-- What other goals depend on in a goal after the end of `g`, from what they did before. -/
theorem AfterDone.node {keepGoing : Bool} {g : GoalId} {r : ExitCode} {w w' : Worker} {G : Goal}
    (h : AfterDone keepGoing g r w G w') {k : GoalId} {n : GoalNode} (hn : w.node k = some n) :
    ∃ n', w'.node k = some n' ∧ n'.exitCode = (if k = g then r else n.exitCode) := by
  obtain ⟨K, hK, rfl⟩ := Worker.node_eq_some.mp hn
  obtain ⟨K', hK', -, hexit, -⟩ := h.goal k K hK
  exact ⟨K'.node, Worker.node_of_find hK', hexit⟩

/-- A top goal that ends leaves the list, and a failure empties it without `keepGoing`. -/
theorem Worker.Top.done {keepGoing : Bool} {g : GoalId} {r : ExitCode} {w w' : Worker} {G : Goal}
    (h : w.Top keepGoing) (hl : w.Linked) (hG : w.goals.find? g = some G)
    (hbusy : G.exitCode = .ecBusy) (hr : r ≠ .ecBusy) (hd : AfterDone keepGoing g r w G w') :
    w'.Top keepGoing := by
  have htop : w'.topGoals = topGoalsAfter keepGoing g r w.topGoals := by rw [hd.rest]
  have hheld : w'.held = w.held := by rw [hd.rest]
  constructor
  · intro k hk
    rw [htop] at hk
    rw [hheld]
    exact h.top_held k (topGoalsAfter_subset hk).1
  · intro k hk
    rw [htop] at hk
    obtain ⟨hk, hkg⟩ := topGoalsAfter_subset hk
    obtain ⟨n, hn, hnbusy⟩ := h.top_busy k hk
    obtain ⟨n', hn', hexit⟩ := hd.node hn
    rw [if_neg hkg] at hexit
    exact ⟨n', hn', hexit.trans hnbusy⟩
  · intro k hk
    rw [hheld] at hk
    obtain ⟨n, hn⟩ := h.held_live k hk
    obtain ⟨n', hn', -⟩ := hd.node hn
    exact ⟨n', hn'⟩
  · intro k hk n' hn' hnbusy
    rw [hheld] at hk
    obtain ⟨n, hn, -, hexit, -⟩ := node_afterDone hd hl hG hn'
    have hkg : k ≠ g := by
      intro hkg
      rw [if_pos hkg] at hexit
      exact hr (hexit.symm.trans hnbusy)
    rw [if_neg hkg] at hexit
    rw [htop, hheld]
    rcases h.held_busy k hk n hn (hexit.symm.trans hnbusy) with hmem | ⟨hno, hkeep, f, hf, m, hm, hfail⟩
    · unfold topGoalsAfter
      split_ifs with hg hfailed
      · -- the top-level goal `g` has failed, and the other ones are given up
        simp only [Bool.and_eq_true, decide_eq_true_eq, Bool.not_eq_true'] at hfailed
        obtain ⟨m, hm, hexitg⟩ := hd.node (node_of_find hG)
        rw [if_pos rfl] at hexitg
        exact Or.inr ⟨rfl, hfailed.2, g, h.top_held g hg, m, hm, hexitg.trans hfailed.1⟩
      · exact Or.inl (SortedSet.mem_erase.mpr ⟨hkg, hmem⟩)
      · exact Or.inl hmem
    · right
      obtain ⟨m', hm', hexitf⟩ := hd.node hm
      have hfg : f ≠ g := by
        intro hfg
        rw [hfg, node_of_find hG] at hm
        cases hm
        cases hbusy.symm.trans hfail
      rw [if_neg hfg] at hexitf
      refine ⟨?_, hkeep, f, hf, m', hm', hexitf.trans hfail⟩
      rw [hno, topGoalsAfter, if_neg (SortedMap.notMem_empty g)]

/-- Every move keeps the list of top goals right. -/
theorem Move.top {keepGoing : Bool} {w w' : Worker} (hm : Move keepGoing w w') (h : w.Top keepGoing) :
    w'.Top keepGoing := by
  cases hm with
  | still hnode htop hheld =>
    exact h.congr htop hheld fun k _ n hn => ⟨n, (hnode k).trans hn, rfl⟩
  | created i n hnew hno hbusy hnode htop hheld =>
    refine h.congr htop hheld fun k _ m hm => ⟨m, ?_, rfl⟩
    rw [hnode, if_neg, hm]
    intro hk
    rw [hk, hnew] at hm
    cases hm
  | link g i n hg hbusy href hi heq =>
    subst heq
    refine h.congr rfl rfl fun k _ m hm => ?_
    rw [Worker.node_addWaitee, hm]
    exact ⟨_, rfl, rfl⟩
  | done g r G hl hG hbusy hno hr hd => exact h.done hl hG hbusy hr hd
  | destroyed g hfree hnode htop hheld =>
    refine h.congr htop hheld fun k hk n hn => ⟨n, ?_, rfl⟩
    rw [hnode, if_neg, hn]
    intro hkg
    have href : w.referenced g = true := Worker.referenced_iff.mpr (Or.inr (Or.inl (hkg ▸ hk)))
    rw [href] at hfree
    cases hfree
  | release hnode htop hheld =>
    have hempty : ∀ k, k ∉ w'.topGoals ∧ k ∉ w'.held := by
      intro k
      rw [htop, hheld]
      exact ⟨SortedMap.notMem_empty k, SortedMap.notMem_empty k⟩
    exact ⟨fun k hk => absurd hk (hempty k).1, fun k hk => absurd hk (hempty k).1,
      fun k hk => absurd hk (hempty k).2, fun k hk => absurd hk (hempty k).2⟩

/-- The goals of the caller are live, and no goal is done before the loop is entered. -/
def Worker.Fresh (w : Worker) : Prop :=
  (∀ k n, w.node k = some n → n.exitCode = .ecBusy) ∧ ∀ k ∈ w.held, ∃ n, w.node k = some n

/-- Taking a request leaves a new worker new. -/
theorem Worker.Fresh.holdGoal {w : Worker} (h : w.Fresh) (repair : Bool) (request : Request) :
    (w.holdGoal repair request).Fresh := by
  have hnode : ∀ k, (w.holdGoal repair request).node k = (w.makeGoal repair request).2.node k :=
    fun _ => rfl
  have hheld : (w.holdGoal repair request).held =
      (w.makeGoal repair request).2.held.insert (w.makeGoal repair request).1 := rfl
  rcases makeGoal_cases w repair request with ⟨key, N, hid, hc⟩ | ⟨⟨hlive, -⟩, hsame⟩
  · have hview : ∀ k, (w.holdGoal repair request).node k =
        if k = w.nextGoal then some N.node else w.node k := by
      intro k
      rw [hnode, Worker.node_eq_map_view, Worker.view_created hc, Worker.node_eq_map_view]
      split_ifs <;> rfl
    constructor
    · intro k n hn
      rw [hview] at hn
      split_ifs at hn
      · cases hn
        exact hc.exitCode
      · exact h.1 k n hn
    · intro k hk
      rw [hview]
      rw [hheld, hid, SortedSet.mem_insert] at hk
      by_cases hkn : k = w.nextGoal
      · exact ⟨N.node, if_pos hkn⟩
      · rw [if_neg hkn]
        have hheld' : (w.makeGoal repair request).2.held = w.held := by rw [hc.rest]
        rw [hheld'] at hk
        exact h.2 k (hk.resolve_left hkn)
  · have hview : ∀ k, (w.holdGoal repair request).node k = w.node k := by
      intro k
      rw [hnode]
      rcases hsame with heq | ⟨outputs, heq⟩
      · rw [heq]
      · rw [heq]
        exact (alike_want (g := w.nextGoal)).node k
    have hheld' : (w.makeGoal repair request).2.held = w.held := by
      rcases hsame with heq | ⟨outputs, heq⟩
      · rw [heq]
      · rw [heq]
        rfl
    constructor
    · intro k n hn
      rw [hview] at hn
      exact h.1 k n hn
    · intro k hk
      rw [hview]
      rw [hheld, hheld', SortedSet.mem_insert] at hk
      rcases hk with rfl | hk
      · obtain ⟨K, hK⟩ := Worker.mem_goals_iff.mp hlive
        exact ⟨_, Worker.node_of_find hK⟩
      · exact h.2 k hk

/-- The worker is new at the start. -/
theorem fresh_startRun (world : World) (requests : List Request) (repair : Bool) :
    (startRun world requests repair).worker.Fresh := by
  have hfold : ∀ (l : List Request) (w : Worker), w.Fresh →
      (l.foldl (Worker.holdGoal repair) w).Fresh := by
    intro l
    induction l with
    | nil => exact fun w h => h
    | cons request l ih => exact fun w h => ih _ (h.holdGoal repair request)
  refine hfold requests (.new world) ⟨fun k n hn => ?_, fun k hk => ?_⟩
  · cases hn
  · exact absurd hk (SortedMap.notMem_empty k)

/-- The list of top goals is right at the start. -/
theorem top_startRun (keepGoing : Bool) (world : World) (requests : List Request) (repair : Bool) :
    (startRun world requests repair).worker.Top keepGoing := by
  obtain ⟨hbusy, hlive⟩ := fresh_startRun world requests repair
  refine ⟨fun g hg => hg, fun g hg => ?_, hlive, fun g hg _ _ _ => Or.inl hg⟩
  obtain ⟨n, hn⟩ := hlive g hg
  exact ⟨n, hn, hbusy g n hn⟩

/-- Every step keeps the list of top goals right. -/
theorem StepCase.top {env : BuildEnv} {r r' : RunState} {e : Event} (hinv : LoopInv env r)
    (h : StepCase env r e r') (ht : r.worker.Top env.settings.keepGoing) :
    r'.worker.Top env.settings.keepGoing := by
  have hmoves : ∀ {w w' : Worker}, ReflTransGen (Move env.settings.keepGoing) w w' →
      w.Top env.settings.keepGoing → w'.Top env.settings.keepGoing := by
    intro w w' hp ht
    induction hp with
    | refl => exact ht
    | tail _ hmove ih => exact hmove.top ih
  exact hmoves (h.moves hinv) ht

/-- The invariants of the loop, and what they say about the goals of the caller. -/
theorem top_of_runs {env : BuildEnv} {cond : RunState → Event → RunState → Prop} {world : World}
    {requests : List Request} {repair : Bool} {r : RunState}
    (hr : Runs env cond (startRun world requests repair) r) :
    LoopInv env r ∧ r.worker.Top env.settings.keepGoing := by
  refine hr.invariant (I := fun r => r.worker.Top env.settings.keepGoing)
    (loopInv_startRun env world requests repair) (top_startRun _ world requests repair) ?_
  intro r e r' hinv ht hcase _ _
  exact hcase.top hinv ht

end Nix
