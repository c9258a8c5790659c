import NixStore.Build.Run

/-!
# The relation between waiting goals

Who waits for whom is stored twice, in `waitees` and in `waiters`.  This file says what `amDone` does
to the two sides, and what the functions that make goals do.
-/

namespace Nix

/-! ### General facts about the heap -/

namespace SortedMap

variable {κ β : Type*} [LinearOrder κ]

/-- Changing the values of several keys. -/
theorem find?_foldl_modify {l : List κ} (hl : l.Nodup) (f : β → β) (m : SortedMap κ β) (k : κ) :
    (l.foldl (fun m i => m.modify i f) m).find? k =
      if k ∈ l then (m.find? k).map f else m.find? k := by
  induction l generalizing m with
  | nil => simp
  | cons a l ih =>
    obtain ⟨ha, hl⟩ := List.nodup_cons.mp hl
    rw [List.foldl_cons, ih hl, find?_modify]
    by_cases hk : k = a
    · subst hk
      simp [ha]
    · simp [hk]

/-- A map is empty when it has no key. -/
theorem eq_empty_iff {m : SortedMap κ β} : m = ∅ ↔ ∀ k, k ∉ m := by
  constructor
  · intro h k
    rw [h]
    exact notMem_empty k
  · intro h
    refine ext_find? fun k => ?_
    rw [find?_eq_none_iff.mpr (h k)]
    exact (find?_eq_none_iff.mpr (notMem_empty k)).symm

/-- A map is not empty when it has a key. -/
theorem ne_empty_iff {m : SortedMap κ β} : m ≠ ∅ ↔ ∃ k, k ∈ m := by
  rw [Ne, eq_empty_iff]
  push Not
  rfl

end SortedMap

namespace Worker

/-- The live goals of a set of weak pointers. -/
theorem mem_alive {w : Worker} {s : SortedSet GoalId} {g : GoalId} :
    g ∈ w.alive s ↔ g ∈ s ∧ g ∈ w.goals := by
  simp [alive, List.mem_filter]

/-- Waking goals up adds those that live. -/
theorem mem_awake_wakeUpAll {w : Worker} {s : SortedSet GoalId} {g : GoalId} :
    g ∈ (w.wakeUpAll s).awake ↔ g ∈ w.awake ∨ (g ∈ s ∧ g ∈ w.goals) := by
  rw [wakeUpAll, SortedSet.mem_foldl_insert, mem_alive, or_comm]

/-- A goal is there when it has an entry. -/
theorem mem_goals_iff {w : Worker} {g : GoalId} : g ∈ w.goals ↔ ∃ G, w.goals.find? g = some G := by
  rw [SortedMap.mem_iff_find?_ne_none, Option.ne_none_iff_exists']

/-! ### The two sides of the relation -/

/-- A goal waits for another one exactly if it is among the goals to notify, and it waits only for
goals that are not done. -/
structure Linked (w : Worker) : Prop where
  waiter_iff : ∀ g G h H, w.goals.find? g = some G → w.goals.find? h = some H →
    (h ∈ G.waitees ↔ g ∈ H.waiters)
  waitee_busy : ∀ g G, w.goals.find? g = some G → ∀ h ∈ G.waitees,
    ∃ H, w.goals.find? h = some H ∧ H.exitCode = .ecBusy

end Worker

section

variable (keepGoing : Bool) (g : GoalId) (r : ExitCode)

/-- The waiter is put in `awake` when `g` ends with the result `r`. -/
def Goal.Freed (J : Goal) : Prop :=
  J.waitees.erase g = ∅ ∨ (r = .ecFailed ∧ keepGoing = false)

/-- What is left of the goals that a waiter waits for. -/
def Goal.WaiteesAfter (J : Goal) (s : SortedSet GoalId) : Prop :=
  (J.Freed keepGoing g r → s = ∅) ∧ (¬ J.Freed keepGoing g r → s = J.waitees.erase g)

/-- The state after the waiters in the list `D` were notified. -/
structure Notified (w : Worker) (D : List GoalId) (s : Worker) : Prop where
  goal : ∀ h H, w.goals.find? h = some H → ∃ H', s.goals.find? h = some H' ∧
    H'.kind = H.kind ∧ H'.exitCode = H.exitCode ∧
    (h ∈ D → H.WaiteesAfter keepGoing g r H'.waitees) ∧ (h ∉ D → H'.waitees = H.waitees) ∧
    ∀ j, j ∈ H'.waiters ↔ j ∈ H.waiters ∧
      ¬ (j ∈ D ∧ h ≠ g ∧ ∃ J, w.goals.find? j = some J ∧ J.Freed keepGoing g r ∧ h ∈ J.waitees)
  dead : ∀ h, w.goals.find? h = none → s.goals.find? h = none
  awake : ∀ j, j ∈ s.awake ↔
    j ∈ w.awake ∨ (j ∈ D ∧ ∃ J, w.goals.find? j = some J ∧ J.Freed keepGoing g r)
  rest : s = { w with goals := s.goals, awake := s.awake }

end

variable {keepGoing : Bool} {g : GoalId} {r : ExitCode} {w : Worker}

/-- Nobody is notified. -/
theorem notified_nil : Notified keepGoing g r w [] w where
  goal h H hH := ⟨H, hH, rfl, rfl, by simp, by simp, by simp⟩
  dead _ := id
  awake := by simp
  rest := rfl

/-- A waiter that is destroyed is skipped. -/
theorem Notified.skip {D : List GoalId} {s : Worker} (h : Notified keepGoing g r w D s) {a : GoalId}
    (hA : w.goals.find? a = none) : Notified keepGoing g r w (D ++ [a]) s where
  goal k K hK := by
    obtain ⟨K', hK', hkind, hexit, hin, hout, hwaiters⟩ := h.goal k K hK
    have hka : k ≠ a := fun hka => by rw [hka, hA] at hK; cases hK
    refine ⟨K', hK', hkind, hexit, fun hk => hin (by simpa [hka] using hk),
      fun hk => hout (by simpa [hka] using hk), fun j => ?_⟩
    rw [hwaiters j]
    by_cases hja : j = a
    · simp [hja, hA]
    · simp [hja]
  dead := h.dead
  awake j := by
    rw [h.awake j]
    by_cases hja : j = a
    · simp [hja, hA]
    · simp [hja]
  rest := h.rest

/-- A waiter that is not freed only loses `g`. -/
theorem Notified.count {D : List GoalId} {s : Worker} (h : Notified keepGoing g r w D s) {a : GoalId}
    (ha : a ∉ D) {A A' : Goal} (hA : w.goals.find? a = some A) (hA' : s.goals.find? a = some A')
    (hfreed : ¬ A.Freed keepGoing g r) :
    Notified keepGoing g r w (D ++ [a]) (s.setGoal a (A'.countWaitee g r)) where
  goal k K hK := by
    obtain ⟨K', hK', hkind, hexit, hin, hout, hwaiters⟩ := h.goal k K hK
    have hwaiter : ∀ j, j ∈ K'.waiters ↔ j ∈ K.waiters ∧
        ¬ (j ∈ D ++ [a] ∧ k ≠ g ∧ ∃ J, w.goals.find? j = some J ∧ J.Freed keepGoing g r ∧
          k ∈ J.waitees) := by
      intro j
      rw [hwaiters j]
      by_cases hja : j = a
      · subst hja
        simp [ha, hA, hfreed]
      · simp [hja]
    simp only [Worker.setGoal, SortedMap.find?_insert]
    by_cases hka : k = a
    · subst hka
      rw [hA] at hK
      cases hK
      rw [hA'] at hK'
      cases hK'
      have hcount : (A'.countWaitee g r).waitees = A.waitees.erase g := by
        rw [Goal.countWaitee, hout ha]
      rw [if_pos rfl]
      exact ⟨_, rfl, hkind, hexit, fun _ => ⟨fun hf => absurd hf hfreed, fun _ => hcount⟩,
        fun hn => absurd (by simp) hn, hwaiter⟩
    · rw [if_neg hka]
      exact ⟨K', hK', hkind, hexit, fun hk => hin (by simpa [hka] using hk),
        fun hk => hout (by simpa [hka] using hk), hwaiter⟩
  dead k hk := by
    have hka : k ≠ a := fun hka => by rw [hka, hA] at hk; cases hk
    simp [Worker.setGoal, hka, h.dead k hk]
  awake j := by
    rw [Worker.setGoal, h.awake j]
    by_cases hja : j = a
    · simp [hja, hA, hfreed]
    · simp [hja]
  rest := by
    rw [h.rest]
    rfl

/-- The heap after a waiter is freed. -/
def freeWaiter (goals : SortedMap GoalId Goal) (a : GoalId) (A : Goal) : SortedMap GoalId Goal :=
  A.waitees.toList.foldl (fun goals i =>
    goals.modify i fun other => { other with waiters := other.waiters.erase a })
    (goals.insert a { A with waitees := ∅ })

/-- Freeing a waiter changes it and what it waited for. -/
theorem find?_freeWaiter (goals : SortedMap GoalId Goal) (a : GoalId) (A : Goal) (k : GoalId) :
    (freeWaiter goals a A).find? k =
      if k ∈ A.waitees then
        ((goals.insert a { A with waitees := ∅ }).find? k).map fun other =>
          { other with waiters := other.waiters.erase a }
      else (goals.insert a { A with waitees := ∅ }).find? k :=
  SortedMap.find?_foldl_modify (SortedMap.keys_nodup _) _ _ _

/-- A waiter that is freed is taken out of the lists of its other waitees, and it is woken up. -/
theorem Notified.free {D : List GoalId} {s : Worker} (h : Notified keepGoing g r w D s) {a : GoalId}
    (ha : a ∉ D) {A A' : Goal} (hA : w.goals.find? a = some A) (hA' : s.goals.find? a = some A')
    (hfreed : A.Freed keepGoing g r) :
    Notified keepGoing g r w (D ++ [a])
      ({ s with goals := freeWaiter s.goals a (A'.countWaitee g r) }.wakeUp a) where
  goal k K hK := by
    obtain ⟨K', hK', hkind, hexit, hin, hout, hwaiters⟩ := h.goal k K hK
    have hcount : ∀ i, i ∈ (A'.countWaitee g r).waitees ↔ i ≠ g ∧ i ∈ A.waitees := by
      intro i
      obtain ⟨A'', hA'', -, -, -, houtA, -⟩ := h.goal a A hA
      rw [hA'] at hA''
      cases hA''
      rw [Goal.countWaitee, houtA ha, SortedSet.mem_erase]
    have hwaiter : ∀ j, j ∈ K.waiters ∧
        ¬ (j ∈ D ++ [a] ∧ k ≠ g ∧ ∃ J, w.goals.find? j = some J ∧ J.Freed keepGoing g r ∧
          k ∈ J.waitees) ↔ j ∈ K'.waiters ∧ (k ≠ g ∧ k ∈ A.waitees → j ≠ a) := by
      intro j
      rw [hwaiters j]
      by_cases hja : j = a
      · subst hja
        simp [ha, hA, hfreed]
      · simp [hja]
    simp only [Worker.wakeUp, find?_freeWaiter, SortedMap.find?_insert, hcount]
    by_cases hka : k = a
    · subst hka
      rw [hA] at hK
      cases hK
      rw [hA'] at hK'
      cases hK'
      rw [if_pos rfl]
      by_cases hself : k ≠ g ∧ k ∈ A.waitees
      · rw [if_pos hself]
        refine ⟨_, rfl, hkind, hexit, fun _ => ⟨fun _ => rfl, fun hn => absurd hfreed hn⟩,
          fun hn => absurd (by simp) hn, fun j => ?_⟩
        rw [hwaiter j, SortedSet.mem_erase, Goal.countWaitee]
        tauto
      · rw [if_neg hself]
        refine ⟨_, rfl, hkind, hexit, fun _ => ⟨fun _ => rfl, fun hn => absurd hfreed hn⟩,
          fun hn => absurd (by simp) hn, fun j => ?_⟩
        rw [hwaiter j, Goal.countWaitee]
        tauto
    · rw [if_neg hka, hK']
      have hin' : k ∈ D ++ [a] → K.WaiteesAfter keepGoing g r K'.waitees := fun hk =>
        hin (by simpa [hka] using hk)
      have hout' : k ∉ D ++ [a] → K'.waitees = K.waitees := fun hk =>
        hout (by simpa [hka] using hk)
      by_cases hwait : k ≠ g ∧ k ∈ A.waitees
      · rw [if_pos hwait]
        refine ⟨_, rfl, hkind, hexit, hin', hout', fun j => ?_⟩
        rw [hwaiter j, SortedSet.mem_erase]
        tauto
      · rw [if_neg hwait]
        refine ⟨_, rfl, hkind, hexit, hin', hout', fun j => ?_⟩
        rw [hwaiter j]
        tauto
  dead k hk := by
    have hka : k ≠ a := fun hka => by rw [hka, hA] at hk; cases hk
    simp [Worker.wakeUp, find?_freeWaiter, hka, h.dead k hk]
  awake j := by
    rw [Worker.wakeUp, SortedSet.mem_insert, h.awake j]
    by_cases hja : j = a
    · simp [hja, hA, hfreed]
    · simp [hja]
  rest := by
    rw [h.rest]
    rfl

/-- One round of the loop of `amDone`. -/
theorem Notified.waiteeDone {D : List GoalId} {s : Worker} (h : Notified keepGoing g r w D s)
    {a : GoalId} (ha : a ∉ D) (hg : ∀ A, w.goals.find? a = some A → g ∈ A.waitees) :
    Prog.Ends (waiteeDone keepGoing a g r) s (fun _ s' => Notified keepGoing g r w (D ++ [a]) s')
      fun _ _ => False := by
  unfold Nix.waiteeDone
  refine Prog.ends_get_bind ?_
  cases hA : w.goals.find? a with
  | none =>
    rw [h.dead a hA]
    exact Prog.ends_pure (h.skip hA)
  | some A =>
    obtain ⟨A', hA', -, -, -, hout, -⟩ := h.goal a A hA
    have hmem : g ∈ A'.waitees := hout ha ▸ hg A hA
    have hiff : ((A'.countWaitee g r).waitees = ∅ ∨ (r = .ecFailed ∧ keepGoing = false)) ↔
        A.Freed keepGoing g r := by
      rw [Goal.Freed, Goal.countWaitee, hout ha]
    rw [hA']
    refine ends_assert_bind (fun _ => ?_) fun hn => hn hmem
    dsimp only
    by_cases hfreed : A.Freed keepGoing g r
    · rw [if_pos (hiff.mpr hfreed)]
      exact Prog.ends_modify (h.free ha hA hA' hfreed)
    · rw [if_neg fun hf => hfreed (hiff.mp hf)]
      exact Prog.ends_modify (h.count ha hA hA' hfreed)

/-! ### The end of a goal -/

/-- The top-level goals that are left after `g` has ended. -/
def topGoalsAfter (keepGoing : Bool) (g : GoalId) (r : ExitCode) (topGoals : SortedSet GoalId) :
    SortedSet GoalId :=
  if g ∈ topGoals then if decide (r = .ecFailed) && !keepGoing then ∅ else topGoals.erase g
  else topGoals

/-- The list of top goals only becomes shorter. -/
theorem topGoalsAfter_subset {s : SortedSet GoalId} {h : GoalId}
    (hh : h ∈ topGoalsAfter keepGoing g r s) : h ∈ s ∧ h ≠ g := by
  unfold topGoalsAfter at hh
  split_ifs at hh with hg hr
  · exact absurd hh (SortedMap.notMem_empty h)
  · exact (SortedSet.mem_erase.mp hh).symm
  · exact ⟨hh, fun heq => hg (heq ▸ hh)⟩

/-- The state `w'` is what the end of the goal `g` with the result `r` makes of `w`. -/
structure AfterDone (keepGoing : Bool) (g : GoalId) (r : ExitCode) (w : Worker) (G : Goal)
    (w' : Worker) : Prop where
  goal : ∀ h H, w.goals.find? h = some H → ∃ H', w'.goals.find? h = some H' ∧ H'.kind = H.kind ∧
    H'.exitCode = (if h = g then r else H.exitCode) ∧
    (h ∈ G.waiters → H.WaiteesAfter keepGoing g r H'.waitees) ∧
    (h ∉ G.waiters → H'.waitees = H.waitees) ∧
    ∀ j, j ∈ H'.waiters ↔ h ≠ g ∧ j ∈ H.waiters ∧
      ¬ (j ∈ G.waiters ∧ ∃ J, w.goals.find? j = some J ∧ J.Freed keepGoing g r ∧ h ∈ J.waitees)
  dead : ∀ h, w.goals.find? h = none → w'.goals.find? h = none
  awake : ∀ j, j ∈ w'.awake ↔ j ∈ w.awake ∨ (j ∈ w.waitingForAnyGoal ∧ j ∈ w.goals) ∨
    (j ∈ G.waiters ∧ ∃ J, w.goals.find? j = some J ∧ J.Freed keepGoing g r)
  rest : w' = { w with
    goals := w'.goals
    awake := w'.awake
    waitingForAnyGoal := ∅
    derivationGoals := w.derivationGoals.filter fun e => e.2 ≠ g
    substitutionGoals := w.substitutionGoals.filter fun e => e.2 ≠ g
    topGoals := topGoalsAfter keepGoing g r w.topGoals }

/-- The end of a goal destroys none. -/
theorem AfterDone.mem_goals {G : Goal} {w' : Worker} (h : AfterDone keepGoing g r w G w') {k : GoalId} :
    k ∈ w'.goals ↔ k ∈ w.goals := by
  rw [Worker.mem_goals_iff, Worker.mem_goals_iff]
  constructor
  · intro hk
    by_contra hno
    have hnone : w.goals.find? k = none := by
      cases hk' : w.goals.find? k with
      | none => rfl
      | some K => exact absurd ⟨K, hk'⟩ hno
    obtain ⟨K', hK'⟩ := hk
    rw [h.dead k hnone] at hK'
    cases hK'
  · intro hk
    obtain ⟨K, hK⟩ := hk
    obtain ⟨K', hK', -⟩ := h.goal k K hK
    exact ⟨K', hK'⟩

/-- The record of a goal before the end of `g`, from the one after it. -/
theorem AfterDone.goal_before {G : Goal} {w' : Worker} (h : AfterDone keepGoing g r w G w')
    {k : GoalId} {K' : Goal} (hK' : w'.goals.find? k = some K') :
    ∃ K, w.goals.find? k = some K ∧ K'.kind = K.kind ∧
      K'.exitCode = (if k = g then r else K.exitCode) ∧
      (k ∈ G.waiters → K.WaiteesAfter keepGoing g r K'.waitees) ∧
      (k ∉ G.waiters → K'.waitees = K.waitees) ∧
      ∀ j, j ∈ K'.waiters ↔ k ≠ g ∧ j ∈ K.waiters ∧
        ¬ (j ∈ G.waiters ∧ ∃ J, w.goals.find? j = some J ∧ J.Freed keepGoing g r ∧
          k ∈ J.waitees) := by
  obtain ⟨K, hK⟩ := Worker.mem_goals_iff.mp (h.mem_goals.mp (Worker.mem_goals_iff.mpr ⟨K', hK'⟩))
  obtain ⟨K'', hK'', hrest⟩ := h.goal k K hK
  rw [hK'] at hK''
  cases hK''
  exact ⟨K, hK, hrest⟩

/-- What `amDone` does to a goal that is not done yet. -/
theorem amDone_spec (hl : w.Linked) {G : Goal} (hG : w.goals.find? g = some G)
    (hbusy : G.exitCode = .ecBusy) :
    Prog.Ends (amDone keepGoing g r) w (fun _ w' => AfterDone keepGoing g r w G w')
      fun _ _ => False := by
  unfold amDone
  refine Prog.ends_get_bind ?_
  rw [hG]
  refine ends_assert_bind (fun _ => Prog.ends_modify_bind ?_) fun hn => hn hbusy
  let w₁ := w.setGoal g { G with exitCode := r }
  have hfind : ∀ h, w₁.goals.find? h =
      if h = g then some { G with exitCode := r } else w.goals.find? h := fun h =>
    SortedMap.find?_insert _ _ _ _
  -- the only difference between the two heaps is the exit code of `g`
  have hsame : ∀ h H, w.goals.find? h = some H → ∃ H₁, w₁.goals.find? h = some H₁ ∧
      H₁.kind = H.kind ∧ H₁.waitees = H.waitees ∧ H₁.waiters = H.waiters ∧
      H₁.exitCode = if h = g then r else H.exitCode := by
    intro h H hH
    rw [hfind h]
    by_cases hhg : h = g
    · subst hhg
      rw [hG] at hH
      cases hH
      exact ⟨_, if_pos rfl, rfl, rfl, rfl, (if_pos rfl).symm⟩
    · rw [if_neg hhg, if_neg hhg]
      exact ⟨H, hH, rfl, rfl, rfl, rfl⟩
  have hloop : Prog.Ends (Prog.each (fun i => waiteeDone keepGoing i g r) G.waiters.toList) w₁
      (fun _ s => Notified keepGoing g r w₁ G.waiters.toList s) fun _ _ => False := by
    refine Prog.Ends.each (I := fun D s => Notified keepGoing g r w₁ D s) _ ?_ notified_nil
    intro D a rest s hD hs
    have hnodup := SortedMap.keys_nodup G.waiters
    change G.waiters.toList.Nodup at hnodup
    rw [hD] at hnodup
    refine hs.waiteeDone ?_ ?_
    · intro ha
      exact (List.nodup_append.mp hnodup).2.2 a ha a List.mem_cons_self rfl
    · intro A₁ hA₁
      have haG : a ∈ G.waiters := by
        rw [← SortedSet.mem_toList, hD]
        simp
      by_cases hag : a = g
      · subst hag
        rw [hfind, if_pos rfl] at hA₁
        cases hA₁
        exact (hl.waiter_iff _ _ _ _ hG hG).mpr haG
      · rw [hfind, if_neg hag] at hA₁
        exact (hl.waiter_iff _ _ _ _ hA₁ hG).mpr haG
  refine hloop.bind ?_ fun _ _ => id
  intro _ s hs
  refine Prog.ends_modify_bind (Prog.ends_modify ?_)
  have hfreed : ∀ j, (∃ J, w₁.goals.find? j = some J ∧ J.Freed keepGoing g r) ↔
      ∃ J, w.goals.find? j = some J ∧ J.Freed keepGoing g r := by
    intro j
    rw [hfind j]
    by_cases hjg : j = g
    · subst hjg
      simp [hG, Goal.Freed]
    · simp [hjg]
  have hfreed' : ∀ j h, (∃ J, w₁.goals.find? j = some J ∧ J.Freed keepGoing g r ∧ h ∈ J.waitees) ↔
      ∃ J, w.goals.find? j = some J ∧ J.Freed keepGoing g r ∧ h ∈ J.waitees := by
    intro j h
    rw [hfind j]
    by_cases hjg : j = g
    · subst hjg
      simp [hG, Goal.Freed]
    · simp [hjg]
  have hmem : ∀ k, k ∈ s.goals ↔ k ∈ w.goals := by
    intro k
    rw [Worker.mem_goals_iff, Worker.mem_goals_iff]
    constructor
    · intro hk
      obtain ⟨K, hK⟩ := hk
      cases hk' : w₁.goals.find? k with
      | none => rw [hs.dead k hk'] at hK; cases hK
      | some K₁ =>
        rw [hfind k] at hk'
        by_cases hkg : k = g
        · exact ⟨G, hkg ▸ hG⟩
        · rw [if_neg hkg] at hk'
          exact ⟨K₁, hk'⟩
    · intro hk
      obtain ⟨K, hK⟩ := hk
      obtain ⟨K₁, hK₁, -⟩ := hsame k K hK
      obtain ⟨K', hK', -⟩ := hs.goal k K₁ hK₁
      exact ⟨K', hK'⟩
  refine ⟨fun h H hH => ?_, fun h hh => ?_, fun j => ?_, ?_⟩
  · obtain ⟨H₁, hH₁, hkind₁, hwaitees₁, hwaiters₁, hexit₁⟩ := hsame h H hH
    obtain ⟨H', hH', hkind, hexit, hin, hout, hwaiters⟩ := hs.goal h H₁ hH₁
    have hafter : H₁.WaiteesAfter keepGoing g r = H.WaiteesAfter keepGoing g r := by
      funext s
      simp only [Goal.WaiteesAfter, Goal.Freed, hwaitees₁]
    simp only [SortedSet.mem_toList, hafter, hwaitees₁] at hin hout
    simp only [SortedSet.mem_toList, hfreed', hwaiters₁] at hwaiters
    simp only [Worker.removeGoal, Worker.wakeUpAll, Worker.updateGoal, SortedMap.find?_modify, hH']
    by_cases hhg : h = g
    · rw [if_pos hhg]
      exact ⟨_, rfl, hkind.trans hkind₁, hexit.trans hexit₁, hin, hout, by simp [hhg]⟩
    · rw [if_neg hhg]
      exact ⟨_, rfl, hkind.trans hkind₁, hexit.trans hexit₁, hin, hout, by simpa [hhg] using hwaiters⟩
  · have hhg : h ≠ g := fun hhg => by rw [hhg, hG] at hh; cases hh
    have hh₁ : w₁.goals.find? h = none := by rw [hfind, if_neg hhg, hh]
    simp [Worker.removeGoal, Worker.wakeUpAll, Worker.updateGoal, hhg, hs.dead h hh₁]
  · have hany : s.waitingForAnyGoal = w.waitingForAnyGoal := by rw [hs.rest]; rfl
    change j ∈ (Worker.wakeUpAll _ _).awake ↔ _
    rw [Worker.mem_awake_wakeUpAll]
    simp only [Worker.updateGoal, hs.awake j, SortedSet.mem_toList, hfreed, hany,
      SortedMap.mem_modify, hmem]
    exact or_assoc.trans (or_congr Iff.rfl or_comm)
  · obtain ⟨G', hG', -, hexit, -⟩ := hs.goal g _ (by rw [hfind, if_pos rfl])
    have hany : (((s.goals.modify g fun goal => { goal with waiters := ∅ }).find? g).any
        fun goal => goal.exitCode = .ecFailed) = decide (r = .ecFailed) := by
      simp [hG', hexit]
    simp only [Worker.removeGoal, Worker.updateGoal, Worker.wakeUpAll, topGoalsAfter, hany]
    rw [hs.rest]
    rfl

/-- Nobody waits for `g` any more, and no goal waits for a goal that it did not wait for before. -/
theorem AfterDone.waitee_before {G : Goal} {w' : Worker} (h : AfterDone keepGoing g r w G w')
    (hl : w.Linked) (hG : w.goals.find? g = some G) {k : GoalId} {K K' : Goal}
    (hK : w.goals.find? k = some K) (hK' : w'.goals.find? k = some K') :
    ∀ j ∈ K'.waitees, j ∈ K.waitees ∧ j ≠ g := by
  intro j hj
  obtain ⟨K'', hK'', -, -, hin, hout, -⟩ := h.goal k K hK
  rw [hK'] at hK''
  cases hK''
  by_cases hkG : k ∈ G.waiters
  · by_cases hf : K.Freed keepGoing g r
    · rw [(hin hkG).1 hf] at hj
      exact absurd hj (SortedMap.notMem_empty j)
    · rw [(hin hkG).2 hf] at hj
      exact (SortedSet.mem_erase.mp hj).symm
  · rw [hout hkG] at hj
    refine ⟨hj, fun hjg => hkG ?_⟩
    subst hjg
    exact (hl.waiter_iff _ _ _ _ hK hG).mp hj

/-- The two sides of the relation still agree after the end of a goal. -/
theorem AfterDone.linked {G : Goal} {w' : Worker} (h : AfterDone keepGoing g r w G w')
    (hl : w.Linked) (hG : w.goals.find? g = some G) : w'.Linked := by
  constructor
  · intro k K' j J' hK' hJ'
    obtain ⟨K, hK, -, -, hin, hout, -⟩ := h.goal_before hK'
    obtain ⟨J, hJ, -, -, -, -, hwaiters⟩ := h.goal_before hJ'
    rw [hwaiters k, ← hl.waiter_iff _ _ _ _ hK hJ]
    constructor
    · intro hj
      obtain ⟨hjK, hjg⟩ := h.waitee_before hl hG hK hK' j hj
      refine ⟨hjg, hjK, ?_⟩
      intro hfree
      obtain ⟨hkG, K₂, hK₂, hf, -⟩ := hfree
      rw [hK] at hK₂
      cases hK₂
      rw [(hin hkG).1 hf] at hj
      exact SortedMap.notMem_empty j hj
    · intro hj
      obtain ⟨hjg, hjK, hno⟩ := hj
      by_cases hkG : k ∈ G.waiters
      · have hf : ¬ K.Freed keepGoing g r := fun hf => hno ⟨hkG, K, hK, hf, hjK⟩
        rw [(hin hkG).2 hf]
        exact SortedSet.mem_erase.mpr ⟨hjg, hjK⟩
      · rw [hout hkG]
        exact hjK
  · intro k K' hK' j hj
    obtain ⟨K, hK, -⟩ := h.goal_before hK'
    obtain ⟨hjK, hjg⟩ := h.waitee_before hl hG hK hK' j hj
    obtain ⟨J, hJ, hbusy⟩ := hl.waitee_busy k K hK j hjK
    obtain ⟨J', hJ', -, hexit, -⟩ := h.goal j J hJ
    exact ⟨J', hJ', by rw [hexit, if_neg hjg, hbusy]⟩

end Nix
