import NixStore.Build.WorkSteps

/-!
# The member functions of goals as steps

Every member function that `work` calls is a sequence of preparing steps with one last step, or it
throws (`Goes`).  There is one lemma for each of them.
-/

namespace Nix

open Relation

section

variable {env : BuildEnv} {ans : Answers} {F : FailureCause → Prop} {g : GoalId} {R N : Prop}
  {w₀ w : Worker}

/-! ### Helpers of the member functions -/

/-- A derivation goal without child and locks. -/
structure DerivationGoal.Idle (d : DerivationGoal) : Prop where
  pid : d.pid = none
  hook : d.hook = none
  locks : d.outputLocks = ∅

/-- A goal that is idle runs no builder. -/
theorem DerivationGoal.Idle.pids {d : DerivationGoal} (h : d.Idle) {G : Goal}
    (hk : G.kind = .derivation d) : G.pids = [] := by
  simp [Goal.pids, hk, h.pid, h.hook]

/-- A loaded derivation stays so while its path, its derivation and the world stay. -/
theorem DerivationGoal.Loaded.congr {d d' : DerivationGoal} {world world' : World}
    (h : d.Loaded env world) (hpath : d'.drvPath = d.drvPath) (hdrv : d'.drv = d.drv)
    (hworld : world' = world) : d'.Loaded env world' := by
  unfold Loaded
  rw [hpath, hdrv, hworld]
  exact h

/-- Valid outputs stay so while the derivation and the world stay. -/
theorem DerivationGoal.OutputsValid.congr {d d' : DerivationGoal} {world world' : World}
    (h : d.OutputsValid world) (hdrv : d'.drv = d.drv) (hworld : world' = world) :
    d'.OutputsValid world' := by
  unfold OutputsValid
  rw [hdrv, hworld]
  exact h

/-- What builds the same as a derivation goal is one of the same derivation. -/
theorem GoalKind.SameBuild.exists_derivation {k : GoalKind} {d : DerivationGoal}
    (h : (GoalKind.derivation d).SameBuild k) :
    ∃ d', k = .derivation d' ∧ d'.drvPath = d.drvPath ∧ d'.drv = d.drv ∧ (d.Idle → d'.Idle) := by
  cases k with
  | substitution s => cases h
  | derivation d' =>
    change _ = d at h
    rw [← h]
    exact ⟨d', rfl, rfl, rfl, fun hi => ⟨hi.pid, hi.hook, hi.locks⟩⟩

/-- A substitution goal builds the same as itself only. -/
theorem GoalKind.SameBuild.eq_substitution {k : GoalKind} {s : SubstitutionGoal}
    (h : (GoalKind.substitution s).SameBuild k) : k = .substitution s := by
  cases k with
  | substitution s' => exact h.symm
  | derivation d => cases h

/-- A program that changes nothing, and whose exceptions are no failed assertions of the worker. -/
def Quiet {α : Type} (m : WorkerM α) : Prop :=
  ∀ w, Prog.Ends m w (fun _ w' => w' = w) fun e w' => w' = w ∧ e.Plain

/-- An outcome that is lifted leaves the worker alone. -/
theorem quiet_lift {α : Type} (x : Outcome Str α) : Quiet (WorkerM.lift x) := by
  intro w
  cases x with
  | ok a => exact Prog.ends_pure rfl
  | error e => exact Prog.ends_throw ⟨rfl, trivial⟩
  | diverge => exact Prog.ends_throw ⟨rfl, trivial⟩

/-- Two quiet computations in a row are quiet. -/
theorem Quiet.bind {α β : Type} {m : WorkerM α} {f : α → WorkerM β} (hm : Quiet m)
    (hf : ∀ a, Quiet (f a)) : Quiet (m >>= f) := by
  intro w
  refine (hm w).bind (fun a w' hw' => ?_) fun _ _ => id
  exact hw' ▸ hf a w'

/-- A loop of quiet bodies is quiet. -/
theorem quiet_foldlM {α β : Type} {f : β → α → WorkerM β} (hf : ∀ b a, Quiet (f b a)) (l : List α)
    (b : β) : Quiet (l.foldlM f b) := by
  induction l generalizing b with
  | nil => exact fun w => Prog.ends_pure rfl
  | cons a l ih =>
    rw [List.foldlM_cons]
    exact (hf b a).bind ih

/-- An assertion is quiet: it goes on, or stops in the plain way. -/
theorem quiet_assert {a : Assertion} {p : Prop} [Decidable p] (ha : (Stop.assertion a).Plain) :
    Quiet (assert a p) := by
  intro w
  unfold assert
  split_ifs
  · exact Prog.ends_pure rfl
  · exact Prog.ends_throw ⟨rfl, ha⟩

/-- Reading a derivation asks the world and changes nothing. -/
theorem quiet_derivationFromPath (world : World) (path : Path) :
    Quiet (derivationFromPath env world path) :=
  (quiet_lift _).bind fun _ => (quiet_assert (Or.inr (Or.inr rfl))).bind fun _ => quiet_lift _

/-- A quiet computation may come before the rest of a step. -/
theorem goes_quiet_bind {α : Type} {m : WorkerM α} {k : α → WorkerM Unit} (hm : Quiet m)
    (hp : ReflTransGen (Prep F g) w₀ w) (hk : ∀ a, m w = (.ok a, w) → Goes env F g R N w₀ (k a) w) :
    Goes env F g R N w₀ (m >>= k) w := by
  have hm := hm w
  unfold Goes
  unfold Prog.Ends at hm ⊢
  rw [Prog.bind_apply]
  rcases hr : m w with ⟨e | a, w'⟩
  · rw [hr] at hm
    exact hm.1 ▸ broke_of_plain hp hm.2
  · rw [hr] at hm
    dsimp only at hm ⊢
    rw [hm]
    exact hk a (by rw [hr, hm])

/-- A derivation that could be loaded is valid and is what its file says. -/
theorem loaded_of_derivationFromPath {world : World} {path : Path} {drv : Derivation} {w w' : Worker}
    (h : derivationFromPath env world path w = (.ok drv, w')) :
    world.isValidPath path = true ∧ (env.readFile path >>= parseDerivation env.uninit) = .ok drv := by
  have hspec : Prog.Ends (derivationFromPath env world path) w
      (fun drv _ => world.isValidPath path = true ∧
        (env.readFile path >>= parseDerivation env.uninit) = .ok drv) fun _ _ => True := by
    unfold derivationFromPath
    refine ends_lift_bind (fun _ _ => ends_assert_bind (fun hv => ?_) fun _ => trivial)
      fun _ _ => trivial
    rcases hr : env.readFile path >>= parseDerivation env.uninit with drv | e | _
    · exact Prog.ends_pure ⟨hv, rfl⟩
    · exact Prog.ends_throw trivial
    · exact Prog.ends_throw trivial
  exact hspec.of_ok h

/-- A test for an earlier failure ends the call or changes nothing. -/
theorem pathFailed_spec {d : DerivationGoal} {k : GoalKind} {G : Goal} {path : Path}
    (hF : ∀ c : FailureCause, c.permanent = true → F c) (hp : ReflTransGen (Prep F g) w₀ w)
    (hat : KindAt g k w G) (hpids : G.pids = []) :
    Prog.Ends (pathFailed env g d path) w
      (fun b w' => if b then Worked env F g R N w₀ w' else w' = w) fun e w' => Broke env F g w₀ e w' := by
  unfold pathFailed
  refine Prog.ends_get_bind ?_
  split_ifs
  · refine Prog.ends_modify_bind ?_
    have hdone : Goes env F g R N w₀ (amDone env.settings.keepGoing g .ecFailed) _ :=
      goes_amDone (hp.tail (.failure d.drvPath .cached (hF _ rfl))) hat.find hat.waitees hpids (by decide)
        (fun h => by cases h) fun h => by cases h
    exact hdone.bind (fun _ w' hw' => Prog.ends_pure hw') fun _ _ => id
  · exact Prog.ends_pure rfl

/-- The loops over `pathFailed`. -/
theorem goes_pathFailed_all_bind {α : Type} {d : DerivationGoal} {kind : GoalKind} {G : Goal}
    {f : α → Path} {l : List α} {k : Bool → WorkerM Unit}
    (hF : ∀ c : FailureCause, c.permanent = true → F c) (hp : ReflTransGen (Prep F g) w₀ w)
    (hat : KindAt g kind w G) (hpids : G.pids = [])
    (hk : Goes env F g R N w₀ (k true) w)
    (hfalse : ∀ w', k false w' = (.ok (), w')) :
    Goes env F g R N w₀ (Prog.all (fun i => (! ·) <$> pathFailed env g d (f i)) l >>= k) w := by
  have hall : Prog.Ends (Prog.all (fun i => (! ·) <$> pathFailed env g d (f i)) l) w
      (fun b w' => if b then w' = w else ∃ a ∈ l, Worked env F g R N w₀ w')
      fun e w' => Broke env F g w₀ e w' := by
    refine Prog.Ends.all (I := fun _ w' => w' = w) (F := fun _ w' => Worked env F g R N w₀ w') l ?_ rfl
    intro _ a _ w' _ hw'
    subst hw'
    have hfailed : Prog.Ends (pathFailed env g d (f a)) w'
        (fun b w'' => if b then Worked env F g R N w₀ w'' else w'' = w')
        fun e w'' => Broke env F g w₀ e w'' := pathFailed_spec hF hp hat hpids
    refine (hfailed.mono ?_ fun _ _ => id).map
    intro b w'' hb
    cases b with
    | true => exact hb
    | false => exact hb
  refine hall.bind (fun b w' hb => ?_) fun _ _ => id
  cases b with
  | true =>
    rw [if_pos rfl] at hb
    exact hb ▸ hk
  | false =>
    rw [if_neg (by decide)] at hb
    obtain ⟨-, -, hw'⟩ := hb
    unfold Prog.Ends
    rw [hfalse w']
    exact hw'

/-! ### Locks and processes -/

/-- Setting the locks of a goal changes them in its state only. -/
theorem Goal.kind_setLocks (G : Goal) (L : PathSet) :
    (G.setLocks L).kind = match G.kind with
      | .derivation d => .derivation { d with outputLocks := L }
      | .substitution s => .substitution { s with outputLock := L } := by
  obtain ⟨_, _, _, _, _, d | s⟩ := G <;> rfl

/-- The locks that were set are there. -/
@[simp] theorem Goal.locks_setLocks (G : Goal) (L : PathSet) : (G.setLocks L).locks = L := by
  obtain ⟨_, _, _, _, _, d | s⟩ := G <;> rfl

/-- Setting the locks leaves the processes alone. -/
@[simp] theorem Goal.pids_setLocks (G : Goal) (L : PathSet) : (G.setLocks L).pids = G.pids := by
  obtain ⟨_, _, _, _, _, d | s⟩ := G <;> rfl

/-- Setting the locks leaves the waitees alone. -/
@[simp] theorem Goal.waitees_setLocks (G : Goal) (L : PathSet) :
    (G.setLocks L).waitees = G.waitees := by
  obtain ⟨_, _, _, _, _, d | s⟩ := G <;> rfl

/-- Of two settings the last one counts. -/
theorem Goal.setLocks_setLocks (G : Goal) (L L' : PathSet) :
    (G.setLocks L).setLocks L' = G.setLocks L' := by
  obtain ⟨_, _, _, _, _, d | s⟩ := G <;> rfl

/-- Setting the locks that are there does nothing. -/
theorem Goal.setLocks_locks (G : Goal) : G.setLocks G.locks = G := by
  obtain ⟨_, _, _, _, _, d | s⟩ := G <;> rfl

/-- A process number is in use in a goal or for the hook. -/
theorem mem_usedPids {w : Worker} {p : Pid} :
    p ∈ w.usedPids ↔ (∃ h H, w.goals.find? h = some H ∧ p ∈ H.pids) ∨ w.hook = some p := by
  simp only [Worker.usedPids, List.mem_append, List.mem_flatMap, Option.mem_toList, Prod.exists]
  constructor
  · intro h
    rcases h with ⟨h, H, hH, hp⟩ | h
    · exact Or.inl ⟨h, H, SortedMap.find?_eq_some_iff.mpr hH, hp⟩
    · exact Or.inr h
  · intro h
    rcases h with ⟨h, H, hH, hp⟩ | h
    · exact Or.inl ⟨h, H, SortedMap.find?_eq_some_iff.mp hH, hp⟩
    · exact Or.inr h

/-- Preparing steps of `g` that only change its locks. -/
structure Relocks (F : FailureCause → Prop) (g : GoalId) (w : Worker) (G : Goal) (w' : Worker)
    (L : PathSet) : Prop where
  path : ReflTransGen (Prep F g) w w'
  find : w'.goals.find? g = some (G.setLocks L)
  other : ∀ h, h ≠ g → w'.goals.find? h = w.goals.find? h
  rest : w' = { w with goals := w'.goals, lockedPaths := w'.lockedPaths }

/-- A worker has its locks already. -/
theorem Relocks.refl {G : Goal} (hG : w.goals.find? g = some G) : Relocks F g w G w G.locks :=
  ⟨.refl, by rw [G.setLocks_locks, hG], fun _ _ => rfl, rfl⟩

/-- Taking and giving up locks can follow each other. -/
theorem Relocks.trans {w₁ w₂ : Worker} {G : Goal} {L L' : PathSet} (h : Relocks F g w G w₁ L)
    (h' : Relocks F g w₁ (G.setLocks L) w₂ L') : Relocks F g w G w₂ L' := by
  refine ⟨h.path.trans h'.path, ?_, fun k hk => (h'.other k hk).trans (h.other k hk), ?_⟩
  · rw [h'.find, G.setLocks_setLocks]
  · rw [h'.rest, h.rest]

/-- After unlocking, the goal has no locks. -/
theorem find?_unlocked {G : Goal} (hG : w.goals.find? g = some G) :
    (w.unlocked g).goals.find? g = some (G.setLocks ∅) := by
  simp [Worker.unlocked, hG]

/-- Unlocking is a change of the locks. -/
theorem relocks_unlocked {G : Goal} (hG : w.goals.find? g = some G) :
    Relocks F g w G (w.unlocked g) ∅ := by
  refine ⟨.single .unlock, find?_unlocked hG, fun h hh => ?_, rfl⟩
  simp [Worker.unlocked, hh]

/-- Changing locks uses no process number. -/
theorem Relocks.mem_usedPids {w' : Worker} {G : Goal} {L : PathSet} (h : Relocks F g w G w' L)
    (hG : w.goals.find? g = some G) {p : Pid} : p ∈ w'.usedPids ↔ p ∈ w.usedPids := by
  have hhook : w'.hook = w.hook := by rw [h.rest]
  rw [Nix.mem_usedPids, Nix.mem_usedPids, hhook]
  refine or_congr ⟨?_, ?_⟩ Iff.rfl
  · intro hp
    obtain ⟨k, K, hK, hpK⟩ := hp
    by_cases hkg : k = g
    · subst hkg
      rw [h.find] at hK
      cases hK
      exact ⟨k, G, hG, by simpa using hpK⟩
    · exact ⟨k, K, by rw [← h.other k hkg, hK], hpK⟩
  · intro hp
    obtain ⟨k, K, hK, hpK⟩ := hp
    by_cases hkg : k = g
    · subst hkg
      rw [hG] at hK
      cases hK
      exact ⟨k, _, h.find, by simpa using hpK⟩
    · exact ⟨k, K, by rw [h.other k hkg, hK], hpK⟩

/-- Locking paths either gives the goal other locks or leaves it without locks. -/
theorem lockPaths_spec {lockedElsewhere : Path → Bool} {G : Goal} {paths : PathSet}
    (hG : w.goals.find? g = some G) :
    Prog.Ends (lockPaths lockedElsewhere g paths) w
      (fun b w' => ∃ L, Relocks F g w G w' L ∧ (b = false → L = ∅))
      fun e w' => ReflTransGen (Prep F g) w w' ∧ e.Plain := by
  unfold lockPaths
  refine Prog.ends_get_bind (ends_assert_bind (fun _ => ?_) fun _ => ⟨.refl, Or.inr (Or.inl rfl)⟩)
  refine (Prog.Ends.all (I := fun _ w' => ∃ L, Relocks F g w G w' L)
    (F := fun _ w' => Relocks F g w G w' ∅) _ ?_ ⟨_, .refl hG⟩).mono ?_ fun _ _ => id
  · intro _ path _ w₁ _ hw₁
    obtain ⟨L, hL⟩ := hw₁
    refine Prog.ends_get_bind ?_
    split_ifs with hmine helse
    · exact Prog.ends_throw ⟨hL.path, trivial⟩
    · refine Prog.ends_modify_bind (Prog.ends_pure ?_)
      rw [if_neg (by decide)]
      exact hL.trans (relocks_unlocked hL.find)
    · refine Prog.ends_modify_bind (Prog.ends_pure ?_)
      rw [if_pos rfl]
      have hfree : lockPath path ∉ w₁.lockedPaths := by
        simpa [Worker.pathIsLockedByMe] using hmine
      refine ⟨L.insert (lockPath path),
        hL.trans ⟨.single (.lockPath path hL.find hfree), ?_, fun h hh => ?_, rfl⟩⟩
      · simp [Worker.updateGoal, hL.find]
      · simp [Worker.updateGoal, hh]
  · intro b w' hb
    cases b with
    | true =>
      rw [if_pos rfl] at hb
      obtain ⟨L, hL⟩ := hb
      exact ⟨L, hL, fun h => by cases h⟩
    | false =>
      rw [if_neg (by decide)] at hb
      obtain ⟨-, -, hL⟩ := hb
      exact ⟨∅, hL, fun _ => rfl⟩

/-! ### Derivation goals -/

/-- `init` of a derivation goal asks for its derivation and waits. -/
theorem derivationInit_spec {d : DerivationGoal} {G : Goal} (hp : ReflTransGen (Prep F g) w₀ w)
    (hat : KindAt g (.derivation d) w G) (hidle : d.Idle) :
    Goes env F g R N w₀ (derivationInit env g d) w := by
  unfold derivationInit
  split_ifs
  · exact goes_throw hp trivial
  · refine (addSubstitutionWaitee_spec (F := F) hat.find hat.lt d.drvPath false).bind (fun _ w' hw' => ?_)
      fun _ _ => False.elim
    obtain ⟨G', hG', hne⟩ := hw'
    obtain ⟨d', hk', -, -, hidle'⟩ := (hat.kind ▸ hG'.same).exists_derivation
    exact goes_waits_derivation (hp.trans hG'.path) hG'.find hk' hne (by decide) (hidle' hidle).pid
      (hidle' hidle).hook (hidle' hidle).locks
      fun _ => ⟨fun _ h => absurd rfl h, fun h => by cases h⟩

/-- The end of a call in which a derivation goal wakes itself up. -/
theorem goes_rewakes_derivation {d : DerivationGoal} {f : DerivationGoal → DerivationGoal} {G : Goal}
    (hp : ReflTransGen (Prep F g) w₀ w) (hG : w.goals.find? g = some G) (hk : G.kind = .derivation d)
    (hno : G.waitees = ∅) (hidle : d.Idle) (hf : d.Edit (f d)) (hstate : (f d).state = .tryToBuild)
    (hload : R → (f d).Loaded env w.world) :
    Goes env F g R N w₀ (modifyDerivation g f >>= fun _ => Prog.modify fun w => w.wakeUp g) w := by
  have hedit := Goal.edit_mapDerivation hk hf
  refine Prog.ends_modify_bind (Prog.ends_modify ⟨_, hp.tail (.edit _ hG hedit),
    .rewakes (find?_updateGoal hG _) (hedit.waitees.trans hno) ?_ fun hR => ?_⟩)
  · simp only [Goal.Resting, Goal.mapDerivation, hk, hstate, hf.pid, hf.hook, hf.locks]
    exact ⟨by decide, hidle.pid, hidle.hook, hidle.locks⟩
  · simp only [Goal.Ready, Goal.mapDerivation, hk, hstate]
    exact ⟨fun _ _ => hload hR, fun h => by cases h⟩

/-- Computing the closures of the inputs changes nothing. -/
theorem quiet_inputClosures (world : World) (d : DerivationGoal) :
    Quiet (inputClosures env world d) := by
  unfold inputClosures
  refine (quiet_foldlM (fun inputPaths i => ?_) _ _).bind fun inputPaths =>
    quiet_foldlM (fun _ _ => quiet_lift _) _ _
  refine (quiet_assert (Or.inl rfl)).bind fun _ =>
    (quiet_derivationFromPath world i.1).bind fun inDrv => quiet_foldlM (fun inputPaths j => ?_) _ _
  split
  · exact quiet_lift _
  · exact fun w => Prog.ends_throw ⟨rfl, trivial⟩

/-- `inputsRealised` ends, or gets the goal ready to build. -/
theorem inputsRealised_spec {goal : Goal} {d d' : DerivationGoal} {G : Goal}
    (hp : ReflTransGen (Prep F g) w₀ w) (hat : KindAt g (.derivation d') w G) (hidle : d'.Idle)
    (hload : R → d'.Loaded env w.world) : Goes env F g R N w₀ (inputsRealised env g goal d) w := by
  unfold inputsRealised
  split_ifs
  · exact goes_amDone hp hat.find hat.waitees (hidle.pids hat.kind) (by decide)
      (fun h => by cases h) fun h => by cases h
  · refine Prog.ends_get_bind ?_
    refine goes_quiet_bind (quiet_inputClosures w.world d) hp fun _ _ => ?_
    exact goes_rewakes_derivation hp hat.find hat.kind hat.waitees hidle
      ⟨rfl, rfl, Or.inl rfl, rfl, rfl, rfl⟩ rfl hload

/-- `closureRepaired` ends in success or failure. -/
theorem closureRepaired_spec {goal : Goal} {d : DerivationGoal} {G : Goal}
    (hp : ReflTransGen (Prep F g) w₀ w) (hat : KindAt g (.derivation d) w G) (hidle : d.Idle)
    (hready : R → d.Loaded env w.world ∧ d.OutputsValid w.world) :
    Goes env F g R N w₀ (closureRepaired env g goal d) w := by
  unfold closureRepaired
  split_ifs
  · exact goes_throw hp trivial
  · refine goes_amDone hp hat.find hat.waitees (hidle.pids hat.kind) (by decide) (fun _ hR => ?_)
      fun h => by cases h
    simp only [Goal.Delivered, hat.kind]
    exact ⟨(hready hR).1, fun i hi _ => (hready hR).2 i hi⟩

/-- The map from outputs to derivations is read from the world. -/
theorem quiet_outputsToDrv (world : World) (inputClosure : PathSet) :
    Quiet (outputsToDrv env world inputClosure) :=
  quiet_foldlM (fun _ i => (quiet_derivationFromPath world i).bind fun _ _ => Prog.ends_pure rfl) _ _

/-- `repairClosure` waits for the repair of what is bad, or is done. -/
theorem repairClosure_spec {d : DerivationGoal} {G : Goal} (hp : ReflTransGen (Prep F g) w₀ w)
    (hat : KindAt g (.derivation d) w G) (hidle : d.Idle) (hload : R → d.Loaded env w.world) :
    Goes env F g R N w₀ (repairClosure env ans g d) w := by
  unfold repairClosure
  refine Prog.ends_get_bind (goes_lift_bind hp fun closure hclosure => goes_lift_bind hp fun _ _ => ?_)
  have hvalid : d.OutputsValid w.world := outputsValid_of_outputClosure hclosure
  refine goes_quiet_bind (quiet_outputsToDrv _ _) hp fun producers _ => ?_
  refine goes_spawns_bind hp (spawns_each hat.find hat.lt _ fun i w G hG hlt => ?_) ?_
  · split
    · exact addSubstitutionWaitee_spec hG hlt i true
    · exact addDerivationWaitee_spec hG hlt _ ∅ true
  · intro w' G' hG' hp'
    obtain ⟨d', hk', hpath, hdrv, hidle'⟩ := (hat.kind ▸ hG'.same).exists_derivation
    have hload' : R → d'.Loaded env w'.world := fun hR => (hload hR).congr hpath hdrv hG'.world
    have hvalid' : d'.OutputsValid w'.world := hvalid.congr hdrv hG'.world
    refine goes_waiteesEmpty_bind hG'.find (fun hempty => ?_) fun hne => ?_
    · refine goes_amDone hp' hG'.find hempty ((hidle' hidle).pids hk') (by decide) (fun _ hR => ?_)
        fun h => by cases h
      simp only [Goal.Delivered, hk']
      exact ⟨hload' hR, fun i hi _ => hvalid' i hi⟩
    · exact goes_waits_derivation hp' hG'.find hk' hne (by decide) (hidle' hidle).pid
        (hidle' hidle).hook (hidle' hidle).locks fun hR => ⟨fun _ _ => hload' hR, fun _ => hvalid'⟩

/-- The assumption on the argument `restart` of `outputsSubstituted`. -/
def RestartGoes (env : BuildEnv) (F : FailureCause → Prop) (g : GoalId) (R N : Prop) (w₀ : Worker)
    (restart : Goal → DerivationGoal → WorkerM Unit) : Prop :=
  ∀ (goal : Goal) (d : DerivationGoal) (w : Worker) (G : Goal), ReflTransGen (Prep F g) w₀ w →
    KindAt g (.derivation d) w G → d.Idle → Goes env F g R N w₀ (restart goal d) w

/-- `outputsSubstituted` restarts, ends, or asks for the inputs. -/
theorem outputsSubstituted_spec {restart : Goal → DerivationGoal → WorkerM Unit} {goal : Goal}
    {d : DerivationGoal} {G : Goal} (hrestart : RestartGoes env F g R N w₀ restart)
    (hp : ReflTransGen (Prep F g) w₀ w) (hat : KindAt g (.derivation d) w G) (hidle : d.Idle)
    (hload : R → d.Loaded env w.world) :
    Goes env F g R N w₀ (outputsSubstituted env ans restart g goal d) w := by
  unfold outputsSubstituted
  by_cases hfailed : 0 < goal.nrFailed ∧ goal.nrNoSubstituters < goal.nrFailed ∧
      env.settings.tryFallback = false
  · rw [if_pos hfailed]
    exact goes_throw hp trivial
  · -- the counters are reset
    rw [if_neg hfailed]
    have hreset : G.Edit { G with nrFailed := 0, nrNoSubstituters := 0 } :=
      ⟨rfl, rfl, rfl, rfl, fun d' hd' => ⟨d', hd', rfl, Or.inl rfl⟩, rfl, rfl, rfl⟩
    refine Prog.ends_modify_bind ?_
    have hp₁ := hp.tail (Prep.edit (fun G => { G with nrFailed := 0, nrNoSubstituters := 0 })
      hat.find hreset)
    have hat₁ : KindAt g (.derivation d)
        (w.updateGoal g fun G => { G with nrFailed := 0, nrNoSubstituters := 0 })
        { G with nrFailed := 0, nrNoSubstituters := 0 } :=
      ⟨find?_updateGoal hat.find _, hat.kind, hat.waitees, hat.lt⟩
    by_cases hneed : d.needRestart = true
    · rw [if_pos hneed]
      obtain ⟨hstep, hat₂⟩ := hat₁.modifyDerivation (f := fun d => { d with needRestart := false })
        ⟨rfl, rfl, Or.inl rfl, rfl, rfl, rfl⟩
      exact Prog.ends_modify_bind
        (hrestart _ _ _ _ (hp₁.tail hstep) hat₂ ⟨hidle.pid, hidle.hook, hidle.locks⟩)
    · rw [if_neg hneed]
      refine Prog.ends_get_bind ?_
      split_ifs with hvalid hrepair
      · exact repairClosure_spec hp₁ hat₁ hidle hload
      · refine goes_amDone hp₁ hat₁.find hat₁.waitees (hidle.pids hat₁.kind) (by decide)
          (fun _ hR => ?_) fun h => by cases h
        simp only [Goal.Delivered, hat.kind]
        exact ⟨hload hR, valid_of_checkPathValidity hvalid⟩
      · -- build the inputs
        obtain ⟨hstep, hat₂⟩ := hat₁.modifyDerivation (f := fun d => { d with wantedOutputs := ∅ })
          ⟨rfl, rfl, Or.inr rfl, rfl, rfl, rfl⟩
        refine Prog.ends_modify_bind ?_
        have hp₂ := hp₁.tail hstep
        refine goes_spawns_bind hp₂ (spawns_each hat₂.find hat₂.lt _ fun i w G hG hlt =>
          addDerivationWaitee_spec hG hlt i.1 i.2 d.repair) fun w₃ G₃ hG₃ hp₃ => ?_
        refine goes_spawns_bind hp₃ (spawns_each hG₃.find hG₃.lt _ fun i w G hG hlt =>
          addSubstitutionWaitee_spec hG hlt i false) fun w₄ G₄ hG₄ hp₄ => ?_
        have hboth := hG₃.trans hG₄
        obtain ⟨d', hk', hpath, hdrv, hidle'⟩ := (hat₂.kind ▸ hboth.same).exists_derivation
        have hidle₄ : d'.Idle := hidle' ⟨hidle.pid, hidle.hook, hidle.locks⟩
        have hload' : R → d'.Loaded env w₄.world := fun hR =>
          (hload hR).congr hpath hdrv hboth.world
        refine goes_waiteesEmpty_bind hG₄.find (fun hempty => ?_) fun hne => ?_
        · rw [if_pos rfl]
          exact inputsRealised_spec hp₄ ⟨hG₄.find, hk', hempty, hG₄.lt⟩ hidle₄ hload'
        · exact goes_waits_derivation hp₄ hG₄.find hk' hne (by decide) hidle₄.pid hidle₄.hook
            hidle₄.locks fun hR => ⟨fun _ _ => hload' hR, fun h => by cases h⟩

/-- `haveDerivation`, by recursion on the restarts that are left. -/
theorem haveDerivation_spec (hF : ∀ c : FailureCause, c.permanent = true → F c) (restarts : ℕ) :
    RestartGoes env F g R N w₀ (haveDerivation env ans restarts g) := by
  induction restarts with
  | zero => exact fun _ _ w _ hp _ _ => goes_throw hp trivial
  | succ restarts ih =>
    intro goal d w G hp hat hidle
    rw [haveDerivation]
    by_cases hfailed : goal.nrFailed ≠ 0
    · rw [if_pos hfailed]
      exact goes_amDone hp hat.find hat.waitees (hidle.pids hat.kind) (by decide)
        (fun h => by cases h) fun h => by cases h
    · rw [if_neg hfailed]
      refine Prog.ends_get_bind (goes_quiet_bind (quiet_assert (Or.inl rfl)) hp fun _ _ => ?_)
      refine goes_quiet_bind (quiet_derivationFromPath _ _) hp fun drv hdrv => ?_
      obtain ⟨hvalid, hparse⟩ := loaded_of_derivationFromPath hdrv
      obtain ⟨hstep, hat₁⟩ := hat.modifyDerivation (f := fun d => { d with drv })
        ⟨rfl, rfl, Or.inl rfl, rfl, rfl, rfl⟩
      have hp₁ := hp.tail hstep
      have hidle₁ : DerivationGoal.Idle { d with drv } := ⟨hidle.pid, hidle.hook, hidle.locks⟩
      have hload₁ : DerivationGoal.Loaded { d with drv } env w.world := ⟨hvalid, hparse⟩
      have hpids₁ := hidle₁.pids hat₁.kind
      refine Prog.ends_modify_bind ?_
      dsimp only
      by_cases hdone : DerivationGoal.checkPathValidity { d with drv } w.world ans.contentsGood false
          d.repair = ∅ ∧ d.repair = false
      · rw [if_pos hdone]
        refine goes_amDone hp₁ hat₁.find hat₁.waitees hpids₁ (by decide) (fun _ _ => ?_)
          fun h => by cases h
        simp only [Goal.Delivered, hat₁.kind]
        exact ⟨hload₁, valid_of_checkPathValidity hdone.1⟩
      · rw [if_neg hdone]
        refine goes_pathFailed_all_bind hF hp₁ hat₁ hpids₁ ?_ fun _ => rfl
        rw [if_pos rfl]
        -- what follows after the goals for the substitutes are made
        have hrest : ∀ (w' : Worker) (G' : Goal), w'.world = w.world → w'.goals.find? g = some G' →
            G'.kind = .derivation { d with drv } → g < w'.nextGoal → ReflTransGen (Prep F g) w₀ w' →
            Goes env F g R N w₀ (waiteesEmpty g >>= fun b => if b = true then
                outputsSubstituted env ans (haveDerivation env ans restarts g) g goal { d with drv }
              else modifyDerivation g fun d => { d with state := .outputsSubstituted }) w' := by
          intro w' G' hworld hG' hk' hlt' hp'
          refine goes_waiteesEmpty_bind hG' (fun hempty => ?_) fun hne => ?_
          · rw [if_pos rfl]
            exact outputsSubstituted_spec ih hp' ⟨hG', hk', hempty, hlt'⟩ hidle₁
              fun _ => hworld ▸ hload₁
          · rw [if_neg (by decide)]
            exact goes_waits_derivation hp' hG' hk' hne (by decide) hidle.pid hidle.hook hidle.locks
              fun _ => ⟨fun _ _ => hworld ▸ hload₁, fun h => by cases h⟩
        cases hsubst : env.settings.useSubstitutes with
        | false => exact hrest _ _ rfl hat₁.find hat₁.kind hat₁.lt hp₁
        | true =>
          refine (spawns_each_substitution (F := F) hat₁.find hat₁.lt _ d.repair).bind (fun _ w₂ hw₂ => ?_)
            fun _ _ => False.elim
          obtain ⟨G₂, hG₂, hk₂⟩ := hw₂
          exact hrest _ _ hG₂.world hG₂.find (hk₂.trans hat₁.kind) hG₂.lt (hp₁.trans hG₂.path)

/-! ### Starting and finishing a build -/

/-- Two updates of a goal are one. -/
theorem updateGoal_updateGoal (w : Worker) (g : GoalId) (f f' : Goal → Goal) :
    (w.updateGoal g f).updateGoal g f' = w.updateGoal g fun G => f' (f G) := by
  have hgoals : (w.goals.modify g f).modify g f' = w.goals.modify g fun G => f' (f G) := by
    refine SortedMap.ext_find? fun k => ?_
    simp only [SortedMap.find?_modify]
    split_ifs <;> simp [Function.comp_def]
  unfold Worker.updateGoal
  rw [hgoals]

/-- Two changes of a derivation goal are one. -/
theorem Goal.mapDerivation_mapDerivation (f f' : DerivationGoal → DerivationGoal) (G : Goal) :
    (G.mapDerivation f).mapDerivation f' = G.mapDerivation fun d => f' (f d) := by
  obtain ⟨_, _, _, _, _, d | s⟩ := G <;> rfl

/-- Two changes of a substitution goal are one. -/
theorem Goal.mapSubstitution_mapSubstitution (f f' : SubstitutionGoal → SubstitutionGoal)
    (G : Goal) : (G.mapSubstitution f).mapSubstitution f' = G.mapSubstitution fun s => f' (f s) := by
  obtain ⟨_, _, _, _, _, d | s⟩ := G <;> rfl

/-- A change of the processes of a derivation goal. -/
theorem Goal.reaped_mapDerivation {G : Goal} {d : DerivationGoal} {pids : List Pid}
    {f : DerivationGoal → DerivationGoal} (hk : G.kind = .derivation d)
    (hdrvPath : (f d).drvPath = d.drvPath) (hrequests : (f d).requests = d.requests)
    (hwanted : (f d).wantedOutputs = d.wantedOutputs) (hlocks : (f d).outputLocks = d.outputLocks)
    (hpids : (f d).pid.toList ++ ((f d).hook.getD none).toList = pids) :
    G.Reaped (G.mapDerivation f) pids := by
  obtain ⟨_, _, _, _, _, k⟩ := G
  dsimp only at hk
  subst hk
  refine ⟨rfl, rfl, rfl, ?_, fun d' hd' => ?_, hpids, hlocks⟩
  · simp only [Goal.key, Goal.mapDerivation, hdrvPath]
  · cases hd'
    exact ⟨d, rfl, hrequests, Or.inl hwanted⟩

/-- A change of the process of a substitution goal. -/
theorem Goal.reaped_mapSubstitution {G : Goal} {s : SubstitutionGoal} {pids : List Pid}
    {f : SubstitutionGoal → SubstitutionGoal} (hk : G.kind = .substitution s)
    (hpath : (f s).storePath = s.storePath) (hlocks : (f s).outputLock = s.outputLock)
    (hpids : (f s).pid.toList = pids) : G.Reaped (G.mapSubstitution f) pids := by
  obtain ⟨_, _, _, _, _, k⟩ := G
  dsimp only at hk
  subst hk
  refine ⟨rfl, rfl, rfl, ?_, fun d' hd' => ?_, hpids, hlocks⟩
  · simp only [Goal.key, Goal.mapSubstitution, hpath]
  · cases hd'

/-- What the derivation goal `g` has when it asks for a build: the locks, and nothing else. -/
structure ReadyToBuild (env : BuildEnv) (g : GoalId) (R : Prop) (d : DerivationGoal) (w : Worker)
    (G : Goal) : Prop where
  kindAt : KindAt g (.derivation d) w G
  pid : d.pid = none
  hook : d.hook = none
  state : d.state = .tryToBuild
  load : R → d.Loaded env w.world

/-- A goal that is ready to build runs no builder. -/
theorem ReadyToBuild.pids {d : DerivationGoal} {G : Goal} (h : ReadyToBuild env g R d w G) :
    G.pids = [] := by
  simp [Goal.pids, h.kindAt.kind, h.pid, h.hook]

/-- A derivation goal that has given its locks back can sleep. -/
theorem ReadyToBuild.unlocked {d : DerivationGoal} {G : Goal} (h : ReadyToBuild env g R d w G) :
    (w.unlocked g).goals.find? g = some (G.setLocks ∅) ∧ (G.setLocks ∅).waitees = ∅ ∧
      (G.setLocks ∅).Resting ∧ (R → (G.setLocks ∅).Ready env w.world) := by
  have hk : (G.setLocks ∅).kind = .derivation { d with outputLocks := ∅ } := by
    rw [G.kind_setLocks, h.kindAt.kind]
  refine ⟨find?_unlocked h.kindAt.find, ?_, ?_, fun hR => ?_⟩
  · rw [G.waitees_setLocks, h.kindAt.waitees]
  · simp only [Goal.Resting, hk]
    exact ⟨by rw [h.state]; decide, h.pid, h.hook, trivial⟩
  · simp only [Goal.Ready, hk, h.state]
    exact ⟨fun _ _ => h.load hR, fun h => by cases h⟩

/-- The goal with a child of its own. -/
theorem ReadyToBuild.started {d : DerivationGoal} {G : Goal} (h : ReadyToBuild env g R d w G)
    (f : DerivationGoal → DerivationGoal) (pid : Pid) (hdrvPath : (f d).drvPath = d.drvPath)
    (hdrv : (f d).drv = d.drv) (hrequests : (f d).requests = d.requests)
    (hwanted : (f d).wantedOutputs = d.wantedOutputs) (hlocks : (f d).outputLocks = d.outputLocks)
    (hstate : (f d).state = .buildDone) (hone : (f d).hook = none ∨ (f d).pid = none)
    (hpids : (f d).pid.toList ++ ((f d).hook.getD none).toList = [pid]) :
    G.Reaped (G.mapDerivation f) [pid] ∧ (G.mapDerivation f).Fit ∧
      (R → (G.mapDerivation f).Ready env w.world) := by
  have hk : (G.mapDerivation f).kind = .derivation (f d) := by
    rw [Goal.mapDerivation, h.kindAt.kind]
  refine ⟨Goal.reaped_mapDerivation h.kindAt.kind hdrvPath hrequests hwanted hlocks hpids, ?_,
    fun hR => ?_⟩
  · simp only [Goal.Fit, hk, hstate]
    exact ⟨hone, fun hn => absurd rfl hn⟩
  · simp only [Goal.Ready, hk, hstate]
    exact ⟨fun _ _ => (h.load hR).congr hdrvPath hdrv rfl, fun h => by cases h⟩

/-- `buildLocally` starts a builder when there is a slot, else waits for one. -/
theorem buildLocally_spec {d d₀ : DerivationGoal} {G : Goal} {preferLocalBuild : Bool}
    (hF : ∀ c : FailureCause, c.permanent = true → F c) (hp : ReflTransGen (Prep F g) w₀ w)
    (h : ReadyToBuild env g R d w G)
    (hfresh : ans.pid ∉ w.usedPids) :
    Goes env F g R N w₀ (buildLocally env ans g d₀ preferLocalBuild) w := by
  unfold buildLocally
  refine Prog.ends_get_bind ?_
  split_ifs with hfull hplatform
  · -- no slot is free
    refine Prog.ends_modify_bind (Prog.ends_modify ?_)
    obtain ⟨hfind, hno, hrest, hready⟩ := h.unlocked
    rw [Worker.waitForBuildSlot, if_neg (by omega)]
    exact ⟨w.unlocked g, hp.tail .unlock, .wantsSlot hfind hno hrest hready hfull.1⟩
  · exact goes_throw hp trivial
  · split
    · exact goes_throw hp trivial
    · refine Prog.ends_modify_bind (Prog.ends_modify_bind ?_)
      obtain ⟨hfind, hno, hrest, -⟩ := h.unlocked
      exact goes_amDone ((hp.tail .unlock).tail (.failure d₀.drvPath .startFailed (hF _ rfl))) hfind hno
        hrest.pids (by decide) (fun h => by cases h) fun h => by cases h
    · refine Prog.ends_modify_bind (Prog.ends_modify ?_)
      obtain ⟨hreaped, hfit, hready⟩ := h.started
        (fun d => { d with pid := some ans.pid, state := .buildDone }) ans.pid
        rfl rfl rfl rfl rfl rfl (Or.inl h.hook) (by simp [h.hook])
      have hslot : w.nrLocalBuilds < max 1 env.settings.maxBuildJobs := by
        by_contra hn
        refine hfull ⟨by omega, fun hpref => ?_⟩
        omega
      change Worked env F g R N w₀ (((w.updateGoal g _).updateGoal g _).childStarted g ans.pid
        [.builderOut] true true ans.now)
      simp only [updateGoal_updateGoal, Goal.mapDerivation_mapDerivation]
      have hown : (G.mapDerivation fun d =>
          { d with pid := some ans.pid, state := .buildDone }).ownPid = some ans.pid := by
        simp only [Goal.ownPid, Goal.mapDerivation, h.kindAt.kind]
      exact ⟨w, hp, .starts _ ans.pid [.builderOut] ans.now h.kindAt.find h.kindAt.waitees h.pids
        hreaped hown hfit hready hfresh hslot⟩

/-- Asking the hook leaves the goal alone unless the hook accepts; then the goal has it. -/
theorem tryBuildHook_spec (hfresh : ans.hookPid ∉ w.usedPids) :
    Prog.Ends (tryBuildHook env ans g) w
      (fun reply w' => ∃ w₁ : Worker, ReflTransGen (Prep F g) w w₁ ∧
        w₁ = { w with hook := w₁.hook } ∧ (w₁.hook = w.hook ∨ w₁.hook = some ans.hookPid) ∧
        if reply = some true then ∃ pid, w₁.hook = some pid ∧
          w' = { w₁.updateGoal g (Goal.mapDerivation fun d => { d with hook := some (some pid) }) with
            hook := none }.childStarted g pid [.fromHook, .builderOut] false false ans.now
        else w' = w₁)
      fun e w' => ReflTransGen (Prep F g) w w' ∧ e.Plain := by
  unfold tryBuildHook
  by_cases huse : env.settings.useBuildHook = false ∨ env.settings.buildHook = []
  · rw [if_pos huse]
    exact Prog.ends_pure ⟨w, .refl, rfl, Or.inl rfl, rfl⟩
  · rw [if_neg huse]
    refine Prog.ends_modify_bind ?_
    -- the hook that is asked
    obtain ⟨w₁, hw₁, hp₁, hrest₁, hhook₁, pid, hpid⟩ : ∃ w₁ : Worker,
        (if w.hook.isNone then { w with hook := some ans.hookPid } else w) = w₁ ∧
        ReflTransGen (Prep F g) w w₁ ∧ w₁ = { w with hook := w₁.hook } ∧
        (w₁.hook = w.hook ∨ w₁.hook = some ans.hookPid) ∧ ∃ pid, w₁.hook = some pid := by
      cases hhook : w.hook with
      | none => exact ⟨_, rfl, .single (.startHook _ hhook hfresh), rfl, Or.inr rfl, _, rfl⟩
      | some pid => exact ⟨w, rfl, .refl, rfl, Or.inl hhook, pid, hhook⟩
    rw [hw₁]
    refine (quiet_lift ans.hookReply w₁).bind (fun reply w₂ hw₂ => ?_) fun e w₂ he =>
      ⟨he.1 ▸ hp₁, he.2⟩
    subst hw₂
    split_ifs
    · exact Prog.ends_pure ⟨w₂, hp₁, hrest₁, hhook₁, rfl⟩
    · exact Prog.ends_pure ⟨w₂, hp₁, hrest₁, hhook₁, rfl⟩
    · exact Prog.ends_throw ⟨hp₁, trivial⟩
    · refine (quiet_lift ans.hookAccepted w₂).bind (fun _ w₃ hw₃ => ?_) fun e w₃ he =>
        ⟨he.1 ▸ hp₁, he.2⟩
      subst hw₃
      refine Prog.ends_modify_bind (Prog.ends_pure ⟨w₃, hp₁, hrest₁, hhook₁, ?_⟩)
      rw [if_pos rfl]
      refine ⟨pid, hpid, ?_⟩
      rw [hpid]

/-- The part of `tryToBuild` in which the goal has its locks and no build has failed before. -/
theorem askForBuild_spec {d d₀ : DerivationGoal} {G : Goal} {preferLocalBuild : Bool}
    (hF : ∀ c : FailureCause, c.permanent = true → F c) (hp : ReflTransGen (Prep F g) w₀ w)
    (h : ReadyToBuild env g R d w G)
    (hfresh : ans.pid ∉ w.usedPids) (hfreshHook : ans.hookPid ∉ w.usedPids)
    (hdiff : ans.pid ≠ ans.hookPid) :
    Goes env F g R N w₀ ((if preferLocalBuild then pure none else tryBuildHook env ans g) >>= fun reply =>
      match reply with
      | some true => modifyDerivation g fun d => { d with state := .buildDone }
      | some false => do
        Prog.modify fun w => w.waitForAWhile g
        unlock g
      | none => buildLocally env ans g d₀ preferLocalBuild) w := by
  cases preferLocalBuild with
  | true => exact Prog.ends_pure_bind (buildLocally_spec hF hp h hfresh)
  | false =>
    refine (tryBuildHook_spec (F := F) hfreshHook).bind (fun reply w' hw' => ?_) fun e w' he =>
      broke_of_plain (hp.trans he.1) he.2
    obtain ⟨w₁, hp₁, hrest₁, hhook₁, hreply⟩ := hw'
    have hgoals₁ : w₁.goals = w.goals := by rw [hrest₁]
    have h₁ : ReadyToBuild env g R d w₁ G := by
      rw [hrest₁]
      exact ⟨⟨h.kindAt.find, h.kindAt.kind, h.kindAt.waitees, h.kindAt.lt⟩, h.pid, h.hook, h.state,
        h.load⟩
    match reply with
    | some true =>
      -- the hook builds
      rw [if_pos rfl] at hreply
      obtain ⟨pid, hpid, rfl⟩ := hreply
      obtain ⟨hreaped, hfit, hready⟩ := h₁.started
        (fun d => { d with hook := some (some pid), state := .buildDone }) pid
        rfl rfl rfl rfl rfl rfl (Or.inr h.pid) (by simp [h.pid])
      refine Prog.ends_modify ?_
      change Worked env F g R N w₀ ({ (w₁.updateGoal g _).updateGoal g _ with hook := none }.childStarted
        g pid [.fromHook, .builderOut] false false ans.now)
      simp only [updateGoal_updateGoal, Goal.mapDerivation_mapDerivation]
      exact ⟨w₁, hp.trans hp₁, .startsHook _ pid [.fromHook, .builderOut] ans.now h₁.kindAt.find
        h₁.kindAt.waitees h₁.pids hreaped hfit hready hpid⟩
    | some false =>
      rw [if_neg (by decide)] at hreply
      subst hreply
      refine Prog.ends_modify_bind (Prog.ends_modify ?_)
      obtain ⟨hfind, hno, hrest, hready⟩ := h₁.unlocked
      exact ⟨w'.unlocked g, (hp.trans hp₁).tail .unlock, .waitsAWhile hfind hno hrest hready⟩
    | none =>
      rw [if_neg (by decide)] at hreply
      subst hreply
      refine buildLocally_spec hF (hp.trans hp₁) h₁ fun hmem => ?_
      rw [mem_usedPids, hgoals₁] at hmem
      rcases hmem with hmem | hmem
      · exact hfresh (mem_usedPids.mpr (Or.inl hmem))
      · rcases hhook₁ with hhook₁ | hhook₁
        · exact hfresh (mem_usedPids.mpr (Or.inr (hhook₁ ▸ hmem)))
        · rw [hhook₁] at hmem
          exact hdiff (Option.some.inj hmem).symm

/-- `tryToBuild` waits for locks, ends, or starts the hook or a builder. -/
theorem tryToBuild_spec {d : DerivationGoal} {G : Goal}
    (hF : ∀ c : FailureCause, c.permanent = true → F c) (hp : ReflTransGen (Prep F g) w₀ w)
    (hat : KindAt g (.derivation d) w G) (hidle : d.Idle) (hstate : d.state = .tryToBuild)
    (hload : R → d.Loaded env w.world) (hfresh : w.freshPids ans = true) :
    Goes env F g R N w₀ (tryToBuild env ans g d) w := by
  simp only [Worker.freshPids, Bool.and_eq_true, decide_eq_true_eq] at hfresh
  obtain ⟨⟨hfresh, hfreshHook⟩, hdiff⟩ := hfresh
  have hrest : G.Resting := by
    simp only [Goal.Resting, hat.kind]
    exact ⟨by rw [hstate]; decide, hidle.pid, hidle.hook, hidle.locks⟩
  have hready : R → G.Ready env w.world := by
    intro hR
    simp only [Goal.Ready, hat.kind]
    exact ⟨fun _ _ => hload hR, fun h => by rw [hstate] at h; cases h⟩
  unfold tryToBuild
  refine Prog.ends_get_bind ?_
  by_cases hmine : d.drv.outputs.entries.any (fun i => w.pathIsLockedByMe i.2.path) = true
  · rw [if_pos hmine]
    obtain ⟨i, hi, hlocked⟩ := List.any_eq_true.mp hmine
    have hneeds : ∃ p ∈ G.needs, lockPath p ∈ w.lockedPaths := by
      refine ⟨i.2.path, ?_, by simpa [Worker.pathIsLockedByMe] using hlocked⟩
      simp only [Goal.needs, hat.kind]
      exact List.mem_map.mpr ⟨i, hi, rfl⟩
    have hfree : G.locks = ∅ := by
      simp only [Goal.locks, hat.kind]
      exact hidle.locks
    exact Prog.ends_modify ⟨w, hp, .waitsForAny hat.find hat.waitees hrest hready hfree hneeds⟩
  · rw [if_neg hmine]
    refine (lockPaths_spec (F := F) hat.find).bind (fun b w₁ hw₁ => ?_) fun e w₁ he =>
      broke_of_plain (hp.trans he.1) he.2
    obtain ⟨L, hL, hnone⟩ := hw₁
    have hp₁ := hp.trans hL.path
    have hworld₁ : w₁.world = w.world := by rw [hL.rest]
    have hlt₁ : g < w₁.nextGoal := by
      rw [hL.rest]
      exact hat.lt
    have hk₁ : (G.setLocks L).kind = .derivation { d with outputLocks := L } := by
      rw [G.kind_setLocks, hat.kind]
    have hbuild : ReadyToBuild env g R { d with outputLocks := L } w₁ (G.setLocks L) :=
      ⟨⟨hL.find, hk₁, (G.waitees_setLocks L).trans hat.waitees, hlt₁⟩, hidle.pid, hidle.hook, hstate,
        fun hR => (hload hR).congr rfl rfl hworld₁⟩
    have hpids₁ := hbuild.pids
    cases b with
    | false =>
      rw [if_neg (by decide)]
      have hL₀ : L = ∅ := hnone rfl
      refine Prog.ends_modify ⟨w₁, hp₁, .waitsAWhile hL.find hbuild.kindAt.waitees ?_ fun hR => ?_⟩
      · simp only [Goal.Resting, hk₁]
        exact ⟨by rw [hstate]; decide, hidle.pid, hidle.hook, hL₀⟩
      · simp only [Goal.Ready, hk₁]
        exact ⟨fun _ _ => hbuild.load hR, fun h => by rw [hstate] at h; cases h⟩
    | true =>
      rw [if_pos rfl]
      dsimp only
      by_cases hvalid : (d.checkPathValidity w.world ans.contentsGood true d.repair).toList.length =
          d.drv.outputs.entries.length
      · rw [if_pos hvalid]
        refine goes_amDone hp₁ hL.find hbuild.kindAt.waitees hpids₁ (by decide) (fun _ hR => ?_)
          fun h => by cases h
        simp only [Goal.Delivered, hk₁]
        refine ⟨hbuild.load hR, fun i hi _ => ?_⟩
        rw [hworld₁]
        exact outputsValid_of_checkPathValidity hvalid i hi
      · rw [if_neg hvalid]
        refine goes_lift_bind hp₁ fun _ _ => ?_
        refine goes_pathFailed_all_bind hF hp₁ hbuild.kindAt hpids₁ ?_ fun _ => rfl
        rw [if_pos rfl]
        exact askForBuild_spec hF hp₁ hbuild (fun hmem => hfresh ((hL.mem_usedPids hat.find).mp hmem))
          (fun hmem => hfreshHook ((hL.mem_usedPids hat.find).mp hmem)) hdiff

/-- Going on after the process of a goal was waited for. -/
theorem goes_reap_bind {f : Goal → Goal} {pid : Pid} {kind : GoalKind} {G : Goal}
    {k : Unit → WorkerM Unit} (hp : ReflTransGen (Prep F g) w₀ w) (hat : KindAt g kind w G)
    (hpids : G.pids = [pid]) (hf : G.Reaped (f G) [])
    (hk : ∀ w', KindAt g (f G).kind w' (f G) → w'.world = w.world → ReflTransGen (Prep F g) w₀ w' →
      Goes env F g R N w₀ (k ()) w') :
    Goes env F g R N w₀ (modifyGoal g f >>= fun _ => childTerminated pid >>= k) w := by
  refine Prog.ends_modify_bind ?_
  unfold Prog.Ends
  rw [Prog.bind_apply]
  rcases hdone : childTerminated pid (w.updateGoal g f) with ⟨e | u, w'⟩
  · exact ⟨w, hp, Or.inr (Or.inr ⟨G, f, pid, hat.find, hpids, hf, hdone⟩)⟩
  · have hspec : Prog.Ends (childTerminated pid) (w.updateGoal g f)
        (fun _ w' => w'.goals = (w.updateGoal g f).goals ∧ w'.world = w.world ∧
          w'.nextGoal = w.nextGoal) fun _ _ => True := by
      unfold childTerminated
      refine Prog.ends_get_bind ?_
      split
      · exact Prog.ends_throw trivial
      · exact ends_assert_bind (fun _ => Prog.ends_modify ⟨rfl, rfl, rfl⟩) fun _ => trivial
    obtain ⟨hgoals, hworld, hnext⟩ := hspec.of_ok hdone
    refine hk w' ⟨?_, rfl, hf.waitees.trans hat.waitees, ?_⟩ hworld
      (hp.tail (.reap f pid hat.find hpids hf hdone))
    · rw [hgoals]
      exact find?_updateGoal hat.find f
    · rw [hnext]
      exact hat.lt

/-- Registering paths makes the world grow. -/
theorem World.grows_register (world : World) (paths : List Path) (references : Path → PathSet) :
    world.Grows (world.register paths references) := by
  intro p hp
  simp [World.register, hp]

/-- A loaded derivation stays loaded while the world grows. -/
theorem DerivationGoal.Loaded.grows {d : DerivationGoal} {world world' : World}
    (h : d.Loaded env world) (hgrows : world.Grows world') : d.Loaded env world' :=
  ⟨hgrows _ h.1, h.2⟩

/-- A derivation goal after its process was waited for. -/
def DerivationGoal.reaped (d : DerivationGoal) : DerivationGoal :=
  if d.hook.isSome then { d with hook := some none } else { d with pid := none }

/-- A goal for the derivation of `d` whose process was waited for. -/
structure Waited (env : BuildEnv) (g : GoalId) (R : Prop) (d : DerivationGoal) (w : Worker)
    (G : Goal) : Prop where
  find : w.goals.find? g = some G
  kind : ∃ d', G.kind = .derivation d' ∧ d'.drvPath = d.drvPath ∧ d'.drv = d.drv
  waitees : G.waitees = ∅
  pids : G.pids = []
  load : R → d.Loaded env w.world

/-- A goal whose process has ended may give up its locks. -/
theorem Waited.unlocked {d : DerivationGoal} {G : Goal} (h : Waited env g R d w G) :
    Waited env g R d (w.unlocked g) (G.setLocks ∅) := by
  obtain ⟨d', hk, hpath, hdrv⟩ := h.kind
  refine ⟨find?_unlocked h.find, ⟨{ d' with outputLocks := ∅ }, ?_, hpath, hdrv⟩,
    (G.waitees_setLocks ∅).trans h.waitees, (G.pids_setLocks ∅).trans h.pids, h.load⟩
  rw [G.kind_setLocks, hk]

/-- A goal whose process has ended stays so while the world grows. -/
theorem Waited.world {d : DerivationGoal} {G : Goal} (h : Waited env g R d w G) {world : World}
    (hgrows : w.world.Grows world) : Waited env g R d { w with world } G :=
  ⟨h.find, h.kind, h.waitees, h.pids, fun hR => (h.load hR).grows hgrows⟩

/-- A goal whose process has ended may end, in success only with valid outputs. -/
theorem Waited.amDone {d : DerivationGoal} {G : Goal} {r : ExitCode} (h : Waited env g R d w G)
    (hp : ReflTransGen (Prep F g) w₀ w) (hr : r = .ecFailed ∨ r = .ecSuccess ∧ d.OutputsValid w.world) :
    Goes env F g R N w₀ (amDone env.settings.keepGoing g r) w := by
  obtain ⟨d', hk, hpath, hdrv⟩ := h.kind
  refine goes_amDone hp h.find h.waitees h.pids ?_ (fun hs hR => ?_) fun hn => ?_
  · rcases hr with rfl | ⟨rfl, -⟩ <;> decide
  · subst hs
    obtain ⟨-, hvalid⟩ := hr.resolve_left (by decide)
    simp only [Goal.Delivered, hk]
    exact ⟨(h.load hR).congr hpath hdrv rfl, fun i hi _ => hvalid i (hdrv ▸ hi)⟩
  · subst hn
    rcases hr with h | ⟨h, -⟩ <;> cases h

/-- `buildDone` ends the goal, or lets it try again after a hook has declined. -/
theorem buildDone_spec {d : DerivationGoal} {G : Goal}
    (hF : ∀ msg, buildResult ans w.world d = .failed msg →
      F (.buildFailed (hookError ans d) d.fixedOutput)) (hp : ReflTransGen (Prep F g) w₀ w)
    (hat : KindAt g (.derivation d) w G) (hone : d.hook = none ∨ d.pid = none)
    (hload : R → d.Loaded env w.world) : Goes env F g R N w₀ (buildDone env ans g d) w := by
  unfold buildDone
  cases hsaved : d.hook.getD d.pid with
  | none => exact goes_throw hp trivial
  | some pid =>
    refine Prog.ends_pure_bind ?_
    have hk : (G.mapDerivation DerivationGoal.reaped).kind = .derivation d.reaped := by
      rw [Goal.mapDerivation, hat.kind]
    have hpids : G.pids = [pid] ∧
        d.reaped.pid.toList ++ (d.reaped.hook.getD none).toList = [] := by
      simp only [Goal.pids, hat.kind, DerivationGoal.reaped]
      cases hhook : d.hook with
      | none =>
        rw [hhook] at hsaved
        change d.pid = some pid at hsaved
        simp [hsaved]
      | some x =>
        have hpid : d.pid = none := hone.resolve_left (by simp [hhook])
        rw [hhook] at hsaved
        change x = some pid at hsaved
        simp [hsaved, hpid]
    have hsame : d.reaped.drvPath = d.drvPath ∧ d.reaped.requests = d.requests ∧
        d.reaped.wantedOutputs = d.wantedOutputs ∧ d.reaped.outputLocks = d.outputLocks ∧
        d.reaped.drv = d.drv := by
      unfold DerivationGoal.reaped
      split_ifs <;> exact ⟨rfl, rfl, rfl, rfl, rfl⟩
    obtain ⟨hpath, hrequests, hwanted, hlocks, hdrv⟩ := hsame
    have hreaped : G.Reaped (G.mapDerivation DerivationGoal.reaped) [] :=
      Goal.reaped_mapDerivation hat.kind hpath hrequests hwanted hlocks hpids.2
    refine goes_reap_bind hp hat hpids.1 hreaped fun w₁ hat₁ hworld₁ hp₁ => ?_
    have h₁ : Waited env g R d w₁ (G.mapDerivation DerivationGoal.reaped) :=
      ⟨hat₁.find, ⟨d.reaped, hk, hpath, hdrv⟩, hat₁.waitees, hreaped.pids,
        fun hR => hworld₁ ▸ hload hR⟩
    refine Prog.ends_get_bind ?_
    split
    next => exact goes_throw hp₁ trivial
    next msg hresult =>
      -- the build failed
      have hF₁ := hF msg (hworld₁ ▸ hresult)
      refine Prog.ends_modify_bind ?_
      have hp₂ := hp₁.tail .unlock
      split_ifs
      · have hgrows : (w₁.unlocked g).world.Grows
            ((w₁.unlocked g).world.registerFailed (outputPaths d.drv).toList) := fun _ => id
        refine Prog.ends_modify_bind (Prog.ends_modify_bind ?_)
        have h₃ := h₁.unlocked.world hgrows
        exact Waited.amDone ⟨h₃.find, h₃.kind, h₃.waitees, h₃.pids, h₃.load⟩
          ((hp₂.tail (.world _ hgrows)).tail (.failure _ _ hF₁)) (Or.inl rfl)
      · refine Prog.ends_modify_bind ?_
        have h₂ := h₁.unlocked
        exact Waited.amDone ⟨h₂.find, h₂.kind, h₂.waitees, h₂.pids, h₂.load⟩
          (hp₂.tail (.failure _ _ hF₁)) (Or.inl rfl)
    next =>
      -- the outputs are valid already, or they are registered
      split_ifs with hall
      · have hvalid : d.OutputsValid w₁.world := by
          simp only [Bool.and_eq_true, List.all_eq_true] at hall
          exact hall.2
        refine Prog.ends_pure_bind (goes_lift_bind hp₁ fun _ _ => Prog.ends_modify_bind ?_)
        exact h₁.unlocked.amDone (hp₁.tail .unlock) (Or.inr ⟨rfl, hvalid⟩)
      · have hgrows := w₁.world.grows_register (outputPaths d.drv).toList ans.scanned
        have hp₂ := hp₁.tail (.world _ hgrows)
        refine Prog.ends_modify_bind (goes_lift_bind hp₂ fun _ _ => Prog.ends_modify_bind ?_)
        refine (h₁.world hgrows).unlocked.amDone (hp₂.tail .unlock) (Or.inr ⟨rfl, fun i hi => ?_⟩)
        have hmem : i.2.path ∈ outputPaths d.drv := by
          rw [outputPaths, SortedSet.mem_ofList]
          exact List.mem_map.mpr ⟨i, hi, rfl⟩
        simp [Worker.unlocked, World.register, hmem]

/-! ### Substitution goals -/

/-- A substitution goal without process that is not finished rests. -/
theorem Goal.resting_substitution {G : Goal} {s : SubstitutionGoal} (hk : G.kind = .substitution s)
    (hstate : s.state ≠ .finished) (hpid : s.pid = none) : G.Resting := by
  simp only [Goal.Resting, hk]
  exact ⟨hstate, hpid⟩

/-- A substitution goal asks nothing of the world to be ready. -/
theorem Goal.ready_substitution {G : Goal} {s : SubstitutionGoal} (hk : G.kind = .substitution s)
    (world : World) : G.Ready env world := by
  simp only [Goal.Ready, hk]

/-- A substitution goal whose process is gone has none. -/
theorem Goal.pids_substitution {G : Goal} {s : SubstitutionGoal} (hk : G.kind = .substitution s)
    (hpid : s.pid = none) : G.pids = [] := by
  simp only [Goal.pids, hk, hpid, Option.toList_none]

/-- The end of a call in which a substitution goal wakes itself up. -/
theorem goes_rewakes_substitution {s : SubstitutionGoal} {state : SubstitutionGoalState} {G : Goal}
    (hp : ReflTransGen (Prep F g) w₀ w) (hat : KindAt g (.substitution s) w G) (hpid : s.pid = none)
    (hstate : state ≠ .finished) :
    Goes env F g R N w₀ (modifySubstitution g (fun s => { s with state }) >>= fun _ =>
      Prog.modify fun w => w.wakeUp g) w := by
  obtain ⟨hstep, hat'⟩ := hat.modifySubstitution (f := fun s => { s with state }) ⟨rfl, rfl, rfl⟩
  exact Prog.ends_modify_bind (Prog.ends_modify ⟨_, hp.tail hstep, .rewakes hat'.find hat'.waitees
    (Goal.resting_substitution hat'.kind hstate hpid) fun _ => Goal.ready_substitution hat'.kind _⟩)

/-- The end of a call after which a substitution goal waits. -/
theorem goes_waits_substitution {s : SubstitutionGoal} {state : SubstitutionGoalState} {G : Goal}
    (hp : ReflTransGen (Prep F g) w₀ w) (hG : w.goals.find? g = some G)
    (hk : G.kind = .substitution s) (hne : G.waitees ≠ ∅) (hstate : state ≠ .finished)
    (hpid : s.pid = none) :
    Goes env F g R N w₀ (modifySubstitution g fun s => { s with state }) w := by
  have hedit := Goal.edit_mapSubstitution (f := fun s => { s with state }) hk ⟨rfl, rfl, rfl⟩
  have hk' : (G.mapSubstitution fun s => { s with state }).kind = .substitution { s with state } := by
    rw [Goal.mapSubstitution, hk]
  refine Prog.ends_modify ⟨_, hp.tail (.edit _ hG hedit), .waits (find?_updateGoal hG _) ?_
    (Goal.resting_substitution hk' hstate hpid) fun _ => Goal.ready_substitution hk' _⟩
  rwa [hedit.waitees]

/-- `referencesValid` ends, or goes on to run the substituter. -/
theorem referencesValid_spec {goal : Goal} {s s' : SubstitutionGoal} {G : Goal}
    (hp : ReflTransGen (Prep F g) w₀ w) (hat : KindAt g (.substitution s') w G) (hpid : s'.pid = none) :
    Goes env F g R N w₀ (referencesValid env g goal s) w := by
  unfold referencesValid
  split_ifs
  · exact goes_amDone hp hat.find hat.waitees (Goal.pids_substitution hat.kind hpid) (by decide)
      (fun h => by cases h) fun h => by cases h
  · refine Prog.ends_get_bind (goes_quiet_bind (quiet_assert (Or.inl rfl)) hp fun _ _ => ?_)
    exact goes_rewakes_substitution hp hat hpid (by decide)

/-- The goal ends without substituters only if none of the remaining ones has the path. -/
theorem tryNext_spec {goal : Goal} {subs : List Path} {s s' : SubstitutionGoal} {G : Goal}
    (hp : ReflTransGen (Prep F g) w₀ w) (hat : KindAt g (.substitution s') w G) (hpid : s'.pid = none)
    (hnone : s.hasSubstitute = false → (∀ sub ∈ subs, ans.substitute sub = .ok none) → N) :
    Goes env F g R N w₀ (tryNext env ans g goal subs s) w := by
  induction subs generalizing w G s' with
  | nil =>
    unfold tryNext
    refine goes_amDone hp hat.find hat.waitees (Goal.pids_substitution hat.kind hpid) ?_ ?_ ?_
    · split_ifs <;> decide
    · intro h
      split_ifs at h
    · intro h
      split_ifs at h with hhas
      · exact hnone (by simpa using hhas) fun _ hsub => absurd hsub List.not_mem_nil
  | cons sub subs ih =>
    unfold tryNext
    obtain ⟨hstep, hat₁⟩ := hat.modifySubstitution (f := fun s => { s with subs }) ⟨rfl, rfl, rfl⟩
    have hp₁ := hp.tail hstep
    refine Prog.ends_modify_bind (goes_lift_bind hp₁ fun info hinfo => ?_)
    cases info with
    | none =>
      refine ih hp₁ hat₁ hpid fun hhas hall => hnone hhas fun sub' hsub' => ?_
      rcases List.mem_cons.mp hsub' with rfl | hsub'
      · exact hinfo
      · exact hall sub' hsub'
    | some references =>
      obtain ⟨hstep₂, hat₂⟩ := hat₁.modifySubstitution
        (f := fun s => { s with references, hasSubstitute := true }) ⟨rfl, rfl, rfl⟩
      have hp₂ := hp₁.tail hstep₂
      refine Prog.ends_modify_bind ?_
      refine (spawns_each_substitution (F := F) hat₂.find hat₂.lt _ false).bind (fun _ w₃ hw₃ => ?_)
        fun _ _ => False.elim
      obtain ⟨G₃, hG₃, hk₃⟩ := hw₃
      have hp₃ := hp₂.trans hG₃.path
      have hk₃ := hk₃.trans hat₂.kind
      refine goes_waiteesEmpty_bind hG₃.find (fun hempty => ?_) fun hne => ?_
      · rw [if_pos rfl]
        exact referencesValid_spec hp₃ ⟨hG₃.find, hk₃, hempty, hG₃.lt⟩ hpid
      · rw [if_neg (by decide)]
        exact goes_waits_substitution hp₃ hG₃.find hk₃ hne (by decide) hpid

/-- `init` of a substitution goal ends when the path is valid, else asks the substituters. -/
theorem substitutionInit_spec {goal : Goal} {s : SubstitutionGoal} {G : Goal}
    (hp : ReflTransGen (Prep F g) w₀ w) (hat : KindAt g (.substitution s) w G) (hpid : s.pid = none)
    (hnone : s.hasSubstitute = false →
      (∀ sub ∈ env.settings.substituters, ans.substitute sub = .ok none) → N) :
    Goes env F g R N w₀ (substitutionInit env ans g goal s) w := by
  unfold substitutionInit
  refine Prog.ends_get_bind ?_
  split_ifs with hvalid
  · refine goes_amDone hp hat.find hat.waitees (Goal.pids_substitution hat.kind hpid) (by decide)
      (fun _ _ => ?_) fun h => by cases h
    simp only [Goal.Delivered, hat.kind]
    exact hvalid.2
  · exact goes_throw hp trivial
  · obtain ⟨hstep, hat₁⟩ := hat.modifySubstitution
      (f := fun s => { s with subs := env.settings.substituters }) ⟨rfl, rfl, rfl⟩
    exact Prog.ends_modify_bind (tryNext_spec (hp.tail hstep) hat₁ hpid hnone)

/-- A substitution goal with a child of its own. -/
theorem goes_starts_substitution {s : SubstitutionGoal} {G : Goal} {fds : List ChildFd} {now : ℤ}
    {pid : Pid} (hp : ReflTransGen (Prep F g) w₀ w) (hat : KindAt g (.substitution s) w G)
    (hpid : s.pid = none) (hfresh : pid ∉ w.usedPids)
    (hslot : w.nrLocalBuilds < max 1 env.settings.maxBuildJobs) :
    Worked env F g R N w₀ ((w.updateGoal g (Goal.mapSubstitution fun s =>
      { s with pid := some pid, state := .finished })).childStarted g pid fds true true now) := by
  have hk : (G.mapSubstitution fun s => { s with pid := some pid, state := .finished }).kind =
      .substitution { s with pid := some pid, state := .finished } := by
    rw [Goal.mapSubstitution, hat.kind]
  refine ⟨w, hp, .starts _ pid fds now hat.find hat.waitees (Goal.pids_substitution hat.kind hpid)
    (Goal.reaped_mapSubstitution hat.kind rfl rfl rfl) ?_ ?_ (fun _ => Goal.ready_substitution hk _)
    hfresh hslot⟩
  · simp only [Goal.ownPid, hk]
  · simp only [Goal.Fit, hk]
    exact fun hn => absurd rfl hn

/-- `tryToRun` starts a substituter when there is a slot, else waits for one. -/
theorem tryToRun_spec {s : SubstitutionGoal} {G : Goal} (hp : ReflTransGen (Prep F g) w₀ w)
    (hat : KindAt g (.substitution s) w G) (hpid : s.pid = none) (hstate : s.state ≠ .finished)
    (hfresh : ans.pid ∉ w.usedPids) : Goes env F g R N w₀ (tryToRun env ans g s) w := by
  unfold tryToRun
  refine Prog.ends_get_bind ?_
  by_cases hfull :
      (if env.settings.maxBuildJobs = 0 then 1 else env.settings.maxBuildJobs) ≤ w.nrLocalBuilds
  · -- no slot is free
    rw [if_pos hfull]
    have hle : env.settings.maxBuildJobs ≤ w.nrLocalBuilds := by
      split_ifs at hfull <;> omega
    refine Prog.ends_modify ?_
    rw [Worker.waitForBuildSlot, if_neg (by omega)]
    exact ⟨w, hp, .wantsSlot hat.find hat.waitees (Goal.resting_substitution hat.kind hstate hpid)
      (fun _ => Goal.ready_substitution hat.kind _) hle⟩
  · rw [if_neg hfull]
    have hslot : w.nrLocalBuilds < max 1 env.settings.maxBuildJobs := by
      split_ifs at hfull <;> omega
    refine Prog.ends_modify_bind (Prog.ends_get_bind ?_)
    have hL := relocks_unlocked (F := F) hat.find
    have hk₁ : ∀ L, (G.setLocks L).kind = .substitution { s with outputLock := L } := by
      intro L
      rw [G.kind_setLocks, hat.kind]
    have hat₁ : KindAt g (.substitution { s with outputLock := ∅ }) (w.unlocked g) (G.setLocks ∅) :=
      ⟨hL.find, hk₁ ∅, (G.waitees_setLocks ∅).trans hat.waitees, hat.lt⟩
    have hp₁ := hp.trans hL.path
    by_cases hmine : (w.unlocked g).pathIsLockedByMe s.storePath = true
    · rw [if_pos hmine]
      refine Prog.ends_modify ⟨_, hp₁, .waitsForAny hat₁.find hat₁.waitees
        (Goal.resting_substitution hat₁.kind hstate hpid) (fun _ => Goal.ready_substitution hat₁.kind _)
        (G.locks_setLocks ∅) ⟨s.storePath, ?_, by simpa [Worker.pathIsLockedByMe] using hmine⟩⟩
      simp only [Goal.needs, hat₁.kind]
      exact List.mem_singleton.mpr rfl
    · rw [if_neg hmine]
      refine (lockPaths_spec (F := F) hat₁.find).bind (fun b w₂ hw₂ => ?_) fun e w₂ he =>
        broke_of_plain (hp₁.trans he.1) he.2
      obtain ⟨L, hL₂, -⟩ := hw₂
      have hp₂ := hp₁.trans hL₂.path
      have hboth := hL.trans hL₂
      have hat₂ : KindAt g (.substitution { s with outputLock := L }) w₂ (G.setLocks L) :=
        ⟨hboth.find, hk₁ L, (G.waitees_setLocks L).trans hat.waitees, by
          rw [hboth.rest]
          exact hat.lt⟩
      cases b with
      | false =>
        rw [if_neg (by decide)]
        exact Prog.ends_modify ⟨w₂, hp₂, .waitsAWhile hat₂.find hat₂.waitees
          (Goal.resting_substitution hat₂.kind hstate hpid)
          fun _ => Goal.ready_substitution hat₂.kind _⟩
      | true =>
        rw [if_pos rfl]
        by_cases hvalid : s.repair = false ∧ (w.unlocked g).world.isValidPath s.storePath = true
        · rw [if_pos hvalid]
          refine goes_amDone hp₂ hat₂.find hat₂.waitees (Goal.pids_substitution hat₂.kind hpid)
            (by decide) (fun _ _ => ?_) fun h => by cases h
          simp only [Goal.Delivered, hat₂.kind]
          rw [hboth.rest]
          exact hvalid.2
        · rw [if_neg hvalid]
          refine goes_lift_bind hp₂ fun _ _ => Prog.ends_modify_bind (Prog.ends_modify ?_)
          change Worked env F g R N w₀ (((w₂.updateGoal g _).updateGoal g _).childStarted g ans.pid
            [.logPipe] true true ans.now)
          simp only [updateGoal_updateGoal, Goal.mapSubstitution_mapSubstitution]
          refine goes_starts_substitution hp₂ hat₂ hpid
            (fun hmem => hfresh ((hboth.mem_usedPids hat.find).mp hmem)) ?_
          rw [hboth.rest]
          exact hslot

/-- `finished` ends the goal, or tries the next substituter. -/
theorem finished_spec {s : SubstitutionGoal} {G : Goal} (hp : ReflTransGen (Prep F g) w₀ w)
    (hat : KindAt g (.substitution s) w G) : Goes env F g R N w₀ (finished env ans g s) w := by
  unfold finished
  cases hsaved : s.pid with
  | none => exact goes_throw hp trivial
  | some pid =>
    refine Prog.ends_pure_bind ?_
    have hk : (G.mapSubstitution fun s => { s with pid := none }).kind =
        .substitution { s with pid := none } := by
      rw [Goal.mapSubstitution, hat.kind]
    have hpids : G.pids = [pid] := by
      simp only [Goal.pids, hat.kind, hsaved, Option.toList_some]
    have hreaped : G.Reaped (G.mapSubstitution fun s => { s with pid := none }) [] :=
      Goal.reaped_mapSubstitution hat.kind rfl rfl rfl
    refine goes_reap_bind hp hat hpids hreaped fun w₁ hat₁ hworld₁ hp₁ => ?_
    rw [hk] at hat₁
    split
    · exact goes_throw hp₁ trivial
    · exact goes_rewakes_substitution hp₁ hat₁ rfl (by decide)
    · refine goes_lift_bind hp₁ fun _ _ => Prog.ends_modify_bind ?_
      have hgrows := w₁.world.grows_register [s.storePath] fun _ => s.references
      refine goes_amDone (hp₁.tail (.world _ hgrows)) hat₁.find hat₁.waitees
        (Goal.pids_substitution hk rfl) (by decide) (fun _ _ => ?_) fun h => by cases h
      simp only [Goal.Delivered, hk]
      simp [World.register]

/-! ### A whole call -/

/-- What a call of `work` does to a goal that waits for nothing. -/
theorem work_spec {G : Goal} (hG : w.goals.find? g = some G) (hno : G.waitees = ∅) (hfit : G.Fit)
    (hlt : g < w.nextGoal) (hfresh : w.freshPids ans = true) :
    Goes env (G.Fails ans w.world) g (G.Ready env w.world) (G.NoOffer env ans) w (work env ans g G)
      w := by
  have hF : ∀ d, G.kind = .derivation d → d.state ≠ .buildDone → ∀ c : FailureCause,
      c.permanent = true → G.Fails ans w.world c := by
    intro d hk hs c hc
    refine Or.inl ⟨fun d' hk' => ?_, hc⟩
    rw [hk] at hk'
    cases hk'
    exact hs
  have hfreshPid : ans.pid ∉ w.usedPids := by
    simp only [Worker.freshPids, Bool.and_eq_true, decide_eq_true_eq] at hfresh
    exact hfresh.1.1
  have hready : ∀ d, G.kind = .derivation d → G.Ready env w.world →
      (d.state ≠ .init → d.state ≠ .haveDerivation → d.Loaded env w.world) ∧
        (d.state = .closureRepaired → d.OutputsValid w.world) := by
    intro d hk hR
    simpa only [Goal.Ready, hk] using hR
  unfold work
  split
  next d hk =>
    have hat : KindAt g (.derivation d) w G := ⟨hG, hk, hno, hlt⟩
    simp only [Goal.Fit, hk] at hfit
    have hidle : d.state ≠ .buildDone → d.Idle := fun h =>
      ⟨(hfit.2 h).1, (hfit.2 h).2.1, (hfit.2 h).2.2⟩
    split
    next hs => exact derivationInit_spec .refl hat (hidle (by rw [hs]; decide))
    next hs =>
      exact haveDerivation_spec (hF d hk (by rw [hs]; decide)) 2 G d w G .refl hat
        (hidle (by rw [hs]; decide))
    next hs =>
      exact outputsSubstituted_spec (haveDerivation_spec (hF d hk (by rw [hs]; decide)) 2) .refl hat
        (hidle (by rw [hs]; decide))
        fun hR => (hready d hk hR).1 (by rw [hs]; decide) (by rw [hs]; decide)
    next hs =>
      exact closureRepaired_spec .refl hat (hidle (by rw [hs]; decide))
        fun hR => ⟨(hready d hk hR).1 (by rw [hs]; decide) (by rw [hs]; decide),
          (hready d hk hR).2 hs⟩
    next hs =>
      exact inputsRealised_spec .refl hat (hidle (by rw [hs]; decide))
        fun hR => (hready d hk hR).1 (by rw [hs]; decide) (by rw [hs]; decide)
    next hs =>
      exact tryToBuild_spec (hF d hk (by rw [hs]; decide)) .refl hat (hidle (by rw [hs]; decide)) hs
        (fun hR => (hready d hk hR).1 (by rw [hs]; decide) (by rw [hs]; decide)) hfresh
    next hs =>
      exact buildDone_spec (fun msg h => Or.inr ⟨d, msg, hk, hs, h, rfl⟩) .refl hat hfit.1
        fun hR => (hready d hk hR).1 (by rw [hs]; decide) (by rw [hs]; decide)
  next s hk =>
    have hat : KindAt g (.substitution s) w G := ⟨hG, hk, hno, hlt⟩
    simp only [Goal.Fit, hk] at hfit
    split
    next hs =>
      exact substitutionInit_spec .refl hat (hfit (by rw [hs]; decide))
        fun hhas hall => ⟨s, hk, hhas, Or.inl ⟨hs, hall⟩⟩
    next hs =>
      exact tryNext_spec .refl hat (hfit (by rw [hs]; decide))
        fun hhas hall => ⟨s, hk, hhas, Or.inr ⟨hs, hall⟩⟩
    next hs => exact referencesValid_spec .refl hat (hfit (by rw [hs]; decide))
    next hs =>
      exact tryToRun_spec .refl hat (hfit (by rw [hs]; decide)) (by rw [hs]; decide) hfreshPid
    next hs => exact finished_spec .refl hat

end

end Nix
