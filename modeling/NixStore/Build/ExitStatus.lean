import NixStore.Build.Consistency

/-!
# The exit status

`permanentFailure` is set whenever a derivation fails, so it tells whether the last failure was a
permanent one.  It tells whether any failure was permanent as long as no other failure comes after a
permanent one.
-/

namespace Nix

open Relation

/-- One of the derivations that failed did so permanently. -/
def Worker.FailedPermanently (w : Worker) : Prop := ∃ f ∈ w.failures, f.2.permanent = true

instance (w : Worker) : Decidable w.FailedPermanently :=
  inferInstanceAs (Decidable (∃ f ∈ w.failures, f.2.permanent = true))

/-- The flag tells whether a derivation failed permanently. -/
def Worker.FlagExact (w : Worker) : Prop := w.permanentFailure = true ↔ w.FailedPermanently

/-- The event is a call of a goal whose build has failed because of the hook, or is that of a
derivation with a fixed output. -/
def Event.failsTransiently (w : Worker) : Event → Bool
  | .work g ans =>
    match (w.goals.find? g).map Goal.kind with
    | some (.derivation d) =>
      decide (d.state = .buildDone) && (hookError ans d || d.fixedOutput) &&
        match buildResult ans w.world d with
        | .failed _ => true
        | _ => false
    | _ => false
  | _ => false

/-- A failure that is not permanent does not come after one that is. -/
def NoOverwrite (r : RunState) (e : Event) (_ : RunState) : Prop :=
  e.failsTransiently r.worker = true → r.worker.permanentFailure = false

/-! ### One step -/

/-- The exit status says whether the flag is set. -/
theorem Worker.exitStatus_eq_iff {w : Worker} : w.exitStatus = 100 ↔ w.permanentFailure = true := by
  unfold exitStatus
  split_ifs with h <;> simp [h]

/-- That the flag is exact depends on the flag and the failures. -/
theorem Worker.FlagExact.congr {w w' : Worker} (h : w.FlagExact)
    (hflag : w'.permanentFailure = w.permanentFailure) (hlog : w'.failures = w.failures) :
    w'.FlagExact := by
  unfold FlagExact FailedPermanently at h ⊢
  rw [hflag, hlog]
  exact h

/-- A preparation reports no failure, or one with its cause. -/
theorem Prep.same_failures {F : FailureCause → Prop} {g : GoalId} {w w' : Worker} (h : Prep F g w w') :
    (w'.permanentFailure = w.permanentFailure ∧ w'.failures = w.failures) ∨
      ∃ drvPath cause, F cause ∧ w'.permanentFailure = cause.permanent ∧
        w'.failures = w.failures ++ [(drvPath, cause)] := by
  cases h with
  | failure drvPath cause hF => exact Or.inr ⟨drvPath, cause, hF, rfl, rfl⟩
  | reap f pid hG hpid hf hdone =>
    left
    obtain ⟨c, -, -, hw'⟩ := ((childTerminated_spec _ _).of_ok hdone).entry
    exact ⟨(congrArg Worker.permanentFailure hw' :), (congrArg Worker.failures hw' :)⟩
  | _ => exact Or.inl ⟨rfl, rfl⟩

/-- The failures of a call are all permanent, or none of them is. -/
theorem flagExact_preps {F : FailureCause → Prop} {g : GoalId} {w w' : Worker}
    (h : w.FlagExact) (hp : ReflTransGen (Prep F g) w w')
    (hF : (∀ c, F c → c.permanent = true) ∨
      (w.permanentFailure = false ∧ ∀ c, F c → c.permanent = false)) : w'.FlagExact := by
  rcases hF with hall | ⟨hclear, hnone⟩
  · induction hp with
    | refl => exact h
    | tail _ hstep ih =>
      rcases hstep.same_failures with ⟨hflag, hlog⟩ | ⟨drvPath, cause, hc, hflag, hlog⟩
      · exact ih.congr hflag hlog
      · unfold Worker.FlagExact Worker.FailedPermanently
        rw [hflag, hlog, hall cause hc]
        simp [hall cause hc]
  · have hboth : w'.permanentFailure = false ∧ ¬ w'.FailedPermanently := by
      induction hp with
      | refl => exact ⟨hclear, fun hf => by simp [h.mpr hf] at hclear⟩
      | tail _ hstep ih =>
        obtain ⟨hclear₁, hno₁⟩ := ih
        unfold Worker.FailedPermanently at hno₁ ⊢
        rcases hstep.same_failures with ⟨hflag, hlog⟩ | ⟨drvPath, cause, hc, hflag, hlog⟩
        · rw [hflag, hlog]
          exact ⟨hclear₁, hno₁⟩
        · rw [hflag, hlog]
          refine ⟨hnone cause hc, fun hf => ?_⟩
          obtain ⟨f, hf, hperm⟩ := hf
          rcases List.mem_append.mp hf with hf | hf
          · exact hno₁ ⟨f, hf, hperm⟩
          · rw [List.mem_singleton.mp hf, hnone cause hc] at hperm
            cases hperm
    simp [Worker.FlagExact, hboth.1, hboth.2]

/-- What the condition on a step says about the failures that a call records. -/
theorem fails_cases {g : GoalId} {ans : Answers} {G : Goal} {w : Worker}
    (hG : w.goals.find? g = some G)
    (hcond : (Event.work g ans).failsTransiently w = true → w.permanentFailure = false) :
    (∀ c, G.Fails ans w.world c → c.permanent = true) ∨
      (w.permanentFailure = false ∧ ∀ c, G.Fails ans w.world c → c.permanent = false) := by
  by_cases htransient : (Event.work g ans).failsTransiently w = true
  · right
    refine ⟨hcond htransient, fun c hc => ?_⟩
    simp only [Event.failsTransiently, hG, Option.map_some] at htransient
    rcases hc with ⟨hno, -⟩ | ⟨d, msg, hk, hs, hres, rfl⟩
    · cases hk : G.kind with
      | derivation d => simp [hk, hno d hk] at htransient
      | substitution s => simp [hk] at htransient
    · simp only [hk, Bool.and_eq_true] at htransient
      obtain ⟨⟨-, hwhy⟩, -⟩ := htransient
      unfold FailureCause.permanent
      cases hhook : hookError ans d <;> simp_all
  · left
    intro c hc
    rcases hc with ⟨-, hperm⟩ | ⟨d, msg, hk, hs, hres, rfl⟩
    · exact hperm
    · simp only [Event.failsTransiently, hG, Option.map_some, hk, hs, hres, decide_true, Bool.true_and,
        Bool.and_true, Bool.or_eq_true, not_or, Bool.not_eq_true] at htransient
      simp [FailureCause.permanent, htransient.1, htransient.2]

/-- The end of a turn reports no failure. -/
theorem Ended.same_failures {env : BuildEnv} {batch : SortedSet GoalId} {g : GoalId} {R N : Prop}
    {w w' : Worker} (h : During env batch g w) (he : Ended env g R N w w') :
    w'.permanentFailure = w.permanentFailure ∧ w'.failures = w.failures := by
  cases he with
  | @finishes _ G r hG hno hpids hr hdone hsuccess hnone =>
    obtain ⟨G₀, hG₀, hbusy⟩ := h.busy
    rw [hG] at hG₀
    cases hG₀
    rw [((amDone_spec h.tables.sound.linked hG hbusy).of_ok hdone).rest]
    exact ⟨rfl, rfl⟩
  | _ => exact ⟨rfl, rfl⟩

/-- Stripping reports no failure. -/
theorem Stripped.same_failures {g : GoalId} {G : Goal} {w w' : Worker} (h : Stripped g G w w') :
    w'.permanentFailure = w.permanentFailure ∧ w'.failures = w.failures := by
  rcases h.rest with ⟨pid, -, hceased⟩ | ⟨-, hw'⟩
  · obtain ⟨c, -, -, hw'⟩ := hceased.entry
    exact ⟨(congrArg Worker.permanentFailure hw' :), (congrArg Worker.failures hw' :)⟩
  · rw [hw']
    exact ⟨rfl, rfl⟩

/-- Cancelling reports no failure. -/
theorem Cancelled.same_failures {keepGoing : Bool} {g : GoalId} {G : Goal} {w w' : Worker}
    (h : Cancelled keepGoing g G w w') :
    w'.permanentFailure = w.permanentFailure ∧ w'.failures = w.failures := by
  obtain ⟨w₁, G₁, hs, -, -, -, hd⟩ := h.steps
  rw [hd.rest]
  exact hs.same_failures

/-- Destroying reports no failure. -/
theorem Destroyed.same_failures {g : GoalId} {G : Goal} {w w' : Worker} (h : Destroyed g G w w') :
    w'.permanentFailure = w.permanentFailure ∧ w'.failures = w.failures := by
  rcases h.rest with ⟨pid, -, hceased⟩ | ⟨-, hw'⟩
  · obtain ⟨c, -, -, hw'⟩ := hceased.entry
    exact ⟨(congrArg Worker.permanentFailure hw' :), (congrArg Worker.failures hw' :)⟩
  · rw [hw']
    exact ⟨rfl, rfl⟩

/-- Polling reports no failure. -/
theorem Polled.same_failures {env : BuildEnv} {inp : Input} {pid : Pid} {w w' : Worker}
    {o : Option Stop} (h : Polled env inp pid w o w') :
    w'.permanentFailure = w.permanentFailure ∧ w'.failures = w.failures := by
  have hread : ∀ {g fds w₁}, Read inp pid g fds w w₁ →
      w₁.permanentFailure = w.permanentFailure ∧ w₁.failures = w.failures := by
    intro g fds w₁ hr
    rw [hr.rest]
    exact ⟨rfl, rfl⟩
  cases h with
  | gone hc => exact ⟨rfl, rfl⟩
  | dead c hc hG => exact ⟨rfl, rfl⟩
  | failed c fds e hc hr he => exact hread hr
  | read c G hc hG hr hlate => exact hread hr
  | cancelled c G hc hG hr hlate hd =>
    exact ⟨hd.same_failures.1.trans (hread hr).1, hd.same_failures.2.trans (hread hr).2⟩
  | refused c G hc hG hr hspent hlate hs =>
    exact ⟨hs.same_failures.1.trans (hread hr).1, hs.same_failures.2.trans (hread hr).2⟩
  | twice c G G₂ hc hG hr hlate hd hG₂ hs =>
    exact ⟨(hs.same_failures.1.trans hd.same_failures.1).trans (hread hr).1,
      (hs.same_failures.2.trans hd.same_failures.2).trans (hread hr).2⟩

/-- A step that does not overwrite the flag keeps it exact. -/
theorem StepCase.flagExact {env : BuildEnv} {r r' : RunState} {e : Event} (hinv : LoopInv env r)
    (h : StepCase env r e r') (hflag : r.worker.FlagExact) (hcond : NoOverwrite r e r') :
    r'.worker.FlagExact := by
  cases h with
  | destroy hG hfree hd => exact hflag.congr hd.same_failures.1 hd.same_failures.2
  | @work awake2 g ans G w' hp hg hs htop hc =>
    have hduring := hinv.during hp hg hc.find hc.busy
    obtain ⟨w₁, hpreps, hended⟩ := hc.worked
    have hsame := hended.same_failures (hduring.preps hpreps)
    exact (flagExact_preps hflag hpreps (fails_cases hc.find hcond)).congr hsame.1 hsame.2
  | workThrew hp hg hs hG hbusy he hpreps =>
    exact flagExact_preps hflag hpreps (fails_cases hG hcond)
  | poll hp hs hpoll => exact hflag.congr hpoll.same_failures.1 hpoll.same_failures.2
  | endInput hp =>
    refine hflag.congr ?_ ?_ <;>
    · unfold Worker.endInput
      split_ifs <;> rfl
  | _ => exact hflag.congr rfl rfl

/-! ### Runs -/

/-- The flag is exact at the start. -/
theorem flagExact_startRun (world : World) (requests : List Request) (repair : Bool) :
    (startRun world requests repair).worker.FlagExact := by
  have hmake : ∀ (w : Worker) (request : Request),
      (w.holdGoal repair request).permanentFailure = w.permanentFailure ∧
        (w.holdGoal repair request).failures = w.failures := by
    intro w request
    unfold Worker.holdGoal
    rcases makeGoal_cases w repair request with ⟨k, N, -, hc⟩ | ⟨-, heq | ⟨outputs, heq⟩⟩
    · dsimp only
      rw [hc.rest]
      exact ⟨rfl, rfl⟩
    · dsimp only
      rw [heq]
      exact ⟨rfl, rfl⟩
    · dsimp only
      rw [heq]
      exact ⟨rfl, rfl⟩
  have hfold : ∀ (l : List Request) (w : Worker), w.FlagExact →
      (l.foldl (Worker.holdGoal repair) w).FlagExact := by
    intro l
    induction l with
    | nil => exact fun w h => h
    | cons request l ih =>
      exact fun w h => ih _ (h.congr (hmake w request).1 (hmake w request).2)
  refine (hfold requests (.new world) ?_).congr rfl rfl
  simp [Worker.FlagExact, Worker.FailedPermanently, Worker.new]

/-- The exit status tells whether a derivation failed permanently, and so it does not depend on the
order of the failures, in runs in which no permanent failure is followed by another kind of failure. -/
theorem runs_exitStatus {env : BuildEnv} {world : World} {requests : List Request} {repair : Bool}
    {r : RunState} (hr : Runs env NoOverwrite (startRun world requests repair) r) :
    (r.worker.exitStatus = 100 ↔ r.worker.FailedPermanently) ∧
      ∀ world₂ requests₂ repair₂ r₂, Runs env NoOverwrite (startRun world₂ requests₂ repair₂) r₂ →
        r₂.worker.failures.Perm r.worker.failures →
        r₂.worker.exitStatus = r.worker.exitStatus := by
  have hexact : ∀ {world requests repair r},
      Runs env NoOverwrite (startRun world requests repair) r → r.worker.FlagExact := by
    intro world requests repair r hr
    refine (hr.invariant (I := fun r => r.worker.FlagExact)
      (loopInv_startRun env world requests repair) (flagExact_startRun world requests repair) ?_).2
    intro r e r' hinv hI hcase hcond _
    exact hcase.flagExact hinv hI hcond
  refine ⟨Worker.exitStatus_eq_iff.trans (hexact hr), fun world₂ requests₂ repair₂ r₂ hr₂ hperm => ?_⟩
  have hsame : r₂.worker.FailedPermanently ↔ r.worker.FailedPermanently := by
    unfold Worker.FailedPermanently
    exact exists_congr fun f => and_congr_left fun _ => hperm.mem_iff
  have hflag : r₂.worker.permanentFailure = r.worker.permanentFailure :=
    Bool.eq_iff_iff.mpr ((hexact hr₂).trans (hsame.trans (hexact hr).symm))
  rw [Worker.exitStatus, Worker.exitStatus, hflag]

/-! ### Two derivations that fail -/

/-- A derivation with a fixed output. -/
def sampleSource : Derivation :=
  { sampleDrv with outputs := .ofList [(str "out", ⟨str "/nix/store/src", str "md5", str "00"⟩)] }

/-- Two build slots and no substitutes. -/
def twoSlots : BuildEnv :=
  sampleEnv { sampleSettings with maxBuildJobs := 2, useSubstitutes := false } fun p =>
    if p = str "/nix/store/src.drv" then sampleSource else sampleDrv

/-- Both derivations are asked for. -/
def twoFailures : RunState :=
  startRun (sampleWorld [str "/nix/store/app.drv", str "/nix/store/src.drv"])
    [.derivation (str "/nix/store/app.drv") ∅, .derivation (str "/nix/store/src.drv") ∅] false

/-- The input when all children have closed their output. -/
def sampleEOF : Input := ⟨0, 0, .ready, fun _ _ => .eof⟩

/-- The builders of both derivations run and exit with the status 1; then the goals are called in the
order `first`, `second`. -/
def bothFail (first second : GoalId) : List Event :=
  let ans := sampleAnswers
  let failed := { sampleAnswers with pid := 103, status := .exited 1 }
  [.takeAwake, .work 0 ans, .work 1 ans, .endAwake,
    .takeAwake, .work 2 ans, .destroy 2, .work 3 ans, .destroy 3, .endAwake,
    .takeAwake, .work 0 ans, .work 1 ans, .endAwake,
    .takeAwake, .work 0 ans, .work 1 { ans with pid := 102 }, .endAwake,
    .waitForInput sampleEOF, .pollChild, .pollChild, .endInput,
    .takeAwake, .work first failed, .work second failed]

/-- The same two builds fail with the same causes, and the status is 100 or 1, depending on which of
them ends first. -/
theorem exitStatus_depends_on_order :
    twoSlots.settings.keepGoing = true ∧
    ∃ r r₂, Reachable twoSlots r ∧ Reachable twoSlots r₂ ∧
      r.worker.failures = [(str "/nix/store/src.drv", .buildFailed false true),
        (str "/nix/store/app.drv", .buildFailed false false)] ∧
      r₂.worker.failures = [(str "/nix/store/app.drv", .buildFailed false false),
        (str "/nix/store/src.drv", .buildFailed false true)] ∧
      r.worker.exitStatus = 100 ∧ r₂.worker.exitStatus = 1 ∧ r₂.worker.FailedPermanently := by
  obtain ⟨r, hr, hp⟩ := exists_runs_of_schedule twoSlots (fun _ _ _ => true)
    (fun _ _ _ => True) (fun _ _ _ _ => trivial) (bothFail 1 0) twoFailures
    (fun r => decide (r.worker.failures = [(str "/nix/store/src.drv", .buildFailed false true),
        (str "/nix/store/app.drv", .buildFailed false false)] ∧ r.worker.exitStatus = 100))
    (by decide +kernel)
  obtain ⟨r₂, hr₂, hp₂⟩ := exists_runs_of_schedule twoSlots (fun _ _ _ => true)
    (fun _ _ _ => True) (fun _ _ _ _ => trivial) (bothFail 0 1) twoFailures
    (fun r => decide (r.worker.failures = [(str "/nix/store/app.drv", .buildFailed false false),
        (str "/nix/store/src.drv", .buildFailed false true)] ∧ r.worker.exitStatus = 1))
    (by decide +kernel)
  obtain ⟨hlog, hstatus⟩ := of_decide_eq_true hp
  obtain ⟨hlog₂, hstatus₂⟩ := of_decide_eq_true hp₂
  refine ⟨rfl, r, r₂, ⟨_, _, _, hr⟩, ⟨_, _, _, hr₂⟩, hlog, hlog₂, hstatus, hstatus₂, ?_⟩
  rw [Worker.FailedPermanently, hlog₂]
  exact ⟨_, List.mem_cons_self, rfl⟩

/-- A sample with two failures whose flag is exact. -/
theorem runs_exitStatus_twoFailures :
    ∃ r, Runs twoSlots NoOverwrite twoFailures r ∧ r.worker.failures ≠ [] ∧
      (r.worker.exitStatus = 100 ↔ r.worker.FailedPermanently) := by
  obtain ⟨r, hr, hp⟩ := exists_runs_of_schedule twoSlots
    (fun r e _ => !e.failsTransiently r.worker || !r.worker.permanentFailure)
    NoOverwrite (fun r e _ h htransient => by simpa [htransient] using h) (bothFail 1 0) twoFailures
    (fun r => decide (r.worker.failures ≠ []))
    (by decide +kernel)
  exact ⟨r, hr, of_decide_eq_true hp, (runs_exitStatus hr).1⟩

end Nix
