import NixStore.Build.ExitStatus
import NixStore.Build.TopGoals

/-!
# What a build delivers

What was asked of the goals of a worker (`Request.Met`), in runs in which other processes invalidate no
path.  A goal that succeeds has brought about everything that it was asked for, whenever that was, and
`buildPaths` does not return before all outputs that it was asked for are valid.  It does return if
nobody has a substitute for a path.

A goal keeps wanting what it was asked for (`Goal.Covers`), and while it is not done it is ready for its
state.  No other goal is touched by a call of `work`, except that more is asked of it (`Turned`).
-/

namespace Nix

open Relation

/-! ### Requests -/

/-- What is asked for is in the store.  An output that the derivation does not have is ignored. -/
def Request.Met (request : Request) (env : BuildEnv) (world : World) : Prop :=
  match request with
  | .derivation drvPath wantedOutputs => world.isValidPath drvPath = true ∧
      ∃ drv, (env.readFile drvPath >>= parseDerivation env.uninit) = .ok drv ∧
        ∀ i ∈ drv.outputs.entries, wantOutput i.1 wantedOutputs = true →
          world.isValidPath i.2.path = true
  | .path storePath => world.isValidPath storePath = true

/-- The goal was asked for this. -/
def Goal.Answers (G : Goal) (request : Request) : Prop :=
  match request with
  | .derivation drvPath wantedOutputs =>
    ∃ d, G.kind = .derivation d ∧ d.drvPath = drvPath ∧ wantedOutputs ∈ d.requests
  | .path storePath => ∃ s, G.kind = .substitution s ∧ s.storePath = storePath

/-- The goal wants the outputs that it was asked for. -/
def Goal.Covers (G : Goal) : Prop :=
  ∀ d, G.kind = .derivation d → ∀ outputs ∈ d.requests, ∀ o,
    wantOutput o outputs = true → wantOutput o d.wantedOutputs = true

/-- The world does not shrink when nothing happens. -/
theorem World.Grows.refl (world : World) : world.Grows world := fun _ => id

/-- Growth of the world goes from step to step. -/
theorem World.Grows.trans {world world₁ world₂ : World} (h : world.Grows world₁)
    (h' : world₁.Grows world₂) : world.Grows world₂ := fun p hp => h' p (h p hp)

/-- What has been met stays met in a larger world. -/
theorem Request.Met.mono {request : Request} {env : BuildEnv} {world world' : World}
    (h : request.Met env world) (hgrows : world.Grows world') : request.Met env world' := by
  cases request with
  | derivation drvPath wantedOutputs =>
    obtain ⟨hvalid, drv, hdrv, houtputs⟩ := h
    exact ⟨hgrows _ hvalid, drv, hdrv, fun i hi hw => hgrows _ (houtputs i hi hw)⟩
  | path storePath => exact hgrows _ h

/-- A goal that is ready stays ready in a larger world. -/
theorem Goal.Ready.mono {G : Goal} {env : BuildEnv} {world world' : World} (h : G.Ready env world)
    (hgrows : world.Grows world') : G.Ready env world' := by
  unfold Goal.Ready at h ⊢
  split at h
  · exact ⟨fun hinit hhave => ⟨hgrows _ (h.1 hinit hhave).1, (h.1 hinit hhave).2⟩,
      fun hclosure i hi => hgrows _ (h.2 hclosure i hi)⟩
  · trivial

/-- An output is wanted when it is asked for, or all outputs are. -/
theorem wantOutput_iff {o : Str} {wanted : SortedSet Str} :
    wantOutput o wanted = true ↔ wanted = ∅ ∨ o ∈ wanted := by
  rw [wantOutput, Bool.or_eq_true, decide_eq_true_eq, decide_eq_true_eq]

/-- What was wanted is still wanted, and so is what is asked for. -/
theorem DerivationGoal.addWantedOutputs_spec (d : DerivationGoal) (outputs : SortedSet Str) :
    (d.addWantedOutputs outputs).requests = d.requests ++ [outputs] ∧
      ∀ o, wantOutput o d.wantedOutputs = true ∨ wantOutput o outputs = true →
        wantOutput o (d.addWantedOutputs outputs).wantedOutputs = true := by
  unfold addWantedOutputs
  dsimp only
  split_ifs with hwanted houtputs
  · exact ⟨rfl, fun o _ => wantOutput_iff.mpr (Or.inl hwanted)⟩
  · exact ⟨rfl, fun o _ => wantOutput_iff.mpr (Or.inl rfl)⟩
  · -- all names in the list are inserted
    have hloop : ∀ (l : List Str) (d' : DerivationGoal),
        (l.foldl (fun d i => if i ∈ d.wantedOutputs then d
          else { d with wantedOutputs := d.wantedOutputs.insert i, needRestart := true }) d').requests =
          d'.requests ∧
        ∀ o, o ∈ d'.wantedOutputs ∨ o ∈ l →
          o ∈ (l.foldl (fun d i => if i ∈ d.wantedOutputs then d
            else { d with wantedOutputs := d.wantedOutputs.insert i, needRestart := true })
            d').wantedOutputs := by
      intro l
      induction l with
      | nil => exact fun d' => ⟨rfl, fun o ho => ho.resolve_right List.not_mem_nil⟩
      | cons a l ih =>
        intro d'
        rw [List.foldl_cons]
        split_ifs with ha
        · refine ⟨(ih d').1, fun o ho => (ih d').2 o ?_⟩
          rcases ho with ho | ho
          · exact Or.inl ho
          · rcases List.mem_cons.mp ho with rfl | ho
            · exact Or.inl ha
            · exact Or.inr ho
        · refine ⟨(ih _).1, fun o ho => (ih _).2 o ?_⟩
          dsimp only
          rw [SortedSet.mem_insert]
          rcases ho with ho | ho
          · exact Or.inl (Or.inr ho)
          · exact (List.mem_cons.mp ho).imp Or.inl id
    obtain ⟨hrequests, hmem⟩ := hloop outputs.toList { d with requests := d.requests ++ [outputs] }
    refine ⟨hrequests, fun o ho => wantOutput_iff.mpr (Or.inr (hmem o ?_))⟩
    rw [wantOutput_iff, wantOutput_iff] at ho
    exact ho.imp (·.resolve_left hwanted) fun ho => SortedSet.mem_toList.mpr (ho.resolve_left houtputs)

/-- Nothing else changes. -/
theorem DerivationGoal.addWantedOutputs_same (d : DerivationGoal) (outputs : SortedSet Str) :
    { d.addWantedOutputs outputs with
      wantedOutputs := d.wantedOutputs, needRestart := d.needRestart, requests := d.requests } = d :=
  d.sameBuild_addWantedOutputs outputs

/-- Asking for more outputs does not change the derivation. -/
theorem DerivationGoal.drvPath_addWantedOutputs (d : DerivationGoal) (outputs : SortedSet Str) :
    (d.addWantedOutputs outputs).drvPath = d.drvPath :=
  (congrArg (·.drvPath) (d.addWantedOutputs_same outputs) :)

namespace Goal

variable {env : BuildEnv} {world world' : World} {G G' : Goal} {request : Request}

/-- A change of other fields does not change what was asked for. -/
theorem answers_congr (hkey : G'.key = G.key) (hreq : G.SameRequests G') :
    G'.Answers request ↔ G.Answers request := by
  obtain ⟨_, _, _, _, _, d | s⟩ := G <;> obtain ⟨_, _, _, _, _, d' | s'⟩ := G'
  · obtain ⟨d₀, hd₀, hrequests, -⟩ := hreq d' rfl
    cases hd₀
    have hpath : d'.drvPath = d.drvPath := GoalKey.derivation.inj hkey
    cases request with
    | derivation drvPath wantedOutputs =>
      simp only [Answers, GoalKind.derivation.injEq, exists_eq_left', hrequests, hpath]
    | path storePath => simp only [Answers, reduceCtorEq, false_and, exists_false]
  · cases hkey
  · cases hkey
  · have hpath : s'.storePath = s.storePath := GoalKey.substitution.inj hkey
    cases request with
    | derivation drvPath wantedOutputs => simp only [Answers, reduceCtorEq, false_and, exists_false]
    | path storePath =>
      simp only [Answers, GoalKind.substitution.injEq, exists_eq_left', hpath]

/-- Which requests a goal answers depends on its kind only. -/
theorem answers_of_kind (hkind : G'.kind = G.kind) : G'.Answers request ↔ G.Answers request := by
  unfold Answers
  rw [hkind]

/-- A goal that remembers the same requests covers them. -/
theorem Covers.congr (h : G.Covers) (hreq : G.SameRequests G') : G'.Covers := by
  intro d' hd' outputs houtputs o ho
  obtain ⟨d, hd, hrequests, hwanted⟩ := hreq d' hd'
  rw [hrequests] at houtputs
  rcases hwanted with hwanted | hwanted
  · rw [hwanted]
    exact h d hd outputs houtputs o ho
  · exact wantOutput_iff.mpr (Or.inl hwanted)

/-- Asking for more. -/
theorem Covers.want (h : G.Covers) (outputs : SortedSet Str) :
    (G.mapDerivation fun d => d.addWantedOutputs outputs).Covers := by
  intro d' hd' outputs' houtputs o ho
  obtain ⟨_, _, _, _, _, d | s⟩ := G
  · cases hd'
    obtain ⟨hrequests, hmem⟩ := d.addWantedOutputs_spec outputs
    rw [hrequests, List.mem_append, List.mem_singleton] at houtputs
    refine hmem o ?_
    rcases houtputs with houtputs | rfl
    · exact Or.inl (h d rfl outputs' houtputs o ho)
    · exact Or.inr ho
  · cases hd'

/-- Asking for more outputs loses no request. -/
theorem Answers.want (h : G.Answers request) (outputs : SortedSet Str) :
    (G.mapDerivation fun d => d.addWantedOutputs outputs).Answers request := by
  obtain ⟨_, _, _, _, _, d | s⟩ := G
  · cases request with
    | derivation drvPath wantedOutputs =>
      obtain ⟨d₀, hd₀, hpath, hmem⟩ := h
      cases hd₀
      refine ⟨_, rfl, (d.drvPath_addWantedOutputs outputs).trans hpath, ?_⟩
      rw [(d.addWantedOutputs_spec outputs).1]
      exact List.mem_append_left _ hmem
    | path storePath =>
      obtain ⟨s, hs, -⟩ := h
      cases hs
  · exact h

/-- What is asked for is among the requests. -/
theorem answers_want {d : DerivationGoal} (hk : G.kind = .derivation d) (outputs : SortedSet Str) :
    (G.mapDerivation fun d => d.addWantedOutputs outputs).Answers (.derivation d.drvPath outputs) := by
  obtain ⟨_, _, _, _, _, k⟩ := G
  dsimp only at hk
  subst hk
  refine ⟨_, rfl, d.drvPath_addWantedOutputs outputs, ?_⟩
  rw [(d.addWantedOutputs_spec outputs).1]
  exact List.mem_append_right _ (List.mem_singleton.mpr rfl)

/-- Asking for more outputs leaves a goal ready. -/
theorem Ready.want (h : G.Ready env world) (outputs : SortedSet Str) :
    (G.mapDerivation fun d => d.addWantedOutputs outputs).Ready env world := by
  obtain ⟨_, _, _, _, _, d | s⟩ := G
  · have hsame := d.addWantedOutputs_same outputs
    have hpath := d.drvPath_addWantedOutputs outputs
    have hstate : (d.addWantedOutputs outputs).state = d.state := (congrArg (·.state) hsame :)
    have hdrv : (d.addWantedOutputs outputs).drv = d.drv := (congrArg (·.drv) hsame :)
    simpa only [Ready, mapDerivation, DerivationGoal.Loaded, DerivationGoal.OutputsValid, hpath, hstate,
      hdrv] using h
  · exact h

/-- What a goal has delivered is what it was asked for. -/
theorem Delivered.met (h : G.Delivered env world) (hcovers : G.Covers) (hanswers : G.Answers request) :
    request.Met env world := by
  unfold Delivered at h
  cases request with
  | derivation drvPath wantedOutputs =>
    obtain ⟨d, hd, rfl, hmem⟩ := hanswers
    rw [hd] at h
    exact ⟨h.1.1, d.drv, h.1.2, fun i hi hw => h.2 i hi (hcovers d hd _ hmem _ hw)⟩
  | path storePath =>
    obtain ⟨s, hs, rfl⟩ := hanswers
    rw [hs] at h
    exact h

/-- What holds of a goal at any time. -/
structure Kept (G : Goal) (env : BuildEnv) (world : World) : Prop where
  covers : G.Covers
  success : G.exitCode = .ecSuccess → ∀ request, G.Answers request → request.Met env world
  noSubstituters : G.exitCode = .ecNoSubstituters → ∃ s, G.kind = .substitution s

/-- What a goal keeps it keeps in a larger world. -/
theorem Kept.mono (h : G.Kept env world) (hgrows : world.Grows world') : G.Kept env world' :=
  ⟨h.covers, fun hs request hr => (h.success hs request hr).mono hgrows, h.noSubstituters⟩

/-- A goal that is busy keeps its promise, since it has not ended. -/
theorem kept_of_busy (hcovers : G.Covers) (hbusy : G.exitCode = .ecBusy) : G.Kept env world :=
  ⟨hcovers, fun h => (nomatch hbusy.symm.trans h), fun h => (nomatch hbusy.symm.trans h)⟩

/-- A change of other fields. -/
theorem Kept.congr (h : G.Kept env world) (hkey : G'.key = G.key) (hreq : G.SameRequests G')
    (hexit : G'.exitCode = G.exitCode) : G'.Kept env world := by
  refine ⟨h.covers.congr hreq, fun hr request hanswers => ?_, fun hr => ?_⟩
  · exact h.success (hexit.symm.trans hr) request ((answers_congr hkey hreq).mp hanswers)
  · obtain ⟨s, hs⟩ := h.noSubstituters (hexit.symm.trans hr)
    have hkey' : G'.key = .substitution s.storePath := hkey.trans (by unfold key; rw [hs])
    obtain ⟨_, _, _, _, _, d' | s'⟩ := G'
    · cases hkey'
    · exact ⟨s', rfl⟩

/-- What a goal keeps depends on its kind and exit code only. -/
theorem Kept.of_kind (h : G.Kept env world) (hkind : G'.kind = G.kind)
    (hexit : G'.exitCode = G.exitCode) : G'.Kept env world := by
  refine ⟨fun d hd => h.covers d (hkind.symm.trans hd), fun hs request hr => ?_, fun hs => ?_⟩
  · exact h.success (hexit.symm.trans hs) request ((answers_of_kind hkind).mp hr)
  · rw [hkind]
    exact h.noSubstituters (hexit.symm.trans hs)

end Goal

/-! ### All goals -/

/-- A goal before and after a step that does not end it; `own` says that it is the one that is called. -/
structure Goal.Turn (G G' : Goal) (own : Prop) (env : BuildEnv) (world world' : World) : Prop where
  exitCode : G'.exitCode = G.exitCode
  answers : ∀ request, G.Answers request → G'.Answers request
  kept : G.Kept env world → G'.Kept env world'
  ready : ¬ own → G.Ready env world → G'.Ready env world'

/-- A step during a call of the goal `x` that ends no goal. -/
structure Turned (env : BuildEnv) (x : Option GoalId) (w w' : Worker) : Prop where
  held : w'.held = w.held
  old : ∀ k K, w.goals.find? k = some K →
    ∃ K', w'.goals.find? k = some K' ∧ K.Turn K' (x = some k) env w.world w'.world
  new : ∀ k K', w.goals.find? k = none → w'.goals.find? k = some K' →
    K'.exitCode = .ecBusy ∧ K'.Covers ∧ K'.Ready env w'.world

/-- What holds of all goals, but while the goal `x` is called it need not be ready. -/
structure Worker.Delivers (env : BuildEnv) (x : Option GoalId) (w : Worker) : Prop where
  kept : ∀ k K, w.goals.find? k = some K → K.Kept env w.world
  ready : ∀ k K, x ≠ some k → w.goals.find? k = some K → K.exitCode = .ecBusy → K.Ready env w.world

/-- The goal `k` is not destroyed, and it was asked for this. -/
def Worker.Asked (w : Worker) (k : GoalId) (request : Request) : Prop :=
  ∃ K, w.goals.find? k = some K ∧ K.Answers request

/-- No goal was destroyed, and everything that was asked for still is. -/
structure Worker.Retains (w w' : Worker) : Prop where
  held : w'.held = w.held
  asked : ∀ k request, w.Asked k request → w'.Asked k request

/-- A worker retains its own goals. -/
theorem Worker.Retains.refl (w : Worker) : w.Retains w := ⟨rfl, fun _ _ => id⟩

/-- Retention goes from step to step. -/
theorem Worker.Retains.trans {w w₁ w₂ : Worker} (h : w.Retains w₁) (h' : w₁.Retains w₂) :
    w.Retains w₂ :=
  ⟨h'.held.trans h.held, fun k request hk => h'.asked k request (h.asked k request hk)⟩

section

variable {env : BuildEnv} {x : Option GoalId} {g : GoalId} {w w' : Worker}

/-- A turn that changes no kind and no exit code keeps everything. -/
theorem turned_of_kind (hheld : w'.held = w.held) (hgrows : w.world.Grows w'.world)
    (hold : ∀ k K, w.goals.find? k = some K →
      ∃ K', w'.goals.find? k = some K' ∧ K'.kind = K.kind ∧ K'.exitCode = K.exitCode)
    (hnone : ∀ k, w.goals.find? k = none → w'.goals.find? k = none) : Turned env x w w' where
  held := hheld
  old k K hK := by
    obtain ⟨K', hK', hkind, hexit⟩ := hold k K hK
    refine ⟨K', hK', hexit, fun request hr => (Goal.answers_of_kind hkind).mpr hr,
      fun h => (h.of_kind hkind hexit).mono hgrows, fun _ h => ?_⟩
    have hready : K'.Ready env w.world := by
      unfold Goal.Ready at h ⊢
      rw [hkind]
      exact h
    exact hready.mono hgrows
  new k K' hk hK' := by
    rw [hnone k hk] at hK'
    cases hK'

/-- A turn that leaves the goals alone keeps everything. -/
theorem turned_of_goals (hheld : w'.held = w.held) (hgrows : w.world.Grows w'.world)
    (h : w'.goals = w.goals) : Turned env x w w' :=
  turned_of_kind hheld hgrows (fun _ K hK => ⟨K, h ▸ hK, rfl, rfl⟩) fun _ hk => h ▸ hk

/-- The record of the goal that is called changes. -/
theorem turned_of_other {G G' : Goal} (hG : w.goals.find? g = some G)
    (hG' : w'.goals.find? g = some G') (hkey : G'.key = G.key) (hreq : G.SameRequests G')
    (hexit : G'.exitCode = G.exitCode)
    (hother : ∀ k, k ≠ g → w'.goals.find? k = w.goals.find? k) (hworld : w'.world = w.world)
    (hheld : w'.held = w.held) : Turned env (some g) w w' where
  held := hheld
  old k K hK := by
    rw [hworld]
    by_cases hk : k = g
    · subst hk
      rw [hG] at hK
      cases hK
      exact ⟨G', hG', hexit, fun request hr => (Goal.answers_congr hkey hreq).mpr hr,
        fun h => h.congr hkey hreq hexit, fun h => absurd rfl h⟩
    · exact ⟨K, (hother k hk).trans hK, rfl, fun _ => id, id, fun _ => id⟩
  new k K' hk hK' := by
    by_cases hkg : k = g
    · subst hkg
      rw [hG] at hk
      cases hk
    · rw [hother k hkg, hk] at hK'
      cases hK'

/-- A new goal that is busy and ready may be added. -/
theorem turned_of_new {i : GoalId} {N : Goal} (hnew : w.goals.find? i = none)
    (hgoals : w'.goals = w.goals.insert i N) (hworld : w'.world = w.world)
    (hheld : w'.held = w.held) (hbusy : N.exitCode = .ecBusy) (hcovers : N.Covers)
    (hready : N.Ready env w.world) :
    Turned env x w w' where
  held := hheld
  old k K hK := by
    rw [hworld, hgoals]
    refine ⟨K, ?_, rfl, fun _ => id, id, fun _ => id⟩
    rw [SortedMap.find?_insert, if_neg, hK]
    rintro rfl
    rw [hnew] at hK
    cases hK
  new k K' hk hK' := by
    rw [hgoals, SortedMap.find?_insert] at hK'
    split_ifs at hK' with hki
    · cases hK'
      exact ⟨hbusy, hcovers, hworld ▸ hready⟩
    · rw [hk] at hK'
      cases hK'

/-- Making a derivation goal. -/
theorem turned_newDerivation {path : Path} {wantedOutputs : SortedSet Str} {repair : Bool}
    (hnew : w.goals.find? w.nextGoal = none) :
    Turned env x w ({ w.newGoal (.newDerivation path wantedOutputs repair) with
      derivationGoals := w.derivationGoals.insert path w.nextGoal }.wakeUp w.nextGoal) := by
  refine turned_of_new hnew rfl rfl rfl rfl ?_ ⟨fun h => absurd rfl h, fun h => nomatch h⟩
  intro d hd outputs houtputs o ho
  cases hd
  obtain rfl := List.mem_singleton.mp houtputs
  exact ho

/-- Making a substitution goal. -/
theorem turned_newSubstitution {path : Path} {repair : Bool}
    (hnew : w.goals.find? w.nextGoal = none) :
    Turned env x w ({ w.newGoal (.newSubstitution path repair) with
      substitutionGoals := w.substitutionGoals.insert path w.nextGoal }.wakeUp w.nextGoal) :=
  turned_of_new hnew rfl rfl rfl rfl (fun _ hd => nomatch hd) trivial

/-- More is asked of a goal that is not done. -/
theorem turned_want {i : GoalId} {outputs : SortedSet Str}
    (hbusy : ∀ G, w.goals.find? i = some G → G.exitCode = .ecBusy) :
    Turned env x w (w.updateGoal i (Goal.mapDerivation fun d => d.addWantedOutputs outputs)) where
  held := rfl
  old k K hK := by
    have hexit : ∀ G : Goal,
        (G.mapDerivation fun d => d.addWantedOutputs outputs).exitCode = G.exitCode := by
      rintro ⟨_, _, _, _, _, d | s⟩ <;> rfl
    by_cases hk : k = i
    · subst hk
      refine ⟨_, find?_updateGoal hK _, hexit K, fun request hr => hr.want outputs, fun h => ?_,
        fun _ h => h.want outputs⟩
      exact Goal.kept_of_busy (h.covers.want outputs) ((hexit K).trans (hbusy K hK))
    · exact ⟨K, (find?_updateGoal_ne hk).trans hK, rfl, fun _ => id, id, fun _ => id⟩
  new k K' hk hK' := by
    rw [Worker.updateGoal, SortedMap.find?_modify, hk] at hK'
    split_ifs at hK' with hki
    rw [Option.map_none] at hK'
    cases hK'

/-- After a turn the goals still deliver. -/
theorem Turned.delivers (h : Turned env x w w') (hd : w.Delivers env x) : w'.Delivers env x := by
  have hcases : ∀ k K', w'.goals.find? k = some K' →
      (∃ K, w.goals.find? k = some K ∧ K.Turn K' (x = some k) env w.world w'.world) ∨
        (K'.exitCode = .ecBusy ∧ K'.Covers ∧ K'.Ready env w'.world) := by
    intro k K' hK'
    cases hK : w.goals.find? k with
    | none => exact Or.inr (h.new k K' hK hK')
    | some K =>
      obtain ⟨K'', hK'', hturn⟩ := h.old k K hK
      rw [hK'] at hK''
      cases hK''
      exact Or.inl ⟨K, rfl, hturn⟩
  constructor
  · intro k K' hK'
    rcases hcases k K' hK' with ⟨K, hK, hturn⟩ | ⟨hbusy, hcovers, -⟩
    · exact hturn.kept (hd.kept k K hK)
    · exact Goal.kept_of_busy hcovers hbusy
  · intro k K' hk hK' hbusy
    rcases hcases k K' hK' with ⟨K, hK, hturn⟩ | ⟨-, -, hready⟩
    · exact hturn.ready hk (hd.ready k K hk hK (hturn.exitCode.symm.trans hbusy))
    · exact hready

/-- After a turn the goals are still there. -/
theorem Turned.retains (h : Turned env x w w') : w.Retains w' := by
  refine ⟨h.held, fun k request hk => ?_⟩
  obtain ⟨K, hK, hr⟩ := hk
  obtain ⟨K', hK', hturn⟩ := h.old k K hK
  exact ⟨K', hK', hturn.answers request hr⟩

/-- An exception for one goal may be made. -/
theorem Worker.Delivers.weaken (h : w.Delivers env none) (x : Option GoalId) : w.Delivers env x :=
  ⟨h.kept, fun k K _ => h.ready k K (by simp)⟩

end

/-! ### A call of `work` -/

/-- A goal in a list of the worker is busy. -/
theorem Worker.Listed.busy {w : Worker} {i : GoalId} (h : w.Listed i) (hsound : w.Sound) {G : Goal}
    (hG : w.goals.find? i = some G) : G.exitCode = .ecBusy := by
  obtain ⟨-, k, hk⟩ := h.goalFor
  exact (hsound.goalFor_busy k i _ hk (Worker.node_of_find hG)).1

/-- The next number for a goal is not in use. -/
theorem Worker.Sound.find?_nextGoal {w : Worker} (h : w.Sound) : w.goals.find? w.nextGoal = none := by
  cases hG : w.goals.find? w.nextGoal with
  | none => rfl
  | some G => exact absurd (h.lt _ _ (Worker.node_of_find hG)) (Nat.lt_irrefl _)

section

variable {env : BuildEnv} {batch : SortedSet GoalId} {F : FailureCause → Prop} {g : GoalId}
  {R N : Prop} {w w' : Worker}

/-- Waiting for one more goal is a turn. -/
theorem turned_addWaitee {x : Option GoalId} {i : GoalId} : Turned env x w (w.addWaitee g i) := by
  refine turned_of_kind rfl (.refl _) (fun k K hK => ?_) fun k hk => ?_
  · simp only [Worker.addWaitee, Worker.updateGoal, SortedMap.find?_modify, hK]
    split_ifs <;> exact ⟨_, rfl, rfl, rfl⟩
  · simp only [Worker.addWaitee, Worker.updateGoal, SortedMap.find?_modify, hk]
    split_ifs <;> rfl

/-- New locks of a goal. -/
theorem Goal.setLocks_spec (G : Goal) (L : PathSet) :
    (G.setLocks L).key = G.key ∧ G.SameRequests (G.setLocks L) ∧
      (G.setLocks L).exitCode = G.exitCode := by
  obtain ⟨_, _, _, _, _, d | s⟩ := G
  · refine ⟨rfl, fun d' hd' => ?_, rfl⟩
    cases hd'
    exact ⟨d, rfl, rfl, Or.inl rfl⟩
  · refine ⟨rfl, fun d' hd' => ?_, rfl⟩
    cases hd'

/-- Preparing a step is a turn, except for the goal at work. -/
theorem Prep.turned (h : During env batch g w) (hp : Prep F g w w') : Turned env (some g) w w' := by
  have hsound := h.tables.sound
  cases hp with
  | edit f hG hf =>
    exact turned_of_other hG (find?_updateGoal hG f) hf.key hf.requests hf.exitCode
      (fun k hk => find?_updateGoal_ne hk) rfl rfl
  | newDerivation path wantedOutputs repair hno => exact turned_newDerivation hsound.find?_nextGoal
  | newSubstitution path repair hno => exact turned_newSubstitution hsound.find?_nextGoal
  | want i outputs hi => exact turned_want fun G hG => hi.busy hsound hG
  | link i hi => exact turned_addWaitee
  | @lockPath G path hG hfree =>
    obtain ⟨hkey, hreq, hexit⟩ := G.setLocks_spec (G.locks.insert (Nix.lockPath path))
    exact turned_of_other hG (find?_updateGoal hG _) hkey hreq hexit
      (fun k hk => find?_updateGoal_ne hk) rfl rfl
  | unlock =>
    obtain ⟨G, hG, -⟩ := h.busy
    obtain ⟨hkey, hreq, hexit⟩ := G.setLocks_spec ∅
    exact turned_of_other hG (find?_updateGoal hG _) hkey hreq hexit
      (fun k hk => find?_updateGoal_ne hk) rfl rfl
  | reap f pid hG hpid hf hdone =>
    obtain ⟨c, -, -, hw'⟩ := ((childTerminated_spec pid _).of_ok hdone).entry
    have hgoals : w'.goals = (w.updateGoal g f).goals := (congrArg Worker.goals hw' :)
    refine turned_of_other hG ?_ hf.key hf.requests hf.exitCode (fun k hk => ?_)
      (congrArg Worker.world hw' :) (congrArg Worker.held hw' :)
    · rw [hgoals, find?_updateGoal hG]
    · rw [hgoals, find?_updateGoal_ne hk]
  | world world hgrows => exact turned_of_goals rfl hgrows rfl
  | failure drvPath cause hF => exact turned_of_goals rfl (.refl _) rfl
  | startHook pid hno hfresh => exact turned_of_goals rfl (.refl _) rfl

/-- While a goal is at work the others deliver. -/
theorem During.delivers (h : During env batch g w) (hd : w.Delivers env (some g))
    (hp : ReflTransGen (Prep F g) w w') :
    w'.Delivers env (some g) ∧ w.Retains w' := by
  induction hp with
  | refl => exact ⟨hd, .refl _⟩
  | tail hp hstep ih =>
    have hturned := hstep.turned (h.preps hp)
    exact ⟨hturned.delivers ih.1, ih.2.trans hturned.retains⟩

/-- The goal that is called ends. -/
theorem AfterDone.delivers {keepGoing : Bool} {r : ExitCode} {G : Goal}
    (hd : AfterDone keepGoing g r w G w') (h : w.Delivers env (some g))
    (hG : w.goals.find? g = some G) (hr : r ≠ .ecBusy)
    (hsuccess : r = .ecSuccess → ∀ request, G.Answers request → request.Met env w.world)
    (hnone : r = .ecNoSubstituters → ∃ s, G.kind = .substitution s) :
    w'.Delivers env none ∧ w.Retains w' := by
  have hworld : w'.world = w.world := by rw [hd.rest]
  refine ⟨⟨fun k K' hK' => ?_, fun k K' _ hK' hbusy => ?_⟩, by rw [hd.rest], fun k request hk => ?_⟩
  · obtain ⟨K, hK, hkind, hexit, -⟩ := hd.goal_before hK'
    rw [hworld]
    by_cases hkg : k = g
    · subst hkg
      rw [hG] at hK
      cases hK
      rw [if_pos rfl] at hexit
      refine ⟨fun d hd => (h.kept k G hG).covers d (hkind.symm.trans hd), fun hs request hreq => ?_,
        fun hs => ?_⟩
      · exact hsuccess (hexit.symm.trans hs) request ((Goal.answers_of_kind hkind).mp hreq)
      · rw [hkind]
        exact hnone (hexit.symm.trans hs)
    · rw [if_neg hkg] at hexit
      exact (h.kept k K hK).of_kind hkind hexit
  · obtain ⟨K, hK, hkind, hexit, -⟩ := hd.goal_before hK'
    have hkg : k ≠ g := by
      intro hkg
      rw [if_pos hkg] at hexit
      exact hr (hexit.symm.trans hbusy)
    rw [if_neg hkg] at hexit
    have hready := h.ready k K (by simpa using Ne.symm hkg) hK (hexit.symm.trans hbusy)
    rw [hworld]
    unfold Goal.Ready at hready ⊢
    rw [hkind]
    exact hready
  · obtain ⟨K, hK, hreq⟩ := hk
    obtain ⟨K', hK', hkind, -⟩ := hd.goal k K hK
    exact ⟨K', hK', (Goal.answers_of_kind hkind).mpr hreq⟩

/-- The last step of a call. -/
theorem Ended.delivers (hduring : During env batch g w) (he : Ended env g R N w w')
    (h : w.Delivers env (some g)) (hR : R) (hN : N → ∃ path, w.Asked g (.path path)) :
    w'.Delivers env none ∧ w.Retains w' := by
  -- the goal is ready for the state that it is left in
  have hstays : ∀ {w₁ : Worker} {G : Goal}, w₁.Delivers env (some g) → w₁.goals.find? g = some G →
      G.Ready env w₁.world → w₁.Delivers env none := by
    intro w₁ G h₁ hG hready
    refine ⟨h₁.kept, fun k K _ hK hbusy => ?_⟩
    by_cases hk : k = g
    · subst hk
      rw [hG] at hK
      cases hK
      exact hready
    · exact h₁.ready k K (by simpa using Ne.symm hk) hK hbusy
  have hsame : ∀ {w₁ : Worker} {G : Goal}, w₁.goals = w.goals → w₁.world = w.world →
      w₁.held = w.held → w.goals.find? g = some G → G.Ready env w.world →
      w₁.Delivers env none ∧ w.Retains w₁ := by
    intro w₁ G hgoals hworld hheld hG hready
    have hturned : Turned env (some g) w w₁ :=
      turned_of_goals hheld (by rw [hworld]; exact .refl _) hgoals
    exact ⟨hstays (hturned.delivers h) (hgoals ▸ hG) (hworld ▸ hready), hturned.retains⟩
  have hstarts : ∀ {w₁ : Worker} {G : Goal} {f : Goal → Goal} {pids : List Pid},
      w₁.goals = (w.updateGoal g f).goals → w₁.world = w.world → w₁.held = w.held →
      w.goals.find? g = some G → G.Reaped (f G) pids → (f G).Ready env w.world →
      w₁.Delivers env none ∧ w.Retains w₁ := by
    intro w₁ G f pids hgoals hworld hheld hG hf hready
    have hG₁ : w₁.goals.find? g = some (f G) := by rw [hgoals, find?_updateGoal hG]
    have hturned : Turned env (some g) w w₁ := turned_of_other hG hG₁ hf.key hf.requests hf.exitCode
      (fun k hk => by rw [hgoals, find?_updateGoal_ne hk]) hworld hheld
    exact ⟨hstays (hturned.delivers h) hG₁ (hworld ▸ hready), hturned.retains⟩
  cases he with
  | waits hG hne hrest hready => exact hsame rfl rfl rfl hG (hready hR)
  | rewakes hG hno hrest hready => exact hsame rfl rfl rfl hG (hready hR)
  | wantsSlot hG hno hrest hready hfull => exact hsame rfl rfl rfl hG (hready hR)
  | waitsForAny hG hno hrest hready hfree hlocked => exact hsame rfl rfl rfl hG (hready hR)
  | waitsAWhile hG hno hrest hready => exact hsame rfl rfl rfl hG (hready hR)
  | starts f pid fds now hG hno hpids hf hown hfit hready hfresh hslot =>
    exact hstarts rfl rfl rfl hG hf (hready hR)
  | startsHook f pid fds now hG hno hpids hf hfit hready hhook =>
    exact hstarts rfl rfl rfl hG hf (hready hR)
  | @finishes _ G r hG hno hpids hr hdone hsuccess hnone =>
    obtain ⟨G₀, hG₀, hbusy⟩ := hduring.busy
    rw [hG] at hG₀
    cases hG₀
    have hd := (amDone_spec hduring.tables.sound.linked hG hbusy).of_ok hdone
    refine hd.delivers h hG hr (fun hs request => ?_) fun hn => ?_
    · exact (hsuccess hs hR).met (h.kept g G hG).covers
    · obtain ⟨path, G₀, hG₀, s, hs, -⟩ := hN (hnone hn)
      rw [hG] at hG₀
      cases hG₀
      exact ⟨s, hs⟩

/-- A call of `work`. -/
theorem Called.delivers {ans : Answers} {G : Goal} (h : During env batch g w)
    (hc : Called env ans g G w w') (hd : w.Delivers env none) :
    w'.Delivers env none ∧ w.Retains w' := by
  obtain ⟨w₁, hpreps, hended⟩ := hc.worked
  obtain ⟨hd₁, hretains₁⟩ := h.delivers (hd.weaken _) hpreps
  have hready := hd.ready g G (by simp) hc.find hc.busy
  obtain ⟨hd', hretains⟩ := hended.delivers (h.preps hpreps) hd₁ hready fun hN => by
    obtain ⟨s, hs, -⟩ := hN
    exact ⟨s.storePath, hretains₁.asked g (.path s.storePath) ⟨G, hc.find, s, hs, rfl⟩⟩
  exact ⟨hd', hretains₁.trans hretains⟩

/-! ### Other steps -/

/-- Stripping a goal of its process is a turn. -/
theorem Stripped.turned {G : Goal} (hG : w.goals.find? g = some G) (h : Stripped g G w w') :
    Turned env (some g) w w' := by
  obtain ⟨G', hG', hreaped, -⟩ := h.goal
  have hsame : w'.world = w.world ∧ w'.held = w.held := by
    rcases h.rest with ⟨pid, -, hceased⟩ | ⟨-, hw'⟩
    · obtain ⟨c, -, -, hw'⟩ := hceased.entry
      exact ⟨(congrArg Worker.world hw' :), (congrArg Worker.held hw' :)⟩
    · exact ⟨(congrArg Worker.world hw' :), (congrArg Worker.held hw' :)⟩
  exact turned_of_other hG hG' hreaped.key hreaped.requests hreaped.exitCode h.other hsame.1 hsame.2

/-- Cancelling a goal keeps what the others deliver. -/
theorem Cancelled.delivers {keepGoing : Bool} {G : Goal} (hG : w.goals.find? g = some G)
    (h : Cancelled keepGoing g G w w') (hd : w.Delivers env none) :
    w'.Delivers env none ∧ w.Retains w' := by
  obtain ⟨-, w₁, G₁, hs, hG₁, -, -, hdone⟩ := h
  have hturned : Turned env (some g) w w₁ := hs.turned hG
  obtain ⟨hd', hretains⟩ := hdone.delivers (hturned.delivers (hd.weaken _)) hG₁ (by decide)
    (fun h => nomatch h) fun h => nomatch h
  exact ⟨hd', hturned.retains.trans hretains⟩

/-- Reading output of a process is a turn. -/
theorem Read.turned {x : Option GoalId} {inp : Input} {pid : Pid} {fds : List ChildFd}
    (h : Read inp pid g fds w w') : Turned env x w w' := by
  rw [h.rest]
  exact turned_of_goals rfl (.refl _) rfl

/-- Polling keeps what the goals deliver. -/
theorem Polled.delivers {inp : Input} {pid : Pid} {o : Option Stop} (h : Polled env inp pid w o w')
    (hd : w.Delivers env none) : (∃ x, w'.Delivers env x ∧ (o = none → x = none)) ∧ w.Retains w' := by
  have hread : ∀ {g fds w₁}, Read inp pid g fds w w₁ → w₁.Delivers env none ∧ w.Retains w₁ ∧
      ∀ {G : Goal}, w.goals.find? g = some G → w₁.goals.find? g = some G := by
    intro g fds w₁ hr
    have hturned : Turned env none w w₁ := hr.turned
    refine ⟨hturned.delivers hd, hturned.retains, fun hG => ?_⟩
    rw [hr.rest]
    exact hG
  cases h with
  | gone hc => exact ⟨⟨none, hd, fun _ => rfl⟩, .refl _⟩
  | dead c hc hG => exact ⟨⟨none, hd, fun _ => rfl⟩, .refl _⟩
  | failed c fds e hc hr he => exact ⟨⟨none, (hread hr).1, fun _ => rfl⟩, (hread hr).2.1⟩
  | read c G hc hG hr hlate => exact ⟨⟨none, (hread hr).1, fun _ => rfl⟩, (hread hr).2.1⟩
  | cancelled c G hc hG hr hlate hcancel =>
    obtain ⟨hd₁, hretains₁, hfind⟩ := hread hr
    obtain ⟨hd', hretains⟩ := hcancel.delivers (hfind hG) hd₁
    exact ⟨⟨none, hd', fun _ => rfl⟩, hretains₁.trans hretains⟩
  | refused c G hc hG hr hspent hlate hs =>
    obtain ⟨hd₁, hretains₁, hfind⟩ := hread hr
    have hturned : Turned env (some c.goal) _ w' := hs.turned (hfind hG)
    exact ⟨⟨_, hturned.delivers (hd₁.weaken _), fun h => nomatch h⟩, hretains₁.trans hturned.retains⟩
  | twice c G G₂ hc hG hr hlate hcancel hG₂ hs =>
    obtain ⟨hd₁, hretains₁, hfind⟩ := hread hr
    obtain ⟨hd₂, hretains₂⟩ := hcancel.delivers (hfind hG) hd₁
    have hturned : Turned env (some c.goal) _ w' := hs.turned hG₂
    exact ⟨⟨_, hturned.delivers (hd₂.weaken _), fun h => nomatch h⟩,
      (hretains₁.trans hretains₂).trans hturned.retains⟩

/-- Something that was asked for has a goal that the caller holds. -/
def Worker.Holds (w : Worker) (request : Request) : Prop := ∃ g ∈ w.held, w.Asked g request

/-- A request that is held stays held. -/
theorem Worker.Retains.holds (h : w.Retains w') {request : Request} (hk : w.Holds request) :
    w'.Holds request := by
  obtain ⟨g, hg, hasked⟩ := hk
  exact ⟨g, h.held ▸ hg, h.asked g request hasked⟩

end

/-! ### Runs -/

/-- Other processes invalidate no path. -/
def NoneInvalidated (r : RunState) (e : Event) (_ : RunState) : Prop :=
  ∀ world, e = .other world → r.worker.world.Grows world

/-- While the loop runs, every goal that is not done is ready. -/
def RunState.Delivers (env : BuildEnv) (r : RunState) : Prop :=
  ∃ x, r.worker.Delivers env x ∧ (r.phase.Running → x = none)

/-- A state with the same worker, up to a turn, delivers as well. -/
theorem RunState.Delivers.congr {env : BuildEnv} {r r' : RunState} (h : r.Delivers env)
    (hrunning : r'.phase.Running → r.phase.Running)
    (hturned : ∀ x, Turned env x r.worker r'.worker) :
    r'.Delivers env ∧ r.worker.Retains r'.worker := by
  obtain ⟨x, hx, hnone⟩ := h
  exact ⟨⟨x, (hturned x).delivers hx, fun hr => hnone (hrunning hr)⟩, (hturned x).retains⟩

/-- A goal that the caller does not hold is destroyed. -/
theorem Destroyed.delivers {env : BuildEnv} {x : Option GoalId} {g : GoalId} {G : Goal}
    {w w' : Worker} (h : Destroyed g G w w') (hd : w.Delivers env x) (hg : g ∉ w.held) :
    w'.Delivers env x ∧ ∀ request, w.Holds request → w'.Holds request := by
  have hsame : w'.world = w.world ∧ w'.held = w.held := by
    rcases h.rest with ⟨pid, -, hceased⟩ | ⟨-, hw'⟩
    · obtain ⟨c, -, -, hw'⟩ := hceased.entry
      exact ⟨(congrArg Worker.world hw' :), (congrArg Worker.held hw' :)⟩
    · exact ⟨(congrArg Worker.world hw' :), (congrArg Worker.held hw' :)⟩
  have hfind : ∀ k K, w'.goals.find? k = some K → w.goals.find? k = some K := by
    intro k K hK
    rw [h.goals, SortedMap.find?_erase] at hK
    split_ifs at hK
    exact hK
  refine ⟨⟨fun k K hK => ?_, fun k K hk hK hbusy => ?_⟩, fun request hk => ?_⟩
  · rw [hsame.1]
    exact hd.kept k K (hfind k K hK)
  · rw [hsame.1]
    exact hd.ready k K hk (hfind k K hK) hbusy
  · obtain ⟨k, hk, K, hK, hr⟩ := hk
    have hkg : k ≠ g := fun hkg => hg (hkg ▸ hk)
    refine ⟨k, hsame.2 ▸ hk, K, ?_, hr⟩
    rw [h.goals, SortedMap.find?_erase, if_neg hkg, hK]

/-- What a step of the loop keeps, as long as the caller keeps its pointers. -/
theorem StepCase.delivers {env : BuildEnv} {r r' : RunState} {e : Event} (hinv : LoopInv env r)
    (h : StepCase env r e r') (hworld : NoneInvalidated r e r') (hd : r.Delivers env) :
    r'.Delivers env ∧
      (e ≠ .release → ∀ request, r.worker.Holds request → r'.worker.Holds request) := by
  have hkeeps : ∀ {r₁ : RunState}, r₁.Delivers env → r.worker.Retains r₁.worker → r₁.Delivers env ∧
      (e ≠ .release → ∀ request, r.worker.Holds request → r₁.worker.Holds request) :=
    fun hd₁ hretains => ⟨hd₁, fun _ request => hretains.holds⟩
  have hsame : ∀ {r₁ : RunState}, r₁.worker.goals = r.worker.goals →
      r₁.worker.world = r.worker.world → r₁.worker.held = r.worker.held →
      (r₁.phase.Running → r.phase.Running) → r₁.Delivers env ∧
      (e ≠ .release → ∀ request, r.worker.Holds request → r₁.worker.Holds request) := by
    intro r₁ hgoals hw hheld hrunning
    obtain ⟨hd₁, hretains⟩ := hd.congr hrunning
      fun x => turned_of_goals hheld (by rw [hw]; exact .refl _) hgoals
    exact hkeeps hd₁ hretains
  have hrun : ∀ {phase : Phase}, r.phase = phase → phase.Running → r.worker.Delivers env none := by
    intro phase hp hrunning
    obtain ⟨x, hx, hnone⟩ := hd
    rw [hnone (by rw [hp]; exact hrunning)] at hx
    exact hx
  cases h with
  | @destroy g G w' hG hfree hdestroyed =>
    obtain ⟨x, hx, hnone⟩ := hd
    have hg : g ∉ r.worker.held := by
      intro hg
      rw [Worker.referenced_iff.mpr (Or.inr (Or.inl hg))] at hfree
      cases hfree
    obtain ⟨hd', hholds⟩ := hdestroyed.delivers hx hg
    exact ⟨⟨x, hd', hnone⟩, fun _ => hholds⟩
  | other world =>
    have hturned : ∀ x, Turned env x r.worker { r.worker with world } :=
      fun x => turned_of_goals rfl (hworld world rfl) rfl
    have hd' : RunState.Delivers env ⟨{ r.worker with world }, r.phase⟩ ∧
        r.worker.Retains { r.worker with world } := hd.congr id hturned
    exact hkeeps hd'.1 hd'.2
  | takeAwake hp htop => exact hsame rfl rfl rfl fun _ => by rw [hp]; trivial
  | skip hp hdead => exact hsame rfl rfl rfl fun _ => by rw [hp]; trivial
  | work hp hg hs htop hc =>
    obtain ⟨hd', hretains⟩ := hc.delivers (hinv.during hp hg hc.find hc.busy) (hrun hp trivial)
    exact hkeeps ⟨none, hd', fun _ => rfl⟩ hretains
  | workThrew hp hg hs hG hbusy he hpreps =>
    obtain ⟨hd', hretains⟩ :=
      (hinv.during hp hg hG hbusy).delivers ((hrun hp trivial).weaken _) hpreps
    exact hkeeps ⟨_, hd', fun h => h.elim⟩ hretains
  | workSpent hp hg hs htop hG hspent => exact hsame rfl rfl rfl fun h => h.elim
  | endAwake hp hend => exact hsame rfl rfl rfl fun _ => by rw [hp]; trivial
  | waitForInput hp hs htop hawake hphase =>
    exact hsame rfl rfl rfl fun _ => by rw [hp]; trivial
  | @poll inp pid pids o w' hp hs hpolled =>
    obtain ⟨⟨x, hd', hnone⟩, hretains⟩ := hpolled.delivers (hrun hp trivial)
    refine hkeeps ⟨x, hd', fun hrunning => hnone ?_⟩ hretains
    cases o with
    | none => rfl
    | some e => exact hrunning.elim
  | endInput hp =>
    refine hsame ?_ ?_ ?_ fun _ => by rw [hp]; trivial
    all_goals
      unfold Worker.endInput
      split_ifs <;> rfl
  | leave hp hs hend => exact hsame rfl rfl rfl fun _ => by rw [hp]; trivial
  | release hp =>
    obtain ⟨x, hx, hnone⟩ := hd
    exact ⟨⟨x, ⟨hx.kept, hx.ready⟩, hnone⟩, fun hne => absurd rfl hne⟩
  | interrupt => exact hsame rfl rfl rfl fun h => h.elim

/-- When `run` returns, there are no top-level goals left. -/
theorem StepCase.returned {env : BuildEnv} {r r' : RunState} {e : Event} (h : StepCase env r e r')
    (hI : r.phase = .returned → r.worker.topGoals = ∅) :
    r'.phase = .returned → r'.worker.topGoals = ∅ := by
  intro hret
  cases h with
  | @destroy g G w' hG hfree hd =>
    have htop : w'.topGoals = r.worker.topGoals := by
      rcases hd.rest with ⟨pid, -, hceased⟩ | ⟨-, hw'⟩
      · obtain ⟨c, -, -, hw'⟩ := hceased.entry
        exact (congrArg Worker.topGoals hw' :)
      · exact (congrArg Worker.topGoals hw' :)
    exact htop.trans (hI hret)
  | other world => exact hI hret
  | waitForInput hp hs htop hawake hphase =>
    dsimp only at hret
    rw [hret] at hphase
    rcases hphase with h | h | ⟨msg, h⟩ <;> cases h
  | @poll inp pid pids o w' hp hs hpolled => cases o <;> cases hret
  | leave hp hs hend =>
    have hleave : leaveLoop env r.worker = .returned := hret
    unfold leaveLoop at hleave
    split_ifs at hleave with htop
    exact htop
  | release hp => rfl
  | _ => cases hret

/-- Making a top-level goal. -/
theorem makeGoal_turned {env : BuildEnv} {w : Worker} (hsound : w.Sound) (repair : Bool)
    (request : Request) :
    Turned env none w (w.makeGoal repair request).2 ∧
      (w.makeGoal repair request).2.Asked (w.makeGoal repair request).1 request := by
  cases request with
  | derivation drvPath wantedOutputs =>
    unfold Worker.makeGoal Worker.makeDerivationGoal
    dsimp only
    cases hfind : (w.derivationGoals.find? drvPath).bind w.lock with
    | none =>
      refine ⟨turned_newDerivation hsound.find?_nextGoal, .newDerivation drvPath wantedOutputs repair,
        ?_, _, rfl, rfl, List.mem_singleton.mpr rfl⟩
      change (w.goals.insert _ _).find? _ = _
      rw [SortedMap.find?_insert, if_pos rfl]
    | some i =>
      obtain ⟨j, hj, hji⟩ := Option.bind_eq_some_iff.mp hfind
      obtain ⟨rfl, hlive⟩ := lock_eq_some_iff.mp hji
      have hlisted : w.Listed j := ⟨hlive, drvPath, Or.inl hj⟩
      refine ⟨turned_want fun G hG => hlisted.busy hsound hG, ?_⟩
      obtain ⟨G, hG⟩ := Worker.mem_goals_iff.mp hlive
      refine ⟨_, find?_updateGoal hG _, ?_⟩
      -- the goal that is there is for this derivation
      have hkey : G.key = .derivation drvPath :=
        (hsound.goalFor_busy (.derivation drvPath) j _ hj (Worker.node_of_find hG)).2
      cases hk : G.kind with
      | derivation d =>
        rw [Goal.key, hk] at hkey
        obtain rfl := GoalKey.derivation.inj hkey
        exact Goal.answers_want hk wantedOutputs
      | substitution s =>
        rw [Goal.key, hk] at hkey
        cases hkey
  | path storePath =>
    unfold Worker.makeGoal Worker.makeSubstitutionGoal
    dsimp only
    cases hfind : (w.substitutionGoals.find? storePath).bind w.lock with
    | none =>
      refine ⟨turned_newSubstitution hsound.find?_nextGoal, .newSubstitution storePath repair, ?_, _,
        rfl, rfl⟩
      change (w.goals.insert _ _).find? _ = _
      rw [SortedMap.find?_insert, if_pos rfl]
    | some i =>
      obtain ⟨j, hj, hji⟩ := Option.bind_eq_some_iff.mp hfind
      obtain ⟨rfl, hlive⟩ := lock_eq_some_iff.mp hji
      refine ⟨turned_of_goals rfl (.refl _) rfl, ?_⟩
      obtain ⟨G, hG⟩ := Worker.mem_goals_iff.mp hlive
      refine ⟨G, hG, ?_⟩
      have hkey : G.key = .substitution storePath :=
        (hsound.goalFor_busy (.substitution storePath) j _ hj (Worker.node_of_find hG)).2
      cases hk : G.kind with
      | derivation d =>
        rw [Goal.key, hk] at hkey
        cases hkey
      | substitution s =>
        rw [Goal.key, hk] at hkey
        exact ⟨s, hk, GoalKey.substitution.inj hkey⟩

/-- At the start the goals deliver, and every request has one. -/
theorem delivers_startRun (env : BuildEnv) (world : World) (requests : List Request) (repair : Bool) :
    (startRun world requests repair).Delivers env ∧
      ∀ request ∈ requests, (startRun world requests repair).worker.Holds request := by
  have hfold : ∀ (l : List Request) (w : Worker), Between env ∅ w → w.Delivers env none →
      (l.foldl (Worker.holdGoal repair) w).Delivers env none ∧
        ∀ request, request ∈ l ∨ w.Holds request →
          (l.foldl (Worker.holdGoal repair) w).Holds request := by
    intro l
    induction l with
    | nil => exact fun w _ hd => ⟨hd, fun request h => h.resolve_left List.not_mem_nil⟩
    | cons a l ih =>
      intro w hb hd
      obtain ⟨hturned, hasked⟩ := @makeGoal_turned env w hb.tables.sound repair a
      have hd₁ := hturned.delivers hd
      obtain ⟨hd', hholds⟩ := ih _ (hb.holdGoal repair a) ⟨hd₁.kept, hd₁.ready⟩
      refine ⟨hd', fun request h => hholds request ?_⟩
      have hadd : ∀ {g : GoalId}, (g = (w.makeGoal repair a).1 ∨ g ∈ w.held) →
          (w.makeGoal repair a).2.Asked g request → (w.holdGoal repair a).Holds request := by
        intro g hg hk
        refine ⟨g, SortedSet.mem_insert.mpr ?_, hk⟩
        rwa [hturned.held]
      rcases h with h | ⟨g, hg, hk⟩
      · rcases List.mem_cons.mp h with rfl | h
        · exact Or.inr (hadd (Or.inl rfl) hasked)
        · exact Or.inl h
      · exact Or.inr (hadd (Or.inr hg) (hturned.retains.asked g request hk))
  have hempty : (Worker.new world).Delivers env none :=
    ⟨fun k K hK => (nomatch hK), fun k K _ hK => (nomatch hK)⟩
  obtain ⟨hd, hholds⟩ := hfold requests (.new world) (.new env world) hempty
  exact ⟨⟨none, ⟨hd.kept, hd.ready⟩, fun _ => rfl⟩, fun request h => hholds request (Or.inl h)⟩

section

variable {env : BuildEnv} {world : World} {requests : List Request} {repair : Bool} {r : RunState}

/-- In every run in which other processes invalidate no path, what was ever asked of a goal that has
succeeded is in the store. -/
theorem runs_met (hr : Runs env NoneInvalidated (startRun world requests repair) r) {g : GoalId}
    {G : Goal} (hG : r.worker.goals.find? g = some G) (hsuccess : G.exitCode = .ecSuccess)
    {request : Request} (hasked : G.Answers request) : request.Met env r.worker.world := by
  have hI := hr.invariant (I := fun r => r.Delivers env)
    (loopInv_startRun env world requests repair) (delivers_startRun env world requests repair).1
    fun r e r' hinv hd hcase hcond _ => (hcase.delivers hinv hcond hd).1
  obtain ⟨x, hx, -⟩ := hI.2
  exact (hx.kept g G hG).success hsuccess request hasked

/-- The build of the derivation goes on until its goal is done. -/
def wholeBuild : List Event :=
  sampleBuild sampleAnswers ++ [.waitForInput sampleEOF, .pollChild, .endInput, .takeAwake,
    .work 0 { sampleAnswers with pid := 102 }]

/-- The event is a step of the loop itself. -/
def Event.internal : Event → Bool
  | .other _ => false
  | .release => false
  | _ => true

/-- The goal has succeeded, and all outputs of the derivation were asked of it. -/
def Goal.hasBuilt (drvPath : Path) (G : Goal) : Bool :=
  match G.kind with
  | .derivation d =>
    decide (d.drvPath = drvPath ∧ ∅ ∈ d.requests ∧ G.exitCode = .ecSuccess)
  | .substitution _ => false

/-- A goal that has built a derivation answers the request for it, with success. -/
theorem Goal.answers_of_hasBuilt {drvPath : Path} {G : Goal} (h : G.hasBuilt drvPath = true) :
    G.Answers (.derivation drvPath ∅) ∧ G.exitCode = .ecSuccess := by
  unfold hasBuilt at h
  split at h
  · next d hd =>
    obtain ⟨hpath, hmem, hsuccess⟩ := of_decide_eq_true h
    exact ⟨⟨d, hd, hpath, hmem⟩, hsuccess⟩
  · cases h

/-- `run` has returned. -/
def Phase.hasReturned : Phase → Bool
  | .returned => true
  | _ => false

/-- The sample build meets its request. -/
theorem runs_met_wholeBuild :
    ∃ r, Runs (sampleEnv sampleSettings fun _ => sampleDrv) NoneInvalidated sampleStart r ∧
      (Request.derivation (str "/nix/store/app.drv") ∅).Met
        (sampleEnv sampleSettings fun _ => sampleDrv) r.worker.world := by
  obtain ⟨r, hr, hp⟩ := exists_runs_of_schedule (sampleEnv sampleSettings fun _ => sampleDrv)
    (fun _ e _ => e.internal) NoneInvalidated (fun _ e _ h world he => by subst he; cases h) wholeBuild
    sampleStart (fun r => (r.worker.goals.find? 0).any (Goal.hasBuilt (str "/nix/store/app.drv")))
    (by decide +kernel)
  obtain ⟨G, hG, hp⟩ := (Option.any_eq_true _ _).mp hp
  obtain ⟨hasked, hsuccess⟩ := Goal.answers_of_hasBuilt hp
  exact ⟨r, hr, runs_met hr hG hsuccess hasked⟩

/-- When `buildPaths` returns, every derivation that was asked for is valid and so are the outputs of
it that were wanted; a path that was asked for is valid, or there was no substitute for it. -/
theorem buildPaths_delivers {drvPaths : PathSet}
    (hr : Runs env (fun r e r' => NoneInvalidated r e r' ∧ e ≠ .release)
      (startRun world (buildPathsRequests drvPaths) repair) r) (hret : buildPathsReturns r) :
    ∀ request ∈ buildPathsRequests drvPaths, request.Met env r.worker.world ∨
      ∃ path, request = .path path ∧ ∃ g G, g ∈ r.worker.held ∧ r.worker.goals.find? g = some G ∧
        G.Answers (.path path) ∧ G.exitCode = .ecNoSubstituters := by
  have hI := hr.invariant (I := fun r => r.Delivers env ∧
      (∀ request ∈ buildPathsRequests drvPaths, r.worker.Holds request) ∧
      r.worker.Top env.settings.keepGoing ∧ (r.phase = .returned → r.worker.topGoals = ∅))
    (loopInv_startRun env world _ repair)
    ⟨(delivers_startRun env world _ repair).1, (delivers_startRun env world _ repair).2,
      top_startRun _ world _ repair, fun h => nomatch h⟩
    fun r e r' hinv hI hcase hcond _ => by
      obtain ⟨hd, hholds, htop, hempty⟩ := hI
      obtain ⟨hd', hholds'⟩ := hcase.delivers hinv hcond.1 hd
      exact ⟨hd', fun request h => hholds' hcond.2 request (hholds request h), hcase.top hinv htop,
        hcase.returned hempty⟩
  obtain ⟨-, ⟨x, hx, -⟩, hholds, htop, hempty⟩ := hI
  obtain ⟨⟨w, rfl⟩, hnone⟩ := hret
  -- no goal of the caller has failed, and so all of them are done
  have hexit : ∀ g ∈ w.held, ∀ G, w.goals.find? g = some G → G.exitCode ≠ .ecFailed := by
    intro g hg G hG
    have h := hnone g hg
    rw [hG] at h
    simpa using h
  intro request hrequest
  obtain ⟨g, hg, G, hG, hasked⟩ := hholds request hrequest
  cases hcode : G.exitCode with
  | ecBusy =>
    exfalso
    rcases htop.held_busy g hg _ (Worker.node_of_find hG) hcode with h | ⟨-, -, f, hf, m, hm, hfail⟩
    · rw [hempty rfl] at h
      exact SortedMap.notMem_empty g h
    · obtain ⟨F, hF, rfl⟩ := Worker.node_eq_some.mp hm
      exact hexit f hf F hF hfail
  | ecSuccess => exact Or.inl ((hx.kept g G hG).success hcode request hasked)
  | ecFailed => exact absurd hcode (hexit g hg G hG)
  | ecNoSubstituters =>
    obtain ⟨s, hs⟩ := (hx.kept g G hG).noSubstituters hcode
    cases request with
    | derivation drvPath wantedOutputs =>
      obtain ⟨d, hd, -⟩ := hasked
      cases hs.symm.trans hd
    | path path => exact Or.inr ⟨path, rfl, g, G, hg, hG, hasked, hcode⟩

/-- The sample build returns, and its request is met. -/
theorem buildPaths_delivers_wholeBuild :
    ∃ r, Runs (sampleEnv sampleSettings fun _ => sampleDrv)
        (fun r e r' => NoneInvalidated r e r' ∧ e ≠ .release) sampleStart r ∧
      buildPathsReturns r ∧
      ((Request.derivation (str "/nix/store/app.drv") ∅).Met
          (sampleEnv sampleSettings fun _ => sampleDrv) r.worker.world ∨
        ∃ path, Request.derivation (str "/nix/store/app.drv") ∅ = .path path ∧ ∃ g G,
          g ∈ r.worker.held ∧ r.worker.goals.find? g = some G ∧ G.Answers (.path path) ∧
          G.exitCode = .ecNoSubstituters) := by
  have hrequests : buildPathsRequests (.ofList [str "/nix/store/app.drv"]) =
      [.derivation (str "/nix/store/app.drv") ∅] := by decide +kernel
  obtain ⟨r, hr, hp⟩ := exists_runs_of_schedule (sampleEnv sampleSettings fun _ => sampleDrv)
    (fun _ e _ => e.internal) (fun r e r' => NoneInvalidated r e r' ∧ e ≠ .release)
    (fun _ e _ h => ⟨fun world he => (by subst he; cases h), fun he => (by subst he; cases h)⟩)
    (wholeBuild ++ [.endAwake, .leave]) sampleStart
    (fun r => r.phase.hasReturned &&
      decide (∀ g ∈ r.worker.held.toList,
        (r.worker.goals.find? g).all (fun goal => goal.exitCode ≠ .ecFailed) = true))
    (by decide +kernel)
  rw [Bool.and_eq_true] at hp
  have hret : buildPathsReturns r := by
    obtain ⟨w, phase⟩ := r
    refine ⟨?_, fun g hg => of_decide_eq_true hp.2 g (SortedSet.mem_toList.mpr hg)⟩
    cases phase with
    | returned => exact ⟨w, rfl⟩
    | _ => cases hp.1
  have hr' : Runs (sampleEnv sampleSettings fun _ => sampleDrv)
      (fun r e r' => NoneInvalidated r e r' ∧ e ≠ .release)
      (startRun (sampleWorld [str "/nix/store/app.drv"])
        (buildPathsRequests (.ofList [str "/nix/store/app.drv"])) false) r := by
    rw [hrequests]
    exact hr
  refine ⟨r, hr, hret, buildPaths_delivers hr' hret _ ?_⟩
  rw [hrequests]
  exact List.mem_singleton.mpr rfl

end

end Nix
