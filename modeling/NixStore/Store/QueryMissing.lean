import NixStore.Derivations.OutputRequests
import NixStore.Store.StorePaths

/-!
# What is missing

Model of `queryMissing` of `misc.cc`, which finds out what has to be built and what can be substituted
to make a set of targets valid.  It works in rounds: a round looks at the items to be done, which are
paths or requests for outputs of derivations, asks the substituters once about all that is missing, and
comes to the items of the next round.
-/

namespace Nix

/-- What `queryMissing` asks the store. -/
structure MissingStore where
  validPaths : PathSet
  /-- `derivationFromPath` of a valid path. -/
  derivationFromPath : Path → Outcome Str Derivation
  /-- What the substituters know. -/
  substitutes : SortedMap Path SubstitutablePathInfo
  /-- `settings.useSubstitutes` -/
  useSubstitutes : Bool

/-- The variables of `queryMissing`. -/
structure MissingState where
  todo : SortedSet Str
  done : SortedSet Str
  query : PathSet
  todoDrv : SortedSet Str
  todoNonDrv : PathSet
  willBuild : PathSet
  willSubstitute : PathSet
  unknown : SortedSet Str
  downloadSize : UInt64
  narSize : UInt64
deriving DecidableEq

namespace MissingStore

variable (store : MissingStore)

/-- Model of `isValidPath`. -/
def isValidPath (p : Path) : Bool := decide (p ∈ store.validPaths)

/-- Model of `querySubstitutablePathInfos`. -/
def querySubstitutablePathInfos (paths : PathSet) : SortedMap Path SubstitutablePathInfo :=
  store.substitutes.filter fun e => decide (e.1 ∈ paths)

/-- The outputs that are wanted and not valid. -/
def invalidOutputs (drv : Derivation) (wanted : SortedSet Str) : PathSet :=
  .ofList ((drv.outputs.entries.filter fun j =>
    wantOutput j.1 wanted && !store.isValidPath j.2.path).map fun j => j.2.path)

/-- The first loop of a round: an item to be done is put where it belongs. -/
def classify (s : MissingState) (i : Str) : Outcome Str MissingState :=
  if i ∈ s.done then .ok s
  else
    let s := { s with done := s.done.insert i }
    let i2 := parseDrvPathWithOutputs i
    if isDerivation i2.1 then
      if !store.isValidPath i2.1 then .ok { s with unknown := s.unknown.insert i }
      else do
        let drv ← store.derivationFromPath i2.1
        let invalid := store.invalidOutputs drv i2.2
        if invalid = ∅ then return s
        else return { s with
          todoDrv := s.todoDrv.insert i
          query := if store.useSubstitutes then invalid.toList.foldl .insert s.query else s.query }
    else if store.isValidPath i then .ok s
    else .ok { s with query := s.query.insert i, todoNonDrv := s.todoNonDrv.insert i }

/-- The inputs of a derivation as items to be done. -/
def inputItems (drv : Derivation) : List Str :=
  drv.inputSrcs.toList ++ drv.inputDrvs.entries.map fun j => makeDrvPathWithOutputs j.1 j.2

/-- Whether a derivation must be built, given what the substituters have said. -/
def mustBuild (infos : SortedMap Path SubstitutablePathInfo) (drv : Derivation)
    (wanted : SortedSet Str) : Bool :=
  !store.useSubstitutes || (store.invalidOutputs drv wanted).toList.any fun p => decide (p ∉ infos)

/-- The second loop of a round: a derivation is built, or its outputs are substituted. -/
def visitDrv (infos : SortedMap Path SubstitutablePathInfo) (s : MissingState) (i : Str) :
    Outcome Str MissingState := do
  let i2 := parseDrvPathWithOutputs i
  let drv ← store.derivationFromPath i2.1
  if store.mustBuild infos drv i2.2 then
    return { s with
      willBuild := s.willBuild.insert i2.1
      todo := (inputItems drv).foldl .insert s.todo }
  else
    return { s with
      todoNonDrv := (store.invalidOutputs drv i2.2).toList.foldl .insert s.todoNonDrv }

/-- The third loop of a round: a path is substituted if a substituter has it. -/
def visitNonDrv (infos : SortedMap Path SubstitutablePathInfo) (s : MissingState) (i : Path) :
    MissingState :=
  let s := { s with done := s.done.insert i }
  match infos.find? i with
  | some info => { s with
      willSubstitute := s.willSubstitute.insert i
      downloadSize := s.downloadSize + info.downloadSize
      narSize := s.narSize + info.narSize
      todo := info.references.toList.foldl .insert s.todo }
  | none => { s with unknown := s.unknown.insert i }

/-- One round. -/
def round (s : MissingState) : Outcome Str MissingState := do
  let s ← s.todo.toList.foldlM store.classify { s with query := ∅, todoDrv := ∅, todoNonDrv := ∅ }
  let infos := store.querySubstitutablePathInfos s.query
  let s ← s.todoDrv.toList.foldlM (store.visitDrv infos) { s with todo := ∅ }
  return s.todoNonDrv.toList.foldl (visitNonDrv infos) s

/-- The loop of `queryMissing`, with a bound on the number of rounds. -/
def rounds : ℕ → MissingState → Outcome Str MissingState
  | 0, _ => .diverge
  | fuel + 1, s => if s.todo = ∅ then .ok s else store.round s >>= rounds fuel

/-- The variables at the beginning. -/
def start (targets : PathSet) : MissingState := ⟨targets, ∅, ∅, ∅, ∅, ∅, ∅, ∅, 0, 0⟩

/-- Model of `queryMissing`. -/
def queryMissing (fuel : ℕ) (targets : PathSet) : Outcome Str MissingState :=
  store.rounds fuel (start targets)

/-! ### Items -/

/-- A request for outputs of a derivation that is not valid itself. -/
def MissingDrv (i : Str) : Prop :=
  isDerivation (parseDrvPathWithOutputs i).1 = true ∧
    store.isValidPath (parseDrvPathWithOutputs i).1 = false

/-- A path that is not valid. -/
def MissingPath (i : Str) : Prop :=
  isDerivation (parseDrvPathWithOutputs i).1 = false ∧ store.isValidPath i = false

/-- A request for outputs of a valid derivation. -/
def DrvRequest (i : Str) (drv : Derivation) : Prop :=
  isDerivation (parseDrvPathWithOutputs i).1 = true ∧
    store.isValidPath (parseDrvPathWithOutputs i).1 = true ∧
    store.derivationFromPath (parseDrvPathWithOutputs i).1 = .ok drv

/-- The outputs that a request for outputs of a derivation is about. -/
def requestOutputs (i : Str) (drv : Derivation) : PathSet :=
  store.invalidOutputs drv (parseDrvPathWithOutputs i).2

/-- A request for outputs of a derivation that are not all valid. -/
def Pending (i : Str) : Prop := ∃ drv, store.DrvRequest i drv ∧ store.requestOutputs i drv ≠ ∅

/-- The request makes the derivation be built. -/
def Builds (i : Str) (drv : Derivation) : Prop :=
  store.DrvRequest i drv ∧ store.requestOutputs i drv ≠ ∅ ∧
    (store.useSubstitutes = true → ∃ p ∈ store.requestOutputs i drv, p ∉ store.substitutes)

/-- The request makes an output be substituted. -/
def SubstitutesOutput (i : Str) (p : Path) : Prop :=
  ∃ drv, store.DrvRequest i drv ∧ p ∈ store.requestOutputs i drv ∧ store.useSubstitutes = true ∧
    ∀ q ∈ store.requestOutputs i drv, q ∈ store.substitutes

variable {store} {s s' : MissingState} {i : Str} {l : List Str}

/-- What the first loop does with one item. -/
theorem classify_cases (h : store.classify s i = .ok s') :
    (i ∈ s.done ∧ s' = s) ∨ (i ∉ s.done ∧
      ((store.MissingDrv i ∧
          s' = { s with done := s.done.insert i, unknown := s.unknown.insert i }) ∨
        (store.MissingPath i ∧ s' = { s with
          done := s.done.insert i, query := s.query.insert i, todoNonDrv := s.todoNonDrv.insert i }) ∨
        (∃ drv, store.DrvRequest i drv ∧ store.requestOutputs i drv ≠ ∅ ∧ s' = { s with
          done := s.done.insert i
          todoDrv := s.todoDrv.insert i
          query := if store.useSubstitutes then
            (store.requestOutputs i drv).toList.foldl .insert s.query else s.query }) ∨
        ((∃ drv, store.DrvRequest i drv ∧ store.requestOutputs i drv = ∅) ∧
          s' = { s with done := s.done.insert i }) ∨
        (isDerivation (parseDrvPathWithOutputs i).1 = false ∧ store.isValidPath i = true ∧
          s' = { s with done := s.done.insert i }))) := by
  unfold classify at h
  by_cases hdone : i ∈ s.done
  · rw [if_pos hdone] at h
    cases h
    exact Or.inl ⟨hdone, rfl⟩
  · rw [if_neg hdone] at h
    refine Or.inr ⟨hdone, ?_⟩
    dsimp only at h
    cases hdrv : isDerivation (parseDrvPathWithOutputs i).1 with
    | true =>
      cases hvalid : store.isValidPath (parseDrvPathWithOutputs i).1 with
      | true =>
        simp only [hdrv, hvalid, if_true, Bool.not_true, Bool.false_eq_true, if_false] at h
        obtain ⟨drv, hread, h⟩ := Outcome.bind_eq_ok.mp h
        have hrequest : store.DrvRequest i drv := ⟨hdrv, hvalid, hread⟩
        by_cases hempty : store.invalidOutputs drv (parseDrvPathWithOutputs i).2 = ∅
        · rw [if_pos hempty] at h
          cases h
          exact Or.inr (Or.inr (Or.inr (Or.inl ⟨⟨drv, hrequest, hempty⟩, rfl⟩)))
        · rw [if_neg hempty] at h
          cases h
          exact Or.inr (Or.inr (Or.inl ⟨drv, hrequest, hempty, rfl⟩))
      | false =>
        simp only [hdrv, hvalid, if_true, Bool.not_false] at h
        cases h
        exact Or.inl ⟨⟨hdrv, hvalid⟩, rfl⟩
    | false =>
      cases hvalid : store.isValidPath i with
      | true =>
        simp only [hdrv, hvalid, if_true, Bool.false_eq_true, if_false] at h
        cases h
        exact Or.inr (Or.inr (Or.inr (Or.inr ⟨rfl, rfl, rfl⟩)))
      | false =>
        simp only [hdrv, hvalid, Bool.false_eq_true, if_false] at h
        cases h
        exact Or.inr (Or.inl ⟨⟨hdrv, hvalid⟩, rfl⟩)

/-- A request is for outputs of one derivation only. -/
theorem DrvRequest.unique {drv drv' : Derivation} (h : store.DrvRequest i drv)
    (h' : store.DrvRequest i drv') : drv = drv' :=
  Outcome.ok.inj (h.2.2.symm.trans h'.2.2)

/-- A request for the outputs of a known derivation is not for a missing one. -/
theorem DrvRequest.not_missingDrv {drv : Derivation} (h : store.DrvRequest i drv) :
    ¬store.MissingDrv i := fun hmissing => by
  rw [MissingDrv, h.2.1] at hmissing
  cases hmissing.2

/-- A request for the outputs of a derivation is not for a path. -/
theorem DrvRequest.not_missingPath {drv : Derivation} (h : store.DrvRequest i drv) :
    ¬store.MissingPath i := fun hmissing => by
  rw [MissingPath, h.1] at hmissing
  cases hmissing.1

/-- Something is pending of a request when an output is invalid. -/
theorem DrvRequest.pending_iff {drv : Derivation} (h : store.DrvRequest i drv) :
    store.Pending i ↔ store.requestOutputs i drv ≠ ∅ := by
  constructor
  · rintro ⟨drv', h', houtputs⟩
    exact h'.unique h ▸ houtputs
  · exact fun houtputs => ⟨drv, h, houtputs⟩

/-- A missing derivation is not a missing path. -/
theorem MissingDrv.not_missingPath (h : store.MissingDrv i) : ¬store.MissingPath i :=
  fun hmissing => by
    rw [MissingPath, h.1] at hmissing
    cases hmissing.1

/-- What is substituted of a request is pending. -/
theorem SubstitutesOutput.pending {p : Path} (h : store.SubstitutesOutput i p) :
    store.Pending i := by
  obtain ⟨drv, hitem, hp, -⟩ := h
  refine ⟨drv, hitem, fun hempty => ?_⟩
  rw [hempty] at hp
  exact SortedMap.notMem_empty p hp

/-- Nothing is pending of a path that is no derivation. -/
theorem not_pending_of_not_isDerivation (h : isDerivation (parseDrvPathWithOutputs i).1 = false) :
    ¬store.Pending i := fun ⟨_, hitem, _⟩ => by
  rw [DrvRequest, h] at hitem
  cases hitem.1

/-- What the first loop does with items. -/
structure Classifies (store : MissingStore) (l : List Str) (s s' : MissingState) : Prop where
  done : ∀ x, x ∈ s'.done ↔ x ∈ s.done ∨ x ∈ l
  unknown : ∀ x, x ∈ s'.unknown ↔ x ∈ s.unknown ∨ (x ∈ l ∧ x ∉ s.done ∧ store.MissingDrv x)
  todoNonDrv : ∀ x, x ∈ s'.todoNonDrv ↔
    x ∈ s.todoNonDrv ∨ (x ∈ l ∧ x ∉ s.done ∧ store.MissingPath x)
  todoDrv : ∀ x, x ∈ s'.todoDrv ↔ x ∈ s.todoDrv ∨ (x ∈ l ∧ x ∉ s.done ∧ store.Pending x)
  query : ∀ x ∈ s.query, x ∈ s'.query
  queryPath : ∀ x ∈ l, x ∉ s.done → store.MissingPath x → x ∈ s'.query
  queryOutputs : ∀ i ∈ l, i ∉ s.done → ∀ drv, store.DrvRequest i drv → store.useSubstitutes = true →
    ∀ x ∈ store.requestOutputs i drv, x ∈ s'.query
  reads : ∀ i ∈ l, i ∉ s.done → store.MissingDrv i ∨ (∃ drv, store.DrvRequest i drv) ∨
    isDerivation (parseDrvPathWithOutputs i).1 = false
  rest : s'.todo = s.todo ∧ s'.willBuild = s.willBuild ∧ s'.willSubstitute = s.willSubstitute ∧
    s'.downloadSize = s.downloadSize ∧ s'.narSize = s.narSize

/-- An item was inserted in its set because it belongs there. -/
theorem mem_insert_iff_singleton {set : SortedSet Str} {P : Str → Prop} (h : P i) (x : Str) :
    x ∈ set.insert i ↔ x ∈ set ∨ (x ∈ [i] ∧ P x) := by
  rw [SortedSet.mem_insert, List.mem_singleton, or_comm]
  exact or_congr_right ⟨fun hx => ⟨hx, hx ▸ h⟩, And.left⟩

/-- An item was not inserted because it does not belong there. -/
theorem mem_iff_singleton {set : SortedSet Str} {P : Str → Prop} (h : ¬P i) (x : Str) :
    x ∈ set ↔ x ∈ set ∨ (x ∈ [i] ∧ P x) := by
  rw [List.mem_singleton]
  exact ⟨Or.inl, fun hx => hx.elim id fun hx => absurd (hx.1 ▸ hx.2) h⟩

namespace Classifies

/-- One item is put into its set. -/
theorem of_classify (h : store.classify s i = .ok s') : store.Classifies [i] s s' := by
  have hsingleton : ∀ {P : Str → Prop}, P i → ∀ x ∈ [i], P x := fun hi x hx =>
    List.mem_singleton.mp hx ▸ hi
  rcases classify_cases h with ⟨hdone, rfl⟩ | ⟨hnew, hcases⟩
  · have hold : ∀ {P : Str → Prop}, ∀ x ∈ [i], x ∉ s'.done → P x :=
      hsingleton fun hnew => absurd hdone hnew
    refine ⟨fun x => ?_, mem_iff_singleton fun h => h.1 hdone, mem_iff_singleton fun h => h.1 hdone,
      mem_iff_singleton fun h => h.1 hdone, fun _ => id, hold, hold, hold, ⟨rfl, rfl, rfl, rfl, rfl⟩⟩
    exact ⟨Or.inl, fun hx => hx.elim id (hsingleton hdone x)⟩
  · have hdone : ∀ x, x ∈ s.done.insert i ↔ x ∈ s.done ∨ x ∈ [i] := fun x => by
      rw [SortedSet.mem_insert, List.mem_singleton, or_comm]
    rcases hcases with ⟨hitem, rfl⟩ | ⟨hitem, rfl⟩ | ⟨drv, hitem, houtputs, rfl⟩ |
      ⟨⟨drv, hitem, hempty⟩, rfl⟩ | ⟨hpath, hvalid, rfl⟩
    · exact ⟨hdone, mem_insert_iff_singleton ⟨hnew, hitem⟩,
        mem_iff_singleton fun h => hitem.not_missingPath h.2,
        mem_iff_singleton fun ⟨_, _, h, _⟩ => h.not_missingDrv hitem, fun _ => id,
        hsingleton fun _ h => absurd h hitem.not_missingPath,
        hsingleton fun _ _ h => absurd hitem h.not_missingDrv,
        hsingleton fun _ => Or.inl hitem, ⟨rfl, rfl, rfl, rfl, rfl⟩⟩
    · exact ⟨hdone, mem_iff_singleton fun h => h.2.not_missingPath hitem,
        mem_insert_iff_singleton ⟨hnew, hitem⟩,
        mem_iff_singleton fun h => not_pending_of_not_isDerivation hitem.1 h.2,
        fun x hx => SortedSet.mem_insert.mpr (Or.inr hx),
        hsingleton fun _ _ => SortedSet.mem_insert.mpr (Or.inl rfl),
        hsingleton fun _ _ h => absurd hitem h.not_missingPath,
        hsingleton fun _ => Or.inr (Or.inr hitem.1), ⟨rfl, rfl, rfl, rfl, rfl⟩⟩
    · refine ⟨hdone, mem_iff_singleton fun h => hitem.not_missingDrv h.2,
        mem_iff_singleton fun h => hitem.not_missingPath h.2,
        mem_insert_iff_singleton ⟨hnew, hitem.pending_iff.mpr houtputs⟩, fun x hx => ?_,
        hsingleton fun _ h => absurd h hitem.not_missingPath, hsingleton fun _ drv' h huse x hx => ?_,
        hsingleton fun _ => Or.inr (Or.inl ⟨drv, hitem⟩), ⟨rfl, rfl, rfl, rfl, rfl⟩⟩
      · dsimp only
        split_ifs
        · exact SortedSet.mem_foldl_insert.mpr (Or.inr hx)
        · exact hx
      · rw [if_pos huse]
        exact SortedSet.mem_foldl_insert.mpr (Or.inl (h.unique hitem ▸ hx))
    · exact ⟨hdone, mem_iff_singleton fun h => hitem.not_missingDrv h.2,
        mem_iff_singleton fun h => hitem.not_missingPath h.2,
        mem_iff_singleton fun h => hitem.pending_iff.mp h.2 hempty, fun _ => id,
        hsingleton fun _ h => absurd h hitem.not_missingPath,
        hsingleton fun _ drv' h _ x hx => absurd (h.unique hitem ▸ hx) (by simp [hempty]),
        hsingleton fun _ => Or.inr (Or.inl ⟨drv, hitem⟩), ⟨rfl, rfl, rfl, rfl, rfl⟩⟩
    · have hnone : ¬store.MissingDrv i := fun h => by simp [MissingDrv, hpath] at h
      have hnonePath : ¬store.MissingPath i := fun h => by simp [MissingPath, hvalid] at h
      exact ⟨hdone, mem_iff_singleton fun h => hnone h.2, mem_iff_singleton fun h => hnonePath h.2,
        mem_iff_singleton fun h => not_pending_of_not_isDerivation hpath h.2, fun _ => id,
        hsingleton fun _ h => absurd h hnonePath,
        hsingleton fun _ _ h => absurd h.1 (by simp [hpath]),
        hsingleton fun _ => Or.inr (Or.inr hpath), ⟨rfl, rfl, rfl, rfl, rfl⟩⟩

/-- Items are put into their sets one after the other. -/
theorem append {l' : List Str} {s'' : MissingState} (h : store.Classifies l s s')
    (h' : store.Classifies l' s' s'') : store.Classifies (l ++ l') s s'' where
  done x := by
    rw [h'.done, h.done, List.mem_append, or_assoc]
  unknown x := by
    rw [h'.unknown, h.unknown, h.done, List.mem_append]
    tauto
  todoNonDrv x := by
    rw [h'.todoNonDrv, h.todoNonDrv, h.done, List.mem_append]
    tauto
  todoDrv x := by
    rw [h'.todoDrv, h.todoDrv, h.done, List.mem_append]
    tauto
  query x hx := h'.query x (h.query x hx)
  queryPath x hx hnew hitem := by
    by_cases hxl : x ∈ l
    · exact h'.query x (h.queryPath x hxl hnew hitem)
    · have hxl' : x ∈ l' := (List.mem_append.mp hx).resolve_left hxl
      exact h'.queryPath x hxl' (by simp [h.done, hnew, hxl]) hitem
  queryOutputs i hi hnew drv hitem huse x hx := by
    by_cases hil : i ∈ l
    · exact h'.query x (h.queryOutputs i hil hnew drv hitem huse x hx)
    · have hil' : i ∈ l' := (List.mem_append.mp hi).resolve_left hil
      exact h'.queryOutputs i hil' (by simp [h.done, hnew, hil]) drv hitem huse x hx
  reads i hi hnew := by
    by_cases hil : i ∈ l
    · exact h.reads i hil hnew
    · have hil' : i ∈ l' := (List.mem_append.mp hi).resolve_left hil
      exact h'.reads i hil' (by simp [h.done, hnew, hil])
  rest := by
    obtain ⟨h1, h2, h3, h4, h5⟩ := h.rest
    obtain ⟨h1', h2', h3', h4', h5'⟩ := h'.rest
    exact ⟨h1'.trans h1, h2'.trans h2, h3'.trans h3, h4'.trans h4, h5'.trans h5⟩

/-- The loop puts every item into its set. -/
theorem of_foldlM (l : List Str) (h : l.foldlM store.classify s = .ok s') :
    store.Classifies l s s' := by
  induction l generalizing s with
  | nil =>
    cases h
    exact ⟨by simp, by simp, by simp, by simp, by simp, by simp, by simp, by simp,
      ⟨rfl, rfl, rfl, rfl, rfl⟩⟩
  | cons i l ih =>
    rw [List.foldlM_cons] at h
    obtain ⟨s₁, hs₁, h⟩ := Outcome.bind_eq_ok.mp h
    exact (of_classify hs₁).append (ih h)

end Classifies

/-! ### The second and the third loop -/

/-- What the second loop does with requests. -/
structure VisitsDrvs (store : MissingStore) (infos : SortedMap Path SubstitutablePathInfo)
    (l : List Str) (s s' : MissingState) : Prop where
  willBuild : ∀ x, x ∈ s'.willBuild ↔ x ∈ s.willBuild ∨ ∃ i ∈ l, ∃ drv, store.DrvRequest i drv ∧
    store.mustBuild infos drv (parseDrvPathWithOutputs i).2 = true ∧
    x = (parseDrvPathWithOutputs i).1
  todo : ∀ x, x ∈ s'.todo ↔ x ∈ s.todo ∨ ∃ i ∈ l, ∃ drv, store.DrvRequest i drv ∧
    store.mustBuild infos drv (parseDrvPathWithOutputs i).2 = true ∧ x ∈ inputItems drv
  todoNonDrv : ∀ x, x ∈ s'.todoNonDrv ↔ x ∈ s.todoNonDrv ∨ ∃ i ∈ l, ∃ drv, store.DrvRequest i drv ∧
    store.mustBuild infos drv (parseDrvPathWithOutputs i).2 = false ∧
    x ∈ store.requestOutputs i drv
  rest : s'.done = s.done ∧ s'.willSubstitute = s.willSubstitute ∧ s'.unknown = s.unknown ∧
    s'.downloadSize = s.downloadSize ∧ s'.narSize = s.narSize

/-- The loop over the derivations builds, or substitutes, their outputs. -/
theorem VisitsDrvs.of_foldlM {infos : SortedMap Path SubstitutablePathInfo} (l : List Str)
    (hl : ∀ i ∈ l, store.Pending i) (h : l.foldlM (store.visitDrv infos) s = .ok s') :
    store.VisitsDrvs infos l s s' := by
  induction l generalizing s with
  | nil =>
    cases h
    exact ⟨by simp, by simp, by simp, ⟨rfl, rfl, rfl, rfl, rfl⟩⟩
  | cons i l ih =>
    rw [List.foldlM_cons] at h
    obtain ⟨s₁, hs₁, h⟩ := Outcome.bind_eq_ok.mp h
    have hrest := ih (fun j hj => hl j (List.mem_cons_of_mem i hj)) h
    obtain ⟨drv, hitem, -⟩ := hl i List.mem_cons_self
    have honly : ∀ (P : Derivation → Prop), (∃ drv', store.DrvRequest i drv' ∧ P drv') ↔ P drv :=
      fun P => ⟨fun ⟨drv', h', hP⟩ => hitem.unique h' ▸ hP, fun hP => ⟨drv, hitem, hP⟩⟩
    simp only [visitDrv, hitem.2.2, Outcome.ok_bind] at hs₁
    cases hbuild : store.mustBuild infos drv (parseDrvPathWithOutputs i).2 with
    | true =>
      rw [if_pos hbuild] at hs₁
      cases hs₁
      refine ⟨fun x => ?_, fun x => ?_, fun x => ?_, hrest.rest⟩
      · rw [hrest.willBuild, SortedSet.mem_insert, List.exists_mem_cons_iff, honly]
        simp only [hbuild, true_and]
        tauto
      · rw [hrest.todo, SortedSet.mem_foldl_insert, List.exists_mem_cons_iff, honly]
        simp only [hbuild, true_and]
        tauto
      · rw [hrest.todoNonDrv, List.exists_mem_cons_iff, honly]
        simp only [hbuild, Bool.true_eq_false, false_and, false_or]
    | false =>
      rw [if_neg (by simp [hbuild])] at hs₁
      cases hs₁
      refine ⟨fun x => ?_, fun x => ?_, fun x => ?_, hrest.rest⟩
      · rw [hrest.willBuild, List.exists_mem_cons_iff, honly]
        simp only [hbuild, Bool.false_eq_true, false_and, false_or]
      · rw [hrest.todo, List.exists_mem_cons_iff, honly]
        simp only [hbuild, Bool.false_eq_true, false_and, false_or]
      · rw [hrest.todoNonDrv, SortedSet.mem_foldl_insert, List.exists_mem_cons_iff, honly,
          SortedSet.mem_toList]
        simp only [hbuild, true_and, requestOutputs]
        tauto

/-- What the third loop does with paths. -/
structure VisitsNonDrvs (infos : SortedMap Path SubstitutablePathInfo) (l : List Path)
    (s s' : MissingState) : Prop where
  done : ∀ x, x ∈ s'.done ↔ x ∈ s.done ∨ x ∈ l
  willSubstitute : ∀ x, x ∈ s'.willSubstitute ↔ x ∈ s.willSubstitute ∨ (x ∈ l ∧ x ∈ infos)
  unknown : ∀ x, x ∈ s'.unknown ↔ x ∈ s.unknown ∨ (x ∈ l ∧ x ∉ infos)
  todo : ∀ x, x ∈ s'.todo ↔ x ∈ s.todo ∨
    ∃ p ∈ l, ∃ info, infos.find? p = some info ∧ x ∈ info.references
  willBuild : s'.willBuild = s.willBuild
  downloadSize : s'.downloadSize = s.downloadSize +
    (l.map fun p => (infos.find? p).elim 0 SubstitutablePathInfo.downloadSize).sum
  narSize : s'.narSize = s.narSize +
    (l.map fun p => (infos.find? p).elim 0 SubstitutablePathInfo.narSize).sum

/-- The loop over the paths substitutes them, or finds them unknown. -/
theorem visitsNonDrvs_foldl (infos : SortedMap Path SubstitutablePathInfo) (l : List Path)
    (s : MissingState) : VisitsNonDrvs infos l s (l.foldl (visitNonDrv infos) s) := by
  induction l generalizing s with
  | nil => exact ⟨by simp, by simp, by simp, by simp, rfl, by simp, by simp⟩
  | cons p l ih =>
    have hrest := ih (visitNonDrv infos s p)
    rw [List.foldl_cons]
    cases hinfo : infos.find? p with
    | some info =>
      have hmem : p ∈ infos := SortedMap.mem_iff_find?_ne_none.mpr (by simp [hinfo])
      simp only [visitNonDrv, hinfo] at hrest ⊢
      refine ⟨fun x => ?_, fun x => ?_, fun x => ?_, fun x => ?_, hrest.willBuild, ?_, ?_⟩
      · rw [hrest.done, SortedSet.mem_insert, List.mem_cons]
        tauto
      · rw [hrest.willSubstitute, SortedSet.mem_insert, List.mem_cons]
        constructor
        · rintro ((rfl | hx) | hx)
          · exact Or.inr ⟨Or.inl rfl, hmem⟩
          · exact Or.inl hx
          · exact Or.inr ⟨Or.inr hx.1, hx.2⟩
        · tauto
      · rw [hrest.unknown, List.mem_cons]
        constructor
        · tauto
        · rintro (hx | ⟨rfl | hx, hnot⟩)
          · exact Or.inl hx
          · exact absurd hmem hnot
          · exact Or.inr ⟨hx, hnot⟩
      · rw [hrest.todo, SortedSet.mem_foldl_insert, List.exists_mem_cons_iff, SortedSet.mem_toList]
        simp only [hinfo, Option.some.injEq, exists_eq_left']
        tauto
      · rw [hrest.downloadSize, List.map_cons, List.sum_cons, hinfo, ← add_assoc]
        rfl
      · rw [hrest.narSize, List.map_cons, List.sum_cons, hinfo, ← add_assoc]
        rfl
    | none =>
      have hmem : p ∉ infos := SortedMap.find?_eq_none_iff.mp hinfo
      simp only [visitNonDrv, hinfo] at hrest ⊢
      refine ⟨fun x => ?_, fun x => ?_, fun x => ?_, fun x => ?_, hrest.willBuild, ?_, ?_⟩
      · rw [hrest.done, SortedSet.mem_insert, List.mem_cons]
        tauto
      · rw [hrest.willSubstitute, List.mem_cons]
        constructor
        · tauto
        · rintro (hx | ⟨rfl | hx, hin⟩)
          · exact Or.inl hx
          · exact absurd hin hmem
          · exact Or.inr ⟨hx, hin⟩
      · rw [hrest.unknown, SortedSet.mem_insert, List.mem_cons]
        constructor
        · rintro ((rfl | hx) | hx)
          · exact Or.inr ⟨Or.inl rfl, hmem⟩
          · exact Or.inl hx
          · exact Or.inr ⟨Or.inr hx.1, hx.2⟩
        · tauto
      · rw [hrest.todo, List.exists_mem_cons_iff]
        simp only [hinfo, reduceCtorEq, false_and, exists_false, false_or]
      · rw [hrest.downloadSize, List.map_cons, List.sum_cons, hinfo, Option.elim_none, zero_add]
      · rw [hrest.narSize, List.map_cons, List.sum_cons, hinfo, Option.elim_none, zero_add]

/-! ### Rounds -/

/-- The round takes up a path: it is to be done, or it is an output of a derivation whose outputs are
substituted. -/
def TakesUp (store : MissingStore) (s : MissingState) (p : Path) : Prop :=
  (p ∈ s.todo ∧ p ∉ s.done ∧ store.MissingPath p) ∨
    ∃ i ∈ s.todo, i ∉ s.done ∧ store.SubstitutesOutput i p

/-- What a substituter says about a path, or 0. -/
def sizeOf (size : SubstitutablePathInfo → UInt64) (p : Path) : UInt64 :=
  (store.substitutes.find? p).elim 0 size

/-- What a round does. -/
structure RoundTo (store : MissingStore) (s s' : MissingState) : Prop where
  done : ∀ x, x ∈ s'.done ↔ x ∈ s.done ∨ x ∈ s.todo ∨ store.TakesUp s x
  willBuild : ∀ x, x ∈ s'.willBuild ↔ x ∈ s.willBuild ∨
    ∃ i ∈ s.todo, i ∉ s.done ∧ ∃ drv, store.Builds i drv ∧ x = (parseDrvPathWithOutputs i).1
  willSubstitute : ∀ x, x ∈ s'.willSubstitute ↔
    x ∈ s.willSubstitute ∨ (store.TakesUp s x ∧ x ∈ store.substitutes)
  unknown : ∀ x, x ∈ s'.unknown ↔ x ∈ s.unknown ∨
    (x ∈ s.todo ∧ x ∉ s.done ∧ store.MissingDrv x) ∨ (store.TakesUp s x ∧ x ∉ store.substitutes)
  todo : ∀ x, x ∈ s'.todo ↔
    (∃ i ∈ s.todo, i ∉ s.done ∧ ∃ drv, store.Builds i drv ∧ x ∈ inputItems drv) ∨
    ∃ p, store.TakesUp s p ∧ ∃ info, store.substitutes.find? p = some info ∧ x ∈ info.references
  reads : ∀ i ∈ s.todo, i ∉ s.done → store.MissingDrv i ∨ (∃ drv, store.DrvRequest i drv) ∨
    isDerivation (parseDrvPathWithOutputs i).1 = false
  sizes : ∃ l : List Path, l.Nodup ∧ (∀ p, p ∈ l ↔ store.TakesUp s p) ∧
    s'.downloadSize = s.downloadSize + (l.map (store.sizeOf SubstitutablePathInfo.downloadSize)).sum ∧
    s'.narSize = s.narSize + (l.map (store.sizeOf SubstitutablePathInfo.narSize)).sum

/-- The answers of the substituters are complete for what has been asked. -/
theorem find?_querySubstitutablePathInfos {paths : PathSet} {p : Path} (hp : p ∈ paths) :
    (store.querySubstitutablePathInfos paths).find? p = store.substitutes.find? p := by
  rw [querySubstitutablePathInfos, SortedMap.find?_filter]
  cases store.substitutes.find? p <;> simp [hp]

/-- The answer has what can be substituted. -/
theorem mem_querySubstitutablePathInfos {paths : PathSet} {p : Path} (hp : p ∈ paths) :
    p ∈ store.querySubstitutablePathInfos paths ↔ p ∈ store.substitutes := by
  rw [SortedMap.mem_iff_find?_ne_none, SortedMap.mem_iff_find?_ne_none,
    find?_querySubstitutablePathInfos hp]

/-- A derivation must be built when one of its outputs cannot be substituted. -/
theorem mustBuild_eq_true_iff {paths : PathSet} {drv : Derivation} {wanted : SortedSet Str}
    (hquery : store.useSubstitutes = true → ∀ p ∈ store.invalidOutputs drv wanted, p ∈ paths) :
    store.mustBuild (store.querySubstitutablePathInfos paths) drv wanted = true ↔
      (store.useSubstitutes = true →
        ∃ p ∈ store.invalidOutputs drv wanted, p ∉ store.substitutes) := by
  rw [mustBuild]
  cases huse : store.useSubstitutes with
  | false => simp
  | true =>
    simp only [Bool.not_true, Bool.false_or, List.any_eq_true, SortedSet.mem_toList,
      decide_eq_true_eq, forall_const]
    refine exists_congr fun p => and_congr_right fun hp => not_congr ?_
    exact mem_querySubstitutablePathInfos (hquery huse p hp)

/-- What the first two loops have come to. -/
structure Decides (store : MissingStore) (infos : SortedMap Path SubstitutablePathInfo)
    (s s' : MissingState) : Prop where
  done : ∀ x, x ∈ s'.done ↔ x ∈ s.done ∨ x ∈ s.todo
  willBuild : ∀ x, x ∈ s'.willBuild ↔ x ∈ s.willBuild ∨
    ∃ i ∈ s.todo, i ∉ s.done ∧ ∃ drv, store.Builds i drv ∧ x = (parseDrvPathWithOutputs i).1
  unknown : ∀ x, x ∈ s'.unknown ↔
    x ∈ s.unknown ∨ (x ∈ s.todo ∧ x ∉ s.done ∧ store.MissingDrv x)
  todo : ∀ x, x ∈ s'.todo ↔
    ∃ i ∈ s.todo, i ∉ s.done ∧ ∃ drv, store.Builds i drv ∧ x ∈ inputItems drv
  todoNonDrv : ∀ p, p ∈ s'.todoNonDrv ↔ store.TakesUp s p
  reads : ∀ i ∈ s.todo, i ∉ s.done → store.MissingDrv i ∨ (∃ drv, store.DrvRequest i drv) ∨
    isDerivation (parseDrvPathWithOutputs i).1 = false
  answers : ∀ p, store.TakesUp s p → infos.find? p = store.substitutes.find? p
  rest : s'.willSubstitute = s.willSubstitute ∧ s'.downloadSize = s.downloadSize ∧
    s'.narSize = s.narSize

/-- The three loops of a round. -/
theorem decides_of_loops {s₁ s₂ : MissingState}
    (hs₁ : s.todo.toList.foldlM store.classify { s with query := ∅, todoDrv := ∅, todoNonDrv := ∅ } =
      .ok s₁)
    (hs₂ : s₁.todoDrv.toList.foldlM (store.visitDrv (store.querySubstitutablePathInfos s₁.query))
      { s₁ with todo := ∅ } = .ok s₂) :
    store.Decides (store.querySubstitutablePathInfos s₁.query) s s₂ := by
  have hc := Classifies.of_foldlM s.todo.toList hs₁
  have htodoDrv : ∀ i, i ∈ s₁.todoDrv ↔ i ∈ s.todo ∧ i ∉ s.done ∧ store.Pending i := fun i => by
    rw [hc.todoDrv]
    simp
  have hv := VisitsDrvs.of_foldlM s₁.todoDrv.toList (fun i hi => ((htodoDrv i).mp hi).2.2) hs₂
  -- the answers of the substituters are those that decide
  have hmust : ∀ i ∈ s₁.todoDrv, ∀ drv, store.DrvRequest i drv →
      (store.mustBuild (store.querySubstitutablePathInfos s₁.query) drv
        (parseDrvPathWithOutputs i).2 = true ↔ store.Builds i drv) := by
    intro i hi drv hitem
    obtain ⟨htodo, hnew, hpending⟩ := (htodoDrv i).mp hi
    rw [mustBuild_eq_true_iff fun huse => hc.queryOutputs i htodo hnew drv hitem huse]
    exact ⟨fun hbuild => ⟨hitem, hitem.pending_iff.mp hpending, hbuild⟩, fun hbuild => hbuild.2.2⟩
  have hbuilds : ∀ (P : Str → Derivation → Prop), (∃ i ∈ s₁.todoDrv.toList, ∃ drv,
      store.DrvRequest i drv ∧ store.mustBuild (store.querySubstitutablePathInfos s₁.query) drv
        (parseDrvPathWithOutputs i).2 = true ∧ P i drv) ↔
      ∃ i ∈ s.todo, i ∉ s.done ∧ ∃ drv, store.Builds i drv ∧ P i drv := by
    intro P
    constructor
    · rintro ⟨i, hi, drv, hitem, hbuild, hP⟩
      obtain ⟨htodo, hnew, -⟩ := (htodoDrv i).mp hi
      exact ⟨i, htodo, hnew, drv, (hmust i hi drv hitem).mp hbuild, hP⟩
    · rintro ⟨i, htodo, hnew, drv, hbuild, hP⟩
      have hi := (htodoDrv i).mpr ⟨htodo, hnew, drv, hbuild.1, hbuild.2.1⟩
      exact ⟨i, hi, drv, hbuild.1, (hmust i hi drv hbuild.1).mpr hbuild, hP⟩
  have hsubstitutes : ∀ i ∈ s₁.todoDrv, ∀ p, (∃ drv, store.DrvRequest i drv ∧
      store.mustBuild (store.querySubstitutablePathInfos s₁.query) drv
        (parseDrvPathWithOutputs i).2 = false ∧ p ∈ store.requestOutputs i drv) ↔
      store.SubstitutesOutput i p := by
    intro i hi p
    constructor
    · rintro ⟨drv, hitem, hnot, hp⟩
      have hnone : ¬store.Builds i drv := fun hbuild => by
        rw [(hmust i hi drv hitem).mpr hbuild] at hnot
        cases hnot
      have hne := hitem.pending_iff.mp ((htodoDrv i).mp hi).2.2
      have hall : ¬(store.useSubstitutes = true →
          ∃ q ∈ store.requestOutputs i drv, q ∉ store.substitutes) :=
        fun hbuild => hnone ⟨hitem, hne, hbuild⟩
      push Not at hall
      exact ⟨drv, hitem, hp, hall.1, hall.2⟩
    · rintro ⟨drv, hitem, hp, huse, hall⟩
      refine ⟨drv, hitem, Bool.eq_false_iff.mpr fun hbuild => ?_, hp⟩
      obtain ⟨q, hq, hnot⟩ := ((hmust i hi drv hitem).mp hbuild).2.2 huse
      exact hnot (hall q hq)
  obtain ⟨hdone₂, hsub₂, hunknown₂, hdown₂, hnar₂⟩ := hv.rest
  obtain ⟨-, hbuild₁, hsub₁, hdown₁, hnar₁⟩ := hc.rest
  refine ⟨fun x => ?_, fun x => ?_, fun x => ?_, fun x => ?_, fun p => ?_, hc.reads, ?_,
    hsub₂.trans hsub₁, hdown₂.trans hdown₁, hnar₂.trans hnar₁⟩
  · rw [hdone₂]
    exact hc.done x
  · rw [hv.willBuild, hbuilds fun i _ => x = (parseDrvPathWithOutputs i).1]
    exact or_congr_left (by rw [hbuild₁])
  · rw [hunknown₂]
    exact hc.unknown x
  · rw [hv.todo, hbuilds fun _ drv => x ∈ inputItems drv]
    exact or_iff_right (SortedMap.notMem_empty x)
  · rw [hv.todoNonDrv, hc.todoNonDrv, TakesUp]
    refine or_congr (by simp) ⟨?_, ?_⟩
    · rintro ⟨i, hi, hp⟩
      obtain ⟨htodo, hnew, -⟩ := (htodoDrv i).mp hi
      exact ⟨i, htodo, hnew, (hsubstitutes i hi p).mp hp⟩
    · rintro ⟨i, htodo, hnew, hp⟩
      have hi := (htodoDrv i).mpr ⟨htodo, hnew, hp.pending⟩
      exact ⟨i, hi, (hsubstitutes i hi p).mpr hp⟩
  · rintro p (⟨htodo, hnew, hpath⟩ | ⟨i, htodo, hnew, drv, hitem, hp, huse, -⟩)
    · exact find?_querySubstitutablePathInfos (hc.queryPath p htodo hnew hpath)
    · exact find?_querySubstitutablePathInfos (hc.queryOutputs i htodo hnew drv hitem huse p hp)

/-- What one round does. -/
theorem round_spec (h : store.round s = .ok s') : store.RoundTo s s' := by
  unfold round at h
  obtain ⟨s₁, hs₁, h⟩ := Outcome.bind_eq_ok.mp h
  obtain ⟨s₂, hs₂, h⟩ := Outcome.bind_eq_ok.mp h
  have hd := decides_of_loops hs₁ hs₂
  generalize store.querySubstitutablePathInfos s₁.query = infos at hd h
  have hn := visitsNonDrvs_foldl infos s₂.todoNonDrv.toList s₂
  obtain ⟨hsub, hdown, hnar⟩ := hd.rest
  have hmem : ∀ p, store.TakesUp s p → (p ∈ infos ↔ p ∈ store.substitutes) := fun p hp => by
    rw [SortedMap.mem_iff_find?_ne_none, SortedMap.mem_iff_find?_ne_none, hd.answers p hp]
  have hsizes : ∀ size : SubstitutablePathInfo → UInt64,
      (s₂.todoNonDrv.toList.map fun p => (infos.find? p).elim 0 size) =
        s₂.todoNonDrv.toList.map (store.sizeOf size) := fun size =>
    List.map_congr_left fun p hp => by rw [hd.answers p ((hd.todoNonDrv p).mp hp), sizeOf]
  rw [← Outcome.ok.inj h]
  refine ⟨fun x => ?_, fun x => ?_, fun x => ?_, fun x => ?_, fun x => ?_, hd.reads,
    s₂.todoNonDrv.toList, SortedMap.keys_nodup _, hd.todoNonDrv, ?_, ?_⟩
  · rw [hn.done, hd.done, SortedSet.mem_toList, hd.todoNonDrv, or_assoc]
  · rw [hn.willBuild, hd.willBuild]
  · rw [hn.willSubstitute, hsub, SortedSet.mem_toList, hd.todoNonDrv]
    exact or_congr_right (and_congr_right (hmem x))
  · rw [hn.unknown, hd.unknown, SortedSet.mem_toList, hd.todoNonDrv, or_assoc]
    exact or_congr_right (or_congr_right (and_congr_right fun hx => not_congr (hmem x hx)))
  · rw [hn.todo, hd.todo]
    refine or_congr_right (exists_congr fun p => ?_)
    rw [SortedSet.mem_toList, hd.todoNonDrv]
    exact and_congr_right fun hp => by rw [hd.answers p hp]
  · rw [hn.downloadSize, hdown, hsizes]
  · rw [hn.narSize, hnar, hsizes]

end MissingStore

end Nix
