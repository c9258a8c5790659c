import NixStore.Env.DrvElems

/-!
# The version of a package against those in a set

Model of `compareVersionAgainstSet` of `nix-env.cc`.  The verdict does not depend on the order of the
set.  The version that is reported with it does: of several higher versions it is the last one in the
list, and the placeholder `?` is treated as a version among lower ones.  So the report is right exactly
if all higher versions compare equal and some lower one is not below the placeholder
(`compareVersionAgainstSet_spec_iff`).
-/

namespace Nix

/-- Model of `VersionDiff`. -/
inductive VersionDiff where
  | cvLess
  | cvEqual
  | cvGreater
  | cvUnavail
deriving DecidableEq

/-- What is reported when there is no version. -/
def unknownVersion : Str := str "?"

/-- The loop of `compareVersionAgainstSet` for an element with the same name. -/
def compareVersionStep (version : Str) (st : VersionDiff × Str) (version2 : Str) : VersionDiff × Str :=
  let d := compareVersions version version2
  if d < 0 then (.cvGreater, version2)
  else if st.1 ≠ .cvGreater ∧ d = 0 then (.cvEqual, version2)
  else if st.1 ≠ .cvGreater ∧ st.1 ≠ .cvEqual ∧ d > 0 then
    (.cvLess, if st.2 = [] ∨ compareVersions st.2 version2 < 0 then version2 else st.2)
  else st

/-- Model of `compareVersionAgainstSet`: the verdict and the version that goes with it. -/
def compareVersionAgainstSet (elem : DrvInfo) (elems : List DrvInfo) : VersionDiff × Str :=
  elems.foldl (fun st i =>
    if elem.package = i.package then compareVersionStep elem.version st i.version else st)
    (.cvUnavail, unknownVersion)

/-! ### The versions that are looked at -/

/-- The versions of the elements with the same name. -/
def sameNameVersions (elem : DrvInfo) (elems : List DrvInfo) : List Str :=
  (elems.filter fun i => elem.package = i.package).map DrvInfo.version

/-- The versions of the elements of the same name. -/
theorem mem_sameNameVersions {elem : DrvInfo} {elems : List DrvInfo} {v : Str} :
    v ∈ sameNameVersions elem elems ↔
      ∃ i ∈ elems, elem.package = i.package ∧ i.version = v := by
  simp [sameNameVersions, and_assoc]

/-- The loop goes over these versions. -/
theorem compareVersionAgainstSet_eq (elem : DrvInfo) (elems : List DrvInfo) :
    compareVersionAgainstSet elem elems =
      (sameNameVersions elem elems).foldl (compareVersionStep elem.version)
        (.cvUnavail, unknownVersion) := by
  rw [compareVersionAgainstSet, sameNameVersions, List.foldl_map, List.foldl_filter]
  simp only [decide_eq_true_eq]

/-- What the loop knows of the versions that it has looked at. -/
def Summarises (version : Str) (versions : List Str) : VersionDiff × Str → Prop
  | (.cvUnavail, w) => versions = [] ∧ w = unknownVersion
  | (.cvLess, w) => versions ≠ [] ∧ (∀ v ∈ versions, versionRank v < versionRank version) ∧
      (∀ v ∈ versions, versionRank v ≤ versionRank w) ∧
      (w = unknownVersion ∨ w ∈ versions ∧ versionRank unknownVersion < versionRank w)
  | (.cvEqual, w) => (∀ v ∈ versions, versionRank v ≤ versionRank version) ∧
      w ∈ versions ∧ versionRank w = versionRank version
  | (.cvGreater, w) => w ∈ versions ∧ versionRank version < versionRank w

/-- The empty version is below the unknown one. -/
theorem versionRank_nil_lt : versionRank [] < versionRank unknownVersion :=
  compareVersions_eq_neg_one_iff.mp (by decide)

/-- One round. -/
theorem Summarises.step {version : Str} {versions : List Str} {st : VersionDiff × Str}
    (h : Summarises version versions st) (v : Str) :
    Summarises version (versions ++ [v]) (compareVersionStep version st v) := by
  obtain ⟨diff, w⟩ := st
  have hmem : ∀ {P : Str → Prop}, (∀ u ∈ versions, P u) → P v → ∀ u ∈ versions ++ [v], P u := by
    intro P hold hnew u hu
    rcases List.mem_append.mp hu with hu | hu
    · exact hold u hu
    · rwa [List.mem_singleton.mp hu]
  have hlast : v ∈ versions ++ [v] := by simp
  unfold compareVersionStep
  dsimp only
  rcases compareVersions_spec version v with ⟨hd, hlt⟩ | ⟨hd, heq⟩ | ⟨hd, hgt⟩
  · rw [if_pos (by omega)]
    exact ⟨hlast, hlt⟩
  · rw [if_neg (by omega)]
    cases diff with
    | cvGreater => exact ⟨List.mem_append_left _ h.1, h.2⟩
    | cvEqual =>
      rw [if_pos ⟨by simp, hd⟩]
      exact ⟨hmem h.1 heq.ge, hlast, heq.symm⟩
    | cvLess =>
      rw [if_pos ⟨by simp, hd⟩]
      exact ⟨hmem (fun u hu => (h.2.1 u hu).le) heq.ge, hlast, heq.symm⟩
    | cvUnavail =>
      rw [if_pos ⟨by simp, hd⟩]
      exact ⟨hmem (fun u hu => absurd hu (by simp [h.1])) heq.ge, hlast, heq.symm⟩
  · rw [if_neg (by omega)]
    -- a lower version counts unless there is one that is not lower
    have hless : ∀ {w : Str}, (∀ u ∈ versions, versionRank u < versionRank version) →
        (∀ u ∈ versions, versionRank u ≤ versionRank w) →
        (w = unknownVersion ∨ w ∈ versions ∧ versionRank unknownVersion < versionRank w) →
        Summarises version (versions ++ [v])
          (.cvLess, if w = [] ∨ compareVersions w v < 0 then v else w) := by
      intro w hlower hmax hw
      have hnil : w ≠ [] := by
        rintro rfl
        rcases hw with hw | ⟨-, hw⟩
        · cases hw
        · exact hw.asymm versionRank_nil_lt
      have hupdate : (w = [] ∨ compareVersions w v < 0) ↔ versionRank w < versionRank v := by
        simp only [hnil, false_or, compareVersions_neg_iff]
      split_ifs with hwv
      · rw [hupdate] at hwv
        refine ⟨by simp, hmem hlower hgt, hmem (fun u hu => (hmax u hu).trans hwv.le) le_rfl,
          Or.inr ⟨hlast, ?_⟩⟩
        rcases hw with rfl | ⟨-, hw⟩
        · exact hwv
        · exact hw.trans hwv
      · rw [hupdate] at hwv
        exact ⟨by simp, hmem hlower hgt, hmem hmax (not_lt.mp hwv),
          hw.imp_right fun hw => ⟨List.mem_append_left _ hw.1, hw.2⟩⟩
    cases diff with
    | cvGreater =>
      rw [if_neg (by simp), if_neg (by simp)]
      exact ⟨List.mem_append_left _ h.1, h.2⟩
    | cvEqual =>
      rw [if_neg (by omega), if_neg (by simp)]
      exact ⟨hmem h.1 hgt.le, List.mem_append_left _ h.2.1, h.2.2⟩
    | cvLess =>
      rw [if_neg (by omega), if_pos ⟨by simp, by simp, by omega⟩]
      exact hless h.2.1 h.2.2.1 h.2.2.2
    | cvUnavail =>
      rw [if_neg (by omega), if_pos ⟨by simp, by simp, by omega⟩]
      exact hless (fun u hu => absurd hu (by simp [h.1])) (fun u hu => absurd hu (by simp [h.1]))
        (Or.inl h.2)

/-- What the loop says of the versions it has passed. -/
theorem summarises_foldl (version : Str) (versions : List Str) :
    Summarises version versions
      (versions.foldl (compareVersionStep version) (.cvUnavail, unknownVersion)) := by
  induction versions using List.reverseRecOn with
  | nil => exact ⟨rfl, rfl⟩
  | append_singleton versions v ih =>
    rw [List.foldl_append, List.foldl_cons, List.foldl_nil]
    exact ih.step v

/-- What the comparison says of all the versions. -/
theorem summarises_compareVersionAgainstSet (elem : DrvInfo) (elems : List DrvInfo) :
    Summarises elem.version (sameNameVersions elem elems) (compareVersionAgainstSet elem elems) := by
  rw [compareVersionAgainstSet_eq]
  exact summarises_foldl _ _

/-! ### What the verdict and the report should be -/

/-- The verdict as it is described: whether there is a higher, an equal or a lower version. -/
def versionDiff (version : Str) (versions : List Str) : VersionDiff :=
  if ∃ v ∈ versions, compareVersions version v < 0 then .cvGreater
  else if ∃ v ∈ versions, compareVersions version v = 0 then .cvEqual
  else if ∃ v ∈ versions, compareVersions version v > 0 then .cvLess
  else .cvUnavail

/-- The verdict is right, the order of the list does not matter, and the reported version is a highest
one. -/
structure ReportsHighest (elem : DrvInfo) (elems : List DrvInfo) : Prop where
  verdict : (compareVersionAgainstSet elem elems).1 =
    versionDiff elem.version (sameNameVersions elem elems)
  perm : ∀ elems₁ elems₂, elems₁.Perm elems → elems₂.Perm elems →
    (compareVersionAgainstSet elem elems₁).1 = (compareVersionAgainstSet elem elems₂).1 ∧
      compareVersions (compareVersionAgainstSet elem elems₁).2
        (compareVersionAgainstSet elem elems₂).2 = 0
  highest : sameNameVersions elem elems ≠ [] →
    (compareVersionAgainstSet elem elems).2 ∈ sameNameVersions elem elems ∧
      ∀ v ∈ sameNameVersions elem elems,
        compareVersions v (compareVersionAgainstSet elem elems).2 ≤ 0

/-- All higher versions compare equal; and if all versions are lower, one of them is the placeholder
or above it. -/
def HighestDecided (version : Str) (versions : List Str) : Prop :=
  (∀ v ∈ versions, ∀ w ∈ versions, compareVersions version v < 0 → compareVersions version w < 0 →
    compareVersions v w = 0) ∧
  (versions ≠ [] → (∀ v ∈ versions, compareVersions version v > 0) →
    ∃ v ∈ versions, v = unknownVersion ∨ compareVersions unknownVersion v < 0)

/-- The first part of the result. -/
theorem Summarises.fst_eq {version : Str} {versions : List Str} {st : VersionDiff × Str}
    (h : Summarises version versions st) : st.1 = versionDiff version versions := by
  obtain ⟨diff, w⟩ := st
  unfold versionDiff
  cases diff with
  | cvUnavail =>
    obtain ⟨rfl, -⟩ := h
    simp
  | cvLess =>
    obtain ⟨hne, hlower, -⟩ := h
    obtain ⟨v, hv⟩ := List.exists_mem_of_ne_nil _ hne
    have hpos : ∀ u ∈ versions, compareVersions version u > 0 := fun u hu =>
      compareVersions_pos_iff.mpr (hlower u hu)
    rw [if_neg (by rintro ⟨u, hu, hd⟩; exact hd.asymm (hpos u hu)),
      if_neg (by rintro ⟨u, hu, hd⟩; exact (hpos u hu).ne' hd), if_pos ⟨v, hv, hpos v hv⟩]
  | cvEqual =>
    obtain ⟨hle, hw, heq⟩ := h
    rw [if_neg, if_pos ⟨w, hw, compareVersions_eq_zero_iff.mpr heq.symm⟩]
    rintro ⟨u, hu, hd⟩
    exact (hle u hu).not_gt (compareVersions_neg_iff.mp hd)
  | cvGreater => rw [if_pos ⟨w, h.1, compareVersions_neg_iff.mpr h.2⟩]

/-- When the highest version is decided, the reported one is a highest one. -/
theorem Summarises.isHighest {version : Str} {versions : List Str} {st : VersionDiff × Str}
    (h : Summarises version versions st) (hdecided : HighestDecided version versions)
    (hne : versions ≠ []) :
    st.2 ∈ versions ∧ ∀ v ∈ versions, versionRank v ≤ versionRank st.2 := by
  obtain ⟨hhigher, hlowest⟩ := hdecided
  simp only [compareVersions_neg_iff, compareVersions_eq_zero_iff, gt_iff_lt,
    compareVersions_pos_iff] at hhigher hlowest
  obtain ⟨diff, w⟩ := st
  cases diff with
  | cvUnavail => exact absurd h.1 hne
  | cvLess =>
    obtain ⟨-, hlower, hmax, hw⟩ := h
    refine ⟨?_, hmax⟩
    rcases hw with rfl | ⟨hw, -⟩
    · obtain ⟨v, hv, rfl | hlt⟩ := hlowest hne hlower
      · exact hv
      · exact absurd hlt (hmax v hv).not_gt
    · exact hw
  | cvEqual =>
    obtain ⟨hle, hw, heq⟩ := h
    exact ⟨hw, fun v hv => (hle v hv).trans heq.ge⟩
  | cvGreater =>
    obtain ⟨hw, hlt⟩ := h
    refine ⟨hw, fun v hv => ?_⟩
    by_cases hvhigher : versionRank version < versionRank v
    · exact (hhigher v hv w hw hvhigher hlt).le
    · exact (not_lt.mp hvhigher).trans hlt.le

/-- That the highest version is decided depends on the versions only, not on their order. -/
theorem HighestDecided.congr {version : Str} {versions versions' : List Str}
    (h : HighestDecided version versions) (hmem : ∀ v, v ∈ versions' ↔ v ∈ versions) :
    HighestDecided version versions' := by
  obtain ⟨hhigher, hlowest⟩ := h
  refine ⟨fun v hv w hw => hhigher v ((hmem v).mp hv) w ((hmem w).mp hw), fun hne hlower => ?_⟩
  have hne' : versions ≠ [] := by
    obtain ⟨v, hv⟩ := List.exists_mem_of_ne_nil _ hne
    exact List.ne_nil_of_mem ((hmem v).mp hv)
  obtain ⟨v, hv, h⟩ := hlowest hne' fun v hv => hlower v ((hmem v).mpr hv)
  exact ⟨v, (hmem v).mpr hv, h⟩

/-- The versions in another order. -/
theorem perm_sameNameVersions {elem : DrvInfo} {elems elems' : List DrvInfo}
    (h : elems'.Perm elems) : (sameNameVersions elem elems').Perm (sameNameVersions elem elems) :=
  (h.filter _).map _

/-- A higher version is the one that is reported if it comes last. -/
theorem compareVersionAgainstSet_concat {elem i : DrvInfo} (elems : List DrvInfo)
    (hname : elem.package = i.package) (hd : compareVersions elem.version i.version < 0) :
    compareVersionAgainstSet elem (elems ++ [i]) = (.cvGreater, i.version) := by
  rw [compareVersionAgainstSet, List.foldl_append, List.foldl_cons, List.foldl_nil, if_pos hname,
    compareVersionStep]
  exact if_pos hd

/-- If the report does not depend on the order and is a highest version, the highest version is
decided. -/
theorem ReportsHighest.highestDecided {elem : DrvInfo} {elems : List DrvInfo}
    (h : ReportsHighest elem elems) :
    HighestDecided elem.version (sameNameVersions elem elems) := by
  have hsum := summarises_compareVersionAgainstSet elem elems
  have hnot : ∀ v ∈ sameNameVersions elem elems, ∀ w ∈ sameNameVersions elem elems,
      compareVersions elem.version v < 0 → ¬versionRank v < versionRank w := by
    intro v hv w hw hd hlt
    -- the list in which the lower one of the two comes last
    obtain ⟨i, hi, hname, rfl⟩ := mem_sameNameVersions.mp hv
    obtain ⟨before, after, hsplit⟩ := List.append_of_mem hi
    have hperm : (before ++ after ++ [i]).Perm elems := by
      rw [hsplit, List.append_assoc]
      exact (List.perm_append_singleton i after).append_left before
    have heq := (h.perm _ _ hperm (.refl elems)).2
    rw [compareVersionAgainstSet_concat _ hname hd, compareVersions_eq_zero_iff] at heq
    have hle := (h.highest (List.ne_nil_of_mem hv)).2 w hw
    rw [compareVersions_le_zero_iff, ← heq] at hle
    exact hle.not_gt hlt
  refine ⟨fun v hv w hw hdv hdw => ?_, fun hne hlower => ?_⟩
  · rw [compareVersions_eq_zero_iff]
    rcases compareVersions_spec v w with ⟨-, hlt⟩ | ⟨-, heq⟩ | ⟨-, hgt⟩
    · exact absurd hlt (hnot v hv w hw hdv)
    · exact heq
    · exact absurd hgt (hnot w hw v hv hdw)
  · obtain ⟨hmem, -⟩ := h.highest hne
    simp only [gt_iff_lt, compareVersions_pos_iff] at hlower
    simp only [compareVersions_neg_iff]
    generalize compareVersionAgainstSet elem elems = st at hsum hmem
    obtain ⟨diff, w⟩ := st
    cases diff with
    | cvUnavail => exact absurd hsum.1 hne
    | cvLess =>
      rcases hsum.2.2.2 with hw | ⟨hw, hlt⟩
      · exact ⟨w, hmem, Or.inl hw⟩
      · exact ⟨w, hw, Or.inr hlt⟩
    | cvEqual => exact absurd hsum.2.2 (hlower w hsum.2.1).ne
    | cvGreater => exact absurd hsum.2 (hlower w hsum.1).asymm

/-- The verdict is always right, whatever the order; and the version that is reported is a highest
one, whatever the order, exactly if the higher versions compare equal and, when all are lower, one of
them is not below the placeholder. -/
theorem compareVersionAgainstSet_spec_iff (elem : DrvInfo) (elems : List DrvInfo) :
    (∀ elems', elems'.Perm elems → (compareVersionAgainstSet elem elems').1 =
      versionDiff elem.version (sameNameVersions elem elems)) ∧
    (ReportsHighest elem elems ↔ HighestDecided elem.version (sameNameVersions elem elems)) := by
  have hmem : ∀ {elems'}, elems'.Perm elems → ∀ v, v ∈ sameNameVersions elem elems' ↔
      v ∈ sameNameVersions elem elems := fun hperm v => (perm_sameNameVersions hperm).mem_iff
  have hverdict : ∀ elems', elems'.Perm elems → (compareVersionAgainstSet elem elems').1 =
      versionDiff elem.version (sameNameVersions elem elems) := by
    intro elems' hperm
    rw [(summarises_compareVersionAgainstSet elem elems').fst_eq]
    simp only [versionDiff, hmem hperm]
  refine ⟨hverdict, ReportsHighest.highestDecided, fun hdecided => ?_⟩
  have hhighest : ∀ elems', elems'.Perm elems → sameNameVersions elem elems ≠ [] →
      (compareVersionAgainstSet elem elems').2 ∈ sameNameVersions elem elems ∧
        ∀ v ∈ sameNameVersions elem elems,
          versionRank v ≤ versionRank (compareVersionAgainstSet elem elems').2 := by
    intro elems' hperm hne
    have hne' : sameNameVersions elem elems' ≠ [] := fun hnil =>
      hne (List.Perm.nil_eq (hnil ▸ perm_sameNameVersions hperm)).symm
    obtain ⟨hw, hmax⟩ := (summarises_compareVersionAgainstSet elem elems').isHighest
      (hdecided.congr (hmem hperm)) hne'
    exact ⟨(hmem hperm _).mp hw, fun v hv => hmax v ((hmem hperm v).mpr hv)⟩
  refine ⟨hverdict _ (.refl _), fun elems₁ elems₂ h₁ h₂ => ⟨?_, ?_⟩, fun hne => ?_⟩
  · rw [hverdict _ h₁, hverdict _ h₂]
  · rw [compareVersions_eq_zero_iff]
    by_cases hnil : sameNameVersions elem elems = []
    · have hunknown : ∀ elems', elems'.Perm elems →
          (compareVersionAgainstSet elem elems').2 = unknownVersion := by
        intro elems' hperm
        have hnil' : sameNameVersions elem elems' = [] :=
          (List.Perm.eq_nil (hnil ▸ perm_sameNameVersions hperm))
        rw [compareVersionAgainstSet_eq, hnil']
        rfl
      rw [hunknown _ h₁, hunknown _ h₂]
    · obtain ⟨hw₁, hmax₁⟩ := hhighest _ h₁ hnil
      obtain ⟨hw₂, hmax₂⟩ := hhighest _ h₂ hnil
      exact le_antisymm (hmax₂ _ hw₁) (hmax₁ _ hw₂)
  · obtain ⟨hw, hmax⟩ := hhighest _ (.refl _) hne
    exact ⟨hw, fun v hv => compareVersions_le_zero_iff.mpr (hmax v hv)⟩

/-- A package of which only the name counts. -/
def namedElem (name : String) : DrvInfo := ⟨str name, [], ∅, []⟩

/-- Of the versions 3.0 and 2.0, which are both higher than 1.0, the last one is reported; and of a
lower package without a version the placeholder. -/
theorem not_reportsHighest :
    ¬ReportsHighest (namedElem "foo-1.0") [namedElem "foo-3.0", namedElem "foo-2.0"] ∧
      ¬ReportsHighest (namedElem "foo-1.0") [namedElem "foo"] := by
  refine ⟨fun h => ?_, fun h => ?_⟩
  · exact absurd ((h.highest (by decide)).2 (str "3.0") (by decide)) (by decide)
  · exact absurd (h.highest (by decide)).1 (by decide)

end Nix
