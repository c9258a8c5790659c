import NixStore.Lib.FirstMax
import NixStore.Env.DrvElems

/-!
# Upgrading

Model of the selection that `upgradeDerivations` of `nix-env.cc` makes.  For an installed package it
finds the first best one among the available ones that the mode admits, and what it finds is its own
choice in a second pass: a package that is admitted for the choice is admitted for the installed package
too, and so it is not better.  Hence a second pass changes nothing (`upgradeDerivations_idempotent`).
-/

namespace Nix

/-- Model of `UpgradeType`. -/
inductive UpgradeType where
  | utLt
  | utLeq
  | utEq
  | utAlways
deriving DecidableEq

/-- What an upgrade depends on. -/
structure UpgradeOptions where
  upgradeType : UpgradeType
  prebuiltOnly : Bool
  isValidPath : Path → Bool
  /-- `querySubstitutablePaths` returns the path. -/
  isSubstitutable : Path → Bool

/-- Model of `keep`. -/
def keep (drv : DrvInfo) : Bool := drv.queryMetaInfo (str "keep") = .tpString (str "true")

/-- The constraint on the result of the comparison with an installed package. -/
def UpgradeType.admits : UpgradeType → ℤ → Bool
  | .utLt, d => d < 0
  | .utLeq, d => d ≤ 0
  | .utEq, d => d = 0
  | .utAlways, _ => true

namespace UpgradeOptions

variable (opts : UpgradeOptions)

/-- Model of `isPrebuilt`. -/
def isPrebuilt (elem : DrvInfo) : Bool :=
  opts.isValidPath elem.outPath || opts.isSubstitutable elem.outPath

/-- One round of the loop over the available packages, for the installed package `i`. -/
def considerElem (i : DrvInfo) (bestElem : Option DrvInfo) (j : DrvInfo) : Option DrvInfo :=
  if j.package = i.package then
    if opts.upgradeType.admits (compareElems i j) then
      let d2 :=
        match bestElem with
        | none => -1
        | some best => compareElems best j
      if d2 < 0 ∧ (!opts.prebuiltOnly || opts.isPrebuilt j) then some j else bestElem
    else bestElem
  else bestElem

/-- The best available package for an installed one. -/
def bestElem (availElems : List DrvInfo) (i : DrvInfo) : Option DrvInfo :=
  availElems.foldl (opts.considerElem i) none

/-- One round of the loop over the installed packages. -/
def upgradeElem (availElems : List DrvInfo) (i : DrvInfo) : DrvInfo :=
  if keep i then i
  else
    match opts.bestElem availElems i with
    | some best => if i.outPath ≠ best.outPath then best else i
    | none => i

/-- Model of `upgradeDerivations`: the new packages. -/
def upgradeDerivations (availElems installedElems : List DrvInfo) : List DrvInfo :=
  installedElems.map (opts.upgradeElem availElems)

/-! ### The candidates -/

/-- The available packages that can replace an installed one. -/
def candidates (availElems : List DrvInfo) (i : DrvInfo) : List DrvInfo :=
  availElems.filter fun j => decide (j.package = i.package) &&
    opts.upgradeType.admits (compareElems i j) && (!opts.prebuiltOnly || opts.isPrebuilt j)

variable {opts}

/-- The candidates: the same package, and a version that the kind of upgrade admits. -/
theorem mem_candidates {availElems : List DrvInfo} {i j : DrvInfo} :
    j ∈ opts.candidates availElems i ↔ j ∈ availElems ∧ j.package = i.package ∧
      opts.upgradeType.admits (compareElems i j) = true ∧
      (!opts.prebuiltOnly || opts.isPrebuilt j) = true := by
  simp [candidates, and_assoc]

/-- The loop keeps the better of two candidates. -/
theorem bestElem_eq (availElems : List DrvInfo) (i : DrvInfo) :
    opts.bestElem availElems i = (opts.candidates availElems i).foldl
      (keepBetter fun j best => decide (compareElems best j < 0)) none := by
  rw [bestElem, candidates, List.foldl_filter]
  congr 1
  funext best j
  unfold considerElem keepBetter
  cases best with
  | none => by_cases h : j.package = i.package <;> simp [h, ← ite_and]
  | some best =>
    by_cases h : j.package = i.package
    · by_cases hadmits : opts.upgradeType.admits (compareElems i j) = true
      · by_cases hpre : (!opts.prebuiltOnly || opts.isPrebuilt j) = true <;> simp [h, hadmits, hpre]
      · simp [h, hadmits]
    · simp [h]

/-- The priorities of packages with one name fit. -/
def AllFit (elems : List DrvInfo) : Prop :=
  ∀ a ∈ elems, ∀ b ∈ elems, a.package = b.package → PrioritiesFit a b

instance (elems : List DrvInfo) : Decidable (AllFit elems) :=
  inferInstanceAs (Decidable (∀ a ∈ elems, _))

section

variable {availElems : List DrvInfo}

/-- The best package is the first best one among the candidates. -/
theorem bestElem_eq_some_iff (hfit : AllFit availElems) {i b : DrvInfo} :
    opts.bestElem availElems i = some b ↔
      IsFirstMax elemRank (opts.candidates availElems i) b := by
  rw [bestElem_eq]
  refine foldl_keepBetter_eq_some_iff fun j hj k hk => ?_
  obtain ⟨hj, hjname, -⟩ := mem_candidates.mp hj
  obtain ⟨hk, hkname, -⟩ := mem_candidates.mp hk
  rw [decide_eq_true_eq, compareElems_neg_iff (hfit k hk j hj (hkname.trans hjname.symm))]

/-- There is no best element only where there are no candidates. -/
theorem bestElem_eq_none_iff (hfit : AllFit availElems) {i : DrvInfo} :
    opts.bestElem availElems i = none ↔ opts.candidates availElems i = [] := by
  rw [bestElem_eq]
  refine @foldl_keepBetter_eq_none_iff _ _ _ elemRank _ _ fun j hj k hk => ?_
  obtain ⟨hj, hjname, -⟩ := mem_candidates.mp hj
  obtain ⟨hk, hkname, -⟩ := mem_candidates.mp hk
  rw [decide_eq_true_eq, compareElems_neg_iff (hfit k hk j hj (hkname.trans hjname.symm))]

/-- What is admitted for a package that is admitted is admitted. -/
theorem admits_trans {type : UpgradeType} {i b j : DrvInfo} (hib : PrioritiesFit i b)
    (hbj : PrioritiesFit b j) (hij : PrioritiesFit i j)
    (h : type.admits (compareElems i b) = true) (h' : type.admits (compareElems b j) = true) :
    type.admits (compareElems i j) = true := by
  cases type with
  | utLt =>
    simp only [UpgradeType.admits, decide_eq_true_eq, compareElems_neg_iff, hib, hbj, hij] at h h' ⊢
    exact h.trans h'
  | utLeq =>
    simp only [UpgradeType.admits, decide_eq_true_eq, ← not_lt, compareElems_pos_iff, hib, hbj,
      hij] at h h' ⊢
    exact fun hlt => h' (hlt.trans_le (not_lt.mp h))
  | utEq =>
    simp only [UpgradeType.admits, decide_eq_true_eq, compareElems_eq_zero_iff, hib, hbj,
      hij] at h h' ⊢
    exact h.trans h'
  | utAlways => rfl

/-- The candidates for the best package are candidates for the installed one. -/
theorem candidates_bestElem {i b : DrvInfo} (hfit : AllFit (i :: availElems))
    (hb : b ∈ opts.candidates availElems i) : opts.candidates availElems b =
      (opts.candidates availElems i).filter fun j => opts.upgradeType.admits (compareElems b j) := by
  obtain ⟨hbmem, hbname, hbadmits, -⟩ := mem_candidates.mp hb
  rw [candidates, candidates, List.filter_filter]
  refine List.filter_congr fun j hj => ?_
  rw [hbname]
  by_cases hjname : j.package = i.package
  · have hib := hfit i List.mem_cons_self b (List.mem_cons_of_mem i hbmem) hbname.symm
    have hbj := hfit b (List.mem_cons_of_mem i hbmem) j (List.mem_cons_of_mem i hj)
      (hbname.trans hjname.symm)
    have hij := hfit i List.mem_cons_self j (List.mem_cons_of_mem i hj) hjname.symm
    cases hadmits : opts.upgradeType.admits (compareElems b j) with
    | false => simp
    | true => simp [admits_trans hib hbj hij hbadmits hadmits]
  · simp [hjname]

/-- A second pass finds no other package than the first one found. -/
theorem bestElem_bestElem {i b : DrvInfo} (hfit : AllFit (i :: availElems))
    (hb : opts.bestElem availElems i = some b) :
    opts.bestElem availElems b = none ∨ opts.bestElem availElems b = some b := by
  have hfit' : AllFit availElems := fun x hx y hy =>
    hfit x (List.mem_cons_of_mem i hx) y (List.mem_cons_of_mem i hy)
  have hmax := (bestElem_eq_some_iff hfit').mp hb
  have hbb : PrioritiesFit b b := by
    unfold PrioritiesFit
    omega
  have hself := (compareElems_eq_zero_iff hbb).mpr rfl
  rw [bestElem_eq_none_iff hfit', bestElem_eq_some_iff hfit', candidates_bestElem hfit hmax.mem]
  cases htype : opts.upgradeType with
  | utLt =>
    refine Or.inl (List.filter_eq_nil_iff.mpr fun j hj => ?_)
    obtain ⟨hbmem, hbname, -⟩ := mem_candidates.mp hmax.mem
    obtain ⟨hjmem, hjname, -⟩ := mem_candidates.mp hj
    rw [UpgradeType.admits, decide_eq_true_eq,
      compareElems_neg_iff (hfit' b hbmem j hjmem (hbname.trans hjname.symm))]
    exact (hmax.rank_le j hj).not_gt
  | utLeq => exact Or.inr (hmax.filter (by simp [UpgradeType.admits, hself]))
  | utEq => exact Or.inr (hmax.filter (by simp [UpgradeType.admits, hself]))
  | utAlways => exact Or.inr (hmax.filter rfl)

/-- An element stays, or becomes the best one. -/
theorem upgradeElem_eq_self_or (availElems : List DrvInfo) (i : DrvInfo) :
    opts.upgradeElem availElems i = i ∨
      opts.bestElem availElems i = some (opts.upgradeElem availElems i) := by
  unfold upgradeElem
  split_ifs with hkeep
  · exact Or.inl rfl
  · cases hb : opts.bestElem availElems i with
    | none => exact Or.inl rfl
    | some b =>
      dsimp only
      split_ifs
      · exact Or.inr rfl
      · exact Or.inl rfl

/-- An upgraded element is not upgraded again. -/
theorem upgradeElem_upgradeElem {i : DrvInfo} (hfit : AllFit (i :: availElems)) :
    opts.upgradeElem availElems (opts.upgradeElem availElems i) = opts.upgradeElem availElems i := by
  rcases upgradeElem_eq_self_or availElems i with h | h
  · rw [h, h]
  · generalize opts.upgradeElem availElems i = b at h
    unfold upgradeElem
    rcases bestElem_bestElem hfit h with hb | hb
    · simp [hb]
    · simp [hb]

end

end UpgradeOptions

/-- A greater priority number, or the same one and a lower version. -/
def IsWorse (a b : DrvInfo) : Prop :=
  (getPriority b).toInt < (getPriority a).toInt ∨
    (getPriority a).toInt = (getPriority b).toInt ∧ compareVersions a.version b.version < 0

instance (a b : DrvInfo) : Decidable (IsWorse a b) := inferInstanceAs (Decidable (_ ∨ _))

/-- An element is worse when its rank is lower. -/
theorem isWorse_iff {a b : DrvInfo} : IsWorse a b ↔ elemRank a < elemRank b := by
  rw [IsWorse, elemRank_lt_iff, compareVersions_neg_iff]

/-- Upgrading with the same available packages changes nothing the second time, and with `--lt` and
`--leq` no package is replaced by a worse one. -/
theorem upgradeDerivations_idempotent (opts : UpgradeOptions) (availElems installedElems : List DrvInfo)
    (hfit : UpgradeOptions.AllFit (installedElems ++ availElems)) :
    opts.upgradeDerivations availElems (opts.upgradeDerivations availElems installedElems) =
        opts.upgradeDerivations availElems installedElems ∧
      (opts.upgradeType = .utLt ∨ opts.upgradeType = .utLeq →
        ∀ i ∈ installedElems, ¬IsWorse (opts.upgradeElem availElems i) i) := by
  have hfit' : ∀ i ∈ installedElems, UpgradeOptions.AllFit (i :: availElems) := by
    intro i hi a ha b hb
    refine hfit a ?_ b ?_
    · rcases List.mem_cons.mp ha with rfl | ha <;> simp [*]
    · rcases List.mem_cons.mp hb with rfl | hb <;> simp [*]
  refine ⟨?_, fun htype i hi => ?_⟩
  · unfold UpgradeOptions.upgradeDerivations
    rw [List.map_map]
    exact List.map_congr_left fun i hi => UpgradeOptions.upgradeElem_upgradeElem (hfit' i hi)
  · rw [isWorse_iff, not_lt]
    rcases @UpgradeOptions.upgradeElem_eq_self_or opts availElems i with h | h
    · rw [h]
    · have hmax := (UpgradeOptions.bestElem_eq_some_iff fun a ha b hb =>
        hfit' i hi a (List.mem_cons_of_mem i ha) b (List.mem_cons_of_mem i hb)).mp h
      obtain ⟨hmem, hname, hadmits, -⟩ := UpgradeOptions.mem_candidates.mp hmax.mem
      have hib := hfit' i hi i List.mem_cons_self _ (List.mem_cons_of_mem i hmem) hname.symm
      rcases htype with htype | htype
      · rw [htype, UpgradeType.admits, decide_eq_true_eq, compareElems_neg_iff hib] at hadmits
        exact hadmits.le
      · rw [htype, UpgradeType.admits, decide_eq_true_eq, ← not_lt, compareElems_pos_iff hib] at hadmits
        exact not_lt.mp hadmits

/-- A package is replaced by one of the same priority and a higher version, and then stays. -/
theorem upgradeDerivations_idempotent_sample :
    let opts : UpgradeOptions := ⟨.utLt, false, fun _ => false, fun _ => false⟩
    let availElems := [prioritised "foo-1.1" 5, prioritised "foo-1.2" 5, prioritised "foo-2.0" 7]
    let installedElems := [prioritised "foo-1.0" 5]
    opts.upgradeDerivations availElems installedElems = [prioritised "foo-1.2" 5] ∧
      opts.upgradeDerivations availElems (opts.upgradeDerivations availElems installedElems) =
        opts.upgradeDerivations availElems installedElems ∧
      (opts.upgradeType = .utLt ∨ opts.upgradeType = .utLeq →
        ∀ i ∈ installedElems, ¬IsWorse (opts.upgradeElem availElems i) i) :=
  ⟨by decide, upgradeDerivations_idempotent _ _ _ (by decide)⟩

end Nix
