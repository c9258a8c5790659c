import NixStore.Lib.SortedMap
import NixStore.Expr.VersionOrder

/-!
# Packages and how they compare

Model of what `nix-env` looks at in a `DrvInfo` when it chooses between packages: the name, the
system, the priority and the version.  Priorities are compared by a subtraction of `int`s, which says
which one is smaller as long as the difference is an `int` (`comparePriorities_of_fit`).  Then the
comparison by priority and version is the comparison of ranks in a linear order (`compareElems_spec`).
-/

namespace Nix

/-- Model of `MetaValue`. -/
inductive MetaValue where
  | tpNone
  | tpString (stringValue : Str)
  | tpStrings (stringValues : List Str)
  | tpInt (intValue : Int32)
deriving DecidableEq

/-- Model of `DrvInfo`, with what `queryMetaInfo` and `queryOutPath` return for it. -/
structure DrvInfo where
  name : Str
  system : Str
  metaInfo : SortedMap Str MetaValue
  outPath : Path
deriving DecidableEq

namespace DrvInfo

/-- Model of `DrvInfo::queryMetaInfo` for one name. -/
def queryMetaInfo (drv : DrvInfo) (name : Str) : MetaValue :=
  (drv.metaInfo.find? name).getD .tpNone

/-- The name of the package, without the version. -/
def package (drv : DrvInfo) : Str := (parseDrvName drv.name).name

/-- The version of the package. -/
def version (drv : DrvInfo) : Str := (parseDrvName drv.name).version

end DrvInfo

/-- Model of `getPriority`. -/
def getPriority (drv : DrvInfo) : Int32 :=
  match drv.queryMetaInfo (str "priority") with
  | .tpInt n => n
  -- priorities used to be strings
  | .tpString s => Int32.ofInt (extractInt s)
  | _ => 0

/-- Model of `comparePriorities`; the difference is an `int`. -/
def comparePriorities (drv1 drv2 : DrvInfo) : ℤ := (getPriority drv2 - getPriority drv1).toInt

/-- The two steps with which `filterBySelector` and `upgradeDerivations` compare packages. -/
def compareElems (drv1 drv2 : DrvInfo) : ℤ :=
  let d := comparePriorities drv1 drv2
  if d = 0 then compareVersions drv1.version drv2.version else d

/-! ### Ranks -/

/-- The difference of the priorities is an `int`. -/
def PrioritiesFit (drv1 drv2 : DrvInfo) : Prop :=
  -2 ^ 31 ≤ (getPriority drv2).toInt - (getPriority drv1).toInt ∧
    (getPriority drv2).toInt - (getPriority drv1).toInt < 2 ^ 31

instance (drv1 drv2 : DrvInfo) : Decidable (PrioritiesFit drv1 drv2) :=
  inferInstanceAs (Decidable (_ ∧ _))

/-- A smaller number is a higher priority, and among packages of one priority a higher version is
better. -/
noncomputable def elemRank (drv : DrvInfo) : ℤ ×ₗ Lex (ℕ → ComponentRank) :=
  toLex (-(getPriority drv).toInt, versionRank drv.version)

/-- The comparison is the difference as a 32-bit integer. -/
theorem comparePriorities_eq (drv1 drv2 : DrvInfo) : comparePriorities drv1 drv2 =
    ((getPriority drv2).toInt - (getPriority drv1).toInt).bmod (2 ^ 32) :=
  Int32.toInt_sub _ _

/-- When the difference fits, it is exact. -/
theorem comparePriorities_of_fit {drv1 drv2 : DrvInfo} (h : PrioritiesFit drv1 drv2) :
    comparePriorities drv1 drv2 = (getPriority drv2).toInt - (getPriority drv1).toInt := by
  rw [comparePriorities_eq]
  obtain ⟨hle, hlt⟩ := h
  exact Int.bmod_eq_of_le (by omega) (by omega)

/-- A difference that is too great for an `int` becomes negative. -/
theorem comparePriorities_neg_of_le {drv1 drv2 : DrvInfo}
    (h : 2 ^ 31 ≤ (getPriority drv2).toInt - (getPriority drv1).toInt) :
    comparePriorities drv1 drv2 < 0 := by
  have h1 := Int32.le_toInt (getPriority drv1)
  have h2 := Int32.toInt_lt (getPriority drv2)
  rw [comparePriorities_eq, Int.bmod_def]
  omega

/-- Elements are ranked by priority, a lower number being better, and then by version. -/
theorem elemRank_lt_iff {drv1 drv2 : DrvInfo} : elemRank drv1 < elemRank drv2 ↔
    (getPriority drv2).toInt < (getPriority drv1).toInt ∨
      (getPriority drv1).toInt = (getPriority drv2).toInt ∧
        versionRank drv1.version < versionRank drv2.version := by
  rw [elemRank, elemRank, Prod.Lex.toLex_lt_toLex]
  simp only [neg_lt_neg_iff, neg_inj]

/-- The comparison of packages is the comparison of their ranks. -/
theorem compareElems_spec {drv1 drv2 : DrvInfo} (h : PrioritiesFit drv1 drv2) :
    (compareElems drv1 drv2 < 0 ∧ elemRank drv1 < elemRank drv2) ∨
    (compareElems drv1 drv2 = 0 ∧ elemRank drv1 = elemRank drv2) ∨
    (0 < compareElems drv1 drv2 ∧ elemRank drv2 < elemRank drv1) := by
  have hcompare := comparePriorities_of_fit h
  unfold compareElems
  simp only [elemRank_lt_iff]
  by_cases hzero : comparePriorities drv1 drv2 = 0
  · have heq : (getPriority drv1).toInt = (getPriority drv2).toInt := by omega
    rw [if_pos hzero]
    rcases compareVersions_spec drv1.version drv2.version with ⟨hd, hlt⟩ | ⟨hd, hv⟩ | ⟨hd, hgt⟩
    · exact Or.inl ⟨by omega, Or.inr ⟨heq, hlt⟩⟩
    · exact Or.inr (Or.inl ⟨hd, by rw [elemRank, elemRank, heq, hv]⟩)
    · exact Or.inr (Or.inr ⟨by omega, Or.inr ⟨heq.symm, hgt⟩⟩)
  · rw [if_neg hzero]
    rcases lt_or_gt_of_ne hzero with hlt | hgt
    · exact Or.inl ⟨hlt, Or.inl (by omega)⟩
    · exact Or.inr (Or.inr ⟨hgt, Or.inl (by omega)⟩)

/-- A negative result is a lower rank. -/
theorem compareElems_neg_iff {drv1 drv2 : DrvInfo} (h : PrioritiesFit drv1 drv2) :
    compareElems drv1 drv2 < 0 ↔ elemRank drv1 < elemRank drv2 := by
  rcases compareElems_spec h with ⟨hd, hlt⟩ | ⟨hd, heq⟩ | ⟨hd, hgt⟩
  · exact iff_of_true hd hlt
  · exact iff_of_false (by omega) (by rw [heq]; exact lt_irrefl _)
  · exact iff_of_false (by omega) hgt.asymm

/-- A positive result is a higher rank. -/
theorem compareElems_pos_iff {drv1 drv2 : DrvInfo} (h : PrioritiesFit drv1 drv2) :
    0 < compareElems drv1 drv2 ↔ elemRank drv2 < elemRank drv1 := by
  rcases compareElems_spec h with ⟨hd, hlt⟩ | ⟨hd, heq⟩ | ⟨hd, hgt⟩
  · exact iff_of_false (by omega) hlt.asymm
  · exact iff_of_false (by omega) (by rw [heq]; exact lt_irrefl _)
  · exact iff_of_true hd hgt

/-- Zero is the same rank. -/
theorem compareElems_eq_zero_iff {drv1 drv2 : DrvInfo} (h : PrioritiesFit drv1 drv2) :
    compareElems drv1 drv2 = 0 ↔ elemRank drv1 = elemRank drv2 := by
  rcases compareElems_spec h with ⟨hd, hlt⟩ | ⟨hd, heq⟩ | ⟨hd, hgt⟩
  · exact iff_of_false (by omega) hlt.ne
  · exact iff_of_true hd heq
  · exact iff_of_false (by omega) hgt.ne'

/-- A package of a version and a priority, with an output path of its own. -/
def prioritised (name : String) (priority : Int32) : DrvInfo where
  name := str name
  system := []
  metaInfo := (∅ : SortedMap Str MetaValue).insert (str "priority") (.tpInt priority)
  outPath := str name

end Nix
