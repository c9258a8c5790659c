import NixStore.Expr.Names

/-!
# The order of versions

`componentsLT` compares ranks: `pre` is below everything, then come the components that are compared
as strings, the empty one among them, and then the numbers that fit into an `int`.  A version is the
sequence of its components, with empty ones behind them, and `compareVersions` compares the ranks
lexicographically; so it is a total preorder (`compareVersions_preorder`).  Digits that do not fit into
an `int` are compared as strings, which is where numbers are not compared as numbers
(`compareVersions_numeric`).
-/

namespace Nix

/-! ### Components -/

/-- `pre`, strings, and numbers, in this order. -/
abbrev ComponentRank := WithBot (Lex (Str ⊕ ℤ))

/-- The rank of a component. -/
def componentRank (c : Str) : ComponentRank :=
  if c = str "pre" then ⊥
  else
    match string2Int c with
    | some n => ((Sum.inrₗ n : Lex (Str ⊕ ℤ)) : ComponentRank)
    | none => ((Sum.inlₗ c : Lex (Str ⊕ ℤ)) : ComponentRank)

/-- Components are compared by rank. -/
theorem componentsLT_iff {c1 c2 : Str} :
    componentsLT c1 c2 = true ↔ componentRank c1 < componentRank c2 := by
  have hpre : string2Int (str "pre") = none := by decide
  have hnil : string2Int [] = none := by decide
  have hne : ([] : Str) ≠ str "pre" := by decide
  unfold componentsLT componentRank
  by_cases h1 : c1 = str "pre"
  · subst h1
    by_cases h2 : c2 = str "pre"
    · subst h2
      simp [hpre, hne.symm]
    · cases h : string2Int c2 <;> simp [hpre, h2, hne.symm]
  · by_cases h2 : c2 = str "pre"
    · subst h2
      cases h : string2Int c1 <;> simp [hpre, h1]
    · cases hn1 : string2Int c1 with
      | some n1 => cases hn2 : string2Int c2 <;> simp [h1, h2]
      | none => cases hn2 : string2Int c2 <;> simp [h1, h2]

/-! ### Versions -/

/-- The component of a version at a position, which is empty behind the last one. -/
def componentAt : Str → ℕ → Str
  | v, 0 => (nextComponent v).1
  | v, i + 1 => componentAt (nextComponent v).2 i

/-- The ranks of the components, to be compared lexicographically. -/
def versionRank (v : Str) : Lex (ℕ → ComponentRank) :=
  toLex fun i => componentRank (componentAt v i)

/-- Versions are compared at their first different components. -/
theorem versionRank_lt_iff {v w : Str} : versionRank v < versionRank w ↔
    ∃ i, (∀ j < i, componentRank (componentAt v j) = componentRank (componentAt w j)) ∧
      componentRank (componentAt v i) < componentRank (componentAt w i) := Iff.rfl

/-- The first component decides. -/
theorem versionRank_lt_of_head {v w : Str}
    (h : componentRank (nextComponent v).1 < componentRank (nextComponent w).1) :
    versionRank v < versionRank w :=
  versionRank_lt_iff.mpr ⟨0, fun j hj => absurd hj (Nat.not_lt_zero j), h⟩

/-- When the first components are the same, the other ones decide. -/
theorem versionRank_lt_of_tail {v w : Str}
    (h : componentRank (nextComponent v).1 = componentRank (nextComponent w).1)
    (htail : versionRank (nextComponent v).2 < versionRank (nextComponent w).2) :
    versionRank v < versionRank w := by
  obtain ⟨i, heq, hlt⟩ := versionRank_lt_iff.mp htail
  refine versionRank_lt_iff.mpr ⟨i + 1, fun j hj => ?_, hlt⟩
  cases j with
  | zero => exact h
  | succ j => exact heq j (Nat.lt_of_succ_lt_succ hj)

/-- Versions with equal components in front and behind have equal ranks. -/
theorem versionRank_eq_of_tail {v w : Str}
    (h : componentRank (nextComponent v).1 = componentRank (nextComponent w).1)
    (htail : versionRank (nextComponent v).2 = versionRank (nextComponent w).2) :
    versionRank v = versionRank w := by
  funext i
  cases i with
  | zero => exact h
  | succ i => exact congrFun htail i

/-- The comparison of versions is the comparison of their ranks. -/
theorem compareVersionsLoop_spec (n : ℕ) : ∀ {p1 p2 : Str}, p1.length + p2.length ≤ n →
    (compareVersionsLoop n p1 p2 = -1 ∧ versionRank p1 < versionRank p2) ∨
    (compareVersionsLoop n p1 p2 = 0 ∧ versionRank p1 = versionRank p2) ∨
    (compareVersionsLoop n p1 p2 = 1 ∧ versionRank p2 < versionRank p1) := by
  induction n with
  | zero =>
    intro p1 p2 h
    obtain rfl : p1 = [] := List.length_eq_zero_iff.mp (by omega)
    obtain rfl : p2 = [] := List.length_eq_zero_iff.mp (by omega)
    exact Or.inr (Or.inl ⟨rfl, rfl⟩)
  | succ n ih =>
    intro p1 p2 h
    rw [compareVersionsLoop]
    by_cases hend : p1 = [] ∧ p2 = []
    · obtain ⟨rfl, rfl⟩ := hend
      exact Or.inr (Or.inl ⟨rfl, rfl⟩)
    · rw [if_neg hend]
      have hless : (nextComponent p1).2.length + (nextComponent p2).2.length ≤ n := by
        have h1 := length_nextComponent_le p1
        have h2 := length_nextComponent_le p2
        by_cases hp1 : p1 = []
        · have hlt := length_nextComponent_lt fun hp2 => hend ⟨hp1, hp2⟩
          omega
        · have hlt := length_nextComponent_lt hp1
          omega
      dsimp only
      by_cases hlt : componentsLT (nextComponent p1).1 (nextComponent p2).1 = true
      · rw [if_pos hlt]
        exact Or.inl ⟨rfl, versionRank_lt_of_head (componentsLT_iff.mp hlt)⟩
      · rw [if_neg hlt]
        by_cases hgt : componentsLT (nextComponent p2).1 (nextComponent p1).1 = true
        · rw [if_pos hgt]
          exact Or.inr (Or.inr ⟨rfl, versionRank_lt_of_head (componentsLT_iff.mp hgt)⟩)
        · rw [if_neg hgt]
          rw [componentsLT_iff] at hlt hgt
          have heq := le_antisymm (not_lt.mp hgt) (not_lt.mp hlt)
          rcases ih hless with ⟨hres, hrank⟩ | ⟨hres, hrank⟩ | ⟨hres, hrank⟩
          · exact Or.inl ⟨hres, versionRank_lt_of_tail heq hrank⟩
          · exact Or.inr (Or.inl ⟨hres, versionRank_eq_of_tail heq hrank⟩)
          · exact Or.inr (Or.inr ⟨hres, versionRank_lt_of_tail heq.symm hrank⟩)

/-- What `compareVersions` returns, by rank. -/
theorem compareVersions_spec (v1 v2 : Str) :
    (compareVersions v1 v2 = -1 ∧ versionRank v1 < versionRank v2) ∨
    (compareVersions v1 v2 = 0 ∧ versionRank v1 = versionRank v2) ∨
    (compareVersions v1 v2 = 1 ∧ versionRank v2 < versionRank v1) :=
  compareVersionsLoop_spec _ le_rfl

/-- The first version is lower. -/
theorem compareVersions_eq_neg_one_iff {v1 v2 : Str} :
    compareVersions v1 v2 = -1 ↔ versionRank v1 < versionRank v2 := by
  rcases compareVersions_spec v1 v2 with ⟨h, hlt⟩ | ⟨h, heq⟩ | ⟨h, hgt⟩
  · exact ⟨fun _ => hlt, fun _ => h⟩
  · exact ⟨fun hneg => absurd (h.symm.trans hneg) (by decide), fun hlt => absurd heq hlt.ne⟩
  · exact ⟨fun hneg => absurd (h.symm.trans hneg) (by decide), fun hlt => absurd hlt hgt.asymm⟩

/-- The versions are equal in rank. -/
theorem compareVersions_eq_zero_iff {v1 v2 : Str} :
    compareVersions v1 v2 = 0 ↔ versionRank v1 = versionRank v2 := by
  rcases compareVersions_spec v1 v2 with ⟨h, hlt⟩ | ⟨h, heq⟩ | ⟨h, hgt⟩
  · exact ⟨fun hzero => absurd (h.symm.trans hzero) (by decide), fun heq => absurd heq hlt.ne⟩
  · exact ⟨fun _ => heq, fun _ => h⟩
  · exact ⟨fun hzero => absurd (h.symm.trans hzero) (by decide), fun heq => absurd heq hgt.ne'⟩

/-- The first version is not higher. -/
theorem compareVersions_le_zero_iff {v1 v2 : Str} :
    compareVersions v1 v2 ≤ 0 ↔ versionRank v1 ≤ versionRank v2 := by
  rcases compareVersions_spec v1 v2 with ⟨h, hlt⟩ | ⟨h, heq⟩ | ⟨h, hgt⟩
  · exact ⟨fun _ => hlt.le, fun _ => h.trans_le (by decide)⟩
  · exact ⟨fun _ => heq.le, fun _ => h.le⟩
  · exact ⟨fun hle => absurd (h.symm.trans_le hle) (by decide), fun hle => absurd hgt hle.not_gt⟩

/-- Exchanging the versions changes the sign. -/
theorem compareVersions_neg (v1 v2 : Str) : compareVersions v1 v2 = -compareVersions v2 v1 := by
  rcases compareVersions_spec v1 v2 with ⟨h, hlt⟩ | ⟨h, heq⟩ | ⟨h, hgt⟩
  · rcases compareVersions_spec v2 v1 with ⟨h', hlt'⟩ | ⟨-, heq'⟩ | ⟨h', -⟩
    · exact absurd hlt' hlt.asymm
    · exact absurd heq' hlt.ne'
    · rw [h, h']
  · rw [h, compareVersions_eq_zero_iff.mpr heq.symm, neg_zero]
  · rw [h, compareVersions_eq_neg_one_iff.mpr hgt, neg_neg]

/-- The result is negative for a lower version. -/
theorem compareVersions_neg_iff {v w : Str} :
    compareVersions v w < 0 ↔ versionRank v < versionRank w := by
  rw [← compareVersions_eq_neg_one_iff]
  rcases compareVersions_spec v w with ⟨h, -⟩ | ⟨h, -⟩ | ⟨h, -⟩ <;> omega

/-- The result is positive for a higher version. -/
theorem compareVersions_pos_iff {v w : Str} :
    0 < compareVersions v w ↔ versionRank w < versionRank v := by
  rw [← compareVersions_neg_iff, compareVersions_neg v w]
  omega

/-- Versions are totally preordered, and a chain of comparisons is strict if one of them is. -/
theorem compareVersions_preorder (a b c : Str) :
    compareVersions a b = -compareVersions b a ∧ compareVersions a a = 0 ∧
      (compareVersions a b ≤ 0 → compareVersions b c ≤ 0 → compareVersions a c ≤ 0 ∧
        (compareVersions a c = 0 → compareVersions a b = 0 ∧ compareVersions b c = 0)) := by
  refine ⟨compareVersions_neg a b, compareVersions_eq_zero_iff.mpr rfl, fun hab hbc => ?_⟩
  rw [compareVersions_le_zero_iff] at hab hbc
  refine ⟨compareVersions_le_zero_iff.mpr (hab.trans hbc), fun hac => ?_⟩
  rw [compareVersions_eq_zero_iff] at hac
  rw [compareVersions_eq_zero_iff, compareVersions_eq_zero_iff]
  exact ⟨le_antisymm hab (hac ▸ hbc), le_antisymm hbc (hac ▸ hab)⟩

/-! ### Numbers -/

/-- A component of digits. -/
def IsNumber (c : Str) : Prop := c ≠ [] ∧ c.all isDigit = true

instance (c : Str) : Decidable (IsNumber c) := inferInstanceAs (Decidable (_ ∧ _))

/-- A component of letters. -/
def IsWord (c : Str) : Prop := c ≠ [] ∧ c.all isAlpha = true

instance (c : Str) : Decidable (IsWord c) := inferInstanceAs (Decidable (_ ∧ _))

/-- A letter is no digit. -/
theorem not_isDigit_of_isAlpha {c : UInt8} (h : isAlpha c = true) : isDigit c = false := by
  simp only [isAlpha, isDigit, Bool.or_eq_true, Bool.and_eq_true, decide_eq_true_eq,
    UInt8.le_iff_toNat_le, Bool.and_eq_false_iff, decide_eq_false_iff_not] at h ⊢
  have h97 : ('a'.toUInt8).toNat = 97 := rfl
  have h65 : ('A'.toUInt8).toNat = 65 := rfl
  have h57 : (57 : UInt8).toNat = 57 := rfl
  omega

/-- Letters are not read as a number. -/
theorem string2Int_word {c : Str} (h : c.all isAlpha = true) : string2Int c = none := by
  cases hn : string2Int c with
  | none => rfl
  | some n =>
    obtain ⟨b, hb, hdigit⟩ := exists_digit_of_string2Int hn
    rw [not_isDigit_of_isAlpha (List.all_eq_true.mp h b hb)] at hdigit
    cases hdigit

/-- A number is not `pre`. -/
theorem IsNumber.ne_pre {d : Str} (h : IsNumber d) : d ≠ str "pre" := by
  rintro rfl
  exact absurd h.2 (by decide)

/-- A number that does not fit into an `int` is a string. -/
theorem componentRank_number {d : Str} (h : IsNumber d) : componentRank d =
    if digitsValue d < 2 ^ 31 then ((Sum.inrₗ (digitsValue d : ℤ) : Lex (Str ⊕ ℤ)) : ComponentRank)
    else ((Sum.inlₗ d : Lex (Str ⊕ ℤ)) : ComponentRank) := by
  rw [componentRank, if_neg h.ne_pre, string2Int_digits h.1 h.2]
  split_ifs
  · rfl
  · rfl

/-- Behind the same components, the first ones that differ decide. -/
theorem versionRank_lt_iff_component {v w : Str} {i : ℕ}
    (hcommon : ∀ j < i, componentAt v j = componentAt w j)
    (hne : componentRank (componentAt v i) ≠ componentRank (componentAt w i)) :
    versionRank v < versionRank w ↔
      componentRank (componentAt v i) < componentRank (componentAt w i) := by
  have hranks : ∀ j < i, componentRank (componentAt v j) = componentRank (componentAt w j) :=
    fun j hj => by rw [hcommon j hj]
  constructor
  · intro h
    by_contra hlt
    have hgt : versionRank w < versionRank v :=
      versionRank_lt_iff.mpr ⟨i, fun j hj => (hranks j hj).symm,
        lt_of_le_of_ne (not_lt.mp hlt) hne.symm⟩
    exact h.asymm hgt
  · exact fun h => versionRank_lt_iff.mpr ⟨i, hranks, h⟩

/-- Of two numbers the lower one has the lower rank exactly when the higher one is below `2 ^ 31`,
or when both are not and their texts are in this order. -/
theorem componentRank_lt_iff_of_numbers {d1 d2 : Str} (h1 : IsNumber d1) (h2 : IsNumber d2)
    (hlt : digitsValue d1 < digitsValue d2) :
    componentRank d1 ≠ componentRank d2 ∧ (componentRank d1 < componentRank d2 ↔
      digitsValue d2 < 2 ^ 31 ∨ 2 ^ 31 ≤ digitsValue d1 ∧ d1 < d2) := by
  have hne : d1 ≠ d2 := fun heq => hlt.ne (by rw [heq])
  rw [componentRank_number h1, componentRank_number h2]
  by_cases hfits2 : digitsValue d2 < 2 ^ 31
  · have hfits1 := hlt.trans hfits2
    rw [if_pos hfits1, if_pos hfits2]
    exact ⟨by simp [hlt.ne], iff_of_true (by simp [hlt]) (Or.inl hfits2)⟩
  · by_cases hfits1 : digitsValue d1 < 2 ^ 31
    · rw [if_pos hfits1, if_neg hfits2]
      refine ⟨by simp, iff_of_false (by simp) ?_⟩
      rintro (h | ⟨h, -⟩)
      · exact hfits2 h
      · exact hfits1.not_ge h
    · rw [if_neg hfits1, if_neg hfits2]
      have hranks : ((Sum.inlₗ d1 : Lex (Str ⊕ ℤ)) : ComponentRank) <
          ((Sum.inlₗ d2 : Lex (Str ⊕ ℤ)) : ComponentRank) ↔ d1 < d2 := by simp
      rw [hranks]
      exact ⟨by simp [hne], fun h => Or.inr ⟨not_lt.mp hfits1, h⟩,
        fun h => h.elim (fun h => absurd h hfits2) And.right⟩

/-- A number is above the strings exactly if it fits into an `int`. -/
theorem componentsLT_number_iff {d : Str} (h : IsNumber d) :
    (componentsLT [] d = true ∧ ∀ c, IsWord c → componentsLT c d = true) ↔
      digitsValue d < 2 ^ 31 := by
  have hnil : componentRank [] = ((Sum.inlₗ [] : Lex (Str ⊕ ℤ)) : ComponentRank) := by decide
  have ha : componentRank (str "a") = ((Sum.inlₗ (str "a") : Lex (Str ⊕ ℤ)) : ComponentRank) := by
    decide
  constructor
  · rintro ⟨-, hwords⟩
    by_contra hfits
    have hlt := componentsLT_iff.mp (hwords (str "a") (by decide))
    rw [componentRank_number h, if_neg hfits, ha] at hlt
    have hstr : str "a" < d := by simpa using hlt
    obtain ⟨c, s, rfl⟩ := List.exists_cons_of_ne_nil h.1
    have hc : isDigit c = true := List.all_eq_true.mp h.2 c List.mem_cons_self
    simp only [isDigit, Bool.and_eq_true, decide_eq_true_eq, UInt8.le_iff_toNat_le] at hc
    have h57 : (57 : UInt8).toNat = 57 := rfl
    have h97 : ('a'.toUInt8).toNat = 97 := rfl
    rcases List.cons_lt_cons_iff.mp (show 'a'.toUInt8 :: [] < c :: s from hstr) with hlt | ⟨rfl, -⟩
    · rw [UInt8.lt_iff_toNat_lt] at hlt
      omega
    · omega
  · intro hfits
    simp only [componentsLT_iff, componentRank_number h, if_pos hfits]
    refine ⟨by simp [hnil], fun c hc => ?_⟩
    rw [componentRank, string2Int_word hc.2]
    split_ifs
    · exact WithBot.bot_lt_coe _
    · simp

/-- Numbers are compared as numbers, behind the same components, exactly if the greater one fits into
an `int`, or neither does and the strings are in this order; and a number is above what is not a
number exactly if it fits. -/
theorem compareVersions_numeric (v1 v2 : Str) (i : ℕ) (d : Str) :
    ((∀ j < i, componentAt v1 j = componentAt v2 j) →
      IsNumber (componentAt v1 i) → IsNumber (componentAt v2 i) →
      digitsValue (componentAt v1 i) < digitsValue (componentAt v2 i) →
      (compareVersions v1 v2 = -1 ↔ digitsValue (componentAt v2 i) < 2 ^ 31 ∨
        2 ^ 31 ≤ digitsValue (componentAt v1 i) ∧ componentAt v1 i < componentAt v2 i)) ∧
    (IsNumber d →
      ((componentsLT [] d = true ∧ ∀ c, IsWord c → componentsLT c d = true) ↔
        digitsValue d < 2 ^ 31)) := by
  refine ⟨fun hcommon h1 h2 hlt => ?_, componentsLT_number_iff⟩
  obtain ⟨hne, hranks⟩ := componentRank_lt_iff_of_numbers h1 h2 hlt
  rw [compareVersions_eq_neg_one_iff, versionRank_lt_iff_component hcommon hne, hranks]

/-- A time stamp is below a small number. -/
theorem compareVersions_timestamp :
    (∀ j < 1, componentAt (str "1.9") j = componentAt (str "1.20140101120000") j) ∧
      IsNumber (componentAt (str "1.9") 1) ∧ IsNumber (componentAt (str "1.20140101120000") 1) ∧
      digitsValue (componentAt (str "1.9") 1) <
        digitsValue (componentAt (str "1.20140101120000") 1) ∧
      compareVersions (str "1.9") (str "1.20140101120000") = 1 ∧
      componentsLT (str "a") (str "20140101120000") = false := by
  refine ⟨by decide, by decide, by decide, by decide, by decide, by decide⟩

end Nix
