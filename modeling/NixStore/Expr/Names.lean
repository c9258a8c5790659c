import NixStore.Lib.Decimal

/-!
# Derivation names and versions

Model of `names.cc`: the name and the version part of a derivation name, and the comparison of
versions, component by component.
-/

namespace Nix

/-- The letters that `isalpha` accepts. -/
def isAlpha (c : UInt8) : Bool :=
  ('a'.toUInt8 ≤ c && c ≤ 'z'.toUInt8) || ('A'.toUInt8 ≤ c && c ≤ 'Z'.toUInt8)

/-- Model of `DrvName`. -/
structure DrvName where
  fullName : Str
  name : Str
  version : Str
deriving DecidableEq

/-- The loop of the constructor: the part in front of the first dash that is followed by something
that is not a letter, and the part behind it. -/
def splitDrvName : Str → Str × Str
  | [] => ([], [])
  | c :: s =>
    if c = '-'.toUInt8 ∧ s ≠ [] ∧ s.head?.any isAlpha = false then ([], s)
    else ((c :: (splitDrvName s).1), (splitDrvName s).2)

/-- Model of the constructor `DrvName(s)`. -/
def parseDrvName (s : Str) : DrvName := ⟨s, (splitDrvName s).1, (splitDrvName s).2⟩

/-- Model of `DrvName::matches`. -/
def DrvName.isMatch (n n' : DrvName) : Bool :=
  (decide (n.name = str "*") || decide (n.name = n'.name)) &&
    (decide (n.version = []) || decide (n.version = n'.version))

/-- The separators of components. -/
def isSeparator (c : UInt8) : Bool := c = '.'.toUInt8 || c = '-'.toUInt8

/-- The characters of a component that does not begin with a digit. -/
def isWordChar (c : UInt8) : Bool := !isDigit c && !isSeparator c

/-- Model of `nextComponent`: the component and what is left. -/
def nextComponent (p : Str) : Str × Str :=
  match p.dropWhile isSeparator with
  | [] => ([], [])
  | c :: s =>
    if isDigit c then ((c :: s).takeWhile isDigit, (c :: s).dropWhile isDigit)
    else ((c :: s).takeWhile isWordChar, (c :: s).dropWhile isWordChar)

/-- Model of `componentsLT`. -/
def componentsLT (c1 c2 : Str) : Bool :=
  match string2Int c1, string2Int c2 with
  | some n1, some n2 => decide (n1 < n2)
  | c1Num, c2Num =>
    if c1 = [] ∧ c2Num.isSome then true
    else if c1 = str "pre" ∧ c2 ≠ str "pre" then true
    else if c2 = str "pre" then false
    -- assume that `2.3a` < `2.3.1`
    else if c2Num.isSome then true
    else if c1Num.isSome then false
    else decide (c1 < c2)

/-- The loop of `compareVersions`; every round takes a character off at least one string. -/
def compareVersionsLoop : ℕ → Str → Str → ℤ
  | 0, _, _ => 0
  | n + 1, p1, p2 =>
    if p1 = [] ∧ p2 = [] then 0
    else
      let (c1, p1) := nextComponent p1
      let (c2, p2) := nextComponent p2
      if componentsLT c1 c2 then -1
      else if componentsLT c2 c1 then 1
      else compareVersionsLoop n p1 p2

/-- Model of `compareVersions`. -/
def compareVersions (v1 v2 : Str) : ℤ := compareVersionsLoop (v1.length + v2.length) v1 v2

/-! ### Components -/

/-- Behind the separators there is none. -/
theorem isSeparator_of_dropWhile {p s : Str} {c : UInt8} (h : p.dropWhile isSeparator = c :: s) :
    isSeparator c = false := by
  induction p with
  | nil => cases h
  | cons b p ih =>
    rw [List.dropWhile_cons] at h
    split_ifs at h with hb
    · exact ih h
    · cases h
      simpa using hb

/-- What is left of a version is not longer. -/
theorem length_nextComponent_le (p : Str) : (nextComponent p).2.length ≤ p.length := by
  have hle : (p.dropWhile isSeparator).length ≤ p.length := List.length_dropWhile_le _ _
  rw [nextComponent]
  split
  next => exact Nat.zero_le _
  next c s hs =>
    rw [hs] at hle
    split_ifs
    · exact (List.length_dropWhile_le _ _).trans hle
    · exact (List.length_dropWhile_le _ _).trans hle

/-- Something is taken off a string that is not empty. -/
theorem length_nextComponent_lt {p : Str} (hp : p ≠ []) :
    (nextComponent p).2.length < p.length := by
  have hle : (p.dropWhile isSeparator).length ≤ p.length := List.length_dropWhile_le _ _
  rw [nextComponent]
  split
  next => exact List.length_pos_iff.mpr hp
  next c s hs =>
    rw [hs, List.length_cons] at hle
    split_ifs with hc
    · rw [List.dropWhile_cons_of_pos hc]
      exact (List.length_dropWhile_le _ _).trans_lt hle
    · have hword : isWordChar c = true := by simp [isWordChar, hc, isSeparator_of_dropWhile hs]
      rw [List.dropWhile_cons_of_pos hword]
      exact (List.length_dropWhile_le _ _).trans_lt hle

end Nix
