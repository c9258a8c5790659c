import Mathlib

/-!
# Byte strings

A C++ `string` is a sequence of bytes with no encoding attached to it, so strings are modelled as
lists of `UInt8`.  The order of `std::map` and `std::set` keys is the lexicographic order of these
lists, which needs the linear order of `UInt8` recorded here.

The second half of the file is about strings cut at their first NUL byte, the part of a string that
a loop over `c_str()` sees.
-/

namespace Nix

/-- The order of unsigned bytes. -/
instance linearOrderUInt8 : LinearOrder UInt8 where
  le_refl _ := UInt8.le_refl _
  le_trans _ _ _ := UInt8.le_trans
  le_antisymm _ _ := UInt8.le_antisymm
  le_total := UInt8.le_total
  lt_iff_le_not_ge a b := by
    constructor
    · exact fun h => ⟨UInt8.le_of_lt h, UInt8.not_le.mpr h⟩
    · exact fun h => UInt8.not_le.mp h.2
  toDecidableLE := inferInstance
  toDecidableEq := inferInstance
  toDecidableLT := inferInstance

/-- A C++ `string`: a list of bytes. -/
abbrev Str := List UInt8

-- Decisions about members of lists refer to these by name.
instance lawfulBEqUInt8 : LawfulBEq UInt8 := inferInstance

instance lawfulBEqStr : LawfulBEq Str := inferInstance

/-- A path in the file system. -/
abbrev Path := Str

/-- The bytes of an ASCII string literal. -/
def str (s : String) : Str := s.toList.map Char.toUInt8

/-- The first byte is a slash. -/
def isAbsolute (s : Str) : Bool := decide (s.head? = some '/'.toUInt8)

namespace Str

/-- Model of `hasSuffix`: the string ends in the given suffix. -/
def hasSuffix (s suffix : Str) : Bool :=
  decide (suffix.length ≤ s.length) && decide (s.drop (s.length - suffix.length) = suffix)

/-- A suffix, as lists have it. -/
theorem hasSuffix_iff {s suffix : Str} : s.hasSuffix suffix = true ↔ suffix <:+ s := by
  simp only [hasSuffix, Bool.and_eq_true, decide_eq_true_eq]
  constructor
  · rintro ⟨-, h⟩
    exact h ▸ List.drop_suffix _ s
  · intro h
    exact ⟨h.length_le, (List.suffix_iff_eq_drop.mp h).symm⟩

/-! ### The part of a string in front of its first NUL byte -/

/-- The bytes in front of the first NUL. -/
def cut (s : Str) : Str := s.takeWhile (· ≠ 0)

/-- A string without a NUL byte. -/
def NulFree (s : Str) : Prop := (0 : UInt8) ∉ s

instance (s : Str) : Decidable s.NulFree := inferInstanceAs (Decidable (_ ∉ _))

/-- What comes before the first NUL has none. -/
theorem nulFree_cut (s : Str) : s.cut.NulFree := by
  intro h
  have := List.mem_takeWhile_imp h
  simp at this

/-- A text without NUL is not cut. -/
theorem cut_eq_self {s : Str} (h : s.NulFree) : s.cut = s := by
  refine List.takeWhile_eq_self_iff.mpr fun b hb => ?_
  simpa using fun hb0 : b = 0 => h (hb0 ▸ hb)

end Str

end Nix
