import NixStore.Lib.Bytes

/-!
# Decimal numbers

How numbers are printed in base ten, the value of digits, and how numbers are read.
-/

namespace Nix

/-- The characters that `isdigit` accepts. -/
def isDigit (c : UInt8) : Bool := 48 ≤ c && c ≤ 57

/-- The value of decimal digits. -/
def digitsValue (s : Str) : ℕ := s.foldl (fun v c => v * 10 + (c.toNat - 48)) 0

/-- The decimal digits of a number in front of `s`; the first argument is at least the number of
digits. -/
def decimalLoop : ℕ → ℕ → Str → Str
  | 0, _, s => s
  | k + 1, n, s =>
    let s := UInt8.ofNat (48 + n % 10) :: s
    if n < 10 then s else decimalLoop k (n / 10) s

/-- A number as text. -/
def decimal (n : ℕ) : Str := decimalLoop (n + 1) n []

/-- The value of one more digit. -/
theorem digitsValue_concat (s : Str) (c : UInt8) :
    digitsValue (s ++ [c]) = digitsValue s * 10 + (c.toNat - 48) := by
  simp [digitsValue]

/-- A digit and its value. -/
theorem digit_spec {d : ℕ} (h : d < 10) :
    isDigit (UInt8.ofNat (48 + d)) = true ∧ (UInt8.ofNat (48 + d)).toNat - 48 = d := by
  interval_cases d <;> decide

/-- The loop writes the digits of a number. -/
theorem decimalLoop_spec {k n : ℕ} (h : n < 10 ^ (k + 1)) (s : Str) :
    ∃ ds : Str, decimalLoop (k + 1) n s = ds ++ s ∧ ds ≠ [] ∧ ds.all isDigit = true ∧
      digitsValue ds = n := by
  induction k generalizing n s with
  | zero =>
    have hn : n < 10 := by simpa using h
    obtain ⟨hdigit, hvalue⟩ := digit_spec hn
    refine ⟨[UInt8.ofNat (48 + n)], ?_, by simp, by simpa using hdigit, by simpa [digitsValue]⟩
    rw [decimalLoop, Nat.mod_eq_of_lt hn, if_pos hn]
    rfl
  | succ k ih =>
    obtain ⟨hdigit, hvalue⟩ := digit_spec (Nat.mod_lt n (by decide : 0 < 10))
    rw [decimalLoop]
    by_cases hn : n < 10
    · rw [if_pos hn]
      refine ⟨[UInt8.ofNat (48 + n % 10)], rfl, by simp, by simpa using hdigit, ?_⟩
      simpa [digitsValue, Nat.mod_eq_of_lt hn] using hvalue
    · rw [if_neg hn]
      have hdiv : n / 10 < 10 ^ (k + 1) := by
        rw [Nat.div_lt_iff_lt_mul (by decide), ← pow_succ]
        exact h
      obtain ⟨ds, heq, -, hall, hds⟩ := ih hdiv (UInt8.ofNat (48 + n % 10) :: s)
      refine ⟨ds ++ [UInt8.ofNat (48 + n % 10)], ?_, by simp, ?_, ?_⟩
      · rw [heq, List.append_assoc, List.singleton_append]
      · rw [List.all_append, hall]
        simpa using hdigit
      · rw [digitsValue_concat, hds, hvalue]
        omega

/-- A number is written in digits that have its value. -/
theorem decimal_spec (n : ℕ) :
    decimal n ≠ [] ∧ (decimal n).all isDigit = true ∧ digitsValue (decimal n) = n := by
  obtain ⟨ds, heq, hne, hall, hvalue⟩ :=
    decimalLoop_spec (k := n) (n := n) (Nat.lt_pow_self (by decide) |>.trans_le
      (Nat.pow_le_pow_right (by decide) (Nat.le_succ n))) []
  rw [List.append_nil] at heq
  rw [decimal, heq]
  exact ⟨hne, hall, hvalue⟩

/-- Different numbers are written differently. -/
theorem decimal_injective : Function.Injective decimal := by
  intro n m h
  obtain ⟨-, -, hn⟩ := decimal_spec n
  obtain ⟨-, -, hm⟩ := decimal_spec m
  rw [← hn, h, hm]

/-- A character that is not a digit does not occur in a printed number. -/
theorem notMem_decimal {c : UInt8} (hc : isDigit c = false) (n : ℕ) : c ∉ decimal n := by
  intro hmem
  obtain ⟨-, hall, -⟩ := decimal_spec n
  rw [List.all_eq_true.mp hall c hmem] at hc
  cases hc

/-! ### Numbers that are read -/

/-- The characters that `isspace` accepts. -/
def isSpace (c : UInt8) : Bool := c = 32 || (9 ≤ c && c ≤ 13)

/-- Model of `string2Int` for an `int`: spaces, a sign and digits, up to the end. -/
def string2Int (s : Str) : Option ℤ :=
  let s := s.dropWhile isSpace
  let negative := s.head? = some '-'.toUInt8
  let digits := if negative ∨ s.head? = some '+'.toUInt8 then s.tail else s
  if digits ≠ [] ∧ digits.all isDigit then
    let n : ℤ := if negative then -digitsValue digits else digitsValue digits
    if -2 ^ 31 ≤ n ∧ n < 2 ^ 31 then some n else none
  else none

/-- Model of `string2Int` for an `unsigned long long`; a number with a minus sign is taken modulo
2^64. -/
def string2ULongLong (s : Str) : Option ℕ :=
  let s := s.dropWhile isSpace
  let negative := s.head? = some '-'.toUInt8
  let digits := if negative ∨ s.head? = some '+'.toUInt8 then s.tail else s
  if digits ≠ [] ∧ digits.all isDigit ∧ digitsValue digits < 2 ^ 64 then
    some (if negative then (2 ^ 64 - digitsValue digits) % 2 ^ 64 else digitsValue digits)
  else none

/-- What `operator >>` stores in an `int`, whether or not `string2Int` accepts the text: the number at
its beginning, 0 if there is none, and the nearest `int` if it does not fit. -/
def extractInt (s : Str) : ℤ :=
  let s := s.dropWhile isSpace
  let negative := s.head? = some '-'.toUInt8
  let digits := (if negative ∨ s.head? = some '+'.toUInt8 then s.tail else s).takeWhile isDigit
  let n : ℤ := if negative then -digitsValue digits else digitsValue digits
  max (-2 ^ 31) (min n (2 ^ 31 - 1))

/-- Digits have no spaces and no sign in front of them. -/
theorem start_of_digits {ds : Str} (hne : ds ≠ []) (hall : ds.all isDigit = true) :
    ds.dropWhile isSpace = ds ∧ ds.head? ≠ some '-'.toUInt8 ∧ ds.head? ≠ some '+'.toUInt8 := by
  obtain ⟨c, s, rfl⟩ := List.exists_cons_of_ne_nil hne
  have hc : isDigit c = true := by
    rw [List.all_cons, Bool.and_eq_true] at hall
    exact hall.1
  have hspace : isSpace c = false := by
    simp only [isDigit, isSpace, Bool.and_eq_true, decide_eq_true_eq, UInt8.le_iff_toNat_le] at hc ⊢
    simp only [Bool.or_eq_false_iff, decide_eq_false_iff_not, Bool.and_eq_false_iff, not_le,
      ← UInt8.toNat_inj]
    have h48 : (48 : UInt8).toNat = 48 := rfl
    have h32 : (32 : UInt8).toNat = 32 := rfl
    have h13 : (13 : UInt8).toNat = 13 := rfl
    omega
  have hsign : ∀ d : UInt8, d.toNat < 48 → c ≠ d := by
    rintro d hd rfl
    simp only [isDigit, Bool.and_eq_true, decide_eq_true_eq, UInt8.le_iff_toNat_le] at hc
    have h48 : (48 : UInt8).toNat = 48 := rfl
    omega
  refine ⟨?_, ?_, ?_⟩
  · rw [List.dropWhile_cons, hspace]
    rfl
  · simpa using hsign '-'.toUInt8 (by decide)
  · simpa using hsign '+'.toUInt8 (by decide)

/-- Digits are read if their value fits into an `int`. -/
theorem string2Int_digits {ds : Str} (hne : ds ≠ []) (hall : ds.all isDigit = true) :
    string2Int ds = if digitsValue ds < 2 ^ 31 then some (digitsValue ds : ℤ) else none := by
  obtain ⟨hdrop, hminus, hplus⟩ := start_of_digits hne hall
  unfold string2Int
  simp only [hdrop, hminus, hplus, or_self, if_false]
  have hrange : ((-2 ^ 31 : ℤ) ≤ digitsValue ds ∧ (digitsValue ds : ℤ) < 2 ^ 31) ↔
      digitsValue ds < 2 ^ 31 := by
    omega
  rw [if_pos ⟨hne, hall⟩]
  simp only [hrange]

/-- Digits are read when their value fits. -/
theorem string2Int_of_digits {ds : Str} (hne : ds ≠ []) (hall : ds.all isDigit = true)
    (hlt : digitsValue ds < 2 ^ 31) : string2Int ds = some (digitsValue ds : ℤ) := by
  rw [string2Int_digits hne hall, if_pos hlt]

/-- A written number is read back when it fits. -/
theorem string2Int_decimal (n : ℕ) :
    string2Int (decimal n) = if n < 2 ^ 31 then some (n : ℤ) else none := by
  obtain ⟨hne, hall, hvalue⟩ := decimal_spec n
  rw [string2Int_digits hne hall, hvalue]

/-- A number that was read fits. -/
theorem lt_of_string2Int {s : Str} {n : ℤ} (h : string2Int s = some n) : n < 2 ^ 31 := by
  have hkeep : ∀ k : ℤ, (if -2 ^ 31 ≤ k ∧ k < 2 ^ 31 then some k else none) = some n → n < 2 ^ 31 := by
    intro k hk
    split_ifs at hk with hrange
    cases hk
    exact hrange.2
  unfold string2Int at h
  exact hkeep _ (Option.ite_none_right_eq_some.mp h).2

/-- A text that is accepted ends in digits, with nothing but spaces and signs in front of them. -/
theorem spec_of_string2Int {s : Str} {n : ℤ} (h : string2Int s = some n) :
    ∃ front digits, s = front ++ digits ∧
      (∀ c ∈ front, isSpace c = true ∨ c = '-'.toUInt8 ∨ c = '+'.toUInt8) ∧
        digits ≠ [] ∧ digits.all isDigit = true := by
  have happend : s.takeWhile isSpace ++ s.dropWhile isSpace = s := List.takeWhile_append_dropWhile
  have hspaces : ∀ c ∈ s.takeWhile isSpace, isSpace c = true := fun c hc => List.mem_takeWhile_imp hc
  unfold string2Int at h
  generalize s.dropWhile isSpace = u at h happend
  have hdigits : ∀ digits : Str, (if digits ≠ [] ∧ digits.all isDigit = true then
      (let n : ℤ := if u.head? = some '-'.toUInt8 then -digitsValue digits else digitsValue digits
        if -2 ^ 31 ≤ n ∧ n < 2 ^ 31 then some n else none)
      else none) = some n → digits ≠ [] ∧ digits.all isDigit = true := by
    intro digits h
    by_contra hno
    rw [if_neg hno] at h
    cases h
  by_cases hsign : u.head? = some '-'.toUInt8 ∨ u.head? = some '+'.toUInt8
  · cases u with
    | nil => simp at hsign
    | cons c u =>
      simp only [if_pos hsign] at h
      refine ⟨s.takeWhile isSpace ++ [c], u, ?_, ?_, hdigits u h⟩
      · rw [List.append_assoc, List.singleton_append, happend]
      · intro d hd
        rcases List.mem_append.mp hd with hd | hd
        · exact Or.inl (hspaces d hd)
        · rw [List.mem_singleton.mp hd]
          simpa using Or.inr hsign
  · simp only [if_neg hsign] at h
    exact ⟨s.takeWhile isSpace, u, happend.symm, fun c hc => Or.inl (hspaces c hc), hdigits u h⟩

/-- What is read has a digit in it. -/
theorem exists_digit_of_string2Int {s : Str} {n : ℤ} (h : string2Int s = some n) :
    ∃ c ∈ s, isDigit c = true := by
  obtain ⟨front, digits, rfl, -, hne, hall⟩ := spec_of_string2Int h
  obtain ⟨c, rest, rfl⟩ := List.exists_cons_of_ne_nil hne
  exact ⟨c, List.mem_append_right _ List.mem_cons_self,
    List.all_eq_true.mp hall c List.mem_cons_self⟩

/-- A written number is read back when it fits into 64 bits. -/
theorem string2ULongLong_decimal {n : ℕ} (h : n < 2 ^ 64) : string2ULongLong (decimal n) = some n := by
  obtain ⟨hne, hall, hvalue⟩ := decimal_spec n
  obtain ⟨hdrop, hminus, hplus⟩ := start_of_digits hne hall
  unfold string2ULongLong
  simp only [hdrop, hminus, hplus, or_self, if_false]
  rw [if_pos ⟨hne, hall, hvalue.symm ▸ h⟩, hvalue]

end Nix
