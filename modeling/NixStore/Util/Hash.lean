import NixStore.Lib.Bytes
import NixStore.Lib.Parser

/-!
# Hashes and their printed forms

Model of `hash.cc`: hash values, their base-16 and base-32 representations, and the compression of
a hash to fewer bytes.  The hash functions themselves (MD5, SHA-1, SHA-256) do not occur here; where
they are used they are a parameter.
-/

namespace Nix

/-- Model of `HashType`. -/
inductive HashType where
  | htUnknown
  | htMD5
  | htSHA1
  | htSHA256
deriving DecidableEq

/-- The size in bytes of a hash of the given type; the constructor `Hash(type)` throws on
`htUnknown`. -/
def HashType.size? : HashType → Option ℕ
  | .htUnknown => none
  | .htMD5 => some 16
  | .htSHA1 => some 20
  | .htSHA256 => some 32

/-- Model of `Hash`: its type and the first `hashSize` bytes of its buffer. -/
structure Hash where
  type : HashType
  hash : Str
deriving DecidableEq

/-- The default constructor: an unusable hash object. -/
def Hash.unusable : Hash := ⟨.htUnknown, []⟩

/-- `Hash::maxHashSize`, the size of the buffer. -/
def maxHashSize : ℕ := 32

/-! ### Base 16 -/

/-- Model of `base16Chars`. -/
def base16Chars : Str := str "0123456789abcdef"

/-- The two digits that `printHash` writes for a byte. -/
def printByte (b : UInt8) : Str :=
  [base16Chars.getD (b >>> 4).toNat 0, base16Chars.getD (b &&& 0x0f).toNat 0]

/-- Model of `printHash`. -/
def printHash (h : Hash) : Str := h.hash.flatMap printByte

/-- The value of a hexadecimal digit of either case, if `isxdigit` holds. -/
def hexValue? (c : UInt8) : Option UInt8 :=
  if '0'.toUInt8 ≤ c ∧ c ≤ '9'.toUInt8 then some (c - '0'.toUInt8)
  else if 'a'.toUInt8 ≤ c ∧ c ≤ 'f'.toUInt8 then some (c - 'a'.toUInt8 + 10)
  else if 'A'.toUInt8 ≤ c ∧ c ≤ 'F'.toUInt8 then some (c - 'A'.toUInt8 + 10)
  else none

/-- The loop of `parseHash` over pairs of digits. -/
def parsePairs? : Str → Option Str
  | [] => some []
  | [_] => none
  | a :: b :: s => do
    let x ← hexValue? a
    let y ← hexValue? b
    let bytes ← parsePairs? s
    return (x * 16 + y) :: bytes

/-- Model of `parseHash`. -/
def parseHash (ht : HashType) (s : Str) : Outcome Str Hash :=
  match ht.size? with
  | none => .error (str "unknown hash type")
  | some size =>
    if s.length ≠ size * 2 then .error (str "invalid hash `" ++ s ++ str "'")
    else
      match parsePairs? s with
      | none => .error (str "invalid hash `" ++ s ++ str "'")
      | some bytes => .ok ⟨ht, bytes⟩

/-! ### Base 32 -/

/-- Model of `hashLength32`. -/
def hashLength32 (h : Hash) : ℕ := (h.hash.length * 8 - 1) / 5 + 1

/-- Model of `base32Chars`; `e`, `o`, `u` and `t` are left out. -/
def base32Chars : Str := str "0123456789abcdfghijklmnpqrsvwxyz"

/-- Model of `divMod`: the little-endian number is divided in place, from its most significant byte
down, and the remainder is returned.  Leading zero bytes, which the code skips, stay zero. -/
def divMod (y : ℕ) : Str → Str × ℕ
  | [] => ([], 0)
  | b :: bytes =>
    let (quot, borrow) := divMod y bytes
    let s := b.toNat + borrow * 256
    (UInt8.ofNat (s / y) :: quot, s % y)

/-- The loop of `printHash32` over the positions of the result, from the last one down: the text
and what is left of the number. -/
def printDigits32 : ℕ → Str → Str × Str
  | 0, bytes => ([], bytes)
  | pos + 1, bytes =>
    let (quot, digit) := divMod 32 bytes
    let (text, rest) := printDigits32 pos quot
    (text ++ [base32Chars.getD digit 0], rest)

/-- The buffer of a hash, which is zero behind the bytes of the hash. -/
def Hash.buffer (h : Hash) : Str := h.hash ++ List.replicate (maxHashSize - h.hash.length) 0

/-- Model of `printHash32`.  What is left of the number in the end is asserted to be zero. -/
def printHash32 (h : Hash) : Str := (printDigits32 (hashLength32 h) h.buffer).1

/-- Model of `mul`: the number times `y`, with the carry out of the most significant byte. -/
def mulBytes (y : ℕ) : ℕ → Str → Str × ℕ
  | carry, [] => ([], carry)
  | carry, b :: bytes =>
    let m := b.toNat * y + carry
    let (rest, out) := mulBytes y (m / 256) bytes
    (UInt8.ofNat m :: rest, out)

/-- Model of `add`: the number plus `carry`, which is stopped as soon as there is no carry. -/
def addBytes : ℕ → Str → Str × ℕ
  | carry, [] => ([], carry)
  | carry, b :: bytes =>
    let m := b.toNat + carry
    if m / 256 = 0 then (UInt8.ofNat m :: bytes, 0)
    else
      let (rest, out) := addBytes (m / 256) bytes
      (UInt8.ofNat m :: rest, out)

/-- The loop of `parseHash32` over the characters. -/
def parseDigits32 (s : Str) : Str → Str → Outcome Str Str
  | [], bytes => .ok bytes
  | c :: cs, bytes =>
    let digit := base32Chars.idxOf c
    if 32 ≤ digit then .error (str "invalid base-32 hash `" ++ s ++ str "'")
    else
      let (product, carry) := mulBytes 32 0 bytes
      let (sum, carry') := addBytes digit product
      if carry ≠ 0 ∨ carry' ≠ 0 then .error (str "base-32 hash `" ++ s ++ str "' is too large")
      else parseDigits32 s cs sum

/-- Model of `parseHash32`. -/
def parseHash32 (ht : HashType) (s : Str) : Outcome Str Hash :=
  match ht.size? with
  | none => .error (str "unknown hash type")
  | some size => do
    let bytes ← parseDigits32 s s (List.replicate size 0)
    return ⟨ht, bytes⟩

/-! ### Other operations -/

/-- Model of `parseHashType`. -/
def parseHashType (s : Str) : HashType :=
  if s = str "md5" then .htMD5
  else if s = str "sha1" then .htSHA1
  else if s = str "sha256" then .htSHA256
  else .htUnknown

/-- Model of `printHashType`. -/
def printHashType : HashType → Outcome Str Str
  | .htMD5 => .ok (str "md5")
  | .htSHA1 => .ok (str "sha1")
  | .htSHA256 => .ok (str "sha256")
  | .htUnknown => .error (str "cannot print unknown hash type")

/-- Model of `parseHash16or32`; a type without a name never gets as far as the last branch. -/
def parseHash16or32 (ht : HashType) (s : Str) : Outcome Str Hash :=
  match ht.size? with
  | none => .error (str "unknown hash type")
  | some size =>
    if s.length = size * 2 then parseHash ht s
    else if s.length = (size * 8 - 1) / 5 + 1 then parseHash32 ht s
    else do
      let name ← printHashType ht
      .error (str "hash `" ++ s ++ str "' has wrong length for hash type `" ++ name ++ str "'")

/-- Model of `compressHash`: the bytes are XORed together cyclically. -/
def compressHash (h : Hash) (newSize : ℕ) : Hash where
  type := .htUnknown
  hash := (List.range h.hash.length).foldl
    (fun bytes i => bytes.modify (i % newSize) (· ^^^ h.hash.getD i 0)) (List.replicate newSize 0)

/-! ### Base 16 is read back -/

/-- Every digit is read as its value. -/
theorem hexValue?_base16Chars : ∀ n : Fin 16,
    hexValue? (base16Chars.getD n 0) = some (UInt8.ofNat n) ∧ base16Chars.getD n 0 ∈ base16Chars := by
  decide +kernel

/-- A byte is put together from its two halves. -/
theorem halves_eq (b : UInt8) : b.toNat / 16 < 16 ∧ b.toNat % 16 < 16 ∧
    (b >>> 4).toNat = b.toNat / 16 ∧ (b &&& 0x0f).toNat = b.toNat % 16 ∧
    UInt8.ofNat (b.toNat / 16) * 16 + UInt8.ofNat (b.toNat % 16) = b := by
  have hb := b.toNat_lt
  have hhi : (b >>> 4).toNat = b.toNat / 16 := by
    simp [UInt8.toNat_shiftRight, Nat.shiftRight_eq_div_pow]
  have hlo : (b &&& 0x0f).toNat = b.toNat % 16 := by
    rw [UInt8.toNat_and]
    exact Nat.and_two_pow_sub_one_eq_mod b.toNat 4
  refine ⟨by omega, Nat.mod_lt _ (by decide), hhi, hlo, ?_⟩
  apply UInt8.toNat_inj.mp
  simp only [UInt8.toNat_add, UInt8.toNat_mul, UInt8.toNat_ofNat', UInt8.reduceToNat]
  omega

/-- A printed byte is read back, from two characters of base 16. -/
theorem parsePairs?_printByte (b : UInt8) :
    parsePairs? (printByte b) = some [b] ∧ ∀ c ∈ printByte b, c ∈ base16Chars := by
  obtain ⟨hhi, hlo, hhi', hlo', hsum⟩ := halves_eq b
  obtain ⟨h₁, h₁'⟩ := hexValue?_base16Chars ⟨_, hhi⟩
  obtain ⟨h₂, h₂'⟩ := hexValue?_base16Chars ⟨_, hlo⟩
  rw [printByte, hhi', hlo']
  refine ⟨?_, List.forall_mem_cons.mpr ⟨h₁', List.forall_mem_singleton.mpr h₂'⟩⟩
  simp only [parsePairs?, h₁, h₂, Option.bind_eq_bind, Option.bind_some, Option.pure_def, hsum]

/-- Reading one more pair of characters. -/
theorem parsePairs?_append {s bytes : Str} (a b x : UInt8) (hx : parsePairs? [a, b] = some [x])
    (hs : parsePairs? s = some bytes) : parsePairs? (a :: b :: s) = some (x :: bytes) := by
  simp only [parsePairs?, Option.bind_eq_bind, Option.pure_def, Option.bind_eq_some_iff] at hx ⊢
  obtain ⟨u, hu, v, hv, hx⟩ := hx
  refine ⟨u, hu, v, hv, ?_⟩
  simpa [hs] using hx

/-- `parseHash` reads the digits that `printHash` writes. -/
theorem parsePairs?_printHash (h : Hash) : parsePairs? (printHash h) = some h.hash := by
  rw [printHash]
  induction h.hash with
  | nil => rfl
  | cons b bytes ih => exact parsePairs?_append _ _ b (parsePairs?_printByte b).1 ih

/-- A printed hash has two characters for each byte. -/
theorem length_printHash (h : Hash) : (printHash h).length = h.hash.length * 2 := by
  rw [printHash]
  induction h.hash with
  | nil => rfl
  | cons b bytes ih =>
    rw [List.flatMap_cons, List.length_append, ih, List.length_cons, Nat.succ_mul, Nat.add_comm]
    rfl

/-- A printed hash consists of characters of base 16. -/
theorem mem_base16Chars_of_mem_printHash {h : Hash} {c : UInt8} (hc : c ∈ printHash h) :
    c ∈ base16Chars := by
  obtain ⟨b, -, hb⟩ := List.mem_flatMap.mp hc
  exact (parsePairs?_printByte b).2 c hb

/-- The printed form determines the bytes of a hash. -/
theorem printHash_injective {h h' : Hash} (heq : printHash h = printHash h') : h.hash = h'.hash := by
  have := parsePairs?_printHash h
  rw [heq, parsePairs?_printHash h'] at this
  exact (Option.some.inj this).symm

/-- `parseHash` undoes `printHash` on hashes of the right size. -/
theorem parseHash_printHash {h : Hash} (hsize : h.type.size? = some h.hash.length) :
    parseHash h.type (printHash h) = .ok h := by
  rw [parseHash, hsize]
  simp only [length_printHash, ne_eq, not_true_eq_false, if_false, parsePairs?_printHash]

/-- What was read has half as many bytes as there were characters. -/
theorem length_of_parsePairs? {s bytes : Str} (h : parsePairs? s = some bytes) :
    s.length = bytes.length * 2 := by
  induction s using parsePairs?.induct generalizing bytes with
  | case1 =>
    obtain rfl : [] = bytes := by simpa [parsePairs?] using h
    rfl
  | case2 => simp [parsePairs?] at h
  | case3 a b s ih =>
    simp only [parsePairs?, Option.bind_eq_bind, Option.pure_def, Option.bind_eq_some_iff] at h
    obtain ⟨u, -, v, -, bytes', hs, hb⟩ := h
    obtain rfl : (u * 16 + v) :: bytes' = bytes := by simpa using hb
    have := ih hs
    simp only [List.length_cons]
    omega

/-! ### Base 32 is injective -/

/-- The number that a little-endian sequence of bytes stands for. -/
def leValue : Str → ℕ
  | [] => 0
  | b :: bytes => b.toNat + 256 * leValue bytes

/-- The value of bytes is bounded by their number. -/
theorem leValue_lt (bytes : Str) : leValue bytes < 256 ^ bytes.length := by
  induction bytes with
  | nil => simp [leValue]
  | cons b bytes ih =>
    have := b.toNat_lt
    rw [leValue, List.length_cons, Nat.pow_succ]
    omega

/-- Bytes of one length are determined by their value. -/
theorem leValue_injective {s t : Str} (hlen : s.length = t.length) (h : leValue s = leValue t) :
    s = t := by
  induction s generalizing t with
  | nil => exact (List.length_eq_zero_iff.mp hlen.symm).symm
  | cons a s ih =>
    cases t with
    | nil => simp at hlen
    | cons b t =>
      have ha := a.toNat_lt
      have hb := b.toNat_lt
      simp only [leValue] at h
      have hab : a.toNat = b.toNat := by omega
      rw [UInt8.toNat_inj.mp hab, ih (by simpa using hlen) (by omega)]

/-- The value of two texts, the lower bytes first. -/
theorem leValue_append (s t : Str) : leValue (s ++ t) = leValue s + 256 ^ s.length * leValue t := by
  induction s with
  | nil => simp [leValue]
  | cons b s ih =>
    rw [List.cons_append, leValue, ih, leValue, List.length_cons, Nat.pow_succ]
    ring

/-- Zero bytes have value zero. -/
theorem leValue_replicate_zero (n : ℕ) : leValue (List.replicate n 0) = 0 := by
  induction n with
  | zero => rfl
  | succ n ih => rw [List.replicate_succ, leValue, ih]; rfl

/-- `divMod` divides the number. -/
theorem divMod_spec {y : ℕ} (hy : 0 < y) (bytes : Str) :
    leValue bytes = leValue (divMod y bytes).1 * y + (divMod y bytes).2 ∧
      (divMod y bytes).2 < y ∧ (divMod y bytes).1.length = bytes.length := by
  induction bytes with
  | nil => simp [divMod, leValue, hy]
  | cons b bytes ih =>
    obtain ⟨hval, hlt, hlen⟩ := ih
    have hb := b.toNat_lt
    set s := b.toNat + (divMod y bytes).2 * 256 with hs
    have hsy : s / y < 256 := by
      rw [Nat.div_lt_iff_lt_mul hy]
      nlinarith
    have hdiv : y * (s / y) + s % y = s := Nat.div_add_mod s y
    refine ⟨?_, Nat.mod_lt _ hy, by simp [divMod, hlen]⟩
    simp only [divMod, leValue, ← hs, hval]
    rw [UInt8.toNat_ofNat_of_lt' (show s / y < UInt8.size from hsy)]
    nlinarith

/-- The characters of base 32 differ. -/
theorem nodup_base32Chars : base32Chars.Nodup := by decide +kernel

/-- Different digits have different characters. -/
theorem getD_base32Chars_injective {i j : ℕ} (hi : i < 32) (hj : j < 32)
    (h : base32Chars.getD i 0 = base32Chars.getD j 0) : i = j := by
  have hlen : base32Chars.length = 32 := rfl
  rw [List.getD_eq_getElem _ _ (hlen ▸ hi), List.getD_eq_getElem _ _ (hlen ▸ hj)] at h
  exact nodup_base32Chars.getElem_inj_iff.mp h

/-- As many digits as asked for are printed. -/
theorem length_printDigits32 (n : ℕ) (bytes : Str) : (printDigits32 n bytes).1.length = n := by
  induction n generalizing bytes with
  | zero => rfl
  | succ n ih => simp [printDigits32, ih]

/-- The digits determine the number up to a multiple of `32 ^ n`. -/
theorem leValue_mod_of_printDigits32_eq {n : ℕ} {s t : Str}
    (h : (printDigits32 n s).1 = (printDigits32 n t).1) :
    leValue s % 32 ^ n = leValue t % 32 ^ n := by
  induction n generalizing s t with
  | zero => simp [Nat.mod_one]
  | succ n ih =>
    simp only [printDigits32] at h
    obtain ⟨htext, hdigit⟩ := List.append_inj' h rfl
    obtain ⟨hs, hslt, -⟩ := divMod_spec (y := 32) (by decide) s
    obtain ⟨ht, htlt, -⟩ := divMod_spec (y := 32) (by decide) t
    have hd : (divMod 32 s).2 = (divMod 32 t).2 :=
      getD_base32Chars_injective hslt htlt (by simpa using hdigit)
    have hq := ih htext
    rw [hs, ht, hd, Nat.pow_succ]
    exact (Nat.ModEq.mul_right' 32 hq).add_right _

/-- Base 32 is injective on hashes of 20 bytes, as they occur in store paths. -/
theorem printHash32_injective {h h' : Hash} (hlen : h.hash.length = 20)
    (hlen' : h'.hash.length = 20) (heq : printHash32 h = printHash32 h') : h.hash = h'.hash := by
  have hval : ∀ h : Hash, h.hash.length = 20 → leValue h.buffer = leValue h.hash ∧
      leValue h.hash < 32 ^ 32 := by
    intro h hlen
    have hlt := leValue_lt h.hash
    rw [hlen] at hlt
    rw [Hash.buffer, leValue_append, leValue_replicate_zero]
    exact ⟨by simp, by simpa using hlt⟩
  rw [printHash32, printHash32, hashLength32, hashLength32, hlen, hlen'] at heq
  have hmod := leValue_mod_of_printDigits32_eq heq
  rw [(hval h hlen).1, (hval h' hlen').1, Nat.mod_eq_of_lt (hval h hlen).2,
    Nat.mod_eq_of_lt (hval h' hlen').2] at hmod
  exact leValue_injective (hlen.trans hlen'.symm) hmod

/-- A printed hash has the length that was computed. -/
theorem length_printHash32 (h : Hash) : (printHash32 h).length = hashLength32 h :=
  length_printDigits32 _ _

/-- The digits are characters of base 32. -/
theorem mem_base32Chars_of_mem_printDigits32 {n : ℕ} {bytes : Str} {c : UInt8}
    (hc : c ∈ (printDigits32 n bytes).1) : c ∈ base32Chars := by
  induction n generalizing bytes with
  | zero => simp [printDigits32] at hc
  | succ n ih =>
    simp only [printDigits32, List.mem_append, List.mem_singleton] at hc
    rcases hc with hc | rfl
    · exact ih hc
    · have hlt : (divMod 32 bytes).2 < base32Chars.length :=
        (divMod_spec (y := 32) (by decide) bytes).2.1
      rw [List.getD_eq_getElem _ _ hlt]
      exact List.getElem_mem hlt

/-- A compressed hash has the size that was asked for. -/
theorem length_compressHash (h : Hash) (n : ℕ) : (compressHash h n).hash.length = n := by
  have hfold : ∀ (l : List ℕ) (bytes : Str), (l.foldl (fun bytes i =>
      bytes.modify (i % n) (· ^^^ h.hash.getD i 0)) bytes).length = bytes.length := by
    intro l
    induction l with
    | nil => exact fun _ => rfl
    | cons i l ih => intro bytes; rw [List.foldl_cons, ih, List.length_modify]
  rw [compressHash, hfold, List.length_replicate]

end Nix
