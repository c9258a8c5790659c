import NixStore.Util.Serialise

/-!
# The base-32 codec

`printHash32` and `parseHash32` compute with numbers of up to 32 bytes, one byte at a time.  The text of
a hash is its number in base 32, most significant digit first, and the bytes are the same number in
little-endian order; every text whose number fits into the bytes is accepted.
-/

namespace Nix

/-! ### Numbers in base 32 -/

/-- The number that a text stands for. -/
def base32Value (s : Str) : ℕ := s.foldl (fun v c => v * 32 + base32Chars.idxOf c) 0

/-- The text consists of digits. -/
def IsBase32 (s : Str) : Prop := ∀ c ∈ s, c ∈ base32Chars

instance (s : Str) : Decidable (IsBase32 s) := inferInstanceAs (Decidable (∀ c ∈ s, c ∈ base32Chars))

/-- The value of digits behind a value. -/
theorem base32Value_foldl (s : Str) (v : ℕ) :
    s.foldl (fun v c => v * 32 + base32Chars.idxOf c) v = v * 32 ^ s.length + base32Value s := by
  unfold base32Value
  induction s using List.reverseRecOn generalizing v with
  | nil => simp
  | append_singleton s c ih =>
    rw [List.foldl_append, List.foldl_append, ih, List.length_append, List.length_singleton, pow_succ]
    simp only [List.foldl_cons, List.foldl_nil]
    ring

/-- The value of one more digit. -/
theorem base32Value_concat (s : Str) (c : UInt8) :
    base32Value (s ++ [c]) = base32Value s * 32 + base32Chars.idxOf c := by
  simp [base32Value]

/-- A character of the alphabet has a value below 32. -/
theorem idxOf_lt_of_mem {c : UInt8} (h : c ∈ base32Chars) : base32Chars.idxOf c < 32 :=
  List.idxOf_lt_length_iff.mpr h

/-- The value of a digit's character is the digit. -/
theorem idxOf_getD_base32Chars {d : ℕ} (h : d < 32) : base32Chars.idxOf (base32Chars.getD d 0) = d := by
  have hd : d < base32Chars.length := h
  rw [List.getD_eq_getElem _ _ hd]
  exact nodup_base32Chars.idxOf_getElem d hd

/-- The character of a character's value is the character. -/
theorem getD_idxOf_base32Chars {c : UInt8} (h : c ∈ base32Chars) :
    base32Chars.getD (base32Chars.idxOf c) 0 = c := by
  have hlt := List.idxOf_lt_length_iff.mpr h
  rw [List.getD_eq_getElem _ _ hlt]
  exact List.getElem_idxOf hlt

/-- Texts of the same length with the same number are the same. -/
theorem eq_of_base32Value_eq {s t : Str} (hs : IsBase32 s) (ht : IsBase32 t)
    (hlen : s.length = t.length) (h : base32Value s = base32Value t) : s = t := by
  induction s using List.reverseRecOn generalizing t with
  | nil => exact (List.length_eq_zero_iff.mp hlen.symm).symm
  | append_singleton s c ih =>
    rcases List.eq_nil_or_concat t with rfl | ⟨t, d, rfl⟩
    · simp at hlen
    · rw [List.concat_eq_append] at *
      have hc : c ∈ base32Chars := hs c (by simp)
      have hd : d ∈ base32Chars := ht d (by simp)
      have hclt := idxOf_lt_of_mem hc
      have hdlt := idxOf_lt_of_mem hd
      rw [base32Value_concat, base32Value_concat] at h
      have hidx : base32Chars.idxOf c = base32Chars.idxOf d := by omega
      have hchar : c = d := by rw [← getD_idxOf_base32Chars hc, hidx, getD_idxOf_base32Chars hd]
      have hrest : s = t := by
        apply ih
        · exact fun b hb => hs b (List.mem_append_left _ hb)
        · exact fun b hb => ht b (List.mem_append_left _ hb)
        · simpa using hlen
        · omega
      rw [hrest, hchar]

/-! ### Printing -/

/-- The digits and what is left are the remainder and the quotient. -/
theorem printDigits32_spec (n : ℕ) (bytes : Str) :
    base32Value (printDigits32 n bytes).1 = leValue bytes % 32 ^ n ∧
      leValue (printDigits32 n bytes).2 = leValue bytes / 32 ^ n := by
  induction n generalizing bytes with
  | zero => simp [printDigits32, base32Value, Nat.mod_one]
  | succ n ih =>
    obtain ⟨hval, hlt, -⟩ := divMod_spec (y := 32) (by decide) bytes
    obtain ⟨hdigits, hrest⟩ := ih (divMod 32 bytes).1
    have hquot : leValue (divMod 32 bytes).1 = leValue bytes / 32 := by omega
    have hrem : (divMod 32 bytes).2 = leValue bytes % 32 := by omega
    simp only [printDigits32]
    rw [base32Value_concat, idxOf_getD_base32Chars hlt, hdigits, hrest, hquot, hrem]
    constructor
    · rw [pow_succ', Nat.mod_mul]
      ring
    · rw [pow_succ', Nat.div_div_eq_div_mul]

/-- There are enough digits for the number. -/
theorem leValue_lt_of_hashLength32 {h : Hash} (hpos : 0 < h.hash.length) :
    leValue h.buffer = leValue h.hash ∧ leValue h.hash < 32 ^ hashLength32 h := by
  constructor
  · rw [Hash.buffer, leValue_append, leValue_replicate_zero]
    simp
  · have hlen : h.hash.length * 8 ≤ 5 * hashLength32 h := by
      unfold hashLength32
      omega
    calc leValue h.hash < 256 ^ h.hash.length := leValue_lt h.hash
      _ = 2 ^ (h.hash.length * 8) := by rw [show 256 = 2 ^ 8 from rfl, ← pow_mul, Nat.mul_comm]
      _ ≤ 2 ^ (5 * hashLength32 h) := Nat.pow_le_pow_right (by decide) hlen
      _ = 32 ^ hashLength32 h := by rw [pow_mul]; rfl

/-- The printed hash has the value of its bytes. -/
theorem base32Value_printHash32 {h : Hash} (hpos : 0 < h.hash.length) :
    base32Value (printHash32 h) = leValue h.hash := by
  obtain ⟨hbuffer, hlt⟩ := leValue_lt_of_hashLength32 hpos
  rw [printHash32, (printDigits32_spec _ _).1, hbuffer, Nat.mod_eq_of_lt hlt]

/-- Bytes with value zero are zero. -/
theorem eq_zero_of_leValue_eq_zero {bytes : Str} (h : leValue bytes = 0) : ∀ b ∈ bytes, b = 0 := by
  have heq : bytes = List.replicate bytes.length 0 :=
    leValue_injective (by simp) (by rw [h, leValue_replicate_zero])
  rw [heq]
  exact fun b hb => List.eq_of_mem_replicate hb

/-- The assertion at the end of `printHash32`. -/
theorem printHash32_rest {h : Hash} (hpos : 0 < h.hash.length) :
    ∀ b ∈ (printDigits32 (hashLength32 h) h.buffer).2, b = 0 := by
  obtain ⟨hbuffer, hlt⟩ := leValue_lt_of_hashLength32 hpos
  apply eq_zero_of_leValue_eq_zero
  rw [(printDigits32_spec _ _).2, hbuffer, Nat.div_eq_of_lt hlt]

/-- The printed hash consists of characters of the alphabet. -/
theorem isBase32_printHash32 (h : Hash) : IsBase32 (printHash32 h) :=
  fun _ hc => mem_base32Chars_of_mem_printDigits32 hc

/-! ### Parsing -/

/-- Multiplication with carry. -/
theorem mulBytes_spec (y carry : ℕ) (bytes : Str) :
    leValue (mulBytes y carry bytes).1 + 256 ^ bytes.length * (mulBytes y carry bytes).2 =
      leValue bytes * y + carry ∧ (mulBytes y carry bytes).1.length = bytes.length := by
  induction bytes generalizing carry with
  | nil => simp [mulBytes, leValue]
  | cons b bytes ih =>
    obtain ⟨hval, hlen⟩ := ih ((b.toNat * y + carry) / 256)
    have hdiv := Nat.div_add_mod (b.toNat * y + carry) 256
    simp only [mulBytes, leValue, List.length_cons, UInt8.toNat_ofNat', hlen, and_true]
    rw [pow_succ']
    linear_combination 256 * hval + hdiv

/-- Addition with carry. -/
theorem addBytes_spec (carry : ℕ) (bytes : Str) :
    leValue (addBytes carry bytes).1 + 256 ^ bytes.length * (addBytes carry bytes).2 =
      leValue bytes + carry ∧ (addBytes carry bytes).1.length = bytes.length := by
  induction bytes generalizing carry with
  | nil => simp [addBytes, leValue]
  | cons b bytes ih =>
    have hdiv := Nat.div_add_mod (b.toNat + carry) 256
    unfold addBytes
    dsimp only
    split_ifs with hzero
    · simp only [leValue, UInt8.toNat_ofNat', List.length_cons, and_true]
      rw [hzero] at hdiv
      omega
    · obtain ⟨hval, hlen⟩ := ih ((b.toNat + carry) / 256)
      simp only [leValue, List.length_cons, UInt8.toNat_ofNat', hlen, and_true]
      rw [pow_succ']
      linear_combination 256 * hval + hdiv

/-- The loop accepts digits whose number fits, and returns the number. -/
theorem parseDigits32_eq_ok {s cs bytes out : Str} :
    parseDigits32 s cs bytes = .ok out ↔ IsBase32 cs ∧ out.length = bytes.length ∧
      leValue out = leValue bytes * 32 ^ cs.length + base32Value cs := by
  induction cs generalizing bytes with
  | nil =>
    simp only [parseDigits32, Outcome.ok.injEq]
    constructor
    · rintro rfl
      simp [IsBase32, base32Value]
    · rintro ⟨-, hlen, hval⟩
      refine (leValue_injective hlen ?_).symm
      simpa [base32Value] using hval
  | cons c cs ih =>
    unfold parseDigits32
    dsimp only
    have hcons : base32Value (c :: cs) =
        base32Chars.idxOf c * 32 ^ cs.length + base32Value cs := by
      rw [base32Value, List.foldl_cons, base32Value_foldl, Nat.zero_mul, Nat.zero_add]
    -- the number after the next digit, with what does not fit into the bytes
    obtain ⟨hproduct, hlength⟩ := mulBytes_spec 32 0 bytes
    obtain ⟨hsum, hlength'⟩ := addBytes_spec (base32Chars.idxOf c) (mulBytes 32 0 bytes).1
    rw [hlength] at hsum hlength'
    set product := mulBytes 32 0 bytes
    set sum := addBytes (base32Chars.idxOf c) product.1
    have hnumber : leValue sum.1 + 256 ^ bytes.length * (product.2 + sum.2) =
        leValue bytes * 32 + base32Chars.idxOf c := by
      rw [Nat.mul_add]
      omega
    have hvalue : leValue bytes * 32 ^ (c :: cs).length + base32Value (c :: cs) =
        (leValue sum.1 + 256 ^ bytes.length * (product.2 + sum.2)) * 32 ^ cs.length +
          base32Value cs := by
      rw [hnumber, hcons, List.length_cons, pow_succ]
      ring
    rw [hvalue]
    split_ifs with hdigit hcarry
    · refine iff_of_false (by simp) fun h => ?_
      have hlt := idxOf_lt_of_mem (h.1 c List.mem_cons_self)
      omega
    · -- the first digits do not fit, and the others make the number larger
      refine iff_of_false (by simp) fun ⟨_, hlen, hval⟩ => ?_
      have hlt := leValue_lt out
      rw [hlen, hval] at hlt
      have hpos : 1 ≤ product.2 + sum.2 := by omega
      have hone : 1 ≤ 32 ^ cs.length := Nat.one_le_pow _ _ (by decide)
      have hle : 256 ^ bytes.length ≤
          (leValue sum.1 + 256 ^ bytes.length * (product.2 + sum.2)) * 32 ^ cs.length := by
        calc 256 ^ bytes.length ≤ 256 ^ bytes.length * (product.2 + sum.2) :=
              Nat.le_mul_of_pos_right _ hpos
          _ ≤ leValue sum.1 + 256 ^ bytes.length * (product.2 + sum.2) := Nat.le_add_left _ _
          _ ≤ _ := Nat.le_mul_of_pos_right _ hone
      omega
    · obtain ⟨hc, hc'⟩ : product.2 = 0 ∧ sum.2 = 0 := by omega
      have hmem : c ∈ base32Chars := List.idxOf_lt_length_iff.mp (Nat.lt_of_not_le hdigit)
      rw [ih, hlength', hc, hc', Nat.add_zero, Nat.mul_zero, Nat.add_zero]
      exact and_congr_left fun _ => by simp [IsBase32, hmem]

/-- `parseHash32` returns the number of the text. -/
theorem parseHash32_eq_ok {ht : HashType} {n : ℕ} (hsize : ht.size? = some n) {s : Str} {h : Hash} :
    parseHash32 ht s = .ok h ↔ h.type = ht ∧ h.hash.length = n ∧ IsBase32 s ∧
      leValue h.hash = base32Value s := by
  unfold parseHash32
  rw [hsize]
  dsimp only
  rw [Outcome.bind_eq_ok]
  constructor
  · rintro ⟨bytes, hbytes, hok⟩
    obtain ⟨hdigits, hlen, hval⟩ := parseDigits32_eq_ok.mp hbytes
    cases Outcome.ok.inj hok
    rw [leValue_replicate_zero, Nat.zero_mul, Nat.zero_add] at hval
    exact ⟨rfl, by simpa using hlen, hdigits, hval⟩
  · rintro ⟨rfl, hlen, hdigits, hval⟩
    refine ⟨h.hash, parseDigits32_eq_ok.mpr ⟨hdigits, by simpa using hlen, ?_⟩, rfl⟩
    rw [leValue_replicate_zero, Nat.zero_mul, Nat.zero_add, hval]

/-- The texts that `parseHash32` accepts. -/
theorem parseHash32_isOk_iff {ht : HashType} {n : ℕ} (hsize : ht.size? = some n) {s : Str} :
    (∃ h, parseHash32 ht s = .ok h) ↔ IsBase32 s ∧ base32Value s < 256 ^ n := by
  constructor
  · rintro ⟨h, hok⟩
    obtain ⟨-, hlen, hdigits, hval⟩ := (parseHash32_eq_ok hsize).mp hok
    have hlt := leValue_lt h.hash
    rw [hlen, hval] at hlt
    exact ⟨hdigits, hlt⟩
  · rintro ⟨hdigits, hlt⟩
    refine ⟨⟨ht, leBytes n (base32Value s)⟩, (parseHash32_eq_ok hsize).mpr ?_⟩
    refine ⟨rfl, length_leBytes _ _, hdigits, ?_⟩
    rw [leValue_leBytes, Nat.mod_eq_of_lt hlt]

/-- Every hash has at least 16 bytes. -/
theorem HashType.le_size? {ht : HashType} {n : ℕ} (hsize : ht.size? = some n) : 16 ≤ n := by
  cases ht <;> cases hsize <;> decide

/-- No hash is empty. -/
theorem HashType.size?_pos {ht : HashType} {n : ℕ} (hsize : ht.size? = some n) : 0 < n := by
  have hle := HashType.le_size? hsize
  omega

/-- A hash printed in base 32 is read back. -/
theorem parseHash32_printHash32 {h : Hash} (hsize : h.type.size? = some h.hash.length) :
    parseHash32 h.type (printHash32 h) = .ok h := by
  rw [parseHash32_eq_ok hsize]
  refine ⟨rfl, rfl, isBase32_printHash32 h, ?_⟩
  exact (base32Value_printHash32 (HashType.size?_pos hsize)).symm

/-- A text of the length that `printHash32` gives is printed again. -/
theorem printHash32_of_parseHash32 {ht : HashType} {n : ℕ} (hsize : ht.size? = some n) {s : Str}
    {h : Hash} (hok : parseHash32 ht s = .ok h) (hlen : s.length = hashLength32 h) :
    printHash32 h = s := by
  obtain ⟨-, hn, hdigits, hval⟩ := (parseHash32_eq_ok hsize).mp hok
  apply eq_of_base32Value_eq (isBase32_printHash32 h) hdigits
  · rw [length_printHash32, hlen]
  · rw [base32Value_printHash32 (hn ▸ HashType.size?_pos hsize), hval]

/-! ### Both forms -/

/-- A hash printed in base 16 is read back. -/
theorem parseHash16or32_printHash {h : Hash} (hsize : h.type.size? = some h.hash.length) :
    parseHash16or32 h.type (printHash h) = .ok h := by
  unfold parseHash16or32
  rw [hsize]
  dsimp only
  rw [if_pos (length_printHash h)]
  exact parseHash_printHash hsize

/-- The two forms have different lengths. -/
theorem parseHash16or32_printHash32 {h : Hash} (hsize : h.type.size? = some h.hash.length) :
    parseHash16or32 h.type (printHash32 h) = .ok h := by
  have hne : (printHash32 h).length ≠ h.hash.length * 2 := by
    have hle := HashType.le_size? hsize
    rw [length_printHash32, hashLength32]
    omega
  have hlen : (printHash32 h).length = (h.hash.length * 8 - 1) / 5 + 1 := length_printHash32 h
  unfold parseHash16or32
  rw [hsize]
  dsimp only
  rw [if_neg hne, if_pos hlen]
  exact parseHash32_printHash32 hsize

/-- What the digits of a hash of one of the sizes in use are, and which texts are read as such a hash. -/
theorem base32_codec :
    (∀ h : Hash, h.hash.length ∈ [16, 20, 32] → (printHash32 h).length = hashLength32 h ∧
      ∀ b ∈ (printDigits32 (hashLength32 h) h.buffer).2, b = 0) ∧
    (∀ h : Hash, h.type.size? = some h.hash.length →
      parseHash32 h.type (printHash32 h) = .ok h ∧ parseHash16or32 h.type (printHash h) = .ok h ∧
        parseHash16or32 h.type (printHash32 h) = .ok h) ∧
    ∀ (ht : HashType) (n : ℕ), ht.size? = some n → ∀ s : Str,
      ((∃ h, parseHash32 ht s = .ok h) ↔ IsBase32 s ∧ base32Value s < 256 ^ n) ∧
      ∀ h, parseHash32 ht s = .ok h → h.type = ht ∧ h.hash.length = n ∧
        leValue h.hash = base32Value s ∧ (s.length = hashLength32 h → printHash32 h = s) := by
  refine ⟨fun h hlen => ?_, fun h hsize => ?_, fun ht n hsize s => ⟨?_, fun h hok => ?_⟩⟩
  · have hpos : 0 < h.hash.length := by
      simp only [List.mem_cons, List.not_mem_nil, or_false] at hlen
      omega
    exact ⟨length_printHash32 h, printHash32_rest hpos⟩
  · exact ⟨parseHash32_printHash32 hsize, parseHash16or32_printHash hsize,
      parseHash16or32_printHash32 hsize⟩
  · exact parseHash32_isOk_iff hsize
  · obtain ⟨htype, hlen, -, hval⟩ := (parseHash32_eq_ok hsize).mp hok
    exact ⟨htype, hlen, hval, printHash32_of_parseHash32 hsize hok⟩

/-- A hash of 20 bytes, as they occur in store paths. -/
def sampleSHA1 : Hash := ⟨.htSHA1, List.replicate 19 7 ++ [255]⟩

/-- The sample hash is read back, and a sample text is not read. -/
theorem base32_codec_sampleSHA1 :
    (printHash32 sampleSHA1).length = hashLength32 sampleSHA1 ∧
      parseHash32 .htSHA1 (printHash32 sampleSHA1) = .ok sampleSHA1 ∧
      ((∃ h, parseHash32 .htSHA1 (str "zz") = .ok h) ↔
        IsBase32 (str "zz") ∧ base32Value (str "zz") < 256 ^ 20) :=
  ⟨(base32_codec.1 sampleSHA1 (by decide)).1, (base32_codec.2.1 sampleSHA1 (by decide)).1,
    (base32_codec.2.2 .htSHA1 20 rfl (str "zz")).1⟩

end Nix
