import NixStore.Util.Base32
import NixStore.Util.HashSink

/-!
# Scanning for references

Model of `references.cc`: `search` looks for the hash parts of store paths in a piece of data, and
`RefScanSink` in a stream that comes in fragments.  The scan finds a hash part exactly if it occurs
in the stream, wherever the stream is cut, as long as the fragments have lengths for which the counters
of `search` do not overflow.
-/

namespace Nix

/-! ### Searching a piece of data -/

/-- `refLength`, in characters. -/
def refLength : ℕ := 32

/-- What `search` is looking for, and what has been found. -/
structure RefScan where
  hashes : SortedSet Str
  seen : SortedSet Str

/-- The loop of `search` over the characters of a window, from the last one down: the last one that
is not a base-32 digit. -/
def lastNonBase32 (s : Str) (i : ℕ) : ℕ → Option ℕ
  | 0 => none
  | j + 1 => if s.getD (i + j) 0 ∈ base32Chars then lastNonBase32 s i j else some j

/-- A window of base-32 digits is looked up. -/
def RefScan.visit (scan : RefScan) (ref : Str) : RefScan :=
  if ref ∈ scan.hashes then ⟨scan.hashes.erase ref, scan.seen.insert ref⟩ else scan

/-- The loop of `search` over the data; the counter and `len` are of type `unsigned int`.  There are
at most as many rounds as bytes, unless the counter overflows, when the code reads behind the data. -/
def searchLoop (s : Str) (len : ℕ) : ℕ → ℕ → RefScan → RefScan
  | 0, _, scan => scan
  | k + 1, i, scan =>
    if (i + refLength) % 2 ^ 32 ≤ len then
      match lastNonBase32 s i refLength with
      | some j => searchLoop s len k ((i + (j + 1)) % 2 ^ 32) scan
      | none => searchLoop s len k ((i + 1) % 2 ^ 32) (scan.visit ((s.drop i).take refLength))
    else scan

/-- Model of `search`; the length is cut to an `unsigned int`. -/
def search (s : Str) (scan : RefScan) : RefScan :=
  searchLoop s (s.length % 2 ^ 32) (s.length % 2 ^ 32) 0 scan

/-! ### Searching a stream -/

/-- Model of `RefScanSink`. -/
structure RefScanSink where
  hashSink : HashSink
  scan : RefScan
  tail : Str

namespace RefScanSink

/-- A new sink for some hashes. -/
def init (hashes : SortedSet Str) : RefScanSink := ⟨.empty, ⟨hashes, ∅⟩, []⟩

/-- Model of `operator ()`. -/
def put (sink : RefScanSink) (data : Str) : RefScanSink :=
  let s := sink.tail ++ data.take (if data.length > refLength then refLength else data.length)
  let tailLen := if data.length ≤ refLength then data.length else refLength
  { hashSink := sink.hashSink.put data
    scan := search data (search s sink.scan)
    tail := sink.tail.drop (if sink.tail.length < refLength - tailLen then 0
        else sink.tail.length - (refLength - tailLen)) ++
      (data.drop (data.length - tailLen)).take tailLen }

/-- A sequence of fragments. -/
def putAll (sink : RefScanSink) (fragments : List Str) : RefScanSink := fragments.foldl put sink

end RefScanSink

/-! ### Occurrences -/

/-- The window of a hash part at an offset. -/
def window (s : Str) (o : ℕ) : Str := (s.drop o).take refLength

/-- A string of the length of a window occurs where a window is the same. -/
theorem isInfix_iff_window {h s : Str} (hlen : h.length = refLength) :
    h <:+: s ↔ ∃ o, o + refLength ≤ s.length ∧ window s o = h := by
  unfold window
  constructor
  · rintro ⟨u, v, rfl⟩
    refine ⟨u.length, ?_, ?_⟩
    · simp only [List.length_append]
      omega
    · rw [List.append_assoc, List.drop_left, ← hlen, List.take_left]
  · rintro ⟨o, -, rfl⟩
    exact (List.take_prefix _ _).isInfix.trans (List.drop_suffix _ _).isInfix

/-- What occurs in two pieces occurs in one of them, or around the place where they meet. -/
theorem isInfix_append_iff {h s d : Str} (hlen : h.length = refLength) :
    h <:+: s ++ d ↔ h <:+: s ∨ h <:+: d ∨
      h <:+: s.drop (s.length - refLength) ++ d.take refLength := by
  constructor
  · intro hin
    obtain ⟨o, hle, hwin⟩ := (isInfix_iff_window hlen).mp hin
    rw [List.length_append] at hle
    unfold window at hwin
    by_cases hs : o + refLength ≤ s.length
    · left
      refine (isInfix_iff_window hlen).mpr ⟨o, hs, ?_⟩
      rw [List.drop_append_of_le_length (by omega), List.take_append_of_le_length] at hwin
      · exact hwin
      · rw [List.length_drop]
        omega
    · right
      by_cases hd : s.length ≤ o
      · left
        refine (isInfix_iff_window hlen).mpr ⟨o - s.length, by omega, ?_⟩
        unfold window
        rwa [List.drop_append, List.drop_of_length_le hd, List.nil_append] at hwin
      · right
        set m := s.length - refLength
        set k := refLength - (s.length - o)
        have hleft : (s.drop m).take (o - m) ++ s.drop o = s.drop m := by
          have hsplit := List.take_append_drop (o - m) (s.drop m)
          rwa [List.drop_drop, Nat.add_sub_cancel' (by omega)] at hsplit
        have hright : d.take k ++ (d.take refLength).drop k = d.take refLength := by
          have hsplit := List.take_append_drop k (d.take refLength)
          rwa [List.take_take, min_eq_left (by omega)] at hsplit
        rw [List.drop_append_of_le_length (by omega), List.take_append,
          List.take_of_length_le (by rw [List.length_drop]; omega), List.length_drop] at hwin
        refine ⟨(s.drop m).take (o - m), (d.take refLength).drop k, ?_⟩
        rw [← hwin, ← List.append_assoc, hleft, List.append_assoc, hright]
  · rintro (hin | hin | hin)
    · exact hin.trans (List.prefix_append s d).isInfix
    · exact hin.trans (List.suffix_append s d).isInfix
    · refine hin.trans ⟨s.take (s.length - refLength), d.drop refLength, ?_⟩
      rw [← List.append_assoc, List.take_append_drop, List.append_assoc, List.take_append_drop]

/-! ### The search is exact -/

/-- The hash parts that can be searched for. -/
structure IsHashPart (h : Str) : Prop where
  length_eq : h.length = refLength
  digits : IsBase32 h

/-- The last other character is within the window. -/
theorem lastNonBase32_eq_some {s : Str} {i n j : ℕ} (h : lastNonBase32 s i n = some j) :
    j < n ∧ s.getD (i + j) 0 ∉ base32Chars := by
  induction n with
  | zero => cases h
  | succ n ih =>
    unfold lastNonBase32 at h
    split_ifs at h with hmem
    · obtain ⟨hlt, hnot⟩ := ih h
      exact ⟨Nat.lt_succ_of_lt hlt, hnot⟩
    · cases h
      exact ⟨Nat.lt_succ_self _, hmem⟩

/-- A window with something else than a digit is not a hash part. -/
theorem window_ne_of_notMem {s h : Str} (hh : IsHashPart h) {o k : ℕ} (hle : o ≤ k)
    (hlt : k < o + refLength) (hlen : o + refLength ≤ s.length) (hk : s.getD k 0 ∉ base32Chars) :
    window s o ≠ h := by
  intro heq
  apply hk
  apply hh.digits
  have hks : k < s.length := by omega
  have hko : k - o < (s.drop o).length := by
    rw [List.length_drop]
    omega
  rw [← heq, window, List.getD_eq_getElem _ _ hks, List.mem_take_iff_getElem]
  refine ⟨k - o, by omega, ?_⟩
  rw [List.getElem_drop]
  congr 1
  omega

/-- Some hash parts have moved from `hashes` to `seen`. -/
structure RefScan.Found (scan scan' : RefScan) (P : Str → Prop) : Prop where
  mem_seen : ∀ h, h ∈ scan'.seen ↔ h ∈ scan.seen ∨ h ∈ scan.hashes ∧ P h
  mem_hashes : ∀ h, h ∈ scan'.hashes ↔ h ∈ scan.hashes ∧ ¬P h

namespace RefScan

variable {scan scan' scan'' : RefScan} {P Q : Str → Prop}

/-- What was found, said otherwise. -/
theorem Found.congr (h : scan.Found scan' P) (hPQ : ∀ h ∈ scan.hashes, (P h ↔ Q h)) :
    scan.Found scan' Q where
  mem_seen k := by
    rw [h.mem_seen]
    exact or_congr_right (and_congr_right (hPQ k))
  mem_hashes k := by
    rw [h.mem_hashes]
    exact and_congr_right fun hk => not_congr (hPQ k hk)

/-- Nothing was found. -/
theorem Found.refl (hP : ∀ h ∈ scan.hashes, ¬P h) : scan.Found scan P where
  mem_seen k := by
    have hk := hP k
    tauto
  mem_hashes k := by
    have hk := hP k
    tauto

/-- What was found before and after. -/
theorem Found.trans (h : scan.Found scan' P) (h' : scan'.Found scan'' Q) :
    scan.Found scan'' fun k => P k ∨ Q k where
  mem_seen k := by
    rw [h'.mem_seen, h.mem_seen, h.mem_hashes]
    tauto
  mem_hashes k := by
    rw [h'.mem_hashes, h.mem_hashes]
    tauto

/-- A visit finds the hash, if it is one of those looked for. -/
theorem found_visit (scan : RefScan) (ref : Str) : scan.Found (scan.visit ref) (ref = ·) := by
  unfold visit
  split_ifs with hmem
  · constructor
    · intro k
      rw [SortedSet.mem_insert]
      constructor
      · rintro (rfl | hk)
        · exact .inr ⟨hmem, rfl⟩
        · exact .inl hk
      · rintro (hk | ⟨-, rfl⟩)
        · exact .inr hk
        · exact .inl rfl
    · intro k
      rw [SortedSet.mem_erase, and_comm, ne_comm]
  · refine Found.refl fun k hk heq => ?_
    subst heq
    exact hmem hk

end RefScan

/-- The loop finds the hash parts in the windows that it has still in front of it. -/
theorem found_searchLoop {s : Str} (hsize : s.length + refLength < 2 ^ 32) (k : ℕ) :
    ∀ (i : ℕ) (scan : RefScan), (∀ h ∈ scan.hashes, IsHashPart h) → i ≤ s.length →
      s.length < i + k + refLength →
      scan.Found (searchLoop s s.length k i scan)
        fun h => ∃ o, i ≤ o ∧ o + refLength ≤ s.length ∧ window s o = h := by
  have hlength : refLength = 32 := rfl
  induction k with
  | zero =>
    intro i scan _ _ hk
    refine RefScan.Found.refl ?_
    rintro h - ⟨o, hio, hos, -⟩
    omega
  | succ k ih =>
    intro i scan hparts hi hk
    unfold searchLoop
    rw [Nat.mod_eq_of_lt (by omega)]
    split_ifs with hin
    · split
      next j hj =>
        obtain ⟨hlt, hnot⟩ := lastNonBase32_eq_some hj
        rw [Nat.mod_eq_of_lt (by omega)]
        refine (ih (i + (j + 1)) scan hparts (by omega) (by omega)).congr fun h hh => ?_
        constructor
        · rintro ⟨o, hio, hos, heq⟩
          exact ⟨o, by omega, hos, heq⟩
        · -- the windows that are jumped over contain the character that is not a digit
          rintro ⟨o, hio, hos, heq⟩
          refine ⟨o, ?_, hos, heq⟩
          by_contra hlt'
          exact window_ne_of_notMem (hparts h hh) (by omega) (by omega) hos hnot heq
      next =>
        rw [Nat.mod_eq_of_lt (by omega)]
        have hvisit := RefScan.found_visit scan ((s.drop i).take refLength)
        have hparts' : ∀ h ∈ (scan.visit ((s.drop i).take refLength)).hashes, IsHashPart h :=
          fun h hh => hparts h ((hvisit.mem_hashes h).mp hh).1
        refine (hvisit.trans (ih (i + 1) _ hparts' (by omega) (by omega))).congr fun h hh => ?_
        constructor
        · rintro (heq | ⟨o, hio, hos, heq⟩)
          · exact ⟨i, le_refl i, hin, heq⟩
          · exact ⟨o, by omega, hos, heq⟩
        · rintro ⟨o, hio, hos, heq⟩
          rcases Nat.eq_or_lt_of_le hio with rfl | hlt
          · exact .inl heq
          · exact .inr ⟨o, hlt, hos, heq⟩
    · refine RefScan.Found.refl ?_
      rintro h - ⟨o, hio, hos, -⟩
      omega

/-- `search` finds what occurs in the data. -/
theorem found_search {s : Str} (hsize : s.length + refLength < 2 ^ 32) {scan : RefScan}
    (hparts : ∀ h ∈ scan.hashes, IsHashPart h) : scan.Found (search s scan) (· <:+: s) := by
  unfold search
  rw [Nat.mod_eq_of_lt (by omega)]
  have hloop := found_searchLoop hsize s.length 0 scan hparts (Nat.zero_le _)
    (by rw [refLength]; omega)
  refine hloop.congr fun h hh => ?_
  rw [isInfix_iff_window (hparts h hh).length_eq]
  constructor
  · rintro ⟨o, -, hos, heq⟩
    exact ⟨o, hos, heq⟩
  · rintro ⟨o, hos, heq⟩
    exact ⟨o, Nat.zero_le o, hos, heq⟩

/-! ### The scan is exact -/

namespace RefScanSink

/-- What a sink knows about the stream so far. -/
structure Scanned (hashes : SortedSet Str) (stream : Str) (sink : RefScanSink) : Prop where
  contents : sink.hashSink.contents = stream
  tail : sink.tail = stream.drop (stream.length - refLength)
  found : RefScan.Found ⟨hashes, ∅⟩ sink.scan (· <:+: stream)

/-- At the start nothing was scanned. -/
theorem scanned_init {hashes : SortedSet Str} (hparts : ∀ h ∈ hashes, IsHashPart h) :
    Scanned hashes [] (init hashes) where
  contents := rfl
  tail := rfl
  found := by
    refine RefScan.Found.refl fun h hh hin => ?_
    have hle := hin.length_le
    rw [(hparts h hh).length_eq] at hle
    exact absurd hle (by decide)

/-- Taking at most as many characters as a hash has. -/
theorem take_min (data : Str) :
    data.take (if data.length > refLength then refLength else data.length) = data.take refLength := by
  split_ifs with h
  · rfl
  · rw [List.take_of_length_le (le_refl _), List.take_of_length_le (by omega)]

/-- The end of the stream after one more fragment. -/
theorem tail_put (stream data : Str) (tailLen : ℕ)
    (htail : tailLen = if data.length ≤ refLength then data.length else refLength) :
    (stream.drop (stream.length - refLength)).drop
        (if (stream.drop (stream.length - refLength)).length < refLength - tailLen then 0
          else (stream.drop (stream.length - refLength)).length - (refLength - tailLen)) ++
      (data.drop (data.length - tailLen)).take tailLen =
    (stream ++ data).drop ((stream ++ data).length - refLength) := by
  have hlength : refLength = 32 := rfl
  have hlast : (data.drop (data.length - tailLen)).take tailLen =
      data.drop (data.length - tailLen) := by
    apply List.take_of_length_le
    rw [List.length_drop]
    split_ifs at htail <;> omega
  rw [hlast, List.drop_drop, List.drop_append, List.length_drop, List.length_append]
  congr 1
  · rw [List.drop_eq_drop_iff]
    split_ifs at htail ⊢ <;> omega
  · congr 1
    split_ifs at htail <;> omega

/-- One piece of data, with the tail of those before it. -/
theorem Scanned.put {hashes : SortedSet Str} (hparts : ∀ h ∈ hashes, IsHashPart h) {stream : Str}
    {sink : RefScanSink} (h : Scanned hashes stream sink) {data : Str}
    (hsize : data.length + refLength < 2 ^ 32) :
    Scanned hashes (stream ++ data) (sink.put data) where
  contents := by
    rw [RefScanSink.put, HashSink.contents_put, h.contents]
  tail := by
    rw [RefScanSink.put, h.tail]
    exact tail_put stream data _ rfl
  found := by
    rw [RefScanSink.put, take_min, h.tail]
    set around := stream.drop (stream.length - refLength) ++ data.take refLength with haround
    have hshort : around.length + refLength < 2 ^ 32 := by
      rw [haround, List.length_append, List.length_drop, List.length_take, refLength]
      omega
    have hparts₁ : ∀ k ∈ sink.scan.hashes, IsHashPart k :=
      fun k hk => hparts k ((h.found.mem_hashes k).mp hk).1
    have hfound₁ := found_search hshort hparts₁
    have hparts₂ : ∀ k ∈ (search around sink.scan).hashes, IsHashPart k :=
      fun k hk => hparts₁ k ((hfound₁.mem_hashes k).mp hk).1
    have hfound₂ := found_search hsize hparts₂
    refine ((h.found.trans hfound₁).trans hfound₂).congr fun k hk => ?_
    have hmeet := isInfix_append_iff (s := stream) (d := data) (hparts k hk).length_eq
    rw [← haround] at hmeet
    tauto

/-- All the pieces of data. -/
theorem scanned_putAll {hashes : SortedSet Str} (hparts : ∀ h ∈ hashes, IsHashPart h)
    {fragments : List Str} (hsize : ∀ data ∈ fragments, data.length + refLength < 2 ^ 32) :
    Scanned hashes fragments.flatten ((init hashes).putAll fragments) := by
  unfold putAll
  induction fragments using List.reverseRecOn with
  | nil => exact scanned_init hparts
  | append_singleton fragments data ih =>
    rw [List.foldl_append, List.flatten_append]
    simp only [List.foldl_cons, List.foldl_nil, List.flatten_cons, List.flatten_nil, List.append_nil]
    refine (ih fun d hd => hsize d (List.mem_append_left _ hd)).put hparts ?_
    exact hsize data (List.mem_append_right _ (List.mem_singleton_self data))

/-- Every fragment has a length for which the counters of `search` do not overflow. -/
def ShortFragments (fragments : List Str) : Prop :=
  ∀ data ∈ fragments, data.length + refLength < 2 ^ 32

/-- A sink sees the hash parts that occur in the stream, and reports the hash of the stream; `search`
finds the same as a test of every offset. -/
theorem putAll_exact (sha256 : Str → Str) (hashes : SortedSet Str) (fragments : List Str)
    (hparts : ∀ h ∈ hashes, IsHashPart h) (hsize : ShortFragments fragments) :
    (∀ h, h ∈ ((init hashes).putAll fragments).scan.seen ↔
      h ∈ hashes ∧ h <:+: fragments.flatten) ∧
    ((init hashes).putAll fragments).hashSink.finish sha256 =
      (hashString sha256 fragments.flatten, fragments.flatten.length) ∧
    ∀ data ∈ fragments, ∀ scan : RefScan, (∀ h ∈ scan.hashes, IsHashPart h) → ∀ h,
      h ∈ (search data scan).seen ↔
        h ∈ scan.seen ∨ h ∈ scan.hashes ∧ ∃ o, o + refLength ≤ data.length ∧ window data o = h := by
  have hscanned := scanned_putAll hparts hsize
  refine ⟨fun h => ?_, ?_, fun data hdata scan hscan h => ?_⟩
  · rw [hscanned.found.mem_seen h]
    exact or_iff_right (SortedMap.notMem_empty h)
  · rw [HashSink.finish_eq, hscanned.contents]
  · rw [(found_search (hsize data hdata) hscan).mem_seen h]
    refine or_congr_right (and_congr_right fun hh => ?_)
    exact isInfix_iff_window (hscan h hh).length_eq

/-- A hash part. -/
def sampleHashPart : Str := List.replicate 32 '0'.toUInt8

/-- The sample is the hash part of a path. -/
theorem isHashPart_sampleHashPart : IsHashPart sampleHashPart where
  length_eq := rfl
  digits c hc := by
    rw [List.eq_of_mem_replicate hc]
    decide

/-- It is cut into three fragments, one of which is empty. -/
def sampleFragments : List Str :=
  [str "x" ++ sampleHashPart.take 20, [], sampleHashPart.drop 20 ++ str "x"]

/-- The sample is found across two pieces. -/
theorem putAll_exact_sampleFragments :
    sampleHashPart ∈ ((init (.ofList [sampleHashPart])).putAll sampleFragments).scan.seen := by
  have hparts : ∀ h ∈ SortedSet.ofList [sampleHashPart], IsHashPart h := by
    intro h hh
    obtain rfl | hh := SortedSet.mem_insert.mp hh
    · exact isHashPart_sampleHashPart
    · exact absurd hh (SortedMap.notMem_empty h)
  have hsize : ShortFragments sampleFragments := by
    intro data hdata
    have hle : data.length ≤ 21 := by
      revert data
      decide
    rw [refLength]
    omega
  refine ((putAll_exact id (.ofList [sampleHashPart]) sampleFragments hparts hsize).1 _).mpr ?_
  exact ⟨SortedSet.mem_insert.mpr (.inl rfl), by decide⟩

/-- A fragment of 4 GiB with a hash part in it. -/
def longFragment : Str :=
  List.replicate 100 33 ++ (sampleHashPart ++ List.replicate (2 ^ 32 - 132) 33)

/-- The length of such a fragment is zero as an `unsigned int`. -/
theorem seen_put_of_length {data : Str} (htake : data.take refLength = List.replicate 32 33)
    (hlen : data.length = 2 ^ 32) :
    ((init (.ofList [sampleHashPart])).put data).scan.seen = ∅ := by
  have hdata : ∀ scan, search data scan = scan := by
    intro scan
    unfold search
    rw [hlen]
    rfl
  have hstart : (search (List.replicate 32 33) ⟨.ofList [sampleHashPart], ∅⟩).seen = ∅ := by
    decide +kernel
  unfold put
  rw [take_min, htake]
  dsimp only
  rw [hdata]
  exact hstart

/-- In a piece whose length does not fit into 32 bits the sample is not found. -/
theorem not_putAll_exact_longFragment :
    ¬∀ h, h ∈ ((init (.ofList [sampleHashPart])).putAll [longFragment]).scan.seen ↔
      h ∈ SortedSet.ofList [sampleHashPart] ∧ h <:+: [longFragment].flatten := by
  intro hexact
  have hin : sampleHashPart <:+: longFragment :=
    ⟨List.replicate 100 33, List.replicate (2 ^ 32 - 132) 33, by rw [longFragment, List.append_assoc]⟩
  have htake : longFragment.take refLength = List.replicate 32 33 := by
    rw [longFragment, List.take_append_of_le_length (by rw [List.length_replicate, refLength]; omega),
      List.take_replicate]
    rfl
  have hlen : longFragment.length = 2 ^ 32 := by
    rw [longFragment, List.length_append, List.length_append, List.length_replicate,
      List.length_replicate, isHashPart_sampleHashPart.length_eq]
    rfl
  have hseen := (hexact sampleHashPart).mpr
    ⟨SortedSet.mem_insert.mpr (.inl rfl), by rwa [List.flatten_cons, List.flatten_nil, List.append_nil]⟩
  have hempty : ((init (.ofList [sampleHashPart])).putAll [longFragment]).scan.seen = ∅ :=
    seen_put_of_length htake hlen
  rw [hempty] at hseen
  exact SortedMap.notMem_empty _ hseen

end RefScanSink

end Nix
