import NixStore.Lib.Decimal
import NixStore.Lib.InputStream
import NixStore.Store.WorkerWire

/-!
# Registrations of validity

Model of `makeValidityRegistration`, which writes a group of lines for each path, and of
`decodeValidPathInfo`, which reads such a group from a stream.  Nothing in the text says where a group
ends: the lines are told apart by their number, and a group that is not complete is recognised by the
flags of the stream.
-/

namespace Nix

open IStream

/-! ### Writing -/

/-- What `makeValidityRegistration` writes about a path behind the line with the path. -/
def registrationLines (showDerivers showHash : Bool) (info : ValidPathInfo) : Str :=
  (if showHash then line (printHash info.hash) ++ line (decimal info.narSize) else []) ++
    (line (if showDerivers then info.deriver else []) ++
      (line (decimal info.references.toList.length) ++ info.references.toList.flatMap line))

/-- What `makeValidityRegistration` writes about a path. -/
def registrationEntry (showDerivers showHash : Bool) (path : Path) (info : ValidPathInfo) : Str :=
  line path ++ registrationLines showDerivers showHash info

/-- The loop of `makeValidityRegistration` over the paths. -/
def registerEntries (queryPathInfo : Path → Outcome Str ValidPathInfo) (showDerivers showHash : Bool)
    (paths : List Path) : Outcome Str Str :=
  paths.foldlM (fun s path => do
    let info ← queryPathInfo path
    return s ++ registrationEntry showDerivers showHash path info) []

/-- Model of `makeValidityRegistration`. -/
def makeValidityRegistration (queryPathInfo : Path → Outcome Str ValidPathInfo) (paths : PathSet)
    (showDerivers showHash : Bool) : Outcome Str Str :=
  registerEntries queryPathInfo showDerivers showHash paths.toList

/-! ### Reading -/

/-- A `ValidPathInfo` as it is constructed. -/
def ValidPathInfo.empty : ValidPathInfo := ⟨[], [], Hash.unusable, ∅, 0, 0⟩

/-- The loop over the references, which are read into the string that holds their number. -/
def decodeReferences : ℕ → IStream → Str → PathSet → PathSet × IStream
  | 0, st, _, references => (references, st)
  | n + 1, st, s, references =>
    let (st, s) := st.getline s
    decodeReferences n st s (references.insert s)

/-- The end of `decodeValidPathInfo`, from the number of references on.  A negative number is counted
down past zero. -/
def decodeCounted (path deriver : Path) (hash : Hash) (narSize : ℕ) (st : IStream) (s : Str) :
    Outcome Str (ValidPathInfo × IStream) :=
  match string2Int s with
  | none => .error (str "number expected")
  | some n =>
    if n < 0 then .diverge
    else
      let (references, st) := decodeReferences n.toNat st s ∅
      if st.fail || st.eof then .error (str "missing input")
      else .ok (⟨path, deriver, hash, references, 0, narSize⟩, st)

/-- The part of `decodeValidPathInfo` behind the hash. -/
def decodeRest (path : Path) (hash : Hash) (narSize : ℕ) (st : IStream) :
    Outcome Str (ValidPathInfo × IStream) :=
  let (st, deriver) := st.getline []
  let (st, s) := st.getline []
  decodeCounted path deriver hash narSize st s

/-- The part of `decodeValidPathInfo` from the size on, if there is one. -/
def decodeSized (path : Path) (hash : Hash) (st : IStream) (s : Str) :
    Outcome Str (ValidPathInfo × IStream) :=
  match string2ULongLong s with
  | none => .error (str "number expected")
  | some narSize => decodeRest path hash narSize st

/-- The part of `decodeValidPathInfo` behind the path; the hash and the size are read into one
string. -/
def decodeEntry (hashGiven : Bool) (path : Path) (st : IStream) :
    Outcome Str (ValidPathInfo × IStream) :=
  if hashGiven then do
    let (st, s) := st.getline []
    let hash ← parseHash .htSHA256 s
    let (st, s) := st.getline s
    decodeSized path hash st s
  else decodeRest path Hash.unusable 0 st

/-- Model of `decodeValidPathInfo`. -/
def decodeValidPathInfo (hashGiven : Bool) (st : IStream) : Outcome Str (ValidPathInfo × IStream) :=
  let (st, path) := st.getline []
  if st.eof then .ok (ValidPathInfo.empty, st) else decodeEntry hashGiven path st

/-- So many calls of `decodeValidPathInfo`. -/
def decodeValidPathInfos (hashGiven : Bool) :
    ℕ → IStream → Outcome Str (List ValidPathInfo × IStream)
  | 0, st => .ok ([], st)
  | n + 1, st => do
    let (info, st) ← decodeValidPathInfo hashGiven st
    let (infos, st) ← decodeValidPathInfos hashGiven n st
    return (info :: infos, st)

/-! ### Entries that are complete -/

/-- What the store knows about a path fits into the lines of a registration. -/
structure Registrable (path : Path) (info : ValidPathInfo) : Prop where
  path : '\n'.toUInt8 ∉ path
  deriver : '\n'.toUInt8 ∉ info.deriver
  references : ∀ r ∈ info.references.toList, '\n'.toUInt8 ∉ r
  count : info.references.toList.length < 2 ^ 31
  hash : FitHash info.hash
  narSize : info.narSize < 2 ^ 64

/-- What a registration shows of what the store knows about a path. -/
def ValidPathInfo.shown (showDerivers showHash : Bool) (path : Path) (info : ValidPathInfo) :
    ValidPathInfo where
  path := path
  deriver := if showDerivers then info.deriver else []
  hash := if showHash then info.hash else Hash.unusable
  references := info.references
  registrationTime := 0
  narSize := if showHash then info.narSize else 0

section Entry

variable {path deriver : Path} {hash : Hash} {narSize n : ℕ} {references : List Path} {st : IStream}
  {info : ValidPathInfo} {showDerivers showHash : Bool} {rest s t : Str}

/-- A decimal number has no newline. -/
theorem newline_notMem_decimal (n : ℕ) : '\n'.toUInt8 ∉ decimal n := notMem_decimal (by decide) n

/-- A printed hash has no newline. -/
theorem newline_notMem_printHash (hash : Hash) : '\n'.toUInt8 ∉ printHash hash := fun hmem =>
  absurd (mem_base16Chars_of_mem_printHash hmem) (by decide)

/-- What is written of the deriver has no newline. -/
theorem Registrable.deriver_shown (h : Registrable path info) (showDerivers : Bool) :
    '\n'.toUInt8 ∉ (if showDerivers then info.deriver else []) := by
  split_ifs
  · exact h.deriver
  · exact List.not_mem_nil

/-- The lines of the references are read back. -/
theorem decodeReferences_lines (h : ∀ r ∈ references, '\n'.toUInt8 ∉ r) (rest s : Str)
    (found : PathSet) :
    decodeReferences references.length (ofStr (references.flatMap line ++ rest)) s found =
      (references.foldl SortedSet.insert found, ofStr rest) := by
  induction references generalizing s found with
  | nil => rfl
  | cons r references ih =>
    rw [List.flatMap_cons, List.append_assoc, List.length_cons, decodeReferences,
      getline_line (h r List.mem_cons_self)]
    exact ih (fun r' hr' => h r' (List.mem_cons_of_mem r hr')) r _

/-- Behind the hash, a complete entry is read up to its end. -/
theorem decodeRest_lines (hderiver : '\n'.toUInt8 ∉ deriver)
    (hreferences : ∀ r ∈ references, '\n'.toUInt8 ∉ r) (hcount : references.length < 2 ^ 31) :
    decodeRest path hash narSize (ofStr (line deriver ++ (line (decimal references.length) ++
        (references.flatMap line ++ rest)))) =
      .ok (⟨path, deriver, hash, SortedSet.ofList references, 0, narSize⟩, ofStr rest) := by
  have hn : ¬ ((references.length : ℤ) < 0) := by omega
  rw [decodeRest, getline_line hderiver]
  dsimp only
  rw [getline_line (newline_notMem_decimal _)]
  dsimp only
  rw [decodeCounted, string2Int_decimal, if_pos hcount]
  dsimp only
  rw [if_neg hn, Int.toNat_natCast, decodeReferences_lines hreferences]
  rfl

/-- Behind the path, a complete entry is read up to its end. -/
theorem decodeEntry_lines (h : Registrable path info) :
    decodeEntry showHash path (ofStr (registrationLines showDerivers showHash info ++ rest)) =
      .ok (info.shown showDerivers showHash path, ofStr rest) := by
  have hread : ∀ (hash : Hash) (narSize : ℕ), decodeRest path hash narSize
      (ofStr (line (if showDerivers then info.deriver else []) ++
        (line (decimal info.references.toList.length) ++
          (info.references.toList.flatMap line ++ rest)))) =
      .ok (⟨path, if showDerivers then info.deriver else [], hash, info.references, 0, narSize⟩,
        ofStr rest) := by
    intro hash narSize
    rw [decodeRest_lines (h.deriver_shown showDerivers) h.references h.count,
      SortedSet.ofList_toList]
  rw [registrationLines]
  simp only [List.append_assoc]
  cases showHash with
  | false => exact hread Hash.unusable 0
  | true =>
    rw [decodeEntry, if_pos rfl, if_pos rfl, List.append_assoc, getline_line (newline_notMem_printHash _)]
    dsimp only
    rw [h.hash.parseHash_eq, Outcome.ok_bind, getline_line (newline_notMem_decimal _)]
    dsimp only
    rw [decodeSized, string2ULongLong_decimal h.narSize]
    exact hread info.hash info.narSize

/-- An entry is read up to its end. -/
theorem decodeValidPathInfo_entry (h : Registrable path info) :
    decodeValidPathInfo showHash (ofStr (registrationEntry showDerivers showHash path info ++ rest)) =
      .ok (info.shown showDerivers showHash path, ofStr rest) := by
  rw [decodeValidPathInfo, registrationEntry, List.append_assoc, getline_line h.path]
  exact decodeEntry_lines h

/-- At the end of the input there is no path. -/
theorem decodeValidPathInfo_nil (hashGiven : Bool) :
    decodeValidPathInfo hashGiven (ofStr []) = .ok (ValidPathInfo.empty, ⟨[], true, true⟩) := rfl

/-! ### Entries that are cut off -/

/-- From a stream that is not good no references make it so. -/
theorem not_good_decodeReferences (h : st.good = false) (n : ℕ) (s : Str) (found : PathSet) :
    (decodeReferences n st s found).2.good = false := by
  induction n generalizing st s found with
  | zero => exact h
  | succ n ih =>
    rw [decodeReferences]
    exact ih (not_good_getline h s) _ _

/-- References that are cut off leave a flag set. -/
theorem not_good_decodeReferences_cut (h : ∀ r ∈ references, '\n'.toUInt8 ∉ r)
    (ht : t <+: references.flatMap line) (hne : t ≠ references.flatMap line) (s : Str)
    (found : PathSet) : (decodeReferences references.length (ofStr t) s found).2.good = false := by
  induction references generalizing t s found with
  | nil => exact absurd (List.prefix_nil.mp ht) hne
  | cons r references ih =>
    have hr := h r List.mem_cons_self
    rw [List.flatMap_cons] at ht hne
    rw [List.length_cons, decodeReferences]
    rcases cut_line ht hne with ht | ⟨t, rfl, ht, hne⟩
    · have hst : ((ofStr t).getline s).1.good = false := by
        rw [getline_last fun hmem => hr (ht.subset hmem)]
        rfl
      exact not_good_decodeReferences hst _ _ _
    · rw [getline_line hr]
      exact ih (fun r' hr' => h r' (List.mem_cons_of_mem r hr')) ht hne _ _

/-- With a flag set after the loop, input is missing. -/
theorem decodeCounted_of_flag (hn : string2Int s = some (n : ℤ))
    (hflag : (decodeReferences n st s ∅).2.good = false) :
    ∃ e, decodeCounted path deriver hash narSize st s = .error e := by
  refine ⟨str "missing input", ?_⟩
  have hflags : ((decodeReferences n st s ∅).2.fail || (decodeReferences n st s ∅).2.eof) = true := by
    rw [good] at hflag
    cases hfail : (decodeReferences n st s ∅).2.fail
    · rw [hfail] at hflag
      simpa using hflag
    · rfl
  have hnonneg : ¬ ((n : ℤ) < 0) := by omega
  rw [decodeCounted, hn]
  dsimp only
  rw [if_neg hnonneg, Int.toNat_natCast, if_pos hflags]

/-- A number that is cut off is a smaller number of references, or none. -/
theorem decodeCounted_cut (ht : t <+: decimal n) (h : st.good = false) :
    ∃ e, decodeCounted path deriver hash narSize st t = .error e := by
  by_cases hnil : t = []
  · rw [hnil]
    exact ⟨_, rfl⟩
  have hall : t.all isDigit = true := List.all_eq_true.mpr fun c hc =>
    List.all_eq_true.mp (decimal_spec n).2.1 c (ht.subset hc)
  have hstring := string2Int_digits hnil hall
  split_ifs at hstring
  · exact decodeCounted_of_flag hstring (not_good_decodeReferences h _ _ _)
  · rw [decodeCounted, hstring]
    exact ⟨_, rfl⟩

/-- From a stream that is not good the rest is an error. -/
theorem decodeRest_not_good (h : st.good = false) :
    ∃ e, decodeRest path hash narSize st = .error e := by
  have hnot := not_good_getline h []
  rw [decodeRest]
  dsimp only
  rw [getline_of_not_good hnot]
  exact ⟨_, rfl⟩

/-- From a stream that is not good the sized part is an error. -/
theorem decodeSized_not_good (h : st.good = false) :
    ∃ e, decodeSized path hash st s = .error e := by
  rw [decodeSized]
  cases string2ULongLong s with
  | none => exact ⟨_, rfl⟩
  | some narSize => exact decodeRest_not_good h

/-- `parseHash` returns or throws. -/
theorem parseHash_cases (ht : HashType) (s : Str) :
    (∃ e, parseHash ht s = .error e) ∨ ∃ h, parseHash ht s = .ok h := by
  cases hparse : parseHash ht s with
  | ok h => exact Or.inr ⟨h, rfl⟩
  | error e => exact Or.inl ⟨e, rfl⟩
  | diverge =>
    unfold parseHash at hparse
    split at hparse
    · cases hparse
    · split_ifs at hparse
      split at hparse <;> cases hparse

/-- A rest that was cut off is an error. -/
theorem decodeRest_cut (hderiver : '\n'.toUInt8 ∉ deriver)
    (hreferences : ∀ r ∈ references, '\n'.toUInt8 ∉ r) (hcount : references.length < 2 ^ 31)
    (ht : t <+: line deriver ++ (line (decimal references.length) ++ references.flatMap line))
    (hne : t ≠ line deriver ++ (line (decimal references.length) ++ references.flatMap line)) :
    ∃ e, decodeRest path hash narSize (ofStr t) = .error e := by
  rcases cut_line ht hne with ht | ⟨t, rfl, ht, hne⟩
  · rw [decodeRest, getline_last fun hmem => hderiver (ht.subset hmem)]
    exact ⟨_, rfl⟩
  rw [decodeRest, getline_line hderiver]
  dsimp only
  rcases cut_line ht hne with ht | ⟨t, rfl, ht, hne⟩
  · rw [getline_last fun hmem => newline_notMem_decimal _ (ht.subset hmem)]
    exact decodeCounted_cut ht rfl
  · rw [getline_line (newline_notMem_decimal _)]
    refine decodeCounted_of_flag (n := references.length) ?_ ?_
    · rw [string2Int_decimal, if_pos hcount]
    · exact not_good_decodeReferences_cut hreferences ht hne _ _

/-- An entry that is cut off behind its first line is not accepted. -/
theorem decodeEntry_cut (h : Registrable path info)
    (ht : t <+: registrationLines showDerivers showHash info)
    (hne : t ≠ registrationLines showDerivers showHash info) :
    ∃ e, decodeEntry showHash path (ofStr t) = .error e := by
  have hrest : ∀ (hash : Hash) (narSize : ℕ) (t : Str),
      t <+: line (if showDerivers then info.deriver else []) ++
        (line (decimal info.references.toList.length) ++ info.references.toList.flatMap line) →
      t ≠ line (if showDerivers then info.deriver else []) ++
        (line (decimal info.references.toList.length) ++ info.references.toList.flatMap line) →
      ∃ e, decodeRest path hash narSize (ofStr t) = .error e := fun hash narSize t =>
    decodeRest_cut (h.deriver_shown showDerivers) h.references h.count
  rw [registrationLines] at ht hne
  cases showHash with
  | false => exact hrest Hash.unusable 0 t ht hne
  | true =>
    rw [if_pos rfl, List.append_assoc] at ht hne
    rw [decodeEntry, if_pos rfl]
    rcases cut_line ht hne with ht | ⟨t, rfl, ht, hne⟩
    · -- the size is read from the string that holds the hash
      rw [getline_last fun hmem => newline_notMem_printHash _ (ht.subset hmem)]
      dsimp only
      rcases parseHash_cases .htSHA256 t with ⟨e, he⟩ | ⟨hash, hok⟩
      · rw [he]
        exact ⟨e, rfl⟩
      · rw [hok, Outcome.ok_bind]
        exact decodeSized_not_good rfl
    · rw [getline_line (newline_notMem_printHash _)]
      dsimp only
      rw [h.hash.parseHash_eq, Outcome.ok_bind]
      rcases cut_line ht hne with ht | ⟨t, rfl, ht, hne⟩
      · rw [getline_last fun hmem => newline_notMem_decimal _ (ht.subset hmem)]
        exact decodeSized_not_good rfl
      · rw [getline_line (newline_notMem_decimal _)]
        dsimp only
        rw [decodeSized, string2ULongLong_decimal h.narSize]
        exact hrest info.hash info.narSize t ht hne

end Entry

/-! ### The whole registration -/

/-- The entries of a registration, each with what the store knows about its path. -/
def registrationText (showDerivers showHash : Bool) (infos : List (Path × ValidPathInfo)) : Str :=
  infos.flatMap fun p => registrationEntry showDerivers showHash p.1 p.2

section Whole

variable {queryPathInfo : Path → Outcome Str ValidPathInfo} {showDerivers showHash : Bool}

/-- A registration consists of one entry for each path. -/
theorem registerEntries_eq_ok {paths : List Path} {s : Str}
    (h : registerEntries queryPathInfo showDerivers showHash paths = .ok s) :
    ∃ infos : List (Path × ValidPathInfo), infos.map Prod.fst = paths ∧
      (∀ p ∈ infos, queryPathInfo p.1 = .ok p.2) ∧
        s = registrationText showDerivers showHash infos := by
  have hloop : ∀ (paths : List Path) (s₀ s : Str), paths.foldlM (fun s path => do
      let info ← queryPathInfo path
      return s ++ registrationEntry showDerivers showHash path info) s₀ = .ok s →
      ∃ infos : List (Path × ValidPathInfo), infos.map Prod.fst = paths ∧
        (∀ p ∈ infos, queryPathInfo p.1 = .ok p.2) ∧
          s = s₀ ++ registrationText showDerivers showHash infos := by
    intro paths
    induction paths with
    | nil =>
      intro s₀ s h
      cases h
      exact ⟨[], rfl, by simp, (List.append_nil _).symm⟩
    | cons path paths ih =>
      intro s₀ s h
      rw [List.foldlM_cons] at h
      obtain ⟨s₁, hs₁, h⟩ := Outcome.bind_eq_ok.mp h
      obtain ⟨info, hinfo, hs₁⟩ := Outcome.bind_eq_ok.mp hs₁
      obtain rfl := Outcome.ok.inj hs₁
      obtain ⟨infos, hpaths, hquery, rfl⟩ := ih _ _ h
      refine ⟨(path, info) :: infos, by rw [List.map_cons, hpaths], ?_, ?_⟩
      · intro p hp
        rcases List.mem_cons.mp hp with rfl | hp
        · exact hinfo
        · exact hquery p hp
      · rw [List.append_assoc]
        rfl
  exact hloop paths [] s h

/-- Complete entries are read one after the other. -/
theorem decodeValidPathInfos_text (showDerivers showHash : Bool)
    {infos : List (Path × ValidPathInfo)} (h : ∀ p ∈ infos, Registrable p.1 p.2) (rest : Str) (n : ℕ) :
    decodeValidPathInfos showHash (infos.length + n)
        (ofStr (registrationText showDerivers showHash infos ++ rest)) = do
      let (last, st) ← decodeValidPathInfos showHash n (ofStr rest)
      return (infos.map (fun p => p.2.shown showDerivers showHash p.1) ++ last, st) := by
  induction infos with
  | nil =>
    rw [registrationText, List.flatMap_nil, List.nil_append, List.length_nil, Nat.zero_add]
    cases decodeValidPathInfos showHash n (ofStr rest) <;> rfl
  | cons p infos ih =>
    have hp := h p List.mem_cons_self
    rw [List.length_cons, Nat.add_right_comm, decodeValidPathInfos, registrationText,
      List.flatMap_cons, List.append_assoc, decodeValidPathInfo_entry hp, Outcome.ok_bind]
    dsimp only
    rw [← registrationText, ih fun q hq => h q (List.mem_cons_of_mem p hq)]
    cases decodeValidPathInfos showHash n (ofStr rest) <;> rfl

/-- Registrations round-trip: they are decoded into one `ValidPathInfo` for each path and one that
stands for the end, and with an entry that is cut off behind its first line, decoding throws. -/
theorem decode_makeValidityRegistration {paths : PathSet} {s : Str}
    (h : makeValidityRegistration queryPathInfo paths showDerivers showHash = .ok s)
    (hfits : ∀ path ∈ paths, ∀ info, queryPathInfo path = .ok info → Registrable path info) :
    ∃ infos : List (Path × ValidPathInfo), infos.map Prod.fst = paths.toList ∧
      (∀ p ∈ infos, queryPathInfo p.1 = .ok p.2) ∧ s = registrationText showDerivers showHash infos ∧
      decodeValidPathInfos showHash (infos.length + 1) (ofStr s) =
        .ok (infos.map (fun p => p.2.shown showDerivers showHash p.1) ++ [ValidPathInfo.empty],
          ⟨[], true, true⟩) ∧
      ∀ before p after, infos = before ++ p :: after →
        ∀ m, p.1.length < m → m < (registrationEntry showDerivers showHash p.1 p.2).length →
        ∀ input, input = registrationText showDerivers showHash before ++
          (registrationEntry showDerivers showHash p.1 p.2).take m →
        (∃ st, decodeValidPathInfos showHash before.length (ofStr input) =
          .ok (before.map fun p => p.2.shown showDerivers showHash p.1, st)) ∧
        ∀ n, ∃ e, decodeValidPathInfos showHash (before.length + 1 + n) (ofStr input) = .error e := by
  obtain ⟨infos, hpaths, hquery, rfl⟩ := registerEntries_eq_ok h
  have hinfos : ∀ p ∈ infos, Registrable p.1 p.2 := fun p hp =>
    hfits p.1 (by
      rw [← SortedSet.mem_toList, ← hpaths]
      exact List.mem_map_of_mem hp) p.2 (hquery p hp)
  refine ⟨infos, hpaths, hquery, rfl, ?_, ?_⟩
  · have hread := decodeValidPathInfos_text showDerivers showHash hinfos [] 1
    rw [List.append_nil] at hread
    rw [hread, decodeValidPathInfos, decodeValidPathInfo_nil]
    rfl
  · rintro before p after rfl m hpm hm input rfl
    have hbefore : ∀ q ∈ before, Registrable q.1 q.2 := fun q hq =>
      hinfos q (List.mem_append_left _ hq)
    have hp := hinfos p (List.mem_append_right _ List.mem_cons_self)
    refine ⟨?_, fun n => ?_⟩
    · have hread := decodeValidPathInfos_text showDerivers showHash hbefore
        ((registrationEntry showDerivers showHash p.1 p.2).take m) 0
      rw [Nat.add_zero] at hread
      refine ⟨ofStr ((registrationEntry showDerivers showHash p.1 p.2).take m), hread.trans ?_⟩
      rw [decodeValidPathInfos, Outcome.ok_bind]
      dsimp only
      rw [List.append_nil]
      rfl
    · obtain ⟨t, ht, hprefix, hne⟩ : ∃ t,
          (registrationEntry showDerivers showHash p.1 p.2).take m = line p.1 ++ t ∧
            t <+: registrationLines showDerivers showHash p.2 ∧
              t ≠ registrationLines showDerivers showHash p.2 := by
        refine ⟨(registrationLines showDerivers showHash p.2).take (m - (line p.1).length), ?_,
          List.take_prefix _ _, fun heq => ?_⟩
        · rw [registrationEntry, List.take_append, List.take_of_length_le]
          rw [length_line]
          exact hpm
        · have hlength := congrArg List.length heq
          rw [List.length_take] at hlength
          rw [registrationEntry, List.length_append] at hm
          rw [length_line] at hm hlength
          omega
      obtain ⟨e, he⟩ := decodeEntry_cut hp hprefix hne
      refine ⟨e, ?_⟩
      rw [Nat.add_assoc, Nat.add_comm 1, decodeValidPathInfos_text showDerivers showHash hbefore, ht,
        decodeValidPathInfos, decodeValidPathInfo, getline_line hp.path]
      dsimp only [ofStr]
      rw [show decodeEntry showHash p.1 ⟨t, false, false⟩ = .error e from he]
      rfl

/-- A store that knows about two paths, of which the first one has a deriver and the second one refers to
the first one. -/
def sampleQuery (path : Path) : Outcome Str ValidPathInfo :=
  if path = str "/nix/store/a" then
    .ok ⟨path, str "/nix/store/a.drv", ⟨.htSHA256, List.replicate 32 0⟩, .ofList [path], 1, 120⟩
  else if path = str "/nix/store/b" then
    .ok ⟨path, [], ⟨.htSHA256, List.replicate 32 1⟩, .ofList [str "/nix/store/a", path], 2, 240⟩
  else .error (str "path `" ++ path ++ str "' is not valid")

/-- The two paths. -/
def samplePaths : PathSet := .ofList [str "/nix/store/b", str "/nix/store/a"]

/-- Two entries are decoded in the order of their paths. -/
theorem decode_makeValidityRegistration_sample :
    ∃ s info info', makeValidityRegistration sampleQuery samplePaths true true = .ok s ∧
      decodeValidPathInfos true 3 (ofStr s) = .ok ([ValidPathInfo.shown true true (str "/nix/store/a") info,
        ValidPathInfo.shown true true (str "/nix/store/b") info', ValidPathInfo.empty],
          ⟨[], true, true⟩) := by
  have hfits : ∀ path ∈ samplePaths, ∀ info, sampleQuery path = .ok info → Registrable path info := by
    intro path hpath info hinfo
    have hcases : path = str "/nix/store/b" ∨ path = str "/nix/store/a" := by
      simpa [samplePaths] using hpath
    rcases hcases with rfl | rfl
    · cases hinfo
      exact ⟨by decide, by decide, by decide, by decide, ⟨rfl, rfl⟩, by decide⟩
    · cases hinfo
      exact ⟨by decide, by decide, by decide, by decide, ⟨rfl, rfl⟩, by decide⟩
  obtain ⟨s, hs⟩ : ∃ s, makeValidityRegistration sampleQuery samplePaths true true = .ok s := ⟨_, rfl⟩
  obtain ⟨infos, hpaths, -, -, hdecode, -⟩ := decode_makeValidityRegistration hs hfits
  have hlist : samplePaths.toList = [str "/nix/store/a", str "/nix/store/b"] := by decide
  rw [hlist] at hpaths
  obtain ⟨p, infos, rfl, hp, hpaths⟩ := List.map_eq_cons_iff.mp hpaths
  obtain ⟨q, infos, rfl, hq, hpaths⟩ := List.map_eq_cons_iff.mp hpaths
  obtain rfl := List.map_eq_nil_iff.mp hpaths
  rw [← hp, ← hq]
  exact ⟨s, p.2, q.2, hs, hdecode⟩

end Whole

end Nix
