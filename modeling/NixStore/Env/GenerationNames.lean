import NixStore.Env.ProfileRuns

/-!
# Directories of generations

The names that `parseName` takes for generations of a profile: the dash behind the name of the profile
is followed by a text that `string2Int` accepts and by `-link`, and then by anything.  So leading
zeros, signs, spaces and whatever stands behind `-link` are overlooked, and in particular what an
interrupted `createSymlink` leaves is taken for the generation.  A directory is understood exactly if
it has no such names.
-/

namespace Nix

/-! ### What is read -/

section

variable {P : Str} {names : List Str}

/-- The parts of a name of a generation. -/
theorem generationName_append (num rest : Str) :
    P ++ str "-" ++ num ++ str "-link" ++ rest = (P ++ str "-") ++ (num ++ (str "-link" ++ rest)) := by
  simp only [List.append_assoc]

/-- A number has no `-link` in it. -/
theorem findString_link {num : Str} {n : ℤ} (h : string2Int num = some n) (rest : Str) :
    findString (str "-link") (num ++ (str "-link" ++ rest)) = some num.length := by
  obtain ⟨front, digits, rfl, hfront, hne, hall⟩ := spec_of_string2Int h
  refine findString_append ?_ ?_
  · intro hmem
    rcases List.mem_append.mp hmem with hmem | hmem
    · exact absurd (hfront _ hmem) (by decide)
    · exact absurd (List.all_eq_true.mp hall _ hmem) (by decide)
  · rw [List.getLast?_append, List.getLast?_eq_some_getLast hne, Option.some_or]
    intro heq
    rw [Option.some.injEq] at heq
    have hdigit := List.all_eq_true.mp hall _ (List.getLast_mem hne)
    rw [heq] at hdigit
    exact absurd hdigit (by decide)

/-- All names that are read as a number. -/
theorem parseName_eq_some {name : Str} {n : ℕ} : parseName P name = some n ↔
    ∃ num rest, name = P ++ str "-" ++ num ++ str "-link" ++ rest ∧ string2Int num = some (n : ℤ) := by
  have hlen : (P ++ str "-").length = P.length + 1 := by
    rw [List.length_append]
    rfl
  constructor
  · intro h
    unfold parseName at h
    split_ifs at h with hstart
    rw [not_not] at hstart
    dsimp only at h
    cases hfind : findString (str "-link") (name.drop (P.length + 1)) with
    | none =>
      rw [hfind] at h
      cases h
    | some p =>
      rw [hfind] at h
      dsimp only at h
      obtain ⟨rest, hrest⟩ := findString_spec hfind
      cases hnum : string2Int ((name.drop (P.length + 1)).take p) with
      | none =>
        rw [hnum] at h
        cases h
      | some k =>
        rw [hnum] at h
        dsimp only at h
        split_ifs at h with hk
        refine ⟨(name.drop (P.length + 1)).take p, rest, ?_, ?_⟩
        · rw [generationName_append, ← hrest, ← hstart, List.take_append_drop]
        · rw [hnum, ← Option.some.inj h, Int.toNat_of_nonneg hk]
  · rintro ⟨num, rest, rfl, hnum⟩
    unfold parseName
    rw [generationName_append, List.take_left' hlen, if_neg (by simp), List.drop_left' hlen]
    dsimp only
    rw [findString_link hnum rest]
    dsimp only
    rw [List.take_left' rfl, hnum]
    dsimp only
    rw [if_pos (Int.natCast_nonneg n), Int.toNat_natCast]

/-! ### What a directory means -/

/-- The generations of a profile are read as they are named, each once, and the next one gets a number
that is not in use and larger than the others.  The numbers that a name can be made of are those of an
`unsigned int`. -/
structure NamesRoundTrip (P : Str) (names : List Str) : Prop where
  parse : ∀ name ∈ names, ∀ n < 2 ^ 32, parseName P name = some n ↔ name = makeName P n
  found : ∀ gen : Generation, gen.number < 2 ^ 32 →
    (gen ∈ findGenerations P names ↔ gen.name ∈ names ∧ gen.name = makeName P gen.number)
  once : ((findGenerations P names).map (·.number)).Nodup
  unused : makeName P (lastNumber (findGenerations P names) + 1) ∉ names
  larger : ∀ n < 2 ^ 32, makeName P n ∈ names → n < lastNumber (findGenerations P names) + 1

/-- Whatever looks like a generation is written as `makeName` writes it, with a number that is an
`int`. -/
structure OnlyGenerations (P : Str) (names : List Str) : Prop where
  canonical : ∀ num rest, P ++ str "-" ++ num ++ str "-link" ++ rest ∈ names →
    ∀ n : ℕ, string2Int num = some (n : ℤ) → num = decimal n ∧ rest = []
  fits : ∀ n < 2 ^ 32, makeName P n ∈ names → n < 2 ^ 31

/-- Such names are read as they are written. -/
theorem OnlyGenerations.parse (h : OnlyGenerations P names) {name : Str} (hname : name ∈ names)
    {n : ℕ} (hlt : n < 2 ^ 32) : parseName P name = some n ↔ name = makeName P n := by
  constructor
  · intro hn
    obtain ⟨num, rest, rfl, hnum⟩ := parseName_eq_some.mp hn
    obtain ⟨rfl, rfl⟩ := h.canonical num rest hname n hnum
    rw [List.append_nil, makeName_of_lt hlt]
  · rintro rfl
    exact parseName_makeName (h.fits n hlt hname)

/-- The number of a generation is an `unsigned int`. -/
theorem number_lt {g : Generation} (hg : g ∈ findGenerations P names) : g.number < 2 ^ 32 := by
  have hlt := lt_of_parseName (mem_findGenerations.mp hg).2
  omega

/-- Two generations with the same number have the same name. -/
theorem OnlyGenerations.once (h : OnlyGenerations P names) (hnodup : names.Nodup) :
    ((findGenerations P names).map (·.number)).Nodup := by
  have hnames := ProfileState.nodup_map_findGenerations (P := P) hnodup
  rw [List.Nodup, List.pairwise_map] at hnames ⊢
  refine hnames.imp_of_mem fun {g g'} hg hg' hne heq => hne ?_
  obtain ⟨hmem, hn⟩ := mem_findGenerations.mp hg
  obtain ⟨hmem', hn'⟩ := mem_findGenerations.mp hg'
  rw [(h.parse hmem (number_lt hg)).mp hn, (h.parse hmem' (number_lt hg')).mp hn', heq]

/-- The number after the last one is an `unsigned int`. -/
theorem lastNumber_succ_lt (P : Str) (names : List Str) :
    lastNumber (findGenerations P names) + 1 < 2 ^ 32 := by
  rcases lastNumber_spec P names with hzero | ⟨name, -, hn⟩
  · rw [hzero]
    decide
  · have hlt := lt_of_parseName hn
    omega

/-- The names in a directory round-trip exactly when everything in it that looks like a generation is
one. -/
theorem namesRoundTrip_iff (hnodup : names.Nodup) :
    NamesRoundTrip P names ↔ OnlyGenerations P names := by
  constructor
  · intro h
    refine ⟨fun num rest hmem n hnum => ?_, fun n hlt hmem => ?_⟩
    · have hlt : n < 2 ^ 32 := by
        have hlt := lt_of_string2Int hnum
        omega
      have heq := (h.parse _ hmem n hlt).mp (parseName_eq_some.mpr ⟨num, rest, rfl, hnum⟩)
      rw [← List.append_nil (makeName P n), makeName_of_lt hlt, generationName_append,
        generationName_append] at heq
      have htext := List.append_cancel_left heq
      -- both sides have their first `-link` behind the number
      have hlength : num.length = (decimal n).length := by
        have hfind := findString_link hnum rest
        rw [htext, findString_decimal] at hfind
        exact (Option.some.inj hfind).symm
      obtain ⟨hleft, hright⟩ := List.append_inj htext hlength
      exact ⟨hleft, List.append_cancel_left hright⟩
    · exact lt_of_parseName ((h.parse _ hmem n hlt).mpr rfl)
  · intro h
    have hlarger : ∀ n < 2 ^ 32, makeName P n ∈ names → n < lastNumber (findGenerations P names) + 1 :=
      fun n hlt hmem =>
        Nat.lt_succ_of_le (le_lastNumber hmem (parseName_makeName (h.fits n hlt hmem)))
    refine ⟨fun name hname n hlt => h.parse hname hlt, fun gen hlt => ?_, h.once hnodup,
      fun hmem => ?_, hlarger⟩
    · rw [mem_findGenerations]
      exact and_congr_right fun hmem => h.parse hmem hlt
    · exact lt_irrefl _ (hlarger _ (lastNumber_succ_lt P names) hmem)

/-- A number with a leading zero is read like one without. -/
theorem not_namesRoundTrip_leadingZero : ¬ NamesRoundTrip (str "p") [str "p-05-link"] := by
  rw [namesRoundTrip_iff (List.nodup_singleton _)]
  intro h
  exact absurd (h.canonical (str "05") [] (by decide) 5 (by decide)).1 (by decide)

/-- What an interrupted `createSymlink` leaves is taken for a generation. -/
theorem not_namesRoundTrip_tempLink : ¬ ∀ (P : Str) (names : List Str), names.Nodup →
    NamesRoundTrip P names := by
  intro h
  have hparse := (h (str "p") [tempLink (makeName (str "p") 5) 1 2] (List.nodup_singleton _)).parse _
    (List.mem_singleton_self _) 5 (by decide)
  have heq := hparse.mp (parseName_tempLink (by decide) 1 2)
  exact makeName_ne_tempLink _ _ _ _ _ heq.symm

end

end Nix
