import NixStore.Derivations.Basic

/-!
# Requests for outputs of derivations

How the path of a derivation and the ids of the outputs that are wanted of it are written as one
string, `/nix/store/abc-foo.drv!out,dev`, and read back.  Both ways together are the identity if the
path has no `!` and the ids are not empty and have no comma (`parseDrvPathWithOutputs_make`).
-/

namespace Nix

/-- Model of `concatStringsSep`; there is no separator as long as the result is empty. -/
def concatStringsSep (sep : Str) (ss : List Str) : Str :=
  ss.foldl (fun s i => (if s ≠ [] then s ++ sep else s) ++ i) []

/-- Model of `makeDrvPathWithOutputs`. -/
def makeDrvPathWithOutputs (drvPath : Path) (outputs : SortedSet Str) : Str :=
  if outputs = ∅ then drvPath
  else drvPath ++ str "!" ++ concatStringsSep (str ",") outputs.toList

/-- Model of `wantOutput`. -/
def wantOutput (output : Str) (wanted : SortedSet Str) : Bool :=
  decide (wanted = ∅) || decide (output ∈ wanted)

/-- The texts behind the first one, each with a separator before it. -/
theorem foldl_concatStringsSep {sep s : Str} (hs : s ≠ []) (ss : List Str) :
    ss.foldl (fun s i => (if s ≠ [] then s ++ sep else s) ++ i) s =
      s ++ ss.flatMap (sep ++ ·) := by
  induction ss generalizing s with
  | nil => simp
  | cons i ss ih =>
    rw [List.foldl_cons, if_pos hs, ih (by simp [hs]), List.flatMap_cons]
    simp only [List.append_assoc]

section

variable {separator : UInt8 → Bool}

/-- A token in front of a separator, or at the end. -/
theorem tokens_append {a rest : Str} (ha : a ≠ []) (hsep : ∀ c ∈ a, separator c = false)
    (hrest : ∀ c ∈ rest.head?, separator c = true) (n : ℕ) :
    tokens separator (n + 1) (a ++ rest) = a :: tokens separator n rest := by
  obtain ⟨c, s, rfl⟩ := List.exists_cons_of_ne_nil ha
  have hc : separator c = false := hsep c List.mem_cons_self
  have hs : ∀ b ∈ s, (!separator b) = true := fun b hb => by
    rw [hsep b (List.mem_cons_of_mem c hb)]
    rfl
  have hdrop : (c :: s ++ rest).dropWhile separator = c :: (s ++ rest) := by
    rw [List.cons_append, List.dropWhile_cons, hc]
    rfl
  have htake : rest.takeWhile (fun b => !separator b) = [] := by
    cases rest with
    | nil => rfl
    | cons b rest => simp [hrest b rfl]
  have hleft : rest.dropWhile (fun b => !separator b) = rest := by
    cases rest with
    | nil => rfl
    | cons b rest => simp [hrest b rfl]
  simp only [tokens, hdrop]
  rw [List.takeWhile_append_of_pos hs, List.dropWhile_append_of_pos hs, htake, hleft,
    List.append_nil]

/-- A token is not empty and has no separator in it. -/
theorem spec_of_mem_tokens {n : ℕ} {s t : Str} (h : t ∈ tokens separator n s) :
    t ≠ [] ∧ ∀ c ∈ t, separator c = false := by
  induction n generalizing s with
  | zero => simp [tokens] at h
  | succ n ih =>
    rw [tokens] at h
    split at h
    · simp at h
    · rename_i c s' hdrop
      rcases List.mem_cons.mp h with rfl | h
      · refine ⟨by simp, fun b hb => ?_⟩
        rcases List.mem_cons.mp hb with rfl | hb
        · have hhead := List.head?_dropWhile_not separator s
          rw [hdrop] at hhead
          simpa using hhead
        · simpa using List.mem_takeWhile_imp hb
      · exact ih h

/-- A separator in front of a token is skipped. -/
theorem tokens_separator {c : UInt8} (hc : separator c = true) (n : ℕ) (s : Str) :
    tokens separator (n + 1) (c :: s) = tokens separator (n + 1) s := by
  simp only [tokens, List.dropWhile_cons_of_pos hc]

/-- Tokens that are joined by separators are found again. -/
theorem tokens_flatMap {c : UInt8} (hc : separator c = true) {ids : List Str} :
    ∀ {a : Str} {n : ℕ}, (∀ i ∈ a :: ids, i ≠ [] ∧ ∀ b ∈ i, separator b = false) →
      ids.length ≤ n → tokens separator (n + 1) (a ++ ids.flatMap ([c] ++ ·)) = a :: ids := by
  induction ids with
  | nil =>
    intro a n hids hn
    obtain ⟨ha, hsep⟩ := hids a List.mem_cons_self
    rw [List.flatMap_nil, tokens_append ha hsep (by simp)]
    cases n <;> rfl
  | cons b ids ih =>
    intro a n hids hn
    rw [List.length_cons] at hn
    obtain ⟨n, rfl⟩ := Nat.exists_eq_add_of_le' (Nat.one_le_of_lt hn)
    obtain ⟨ha, hsep⟩ := hids a List.mem_cons_self
    rw [tokens_append ha hsep (by simp [hc]), List.flatMap_cons, List.append_assoc,
      List.singleton_append, tokens_separator hc,
      ih (fun i hi => hids i (List.mem_cons_of_mem a hi)) (by omega)]

end

/-- What is written is read back. -/
theorem tokenizeString_concatStringsSep {sep : UInt8} {ids : List Str}
    (hids : ∀ i ∈ ids, i ≠ [] ∧ sep ∉ i) :
    tokenizeString (concatStringsSep [sep] ids) [sep] = ids := by
  have hother : ∀ i : Str, sep ∉ i → ∀ c ∈ i, [sep].contains c = false := by
    intro i hi c hc
    have hne : c ≠ sep := fun h => hi (h ▸ hc)
    simpa using hne
  cases ids with
  | nil => rfl
  | cons a ids =>
    have ha := hids a List.mem_cons_self
    have hconcat : concatStringsSep [sep] (a :: ids) = a ++ ids.flatMap ([sep] ++ ·) := by
      rw [concatStringsSep, List.foldl_cons]
      exact foldl_concatStringsSep ha.1 ids
    have hlength : ids.length ≤ (ids.flatMap ([sep] ++ ·)).length := by
      clear hconcat ha hids
      induction ids with
      | nil => exact Nat.zero_le _
      | cons b ids ih =>
        rw [List.flatMap_cons, List.length_append, List.length_append, List.length_singleton,
          List.length_cons]
        omega
    have hpos : 0 < a.length := List.length_pos_iff.mpr ha.1
    obtain ⟨n, hn⟩ : ∃ n, (a ++ ids.flatMap ([sep] ++ ·)).length = n + 1 :=
      Nat.exists_eq_succ_of_ne_zero (by rw [List.length_append]; omega)
    rw [tokenizeString, hconcat, hn]
    refine tokens_flatMap (by simp) (fun i hi => ⟨(hids i hi).1, hother i (hids i hi).2⟩) ?_
    rw [List.length_append] at hn
    omega

/-- A request is read back as it was written. -/
theorem parseDrvPathWithOutputs_make {drvPath : Path} {outputs : SortedSet Str}
    (hpath : '!'.toUInt8 ∉ drvPath) (hids : ∀ o ∈ outputs, o ≠ [] ∧ ','.toUInt8 ∉ o) :
    parseDrvPathWithOutputs (makeDrvPathWithOutputs drvPath outputs) = (drvPath, outputs) := by
  have hne : ∀ c ∈ drvPath, decide (c ≠ '!'.toUInt8) = true := fun c hc =>
    decide_eq_true fun h => hpath (h ▸ hc)
  rw [makeDrvPathWithOutputs]
  split_ifs with hempty
  · rw [parseDrvPathWithOutputs, List.dropWhile_eq_nil_iff.mpr hne, hempty]
  · have hmark : (str "!") = ['!'.toUInt8] := rfl
    have hcomma : (str ",") = [','.toUInt8] := rfl
    have hdrop : (drvPath ++ str "!" ++ concatStringsSep (str ",") outputs.toList).dropWhile
        (· ≠ '!'.toUInt8) = '!'.toUInt8 :: concatStringsSep (str ",") outputs.toList := by
      rw [List.append_assoc, List.dropWhile_append_of_pos hne]
      rfl
    have htake : (drvPath ++ str "!" ++ concatStringsSep (str ",") outputs.toList).takeWhile
        (· ≠ '!'.toUInt8) = drvPath := by
      rw [List.append_assoc, List.takeWhile_append_of_pos hne]
      exact List.append_nil drvPath
    rw [parseDrvPathWithOutputs, hdrop]
    dsimp only
    rw [htake, hcomma,
      tokenizeString_concatStringsSep fun o ho => hids o (SortedSet.mem_toList.mp ho),
      SortedSet.ofList_toList]

end Nix
