import NixStore.Env.Profiles

/-!
# Names of generations

What `parseName` finds in the names that `makeName` and `createSymlink` make: the number, also in the
name of a temporary link.  The profile and the temporary link of `switchLink` have no number.
-/

namespace Nix

/-! ### Numbers and names -/

/-- A number that is an `unsigned int` stands in the name as it is. -/
theorem makeName_of_lt {P : Str} {n : ℕ} (hn : n < 2 ^ 32) :
    makeName P n = P ++ str "-" ++ decimal n ++ str "-link" := by
  rw [makeName, Nat.mod_eq_of_lt hn]

/-- Different numbers give different names. -/
theorem eq_of_makeName_eq {P : Str} {n m : ℕ} (hn : n < 2 ^ 32) (hm : m < 2 ^ 32)
    (h : makeName P n = makeName P m) : n = m := by
  rw [makeName_of_lt hn, makeName_of_lt hm] at h
  exact decimal_injective (List.append_cancel_left (List.append_cancel_right h))

/-- The search finds `-link` right behind the number. -/
theorem findString_append {ds rest : Str} (hl : 'l'.toUInt8 ∉ ds)
    (hlast : ds.getLast? ≠ some '-'.toUInt8) :
    findString (str "-link") (ds ++ (str "-link" ++ rest)) = some ds.length := by
  have hcons : str "-link" ++ rest = '-'.toUInt8 :: (str "link" ++ rest) := rfl
  induction ds with
  | nil =>
    have hpre : (str "-link").isPrefixOf (str "-link" ++ rest) = true := by simp
    rw [List.nil_append, hcons, findString, ← hcons, if_pos hpre, List.length_nil]
  | cons c ds ih =>
    rw [List.mem_cons, not_or] at hl
    have hpre : ¬ (str "-link").isPrefixOf (c :: (ds ++ (str "-link" ++ rest))) = true := by
      have hlink : str "-link" = '-'.toUInt8 :: 'l'.toUInt8 :: str "ink" := rfl
      cases ds with
      | nil =>
        have hc : '-'.toUInt8 ≠ c := fun heq => hlast (by rw [heq]; rfl)
        rw [hlink, List.isPrefixOf_cons_cons]
        simp [beq_eq_false_iff_ne.mpr hc]
      | cons d ds =>
        have hd : 'l'.toUInt8 ≠ d := fun heq => hl.2 (heq ▸ List.mem_cons_self)
        rw [hlink, List.cons_append, List.isPrefixOf_cons_cons, List.isPrefixOf_cons_cons]
        simp [beq_eq_false_iff_ne.mpr hd]
    have hlast' : ds.getLast? ≠ some '-'.toUInt8 := by
      cases ds with
      | nil => simp
      | cons d ds => rwa [List.getLast?_cons_cons] at hlast
    rw [List.cons_append, findString, if_neg hpre, ih hl.2 hlast']
    rfl

/-- The search finds `-link` right behind a decimal number. -/
theorem findString_decimal (n : ℕ) (rest : Str) :
    findString (str "-link") (decimal n ++ (str "-link" ++ rest)) = some (decimal n).length :=
  findString_append (notMem_decimal (by decide) n) fun hlast =>
    notMem_decimal (by decide) n (List.mem_of_getLast? hlast)

/-- What the search finds is there. -/
theorem findString_spec {t s : Str} {p : ℕ} (h : findString t s = some p) :
    ∃ rest, s = s.take p ++ (t ++ rest) := by
  induction s generalizing p with
  | nil =>
    rw [findString] at h
    split_ifs at h with ht
    exact ⟨[], by rw [ht]; simp⟩
  | cons c s ih =>
    rw [findString] at h
    split_ifs at h with hpre
    · cases h
      obtain ⟨rest, hrest⟩ := List.isPrefixOf_iff_prefix.mp hpre
      exact ⟨rest, hrest.symm⟩
    · obtain ⟨q, hq, rfl⟩ := Option.map_eq_some_iff.mp h
      obtain ⟨rest, hrest⟩ := ih hq
      refine ⟨rest, ?_⟩
      rw [List.take_succ_cons, List.cons_append, ← hrest]

section

variable {P : Str}

/-- The number in a name, whatever stands behind it. -/
theorem parseName_append {n : ℕ} (hn : n < 2 ^ 31) (rest : Str) :
    parseName P (makeName P n ++ rest) = some n := by
  obtain ⟨hne, hall, hvalue⟩ := decimal_spec n
  have hname : makeName P n ++ rest =
      (P ++ str "-") ++ (decimal n ++ (str "-link" ++ rest)) := by
    simp [makeName_of_lt (P := P) (show n < 2 ^ 32 by omega)]
  have hlen : (P ++ str "-").length = P.length + 1 := by
    rw [List.length_append]
    rfl
  unfold parseName
  rw [hname, List.take_left' hlen, if_neg (by simp), List.drop_left' hlen]
  simp only [findString_decimal, List.take_left]
  rw [string2Int_of_digits hne hall (by rw [hvalue]; exact hn), hvalue]
  simp

/-- The name of a generation has its number. -/
theorem parseName_makeName {n : ℕ} (hn : n < 2 ^ 31) : parseName P (makeName P n) = some n := by
  simpa using parseName_append hn []

/-- The temporary name of a generation has its number too. -/
theorem parseName_tempLink {n : ℕ} (hn : n < 2 ^ 31) (pid rand : ℕ) :
    parseName P (tempLink (makeName P n) pid rand) = some n := by
  have heq : tempLink (makeName P n) pid rand =
      makeName P n ++ (str ".tmp-" ++ decimal pid ++ str "-" ++ decimal rand) := by
    simp [tempLink]
  rw [heq]
  exact parseName_append hn _

/-- A number that is read is an `int`. -/
theorem lt_of_parseName {name : Str} {n : ℕ} (h : parseName P name = some n) : n < 2 ^ 31 := by
  unfold parseName at h
  split_ifs at h
  dsimp only at h
  split at h
  next => cases h
  next p _ =>
    split at h
    next k hk =>
      split_ifs at h with hpos
      have hlt := lt_of_string2Int hk
      rw [← Option.some.inj h]
      omega
    next => cases h

/-- A name with a number has one more dash in front of the number than the name of the profile. -/
theorem parseName_eq_none {name : Str} (h : name.take (P.length + 1) ≠ P ++ str "-") :
    parseName P name = none := if_pos h

/-- The profile itself has no number. -/
theorem parseName_self : parseName P P = none := by
  apply parseName_eq_none
  intro heq
  have hlen := congrArg List.length heq
  rw [List.take_of_length_le (Nat.le_succ _), List.length_append] at hlen
  simp [str] at hlen

/-- The new link has no number. -/
theorem parseName_newLink : parseName P (newLink P) = none := by
  apply parseName_eq_none
  intro heq
  -- count the dashes on both sides
  have hcount := congrArg (List.count '-'.toUInt8) heq
  have htake : ((newLink P).take (P.length + 1)).count '-'.toUInt8 ≤ P.count '-'.toUInt8 := by
    have hsub := (List.take_sublist (P.length + 1) (newLink P)).count_le '-'.toUInt8
    refine hsub.trans ?_
    rw [newLink, List.count_append]
    have hnone : (str ".new_").count '-'.toUInt8 = 0 := by decide
    omega
  rw [List.count_append] at hcount
  have hone : (str "-").count '-'.toUInt8 = 1 := by decide
  omega

/-- The temporary link of `switchLink` is not the profile. -/
theorem newLink_ne_self : newLink P ≠ P := by
  intro heq
  have hlength := congrArg List.length heq
  rw [newLink, List.length_append] at hlength
  have hnew : (str ".new_").length = 5 := rfl
  omega

/-- The name of a generation is not the profile. -/
theorem makeName_ne_self (n : ℕ) : makeName P n ≠ P := by
  intro heq
  have hlen := congrArg List.length heq
  simp [makeName, str] at hlen

end

end Nix
