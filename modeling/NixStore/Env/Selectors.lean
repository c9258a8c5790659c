import NixStore.Lib.Parser
import NixStore.Lib.FirstMax
import NixStore.Env.DrvElems

/-!
# Selecting packages

Model of `filterBySelector` of `nix-env.cc`.  For each selector a running maximum is kept for every
package name.  The comparison looks at the system first, then at the priority and then at the version;
it is the comparison of ranks in a linear order if the priorities that are compared have a difference
that is an `int`.  The selection is right on all lists of some packages exactly if this is so for any
two of them (`filterBySelector_spec_iff`).
-/

namespace Nix

/-! ### The selection -/

/-- The comparison of the systems of two packages in `filterBySelector`. -/
def compareSystems (thisSystem : Str) (j k : DrvInfo) : ℤ :=
  if j.system = k.system then 0
  else if j.system = thisSystem then 1
  else if k.system = thisSystem then -1
  else 0

/-- The comparison of two packages of one name in `filterBySelector`. -/
def compareMatches (thisSystem : Str) (j k : DrvInfo) : ℤ :=
  let d := compareSystems thisSystem j k
  if d = 0 then compareElems j k else d

/-- The packages that a selector matches, with their positions. -/
def matchesOf (selector : DrvName) (allElems : List DrvInfo) : List (DrvInfo × ℕ) :=
  allElems.zipIdx.filter fun j => selector.isMatch (parseDrvName j.1.name)

/-- One round of the loop that looks for the newest package of each name; the set `multiple`, which is
for warnings only, is left out. -/
def newestStep (thisSystem : Str) (newest : SortedMap Str (DrvInfo × ℕ)) (j : DrvInfo × ℕ) :
    SortedMap Str (DrvInfo × ℕ) :=
  let d :=
    match newest.find? j.1.package with
    | none => 1
    | some k => compareMatches thisSystem j.1 k.1
  if d > 0 then newest.insert j.1.package j else newest

/-- The newest package of each name. -/
def newestMatches (thisSystem : Str) (ms : List (DrvInfo × ℕ)) : List (DrvInfo × ℕ) :=
  (ms.foldl (newestStep thisSystem) ∅).entries.map Prod.snd

/-- The insertion of a package that has not been inserted before; the positions `done` and the list so
far. -/
def addMatch (st : SortedSet ℕ × List (DrvInfo × ℕ)) (j : DrvInfo × ℕ) :
    SortedSet ℕ × List (DrvInfo × ℕ) :=
  if j.2 ∈ st.1 then st else (st.1.insert j.2, st.2 ++ [j])

/-- The packages that the selectors select, with their positions. -/
def selectElems (thisSystem : Str) (allElems : List DrvInfo) (newestOnly : Bool)
    (selectors : List DrvName) : List (DrvInfo × ℕ) :=
  (selectors.foldl (fun st i =>
    let ms := matchesOf i allElems
    (if newestOnly then newestMatches thisSystem ms else ms).foldl addMatch st) (∅, [])).2

/-- Model of `filterBySelector`. -/
def filterBySelector (thisSystem : Str) (allElems : List DrvInfo) (args : List Str)
    (newestOnly : Bool) : Outcome Str (List DrvInfo) :=
  let selectors := args.map parseDrvName
  let elems := selectElems thisSystem allElems newestOnly selectors
  -- all selectors must have been used
  match selectors.find? fun i => (matchesOf i allElems).isEmpty && decide (i.fullName ≠ str "*") with
  | some i => .error (str "selector `" ++ i.fullName ++ str "' matches no derivations")
  | none => .ok (elems.map Prod.fst)

/-! ### The comparison -/

/-- A package for this system is better than one for another system. -/
noncomputable def selectRank (thisSystem : Str) (j : DrvInfo × ℕ) :
    Bool ×ₗ (ℤ ×ₗ Lex (ℕ → ComponentRank)) :=
  toLex (decide (j.1.system = thisSystem), elemRank j.1)

/-- The priorities of two packages are compared: they have one name, and both or none of them are for
this system. -/
def Comparable (thisSystem : Str) (a b : DrvInfo) : Prop :=
  a.package = b.package ∧ (a.system = thisSystem ↔ b.system = thisSystem)

/-- Two systems compare as equal when both or none is this system. -/
theorem compareSystems_eq_zero_iff {thisSystem : Str} {j k : DrvInfo} :
    compareSystems thisSystem j k = 0 ↔ (j.system = thisSystem ↔ k.system = thisSystem) := by
  unfold compareSystems
  split_ifs with heq hj hk
  · simp [heq]
  · have hk : k.system ≠ thisSystem := fun hk => heq (hj.trans hk.symm)
    simp [hj, hk]
  · simp [hj, hk]
  · simp [hj, hk]

/-- The comparison of two packages of one name is the comparison of their ranks. -/
theorem compareMatches_pos_iff {thisSystem : Str} {j k : DrvInfo × ℕ}
    (hfit : (j.1.system = thisSystem ↔ k.1.system = thisSystem) → PrioritiesFit j.1 k.1) :
    0 < compareMatches thisSystem j.1 k.1 ↔ selectRank thisSystem k < selectRank thisSystem j := by
  rw [selectRank, selectRank, Prod.Lex.toLex_lt_toLex]
  unfold compareMatches
  dsimp only
  by_cases hsame : j.1.system = thisSystem ↔ k.1.system = thisSystem
  · rw [if_pos (compareSystems_eq_zero_iff.mpr hsame), compareElems_pos_iff (hfit hsame)]
    simp [hsame]
  · rw [if_neg (mt compareSystems_eq_zero_iff.mp hsame)]
    unfold compareSystems
    by_cases hj : j.1.system = thisSystem
    · have hk : k.1.system ≠ thisSystem := fun hk => hsame (iff_of_true hj hk)
      simp [hj, hk, Ne.symm hk]
    · have hk : k.1.system = thisSystem := by
        by_contra hk
        exact hsame (iff_of_false hj hk)
      simp [hj, hk]

/-! ### The newest packages -/

/-- Whether a package replaces the best one so far. -/
def isNewer (thisSystem : Str) (j k : DrvInfo × ℕ) : Bool :=
  decide (0 < compareMatches thisSystem j.1 k.1)

/-- The entry for a name is the running maximum over the packages of this name. -/
theorem find?_foldl_newestStep (thisSystem n : Str) (ms : List (DrvInfo × ℕ))
    (newest : SortedMap Str (DrvInfo × ℕ)) :
    (ms.foldl (newestStep thisSystem) newest).find? n =
      (ms.filter fun j => j.1.package = n).foldl (keepBetter (isNewer thisSystem))
        (newest.find? n) := by
  induction ms generalizing newest with
  | nil => rfl
  | cons j ms ih =>
    rw [List.foldl_cons, ih]
    by_cases hn : j.1.package = n
    · rw [List.filter_cons_of_pos (by simpa using hn), List.foldl_cons]
      congr 1
      unfold newestStep keepBetter isNewer
      rw [hn]
      cases hk : newest.find? n with
      | none => simp
      | some k =>
        by_cases hd : 0 < compareMatches thisSystem j.1 k.1
        · simp [hd]
        · simp [hd, hk]
    · rw [List.filter_cons_of_neg (by simpa using hn)]
      congr 1
      unfold newestStep
      dsimp only
      split_ifs
      · rw [SortedMap.find?_insert, if_neg (Ne.symm hn)]
      · rfl

/-- The packages of one name that a selector matches. -/
def matchesNamed (selector : DrvName) (allElems : List DrvInfo) (n : Str) : List (DrvInfo × ℕ) :=
  (matchesOf selector allElems).filter fun j => j.1.package = n

/-- The packages whose priorities are compared have priorities that fit. -/
def ComparableFit (thisSystem : Str) (pool : Set DrvInfo) : Prop :=
  ∀ a ∈ pool, ∀ b ∈ pool, Comparable thisSystem a b → PrioritiesFit a b

/-- The packages of a list that a selector matches. -/
def matched (selector : DrvName) (allElems : List DrvInfo) : Set DrvInfo :=
  {a | ∃ j ∈ matchesOf selector allElems, j.1 = a}

section

variable {thisSystem : Str} {allElems : List DrvInfo}

/-- The matches of a selector, with their positions. -/
theorem mem_matchesOf {selector : DrvName} {j : DrvInfo × ℕ} : j ∈ matchesOf selector allElems ↔
    j ∈ allElems.zipIdx ∧ selector.isMatch (parseDrvName j.1.name) = true :=
  List.mem_filter

/-- The newest packages are the first best ones of each name. -/
theorem mem_newestMatches {selector : DrvName} (hfit : ComparableFit thisSystem (matched selector allElems))
    {w : DrvInfo × ℕ} : w ∈ newestMatches thisSystem (matchesOf selector allElems) ↔
      ∃ n, IsFirstMax (selectRank thisSystem) (matchesNamed selector allElems n) w := by
  have hfind : ∀ n, ((matchesOf selector allElems).foldl (newestStep thisSystem) ∅).find? n =
      some w ↔ IsFirstMax (selectRank thisSystem) (matchesNamed selector allElems n) w := by
    intro n
    rw [find?_foldl_newestStep, SortedMap.find?_eq_none_iff.mpr (SortedMap.notMem_empty n)]
    refine foldl_keepBetter_eq_some_iff fun j hj k hk => ?_
    rw [isNewer, decide_eq_true_eq]
    obtain ⟨hj, hjn⟩ := List.mem_filter.mp hj
    obtain ⟨hk, hkn⟩ := List.mem_filter.mp hk
    rw [decide_eq_true_eq] at hjn hkn
    exact compareMatches_pos_iff fun hsystem => hfit _ ⟨j, hj, rfl⟩ _ ⟨k, hk, rfl⟩
      ⟨hjn.trans hkn.symm, hsystem⟩
  rw [newestMatches, List.mem_map]
  constructor
  · rintro ⟨⟨n, w'⟩, hmem, rfl⟩
    exact ⟨n, (hfind n).mp (SortedMap.find?_eq_some_iff.mpr hmem)⟩
  · rintro ⟨n, hmax⟩
    exact ⟨(n, w), SortedMap.find?_eq_some_iff.mp ((hfind n).mpr hmax), rfl⟩

end

/-! ### What is selected -/

/-- The packages that have been inserted are those of the list, each once. -/
structure Inserted (l : List (DrvInfo × ℕ)) (st : SortedSet ℕ × List (DrvInfo × ℕ)) : Prop where
  done_iff : ∀ n, n ∈ st.1 ↔ n ∈ st.2.map Prod.snd
  mem_iff : ∀ j, j ∈ st.2 ↔ j ∈ l
  nodup : (st.2.map Prod.snd).Nodup

section

variable {allElems : List DrvInfo}

/-- A position belongs to one package. -/
theorem eq_of_mem_zipIdx {j k : DrvInfo × ℕ} (hj : j ∈ allElems.zipIdx) (hk : k ∈ allElems.zipIdx)
    (h : j.2 = k.2) : j = k := by
  rw [List.mem_zipIdx_iff_getElem?] at hj hk
  rw [h, hk, Option.some.injEq] at hj
  exact Prod.ext hj.symm h

/-- The loop inserts the matches that are not there yet. -/
theorem inserted_foldl {l : List (DrvInfo × ℕ)} (hl : ∀ j ∈ l, j ∈ allElems.zipIdx) :
    Inserted l (l.foldl addMatch (∅, [])) := by
  induction l using List.reverseRecOn with
  | nil => exact ⟨by simp, by simp, List.nodup_nil⟩
  | append_singleton l a ih =>
    obtain ⟨hdone, hmem, hnodup⟩ := ih fun j hj => hl j (List.mem_append_left _ hj)
    rw [List.foldl_append, List.foldl_cons, List.foldl_nil]
    generalize l.foldl addMatch (∅, []) = st at *
    unfold addMatch
    split_ifs with ha
    · refine ⟨hdone, fun j => ?_, hnodup⟩
      obtain ⟨k, hk, hak⟩ := List.mem_map.mp ((hdone _).mp ha)
      have heq : k = a := eq_of_mem_zipIdx (hl k (List.mem_append_left _ ((hmem k).mp hk)))
        (hl a (by simp)) hak
      subst heq
      simpa [hmem] using fun hj : j = k => hj ▸ (hmem k).mp hk
    · rw [hdone] at ha
      refine ⟨fun n => ?_, fun j => ?_, ?_⟩
      · rw [SortedSet.mem_insert, hdone]
        simp [or_comm]
      · simp [hmem]
      · rw [List.map_append]
        exact hnodup.append (List.nodup_singleton _) (List.disjoint_singleton.mpr ha)

/-- The packages of one selector that are new are inserted in their order. -/
theorem foldl_addMatch {l : List (DrvInfo × ℕ)} (hl : (l.map Prod.snd).Nodup)
    (st : SortedSet ℕ × List (DrvInfo × ℕ)) :
    (l.foldl addMatch st).2 = st.2 ++ l.filter (fun j => j.2 ∉ st.1) ∧
      ∀ n, n ∈ (l.foldl addMatch st).1 ↔ n ∈ st.1 ∨ n ∈ l.map Prod.snd := by
  induction l generalizing st with
  | nil => simp
  | cons a l ih =>
    rw [List.map_cons, List.nodup_cons] at hl
    obtain ⟨hnew, hnodup⟩ := hl
    rw [List.foldl_cons]
    obtain ⟨helems, hdone⟩ := ih hnodup (addMatch st a)
    unfold addMatch at helems hdone ⊢
    split_ifs at helems hdone ⊢ with ha
    · refine ⟨by rw [helems, List.filter_cons_of_neg (by simpa using ha)], fun n => ?_⟩
      rw [hdone, List.map_cons, List.mem_cons]
      exact ⟨fun h => h.imp_right Or.inr, fun h => h.elim Or.inl fun h =>
        h.elim (fun h => Or.inl (h ▸ ha)) Or.inr⟩
    · refine ⟨?_, fun n => ?_⟩
      · rw [helems, List.filter_cons_of_pos (by simpa using ha), List.append_assoc,
          List.singleton_append]
        refine congrArg (fun l' => st.2 ++ a :: l') (List.filter_congr fun j hj => ?_)
        have hne : j.2 ≠ a.2 := fun heq => hnew (heq ▸ List.mem_map_of_mem hj)
        simp [hne]
      · rw [hdone, SortedSet.mem_insert, List.map_cons, List.mem_cons]
        tauto

/-- The positions of the elements differ. -/
theorem nodup_zipIdx (allElems : List DrvInfo) : (allElems.zipIdx.map Prod.snd).Nodup := by
  rw [List.zipIdx_map_snd]
  exact List.nodup_range'

/-- The selected elements: those of each selector, the first occurrence of each. -/
theorem selectElems_eq (thisSystem : Str) (newestOnly : Bool) (selectors : List DrvName) :
    selectElems thisSystem allElems newestOnly selectors = ((selectors.flatMap fun i =>
      if newestOnly then newestMatches thisSystem (matchesOf i allElems)
      else matchesOf i allElems).foldl addMatch (∅, [])).2 := by
  rw [List.foldl_flatMap]
  rfl

end

/-- The packages that match the first selector, then those of the rest that match the second one, and
so on. -/
def byFirstSelector : List DrvName → List (DrvInfo × ℕ) → List (DrvInfo × ℕ)
  | [], _ => []
  | i :: selectors, elems =>
    elems.filter (fun j => i.isMatch (parseDrvName j.1.name)) ++
      byFirstSelector selectors (elems.filter fun j => !i.isMatch (parseDrvName j.1.name))

/-- With all selectors, each element comes at its first selector. -/
theorem foldl_addMatch_flatMap (allElems : List DrvInfo) (selectors : List DrvName)
    (st : SortedSet ℕ × List (DrvInfo × ℕ)) :
    ((selectors.flatMap fun i => matchesOf i allElems).foldl addMatch st).2 =
      st.2 ++ byFirstSelector selectors (allElems.zipIdx.filter fun j => j.2 ∉ st.1) := by
  induction selectors generalizing st with
  | nil => simp [byFirstSelector]
  | cons i selectors ih =>
    have hnodup : ((matchesOf i allElems).map Prod.snd).Nodup :=
      (nodup_zipIdx allElems).sublist (List.filter_sublist.map _)
    obtain ⟨helems, hdone⟩ := foldl_addMatch hnodup st
    rw [List.flatMap_cons, List.foldl_append, ih, helems, byFirstSelector, List.append_assoc]
    congr 2
    · rw [matchesOf, List.filter_comm]
    · -- what is left are the packages that the selector does not match
      congr 1
      rw [List.filter_filter]
      refine List.filter_congr fun j hj => ?_
      have hmem : j.2 ∈ (matchesOf i allElems).map Prod.snd ↔
          i.isMatch (parseDrvName j.1.name) = true := by
        constructor
        · intro h
          obtain ⟨k, hk, hjk⟩ := List.mem_map.mp h
          obtain ⟨hk, hmatch⟩ := mem_matchesOf.mp hk
          rwa [← eq_of_mem_zipIdx hk hj hjk]
        · exact fun h => List.mem_map_of_mem (mem_matchesOf.mpr ⟨hj, h⟩)
      rw [Bool.eq_iff_iff]
      simp only [hdone, hmem, decide_eq_true_eq, not_or, Bool.and_eq_true, Bool.not_eq_true',
        Bool.not_eq_true]
      exact and_comm

/-- What is selected if every matching package is wanted: each of them once, in the order of the first
selector that matches. -/
structure SelectsAll (allElems : List DrvInfo) (selectors : List DrvName) (l : List (DrvInfo × ℕ)) :
    Prop where
  nodup : (l.map Prod.snd).Nodup
  mem_iff : ∀ j, j ∈ l ↔
    j ∈ allElems.zipIdx ∧ ∃ i ∈ selectors, i.isMatch (parseDrvName j.1.name) = true
  order : l = byFirstSelector selectors allElems.zipIdx

/-- What is selected if only the newest packages are wanted: for each selector and each name that it
matches, the first one of the packages with the greatest rank, and no package twice. -/
structure SelectsNewest (thisSystem : Str) (allElems : List DrvInfo) (selectors : List DrvName)
    (l : List (DrvInfo × ℕ)) : Prop where
  nodup : (l.map Prod.snd).Nodup
  newest : ∀ i ∈ selectors, ∀ n, matchesNamed i allElems n ≠ [] →
    ∃ w ∈ l, IsFirstMax (selectRank thisSystem) (matchesNamed i allElems n) w
  only : ∀ w ∈ l, ∃ i ∈ selectors, ∃ n,
    IsFirstMax (selectRank thisSystem) (matchesNamed i allElems n) w

/-- Without `newestOnly` every match is selected. -/
theorem selectsAll_selectElems (thisSystem : Str) (allElems : List DrvInfo)
    (selectors : List DrvName) :
    SelectsAll allElems selectors (selectElems thisSystem allElems false selectors) := by
  have heq := @selectElems_eq allElems thisSystem false selectors
  simp only [Bool.false_eq_true, if_false] at heq
  have hinserted := @inserted_foldl allElems
    (selectors.flatMap fun i => matchesOf i allElems) fun j hj => by
      obtain ⟨i, -, hj⟩ := List.mem_flatMap.mp hj
      exact (mem_matchesOf.mp hj).1
  rw [heq]
  refine ⟨hinserted.nodup, fun j => ?_, ?_⟩
  · rw [hinserted.mem_iff, List.mem_flatMap]
    simp only [mem_matchesOf]
    exact ⟨fun ⟨i, hi, hj, hmatch⟩ => ⟨hj, i, hi, hmatch⟩, fun ⟨hj, i, hi, hmatch⟩ =>
      ⟨i, hi, hj, hmatch⟩⟩
  · rw [foldl_addMatch_flatMap]
    simp

/-- The newest packages are selected if, for each selector, the priorities fit that are compared among the
packages that it matches. -/
theorem selectsNewest_selectElems {thisSystem : Str} {allElems : List DrvInfo} {selectors : List DrvName}
    (hfit : ∀ i ∈ selectors, ComparableFit thisSystem (matched i allElems)) :
    SelectsNewest thisSystem allElems selectors
      (selectElems thisSystem allElems true selectors) := by
  have heq := @selectElems_eq allElems thisSystem true selectors
  simp only [if_true] at heq
  have hmem : ∀ w, w ∈ (selectors.flatMap fun i => newestMatches thisSystem (matchesOf i allElems)) ↔
      ∃ i ∈ selectors, ∃ n,
        IsFirstMax (selectRank thisSystem) (matchesNamed i allElems n) w := by
    intro w
    rw [List.mem_flatMap]
    exact exists_congr fun i => and_congr_right fun hi => mem_newestMatches (hfit i hi)
  have hinserted := @inserted_foldl allElems
    (selectors.flatMap fun i => newestMatches thisSystem (matchesOf i allElems)) fun j hj => by
      obtain ⟨i, -, n, hmax⟩ := (hmem j).mp hj
      exact (mem_matchesOf.mp (List.mem_filter.mp hmax.mem).1).1
  rw [heq]
  refine ⟨hinserted.nodup, fun i hi n hne => ?_, fun w hw => (hmem w).mp ((hinserted.mem_iff w).mp hw)⟩
  obtain ⟨w, hw⟩ := exists_isFirstMax (selectRank thisSystem) hne
  exact ⟨w, (hinserted.mem_iff w).mpr ((hmem w).mpr ⟨i, hi, n, hw⟩), hw⟩

/-! ### When the selection is right -/

section

variable {thisSystem : Str}

/-- The selector `*` matches every name. -/
theorem isMatch_star (n : DrvName) : (parseDrvName (str "*")).isMatch n = true := by
  have hname : (parseDrvName (str "*")).name = str "*" := by decide
  have hversion : (parseDrvName (str "*")).version = [] := by decide
  simp [DrvName.isMatch, hname, hversion]

/-- The selector `*` matches every element. -/
theorem matchesOf_star (allElems : List DrvInfo) :
    matchesOf (parseDrvName (str "*")) allElems = allElems.zipIdx :=
  List.filter_eq_self.mpr fun _ _ => isMatch_star _

/-- Of two packages whose difference of priorities is too great for an `int`, the one with the greater
number is selected if it comes first. -/
theorem filterBySelector_pair {a b : DrvInfo} (hab : Comparable thisSystem a b)
    (h : 2 ^ 31 ≤ (getPriority b).toInt - (getPriority a).toInt) :
    filterBySelector thisSystem [b, a] [str "*"] true = .ok [b] := by
  have hworse : ¬0 < compareMatches thisSystem a b := by
    have hneg := comparePriorities_neg_of_le h
    simp only [compareMatches, compareSystems_eq_zero_iff.mpr hab.2, if_true, compareElems,
      if_neg hneg.ne]
    exact hneg.asymm
  have hfirst : newestStep thisSystem ∅ (b, 0) =
      (∅ : SortedMap Str (DrvInfo × ℕ)).insert b.package (b, 0) := rfl
  have hsecond : newestStep thisSystem
      ((∅ : SortedMap Str (DrvInfo × ℕ)).insert b.package (b, 0)) (a, 1) =
        (∅ : SortedMap Str (DrvInfo × ℕ)).insert b.package (b, 0) := by
    unfold newestStep
    dsimp only
    rw [hab.1, SortedMap.find?_insert, if_pos rfl]
    exact if_neg hworse
  have hnewest : newestMatches thisSystem (matchesOf (parseDrvName (str "*")) [b, a]) = [(b, 0)] := by
    rw [matchesOf_star, newestMatches, List.zipIdx_cons, List.zipIdx_cons, List.zipIdx_nil,
      List.foldl_cons, hfirst, List.foldl_cons, Nat.zero_add, hsecond]
    rfl
  have hused : ((matchesOf (parseDrvName (str "*")) [b, a]).isEmpty &&
      decide ((parseDrvName (str "*")).fullName ≠ str "*")) = false := by
    rw [matchesOf_star]
    rfl
  unfold filterBySelector selectElems
  simp only [List.map_cons, List.map_nil, List.foldl_cons, List.foldl_nil, if_true, hnewest,
    List.find?_cons, hused, List.find?_nil]
  rfl

/-- What is selected of two such packages is not the best one. -/
theorem not_selectsNewest_pair {a b : DrvInfo} (hab : Comparable thisSystem a b)
    (h : 2 ^ 31 ≤ (getPriority b).toInt - (getPriority a).toInt) :
    ¬∃ l, [b] = l.map Prod.fst ∧
      SelectsNewest thisSystem [b, a] [parseDrvName (str "*")] l := by
  rintro ⟨l, hl, hselects⟩
  have hnamed : matchesNamed (parseDrvName (str "*")) [b, a] b.package = [(b, 0)] ++ [(a, 1)] := by
    rw [matchesNamed, matchesOf_star]
    simp [hab.1]
  obtain ⟨w, hw, hmax⟩ := hselects.newest _ List.mem_cons_self b.package (by simp [hnamed])
  have hlt : selectRank thisSystem (b, 0) < selectRank thisSystem (a, 1) := by
    rw [selectRank, selectRank, Prod.Lex.toLex_lt_toLex, elemRank_lt_iff]
    exact Or.inr ⟨by simp [hab.2], Or.inl (by dsimp only; omega)⟩
  rw [hnamed] at hmax
  obtain rfl := hmax.unique ((IsFirstMax.singleton _ (b, 0)).concat_of_lt hlt)
  have ha : a ∈ [b] := hl ▸ List.mem_map_of_mem hw
  obtain rfl := List.mem_singleton.mp ha
  omega

/-- When the newest are selected from every list, the elements can be compared. -/
theorem comparableFit_of_selectsNewest {pool : Set DrvInfo}
    (h : ∀ allElems, (∀ a ∈ allElems, a ∈ pool) → ∀ args elems,
      filterBySelector thisSystem allElems args true = .ok elems →
        ∃ l, elems = l.map Prod.fst ∧
          SelectsNewest thisSystem allElems (args.map parseDrvName) l) :
    ComparableFit thisSystem pool := by
  intro a ha b hb hab
  by_contra hfit
  unfold PrioritiesFit at hfit
  rcases le_or_gt (2 ^ 31) ((getPriority b).toInt - (getPriority a).toInt) with hge | hlt
  · exact not_selectsNewest_pair hab hge
      (h [b, a] (by simp [ha, hb]) _ _ (filterBySelector_pair hab hge))
  · have hge : 2 ^ 31 ≤ (getPriority a).toInt - (getPriority b).toInt := by omega
    have hba : Comparable thisSystem b a := ⟨hab.1.symm, hab.2.symm⟩
    exact not_selectsNewest_pair hba hge
      (h [a, b] (by simp [ha, hb]) _ _ (filterBySelector_pair hba hge))

/-- If every matching package is wanted, the selection is always right.  If only the newest ones are
wanted, it is right for all lists of some packages and all selectors exactly if the priorities that are
compared have differences that are `int`s; for one list it is enough that this holds among the packages
that a selector matches (`selectsNewest_selectElems`).  It is made unless a selector other than `*`
matches nothing. -/
theorem filterBySelector_spec_iff (thisSystem : Str) (pool : Set DrvInfo) :
    (∀ allElems args elems, filterBySelector thisSystem allElems args false = .ok elems →
      ∃ l, elems = l.map Prod.fst ∧ SelectsAll allElems (args.map parseDrvName) l) ∧
    ((∀ allElems, (∀ a ∈ allElems, a ∈ pool) → ∀ args elems,
      filterBySelector thisSystem allElems args true = .ok elems →
        ∃ l, elems = l.map Prod.fst ∧
          SelectsNewest thisSystem allElems (args.map parseDrvName) l) ↔
      ComparableFit thisSystem pool) ∧
    ∀ allElems args newestOnly,
      (∃ elems, filterBySelector thisSystem allElems args newestOnly = .ok elems) ↔
        ∀ s ∈ args, s = str "*" ∨ matchesOf (parseDrvName s) allElems ≠ [] := by
  have hok : ∀ {allElems args newestOnly elems},
      filterBySelector thisSystem allElems args newestOnly = .ok elems →
        elems = (selectElems thisSystem allElems newestOnly (args.map parseDrvName)).map Prod.fst := by
    intro allElems args newestOnly elems h
    unfold filterBySelector at h
    dsimp only at h
    split at h
    · cases h
    · exact (Outcome.ok.inj h).symm
  refine ⟨fun allElems args elems h => ?_, ⟨comparableFit_of_selectsNewest, ?_⟩, ?_⟩
  · exact ⟨_, hok h, selectsAll_selectElems thisSystem allElems _⟩
  · refine fun hfit allElems hpool args elems h => ⟨_, hok h, selectsNewest_selectElems fun i _ => ?_⟩
    have hsub : ∀ a ∈ matched i allElems, a ∈ pool := by
      rintro a ⟨j, hj, rfl⟩
      exact hpool _ (List.fst_mem_of_mem_zipIdx (mem_matchesOf.mp hj).1)
    exact fun a ha b hb hab => hfit a (hsub a ha) b (hsub b hb) hab
  · intro allElems args newestOnly
    unfold filterBySelector
    dsimp only
    cases hunused : (args.map parseDrvName).find? fun i =>
        (matchesOf i allElems).isEmpty && decide (i.fullName ≠ str "*") with
    | none =>
      refine iff_of_true ⟨_, rfl⟩ fun s hs => ?_
      have hs := List.find?_eq_none.mp hunused _ (List.mem_map_of_mem hs)
      by_contra hno
      obtain ⟨hstar, hnil⟩ := not_or.mp hno
      exact hs (by simpa [parseDrvName, hstar] using hnil)
    | some i =>
      refine iff_of_false (by simp) fun hall => ?_
      obtain ⟨s, hs, rfl⟩ := List.mem_map.mp (List.mem_of_find?_eq_some hunused)
      have hi := List.find?_some hunused
      simp only [Bool.and_eq_true, List.isEmpty_iff, decide_eq_true_eq] at hi
      rcases hall s hs with rfl | hne
      · exact hi.2 rfl
      · exact hne hi.1

/-- The package with the priority -2^31 is better than the one with the priority 1, but the difference
overflows, and the first one is selected. -/
theorem filterBySelector_overflow :
    let allElems := [prioritised "foo-1.0" 1, prioritised "foo-1.0" (-2147483648)]
    filterBySelector (str "x86_64-linux") allElems [str "*"] true = .ok [prioritised "foo-1.0" 1] ∧
      ¬∃ l, [prioritised "foo-1.0" 1] = l.map Prod.fst ∧
        SelectsNewest (str "x86_64-linux") allElems [parseDrvName (str "*")] l :=
  ⟨filterBySelector_pair ⟨by decide, by decide⟩ (by decide),
    not_selectsNewest_pair ⟨by decide, by decide⟩ (by decide)⟩

end

end Nix
