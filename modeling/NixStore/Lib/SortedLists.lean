import Mathlib

/-!
# Vectors sorted by a key

A vector whose elements are in strictly ascending order of a key serves as a finite map.  Binary
search finds an element by its key, and two such vectors are merged in one pass.
-/

namespace Nix

variable {α κ : Type*} [LinearOrder κ] {key : α → κ}

/-- The elements are in strictly ascending order of their keys. -/
def SortedBy (key : α → κ) (l : List α) : Prop := l.Pairwise fun a b => key a < key b

namespace SortedBy

theorem nil : SortedBy key [] := List.Pairwise.nil

/-- A list is sorted when its first key is below the others and the rest is sorted. -/
theorem cons_iff {a : α} {l : List α} :
    SortedBy key (a :: l) ↔ (∀ b ∈ l, key a < key b) ∧ SortedBy key l :=
  List.pairwise_cons

/-- Keys at later places are not lower. -/
theorem key_le {l : List α} (hl : SortedBy key l) {i j : ℕ} (hij : i ≤ j) {a b : α}
    (ha : l[i]? = some a) (hb : l[j]? = some b) : key a ≤ key b := by
  obtain ⟨hi, rfl⟩ := List.getElem?_eq_some_iff.mp ha
  obtain ⟨hj, rfl⟩ := List.getElem?_eq_some_iff.mp hb
  rcases hij.eq_or_lt with rfl | hij
  · exact le_rfl
  · exact (List.pairwise_iff_getElem.mp hl i j hi hj hij).le

/-- Elements with the same key are the same element. -/
theorem eq_of_key_eq {l : List α} (hl : SortedBy key l) {a b : α} (ha : a ∈ l) (hb : b ∈ l)
    (h : key a = key b) : a = b := by
  obtain ⟨i, hi, rfl⟩ := List.mem_iff_getElem.mp ha
  obtain ⟨j, hj, rfl⟩ := List.mem_iff_getElem.mp hb
  rcases lt_trichotomy i j with hij | rfl | hij
  · exact absurd h (List.pairwise_iff_getElem.mp hl i j hi hj hij).ne
  · rfl
  · exact absurd h (List.pairwise_iff_getElem.mp hl j i hj hi hij).ne'

/-- No key occurs twice. -/
theorem nodup {l : List α} (hl : SortedBy key l) : (l.map key).Nodup :=
  List.pairwise_map.mpr (hl.imp fun h => h.ne)

end SortedBy

/-! ### Binary search -/

/-- The loop of `std::lower_bound` over the `len` elements from position `first`; it makes at most
`len` rounds. -/
def lowerBoundLoop (key : α → κ) (l : List α) (k : κ) : ℕ → ℕ → ℕ → ℕ
  | 0, first, _ => first
  | fuel + 1, first, len =>
    if 0 < len then
      let half := len / 2
      if (l[first + half]?).any fun a => key a < k then
        lowerBoundLoop key l k fuel (first + half + 1) (len - half - 1)
      else lowerBoundLoop key l k fuel first half
    else first

/-- Model of `std::lower_bound`: the position of the first element whose key is not below `k`. -/
def lowerBound (key : α → κ) (l : List α) (k : κ) : ℕ :=
  lowerBoundLoop key l k l.length 0 l.length

/-- The loop narrows a range with smaller keys before it and no smaller keys after it. -/
theorem lowerBoundLoop_spec {l : List α} (hl : SortedBy key l) {k : κ} {fuel first len : ℕ}
    (hfuel : len ≤ fuel) (hlen : first + len ≤ l.length)
    (hbelow : ∀ i < first, ∀ a, l[i]? = some a → key a < k)
    (habove : ∀ i, first + len ≤ i → ∀ a, l[i]? = some a → k ≤ key a) :
    ∀ i a, l[i]? = some a → (key a < k ↔ i < lowerBoundLoop key l k fuel first len) := by
  induction fuel generalizing first len with
  | zero =>
    intro i a ha
    obtain rfl : len = 0 := Nat.le_zero.mp hfuel
    rw [lowerBoundLoop]
    constructor
    · intro h
      by_contra hi
      exact (habove i (by omega) a ha).not_gt h
    · exact fun h => hbelow i h a ha
  | succ fuel ih =>
    rw [lowerBoundLoop]
    by_cases hpos : 0 < len
    · rw [if_pos hpos]
      have hmid : first + len / 2 < l.length := by omega
      have hget : l[first + len / 2]? = some l[first + len / 2] :=
        List.getElem?_eq_getElem hmid
      by_cases hlt : key l[first + len / 2] < k
      · -- the middle element and all before it have smaller keys
        rw [if_pos (by simpa [hget] using hlt)]
        refine ih (by omega) (by omega) (fun i hi a ha => ?_) (fun i hi a ha => ?_)
        · exact (hl.key_le (by omega) ha hget).trans_lt hlt
        · exact habove i (by omega) a ha
      · -- the middle element and all after it do not have smaller keys
        rw [if_neg (by simpa [hget] using hlt)]
        refine ih (by omega) (by omega) hbelow (fun i hi a ha => ?_)
        exact (not_lt.mp hlt).trans (hl.key_le hi hget ha)
    · rw [if_neg hpos]
      intro i a ha
      constructor
      · intro h
        by_contra hi
        exact (habove i (by omega) a ha).not_gt h
      · exact fun h => hbelow i h a ha

/-- The lower bound counts the lower keys. -/
theorem lt_lowerBound_iff {l : List α} (hl : SortedBy key l) {k : κ} {i : ℕ} {a : α}
    (ha : l[i]? = some a) : i < lowerBound key l k ↔ key a < k := by
  refine (lowerBoundLoop_spec hl le_rfl (by omega) (by simp) (fun j hj b hb => ?_) i a ha).symm
  obtain ⟨hj', -⟩ := List.getElem?_eq_some_iff.mp hb
  omega

/-- Search for the element with a key, at the position that `lowerBound` gives. -/
def searchBy (key : α → κ) (l : List α) (k : κ) : Option α :=
  (l[lowerBound key l k]?).filter fun a => key a = k

/-- Binary search finds exactly the element with the key. -/
theorem searchBy_eq_some_iff {l : List α} (hl : SortedBy key l) {k : κ} {a : α} :
    searchBy key l k = some a ↔ a ∈ l ∧ key a = k := by
  rw [searchBy, Option.filter_eq_some_iff, decide_eq_true_iff]
  refine and_congr_left fun hk => ⟨fun h => List.mem_of_getElem? h, fun ha => ?_⟩
  obtain ⟨i, hi⟩ := List.mem_iff_getElem?.mp ha
  -- the element is not before the bound, and nothing with its key or above is before it
  have hle : lowerBound key l k ≤ i := by
    rw [← not_lt, lt_lowerBound_iff hl hi, hk]
    exact lt_irrefl k
  obtain ⟨hlt, -⟩ := List.getElem?_eq_some_iff.mp hi
  have hb : l[lowerBound key l k]? = some l[lowerBound key l k] :=
    List.getElem?_eq_getElem (hle.trans_lt hlt)
  have hge : k ≤ key l[lowerBound key l k] := by
    rw [← not_lt, ← lt_lowerBound_iff hl hb]
    exact lt_irrefl _
  have heq : key l[lowerBound key l k] = key a :=
    le_antisymm (hl.key_le hle hb hi) (hk ▸ hge)
  rw [hb, hl.eq_of_key_eq (List.getElem_mem _) ha heq]

/-- The search fails for keys that are not there. -/
theorem searchBy_eq_none_iff {l : List α} (hl : SortedBy key l) {k : κ} :
    searchBy key l k = none ↔ ∀ a ∈ l, key a ≠ k := by
  rw [Option.eq_none_iff_forall_ne_some]
  simp only [ne_eq, searchBy_eq_some_iff hl, not_and]

/-- Sorted vectors in which the same elements are found are equal. -/
theorem SortedBy.ext {l l' : List α} (hl : SortedBy key l) (hl' : SortedBy key l')
    (h : ∀ k, searchBy key l k = searchBy key l' k) : l = l' := by
  have hmem : ∀ a, a ∈ l ↔ a ∈ l' := by
    intro a
    have ha := congrArg (· = some a) (h (key a))
    simpa [searchBy_eq_some_iff hl, searchBy_eq_some_iff hl'] using ha
  have hp : l.Perm l' :=
    (List.perm_ext_iff_of_nodup hl.nodup.of_map hl'.nodup.of_map).mpr hmem
  exact hp.eq_of_pairwise (fun a b _ _ hab hba => absurd hab hba.not_gt) hl hl'

/-! ### Merging -/

/-- One pass over two sorted vectors; of two elements with one key the second vector's is kept. -/
def mergeRight (key : α → κ) : List α → List α → List α
  | [], ys => ys
  | xs, [] => xs
  | x :: xs, y :: ys =>
    if key x = key y then y :: mergeRight key xs ys
    else if key x < key y then x :: mergeRight key xs (y :: ys)
    else y :: mergeRight key (x :: xs) ys
termination_by xs ys => xs.length + ys.length

@[simp] theorem mergeRight_nil_left (ys : List α) : mergeRight key [] ys = ys := by
  rw [mergeRight]

@[simp] theorem mergeRight_nil_right (xs : List α) : mergeRight key xs [] = xs := by
  cases xs <;> simp [mergeRight]

/-- What is in the merged list comes from one of the two. -/
theorem mem_of_mem_mergeRight {xs ys : List α} {a : α} (h : a ∈ mergeRight key xs ys) :
    a ∈ xs ∨ a ∈ ys := by
  induction xs, ys using mergeRight.induct key with
  | case1 ys => simpa using h
  | case2 xs _ => simpa using h
  | case3 x xs y ys heq ih =>
    rw [mergeRight, if_pos heq] at h
    rcases List.mem_cons.mp h with rfl | h
    · exact Or.inr List.mem_cons_self
    · exact (ih h).imp (List.mem_cons_of_mem _) (List.mem_cons_of_mem _)
  | case4 x xs y ys hne hlt ih =>
    rw [mergeRight, if_neg hne, if_pos hlt] at h
    rcases List.mem_cons.mp h with rfl | h
    · exact Or.inl List.mem_cons_self
    · exact (ih h).imp_left (List.mem_cons_of_mem _)
  | case5 x xs y ys hne hlt ih =>
    rw [mergeRight, if_neg hne, if_neg hlt] at h
    rcases List.mem_cons.mp h with rfl | h
    · exact Or.inr List.mem_cons_self
    · exact (ih h).imp_right (List.mem_cons_of_mem _)

/-- A merge of sorted vectors is sorted. -/
theorem SortedBy.mergeRight {xs ys : List α} (hx : SortedBy key xs) (hy : SortedBy key ys) :
    SortedBy key (mergeRight key xs ys) := by
  induction xs, ys using mergeRight.induct key with
  | case1 ys => simpa using hy
  | case2 xs _ => simpa using hx
  | case3 x xs y ys heq ih =>
    rw [Nix.mergeRight, if_pos heq]
    rw [cons_iff] at hx hy
    refine cons_iff.mpr ⟨fun b hb => ?_, ih hx.2 hy.2⟩
    exact (mem_of_mem_mergeRight hb).elim (fun hb => heq ▸ hx.1 b hb) (hy.1 b)
  | case4 x xs y ys hne hlt ih =>
    rw [Nix.mergeRight, if_neg hne, if_pos hlt]
    refine cons_iff.mpr ⟨fun b hb => ?_, ih (cons_iff.mp hx).2 hy⟩
    rcases mem_of_mem_mergeRight hb with hb | hb
    · exact (cons_iff.mp hx).1 b hb
    · rcases List.mem_cons.mp hb with rfl | hb
      · exact hlt
      · exact hlt.trans ((cons_iff.mp hy).1 b hb)
  | case5 x xs y ys hne hlt ih =>
    have hyx : key y < key x := lt_of_le_of_ne (not_lt.mp hlt) (Ne.symm hne)
    rw [Nix.mergeRight, if_neg hne, if_neg hlt]
    refine cons_iff.mpr ⟨fun b hb => ?_, ih hx (cons_iff.mp hy).2⟩
    rcases mem_of_mem_mergeRight hb with hb | hb
    · rcases List.mem_cons.mp hb with rfl | hb
      · exact hyx
      · exact hyx.trans ((cons_iff.mp hx).1 b hb)
    · exact (cons_iff.mp hy).1 b hb

/-- What a merge of sorted vectors contains: the second vector, and what only the first has. -/
theorem mem_mergeRight_iff {xs ys : List α} (hx : SortedBy key xs) (hy : SortedBy key ys) {a : α} :
    a ∈ mergeRight key xs ys ↔ a ∈ ys ∨ a ∈ xs ∧ ∀ b ∈ ys, key b ≠ key a := by
  induction xs, ys using mergeRight.induct key with
  | case1 ys => simp
  | case2 xs _ => simp
  | case3 x xs y ys heq ih =>
    rw [mergeRight, if_pos heq]
    rw [SortedBy.cons_iff] at hx hy
    have hne : a ∈ xs → key y ≠ key a := fun ha => heq ▸ (hx.1 a ha).ne
    have hxa : a = x → key y = key a := by
      rintro rfl
      exact heq.symm
    rw [List.mem_cons, ih hx.2 hy.2, List.mem_cons, List.mem_cons, List.forall_mem_cons]
    constructor
    · rintro (hay | hmem | ⟨hmem, hall⟩)
      · exact .inl (.inl hay)
      · exact .inl (.inr hmem)
      · exact .inr ⟨.inr hmem, hne hmem, hall⟩
    · rintro ((hay | hmem) | ⟨hax | hmem, hya, hall⟩)
      · exact .inl hay
      · exact .inr (.inl hmem)
      · exact absurd (hxa hax) hya
      · exact .inr (.inr ⟨hmem, hall⟩)
  | case4 x xs y ys hne hlt ih =>
    rw [mergeRight, if_neg hne, if_pos hlt]
    have hnot : ∀ b ∈ y :: ys, key b ≠ key x := by
      intro b hb
      rcases List.mem_cons.mp hb with rfl | hb
      · exact hlt.ne'
      · exact (hlt.trans ((SortedBy.cons_iff.mp hy).1 b hb)).ne'
    have hxa : a = x → ∀ b ∈ y :: ys, key b ≠ key a := by
      rintro rfl
      exact hnot
    rw [List.mem_cons, ih (SortedBy.cons_iff.mp hx).2 hy, List.mem_cons (b := x)]
    constructor
    · rintro (hax | hmem | ⟨hmem, hall⟩)
      · exact .inr ⟨.inl hax, hxa hax⟩
      · exact .inl hmem
      · exact .inr ⟨.inr hmem, hall⟩
    · rintro (hmem | ⟨hax | hmem, hall⟩)
      · exact .inr (.inl hmem)
      · exact .inl hax
      · exact .inr (.inr ⟨hmem, hall⟩)
  | case5 x xs y ys hne hlt ih =>
    have hyx : key y < key x := lt_of_le_of_ne (not_lt.mp hlt) (Ne.symm hne)
    have hya : a ∈ x :: xs → key y ≠ key a := by
      intro ha
      rcases List.mem_cons.mp ha with rfl | ha
      · exact hyx.ne
      · exact (hyx.trans ((SortedBy.cons_iff.mp hx).1 a ha)).ne
    rw [mergeRight, if_neg hne, if_neg hlt, List.mem_cons, ih hx (SortedBy.cons_iff.mp hy).2,
      List.mem_cons (b := y), List.forall_mem_cons]
    constructor
    · rintro (hay | hmem | ⟨hmem, hall⟩)
      · exact .inl (.inl hay)
      · exact .inl (.inr hmem)
      · exact .inr ⟨hmem, hya hmem, hall⟩
    · rintro ((hay | hmem) | ⟨hmem, -, hall⟩)
      · exact .inl hay
      · exact .inr (.inl hmem)
      · exact .inr (.inr ⟨hmem, hall⟩)

/-- Search in a merge: the second vector first, then the first one. -/
theorem searchBy_mergeRight {xs ys : List α} (hx : SortedBy key xs) (hy : SortedBy key ys) (k : κ) :
    searchBy key (mergeRight key xs ys) k = (searchBy key ys k).or (searchBy key xs k) := by
  apply Option.ext
  intro a
  rw [searchBy_eq_some_iff (hx.mergeRight hy), mem_mergeRight_iff hx hy, Option.or_eq_some_iff,
    searchBy_eq_some_iff hy, searchBy_eq_some_iff hx, searchBy_eq_none_iff hy]
  constructor
  · rintro ⟨ha | ⟨ha, hb⟩, rfl⟩
    · exact Or.inl ⟨ha, rfl⟩
    · exact Or.inr ⟨hb, ha, rfl⟩
  · rintro (⟨ha, hk⟩ | ⟨hb, ha, rfl⟩)
    · exact ⟨Or.inl ha, hk⟩
    · exact ⟨Or.inr ⟨ha, hb⟩, rfl⟩

/-- Merging is associative. -/
theorem mergeRight_assoc {xs ys zs : List α} (hx : SortedBy key xs) (hy : SortedBy key ys)
    (hz : SortedBy key zs) : mergeRight key (mergeRight key xs ys) zs =
      mergeRight key xs (mergeRight key ys zs) := by
  refine ((hx.mergeRight hy).mergeRight hz).ext (hx.mergeRight (hy.mergeRight hz)) fun k => ?_
  rw [searchBy_mergeRight (hx.mergeRight hy) hz, searchBy_mergeRight hx hy,
    searchBy_mergeRight hx (hy.mergeRight hz), searchBy_mergeRight hy hz, Option.or_assoc]

/-! ### Parts that come last -/

/-- If everything behind an element with a property has it, then those without it come first. -/
theorem eq_filter_append_filter {α : Type*} {r : α → α → Prop} {p : α → Prop} [DecidablePred p]
    {l : List α} (hl : l.Pairwise r) (hp : ∀ a ∈ l, ∀ b ∈ l, r a b → p a → p b) :
    l = (l.filter fun a => ¬ p a) ++ l.filter fun a => p a := by
  induction l with
  | nil => rfl
  | cons a l ih =>
    obtain ⟨ha, hl⟩ := List.pairwise_cons.mp hl
    have htail := ih hl fun b hb c hc =>
      hp b (List.mem_cons_of_mem a hb) c (List.mem_cons_of_mem a hc)
    by_cases hpa : p a
    · have hall : ∀ b ∈ l, p b := fun b hb =>
        hp a List.mem_cons_self b (List.mem_cons_of_mem a hb) (ha b hb) hpa
      have hnone : (l.filter fun b => ¬ p b) = [] := by
        simpa [List.filter_eq_nil_iff] using hall
      rw [List.filter_cons_of_neg (by simpa using hpa), List.filter_cons_of_pos (by simpa using hpa),
        hnone, List.filter_eq_self.mpr (by simpa using hall)]
      rfl
    · rw [List.filter_cons_of_pos (by simpa using hpa), List.filter_cons_of_neg (by simpa using hpa),
        List.cons_append, ← htail]

end Nix
