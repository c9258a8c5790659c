import Mathlib

/-!
# Finite maps as strictly sorted association lists

`std::map` and `std::set` iterate over their keys in ascending order.  A map is represented by the
list of its entries in this order, with the order as a field of the structure: two maps are equal as
values exactly when they have the same lookups.  A set is a map to `Unit`.
-/

namespace Nix

/-- A finite map with keys in a linear order, given by its entries in ascending order. -/
structure SortedMap (κ β : Type*) [LinearOrder κ] where
  /-- The entries, in ascending order of their keys. -/
  entries : List (κ × β)
  /-- The keys are strictly ascending. -/
  sorted : entries.Pairwise fun a b => a.1 < b.1
deriving DecidableEq

/-- A finite set in a linear order. -/
abbrev SortedSet (κ : Type*) [LinearOrder κ] := SortedMap κ Unit

namespace SortedMap

variable {κ β : Type*} [LinearOrder κ]

/-- The map without entries. -/
def empty : SortedMap κ β := ⟨[], List.Pairwise.nil⟩

instance : Inhabited (SortedMap κ β) := ⟨empty⟩

instance : EmptyCollection (SortedMap κ β) := ⟨empty⟩

/-- The keys in ascending order. -/
def keys (m : SortedMap κ β) : List κ := m.entries.map Prod.fst

/-- Lookup of a key. -/
def find? (m : SortedMap κ β) (k : κ) : Option β := m.entries.lookup k

instance : Membership κ (SortedMap κ β) := ⟨fun m k => k ∈ m.keys⟩

instance (k : κ) (m : SortedMap κ β) : Decidable (k ∈ m) := inferInstanceAs (Decidable (k ∈ m.keys))

@[simp] theorem entries_empty : (∅ : SortedMap κ β).entries = [] := rfl

/-- A key is in a map when it is among its keys. -/
theorem mem_def {m : SortedMap κ β} {k : κ} : k ∈ m ↔ k ∈ m.keys := Iff.rfl

/-- The empty map has no key. -/
@[simp] theorem notMem_empty (k : κ) : k ∉ (∅ : SortedMap κ β) := by
  simp [mem_def, keys]

/-- The keys are in ascending order. -/
theorem keys_sorted (m : SortedMap κ β) : m.keys.Pairwise (· < ·) :=
  List.pairwise_map.mpr m.sorted

/-- No key occurs twice. -/
theorem keys_nodup (m : SortedMap κ β) : m.keys.Nodup :=
  m.keys_sorted.imp fun h => h.ne

/-- No entry occurs twice. -/
theorem entries_nodup (m : SortedMap κ β) : m.entries.Nodup :=
  List.Nodup.of_map Prod.fst m.keys_nodup

/-! ### Lookups -/

/-- In a list with distinct keys, a lookup finds exactly the entries of the list. -/
theorem lookup_eq_some_iff_of_nodup {κ β : Type*} [BEq κ] [LawfulBEq κ] {l : List (κ × β)}
    (hl : (l.map Prod.fst).Nodup) {k : κ} {v : β} : l.lookup k = some v ↔ (k, v) ∈ l := by
  induction l with
  | nil => simp
  | cons a l ih =>
    obtain ⟨a, b⟩ := a
    rw [List.map_cons, List.nodup_cons] at hl
    by_cases h : k = a
    · subst h
      have hk : (k, v) ∉ l := fun h => hl.1 (List.mem_map.mpr ⟨(k, v), h, rfl⟩)
      simp [hk, eq_comm]
    · have hka : (k == a) = false := beq_eq_false_iff_ne.mpr h
      simp [List.lookup_cons, hka, ih hl.2, h]

/-- Looking up finds the entries and nothing else. -/
theorem find?_eq_some_iff {m : SortedMap κ β} {k : κ} {v : β} :
    m.find? k = some v ↔ (k, v) ∈ m.entries :=
  lookup_eq_some_iff_of_nodup m.keys_nodup

/-- A key is in a map when it has an entry. -/
theorem mem_iff_exists {m : SortedMap κ β} {k : κ} : k ∈ m ↔ ∃ v, (k, v) ∈ m.entries := by
  simp [mem_def, keys]

/-- Looking up fails for the keys that are not there. -/
theorem find?_eq_none_iff {m : SortedMap κ β} {k : κ} : m.find? k = none ↔ k ∉ m := by
  rw [mem_iff_exists, Option.eq_none_iff_forall_ne_some]
  simp [find?_eq_some_iff]

/-- Maps with the same entries are equal. -/
theorem ext_entries {m n : SortedMap κ β} (h : ∀ e, e ∈ m.entries ↔ e ∈ n.entries) : m = n := by
  have hp : m.entries.Perm n.entries :=
    (List.perm_ext_iff_of_nodup m.entries_nodup n.entries_nodup).mpr h
  have he : m.entries = n.entries :=
    hp.eq_of_pairwise (fun a b _ _ hab hba => absurd hab hba.not_gt) m.sorted n.sorted
  cases m; cases n; simpa using he

/-- Maps with the same lookups are equal. -/
theorem ext_find? {m n : SortedMap κ β} (h : ∀ k, m.find? k = n.find? k) : m = n := by
  refine ext_entries fun ⟨k, v⟩ => ?_
  rw [← find?_eq_some_iff, ← find?_eq_some_iff, h]

/-- Sets with the same members are equal. -/
theorem ext_mem {m n : SortedSet κ} (h : ∀ k, k ∈ m ↔ k ∈ n) : m = n := by
  refine ext_entries fun ⟨k, u⟩ => ?_
  have hk : (∃ u, (k, u) ∈ m.entries) ↔ ∃ u, (k, u) ∈ n.entries := by
    rw [← mem_iff_exists, ← mem_iff_exists, h]
  exact ⟨fun hm => (hk.mp ⟨u, hm⟩).elim fun _ => id, fun hn => (hk.mpr ⟨u, hn⟩).elim fun _ => id⟩

/-- The last entry with a property is the one with the largest key. -/
theorem find?_reverse_eq_some_iff {l : List (κ × β)} (hl : l.Pairwise fun a b => a.1 < b.1)
    {p : κ × β → Bool} {e : κ × β} :
    l.reverse.find? p = some e ↔ e ∈ l ∧ p e = true ∧ ∀ a ∈ l, p a = true → a.1 ≤ e.1 := by
  induction l using List.reverseRecOn with
  | nil => simp
  | append_singleton l a ih =>
    obtain ⟨hl, -, hlt⟩ := List.pairwise_append.mp hl
    rw [List.reverse_append, List.reverse_singleton, List.singleton_append, List.find?_cons]
    by_cases ha : p a = true
    · rw [ha]
      constructor
      · intro h
        obtain rfl : a = e := Option.some.inj h
        refine ⟨by simp, ha, fun b hb _ => ?_⟩
        rcases List.mem_append.mp hb with hb | hb
        · exact (hlt b hb a (by simp)).le
        · rw [List.mem_singleton.mp hb]
      · intro h
        obtain ⟨he, -, hmax⟩ := h
        rcases List.mem_append.mp he with he | he
        · exact absurd (hmax a (by simp) ha) (hlt e he a (by simp)).not_ge
        · rw [List.mem_singleton.mp he]
    · rw [Bool.not_eq_true] at ha
      rw [ha]
      dsimp only
      rw [ih hl]
      constructor
      · intro h
        obtain ⟨he, hp, hmax⟩ := h
        refine ⟨List.mem_append_left _ he, hp, fun b hb hpb => ?_⟩
        rcases List.mem_append.mp hb with hb | hb
        · exact hmax b hb hpb
        · rw [List.mem_singleton.mp hb, ha] at hpb
          exact absurd hpb (by simp)
      · intro h
        obtain ⟨he, hp, hmax⟩ := h
        refine ⟨?_, hp, fun b hb => hmax b (List.mem_append_left _ hb)⟩
        rcases List.mem_append.mp he with he | he
        · exact he
        · rw [List.mem_singleton.mp he, ha] at hp
          exact absurd hp (by simp)

/-! ### Insertion -/

/-- Insertion into a sorted list of entries; an entry with the same key is replaced. -/
def insertEntries (k : κ) (v : β) : List (κ × β) → List (κ × β)
  | [] => [(k, v)]
  | (a, b) :: l =>
    if k < a then (k, v) :: (a, b) :: l
    else if k = a then (k, v) :: l
    else (a, b) :: insertEntries k v l

/-- After an insertion there are the new entry and old ones. -/
theorem mem_insertEntries_fst {k : κ} {v : β} {l : List (κ × β)} {e : κ × β}
    (he : e ∈ insertEntries k v l) : e = (k, v) ∨ e ∈ l := by
  induction l with
  | nil => simpa [insertEntries] using he
  | cons a l ih =>
    obtain ⟨a, b⟩ := a
    simp only [insertEntries] at he
    split_ifs at he with h₁ h₂
    · simpa using he
    · rcases List.mem_cons.mp he with rfl | he
      · exact Or.inl rfl
      · exact Or.inr (List.mem_cons_of_mem _ he)
    · rcases List.mem_cons.mp he with rfl | he
      · exact Or.inr List.mem_cons_self
      · exact (ih he).imp_right (List.mem_cons_of_mem _)

/-- Insertion keeps the order. -/
theorem sorted_insertEntries (k : κ) (v : β) {l : List (κ × β)}
    (hl : l.Pairwise fun a b => a.1 < b.1) :
    (insertEntries k v l).Pairwise fun a b => a.1 < b.1 := by
  induction l with
  | nil => simp [insertEntries]
  | cons a l ih =>
    obtain ⟨a, b⟩ := a
    rw [List.pairwise_cons] at hl
    simp only [insertEntries]
    split_ifs with h₁ h₂
    · refine List.pairwise_cons.mpr ⟨fun e he => ?_, List.pairwise_cons.mpr hl⟩
      rcases List.mem_cons.mp he with rfl | he
      · exact h₁
      · exact h₁.trans (hl.1 e he)
    · exact List.pairwise_cons.mpr ⟨fun e he => h₂ ▸ hl.1 e he, hl.2⟩
    · refine List.pairwise_cons.mpr ⟨fun e he => ?_, ih hl.2⟩
      rcases mem_insertEntries_fst he with rfl | he
      · exact lt_of_le_of_ne (not_lt.mp h₁) (Ne.symm h₂)
      · exact hl.1 e he

/-- `m[k] = v`. -/
def insert (m : SortedMap κ β) (k : κ) (v : β) : SortedMap κ β :=
  ⟨insertEntries k v m.entries, sorted_insertEntries k v m.sorted⟩

/-- Looking up after an insertion into a list in order. -/
theorem lookup_insertEntries (k : κ) (v : β) {l : List (κ × β)}
    (hl : l.Pairwise fun a b => a.1 < b.1) (k' : κ) :
    (insertEntries k v l).lookup k' = if k' = k then some v else l.lookup k' := by
  induction l with
  | nil =>
    by_cases h : k' = k
    · simp [insertEntries, h]
    · simp [insertEntries, List.lookup_cons, h, beq_eq_false_iff_ne.mpr h]
  | cons a l ih =>
    obtain ⟨a, b⟩ := a
    rw [List.pairwise_cons] at hl
    simp only [insertEntries]
    by_cases h : k' = k
    · subst h
      rw [if_pos rfl]
      split_ifs with h₁ h₂
      · simp
      · simp
      · rw [List.lookup_cons, beq_eq_false_iff_ne.mpr h₂]
        simpa using ih hl.2
    · have hk : (k' == k) = false := beq_eq_false_iff_ne.mpr h
      rw [if_neg h] at ih ⊢
      split_ifs with h₁ h₂
      · rw [List.lookup_cons, hk]
      · rw [List.lookup_cons, List.lookup_cons, hk, ← h₂, hk]
      · rw [List.lookup_cons, List.lookup_cons, ih hl.2]

/-- Looking up after an insertion. -/
@[simp] theorem find?_insert (m : SortedMap κ β) (k : κ) (v : β) (k' : κ) :
    (m.insert k v).find? k' = if k' = k then some v else m.find? k' :=
  lookup_insertEntries k v m.sorted k'

/-- A key is in a map when looking it up succeeds. -/
theorem mem_iff_find?_ne_none {m : SortedMap κ β} {k : κ} : k ∈ m ↔ m.find? k ≠ none := by
  rw [Ne, find?_eq_none_iff, not_not]

/-- The keys after an insertion. -/
@[simp] theorem mem_insert {m : SortedMap κ β} {k : κ} {v : β} {k' : κ} :
    k' ∈ m.insert k v ↔ k' = k ∨ k' ∈ m := by
  rw [mem_iff_find?_ne_none, mem_iff_find?_ne_none, find?_insert]
  by_cases h : k' = k <;> simp [h]

/-- Only the last of two assignments to one key counts. -/
theorem insert_insert_same (m : SortedMap κ β) (k : κ) (v w : β) :
    (m.insert k v).insert k w = m.insert k w := by
  refine ext_find? fun k' => ?_
  simp only [find?_insert]
  split_ifs <;> rfl

/-- A key above all others goes to the end. -/
theorem entries_insert_of_forall_lt {m : SortedMap κ β} {k : κ} {v : β}
    (h : ∀ e ∈ m.entries, e.1 < k) : (m.insert k v).entries = m.entries ++ [(k, v)] := by
  obtain ⟨l, hl⟩ := m
  change insertEntries k v l = l ++ [(k, v)]
  change ∀ e ∈ l, e.1 < k at h
  clear hl
  induction l with
  | nil => rfl
  | cons a l ih =>
    obtain ⟨a, b⟩ := a
    have ha : a < k := h (a, b) List.mem_cons_self
    rw [insertEntries, if_neg ha.not_gt, if_neg ha.ne', List.cons_append,
      ih fun e he => h e (List.mem_cons_of_mem _ he)]

/-- The map built by assigning the entries of a list one after the other. -/
def ofList (l : List (κ × β)) : SortedMap κ β :=
  l.foldl (fun m e => m.insert e.1 e.2) ∅

/-- Assigning in ascending order appends. -/
theorem entries_foldl_insert {l : List (κ × β)} (m : SortedMap κ β)
    (h : (m.entries ++ l).Pairwise fun a b => a.1 < b.1) :
    (l.foldl (fun m e => m.insert e.1 e.2) m).entries = m.entries ++ l := by
  induction l generalizing m with
  | nil => simp
  | cons e l ih =>
    have hlast : (m.insert e.1 e.2).entries = m.entries ++ [e] :=
      entries_insert_of_forall_lt fun a ha =>
        (List.pairwise_append.mp h).2.2 a ha e List.mem_cons_self
    rw [List.foldl_cons, ih _ (by rwa [hlast, List.append_assoc, List.singleton_append]), hlast,
      List.append_assoc, List.singleton_append]

/-- Reading the entries of a map back in their order gives the map. -/
@[simp] theorem ofList_entries (m : SortedMap κ β) : ofList m.entries = m := by
  have h : (ofList m.entries).entries = m.entries := by
    simpa [ofList] using entries_foldl_insert (∅ : SortedMap κ β) (by simpa using m.sorted)
  exact ext_entries fun e => by rw [h]

/-! ### Removal, union and images -/

/-- The map restricted to the entries with a property. -/
def filter (p : κ × β → Bool) (m : SortedMap κ β) : SortedMap κ β :=
  ⟨m.entries.filter p, m.sorted.filter p⟩

/-- The map without a key. -/
def erase (m : SortedMap κ β) (k : κ) : SortedMap κ β := m.filter fun e => e.1 ≠ k

/-- Looking up after a removal. -/
@[simp] theorem find?_erase (m : SortedMap κ β) (k k' : κ) :
    (m.erase k).find? k' = if k' = k then none else m.find? k' := by
  apply Option.ext
  intro v
  rw [find?_eq_some_iff]
  by_cases h : k' = k
  · simp [erase, filter, h]
  · simp [erase, filter, h, ← find?_eq_some_iff]

/-- The keys after a removal. -/
@[simp] theorem mem_erase {m : SortedMap κ β} {k k' : κ} : k' ∈ m.erase k ↔ k' ≠ k ∧ k' ∈ m := by
  rw [mem_iff_find?_ne_none, find?_erase, mem_iff_find?_ne_none]
  by_cases h : k' = k <;> simp [h]

/-- The values replaced by a function of key and value. -/
def mapVal {γ : Type*} (f : κ → β → γ) (m : SortedMap κ β) : SortedMap κ γ :=
  ⟨m.entries.map fun e => (e.1, f e.1 e.2), List.pairwise_map.mpr m.sorted⟩

/-- Looking up after a change of all values. -/
@[simp] theorem find?_mapVal {γ : Type*} (f : κ → β → γ) (m : SortedMap κ β) (k : κ) :
    (m.mapVal f).find? k = (m.find? k).map (f k) := by
  apply Option.ext
  intro v
  rw [find?_eq_some_iff, Option.map_eq_some_iff]
  simp only [mapVal, List.mem_map, Prod.mk.injEq]
  constructor
  · rintro ⟨⟨a, b⟩, hab, rfl, rfl⟩
    exact ⟨b, find?_eq_some_iff.mpr hab, rfl⟩
  · rintro ⟨b, hb, rfl⟩
    exact ⟨(k, b), find?_eq_some_iff.mp hb, rfl, rfl⟩

/-- The map with the value of one key changed, if the key is there. -/
def modify (m : SortedMap κ β) (k : κ) (f : β → β) : SortedMap κ β :=
  m.mapVal fun k' v => if k' = k then f v else v

/-- Looking up after the change of one value. -/
@[simp] theorem find?_modify (m : SortedMap κ β) (k : κ) (f : β → β) (k' : κ) :
    (m.modify k f).find? k' = if k' = k then (m.find? k').map f else m.find? k' := by
  rw [modify, find?_mapVal]
  by_cases h : k' = k
  · simp only [h, if_true]
  · simp only [h, if_false, Option.map_id']

/-- Changing a value adds and removes no key. -/
@[simp] theorem mem_modify {m : SortedMap κ β} {k : κ} {f : β → β} {k' : κ} :
    k' ∈ m.modify k f ↔ k' ∈ m := by
  rw [mem_iff_find?_ne_none, mem_iff_find?_ne_none, find?_modify]
  by_cases h : k' = k <;> simp [h]

/-- Looking up in the entries that a test keeps. -/
@[simp] theorem find?_filter (m : SortedMap κ β) (p : κ × β → Bool) (k : κ) :
    (m.filter p).find? k = (m.find? k).filter fun v => p (k, v) := by
  apply Option.ext
  intro v
  rw [find?_eq_some_iff, Option.filter_eq_some_iff, find?_eq_some_iff, filter, List.mem_filter]

/-- The number of values that satisfy a test. -/
def count (p : β → Bool) (m : SortedMap κ β) : ℕ := (m.entries.filter fun e => p e.2).length

/-- The contribution of a key to the count. -/
def countAt (p : β → Bool) (m : SortedMap κ β) (k : κ) : ℕ := if (m.find? k).any p then 1 else 0

/-- Two maps that agree on all keys but one differ in their counts at most in what that key adds. -/
theorem count_add_countAt {p : β → Bool} {m m' : SortedMap κ β} {k : κ}
    (h : ∀ k', k' ≠ k → m'.find? k' = m.find? k') :
    m'.count p + m.countAt p k = m.count p + m'.countAt p k := by
  -- the keys whose value satisfies the test
  let S (m : SortedMap κ β) : Finset κ := ((m.entries.filter fun e => p e.2).map Prod.fst).toFinset
  have hS : ∀ (m : SortedMap κ β) (k : κ), k ∈ S m ↔ (m.find? k).any p = true := by
    intro m k
    simp only [S, List.mem_toFinset, List.mem_map, List.mem_filter, Prod.exists, exists_and_right,
      exists_eq_right, Option.any_eq_true]
    constructor
    · intro hk
      obtain ⟨v, hv, hp⟩ := hk
      exact ⟨v, find?_eq_some_iff.mpr hv, hp⟩
    · intro hk
      obtain ⟨v, hv, hp⟩ := hk
      exact ⟨v, find?_eq_some_iff.mp hv, hp⟩
  have hcard : ∀ m : SortedMap κ β, m.count p = (S m).card := by
    intro m
    have hnodup : ((m.entries.filter fun e => p e.2).map Prod.fst).Nodup :=
      m.keys_nodup.sublist (List.filter_sublist.map Prod.fst)
    rw [List.toFinset_card_of_nodup hnodup, List.length_map, count]
  have herase : (S m').erase k = (S m).erase k := by
    ext k'
    simp only [Finset.mem_erase, hS]
    exact and_congr_right fun hk' => by rw [h k' hk']
  have hsplit : ∀ m : SortedMap κ β, (S m).card = ((S m).erase k).card + m.countAt p k := by
    intro m
    unfold countAt
    by_cases hk : k ∈ S m
    · rw [if_pos ((hS m k).mp hk), Finset.card_erase_add_one hk]
    · rw [if_neg (mt (hS m k).mpr hk), Finset.erase_eq_of_notMem hk, Nat.add_zero]
  rw [hcard, hcard, hsplit m, hsplit m', herase]
  omega

/-- An entry that passes the test is counted. -/
theorem count_pos {p : β → Bool} {m : SortedMap κ β} {k : κ} {v : β} (hk : m.find? k = some v)
    (hv : p v = true) : 0 < m.count p :=
  List.length_pos_of_mem (List.mem_filter.mpr ⟨find?_eq_some_iff.mp hk, hv⟩)

end SortedMap

namespace SortedSet

variable {κ : Type*} [LinearOrder κ]

/-- `s.insert(k)`. -/
def insert (s : SortedSet κ) (k : κ) : SortedSet κ := SortedMap.insert s k ()

/-- The set of the members of a list. -/
def ofList (l : List κ) : SortedSet κ := l.foldl insert ∅

/-- The members in ascending order. -/
def toList (s : SortedSet κ) : List κ := SortedMap.keys s

/-- `s.erase(k)`. -/
def erase (s : SortedSet κ) (k : κ) : SortedSet κ := SortedMap.erase s k

/-- The elements after a removal. -/
@[simp] theorem mem_erase {s : SortedSet κ} {k k' : κ} : k' ∈ erase s k ↔ k' ≠ k ∧ k' ∈ s :=
  SortedMap.mem_erase

@[simp] theorem mem_toList {s : SortedSet κ} {k : κ} : k ∈ s.toList ↔ k ∈ s := Iff.rfl

/-- The elements after an insertion. -/
@[simp] theorem mem_insert {s : SortedSet κ} {k k' : κ} : k' ∈ insert s k ↔ k' = k ∨ k' ∈ s :=
  SortedMap.mem_insert

/-- The elements after a list was inserted. -/
theorem mem_foldl_insert {l : List κ} {s : SortedSet κ} {k : κ} :
    k ∈ l.foldl insert s ↔ k ∈ l ∨ k ∈ s := by
  induction l generalizing s with
  | nil => simp
  | cons a l ih => rw [List.foldl_cons, ih, mem_insert, List.mem_cons]; tauto

/-- A set made from a list has its elements. -/
@[simp] theorem mem_ofList {l : List κ} {k : κ} : k ∈ ofList l ↔ k ∈ l := by
  simp [ofList, mem_foldl_insert]

/-- Reading the members of a set back in their order gives the set. -/
@[simp] theorem ofList_toList (s : SortedSet κ) : ofList s.toList = s :=
  SortedMap.ext_mem fun k => by simp

/-- A set is determined by its elements in order. -/
theorem toList_injective : Function.Injective (toList : SortedSet κ → List κ) := fun s t h => by
  rw [← ofList_toList s, ← ofList_toList t, h]

/-- The elements come in ascending order. -/
theorem toList_sorted (s : SortedSet κ) : s.toList.Pairwise (· < ·) := SortedMap.keys_sorted s

/-- A part of a set in its order is a part of another set if it has the same members. -/
theorem filter_toList_eq {s t : SortedSet κ} {p q : κ → Bool}
    (h : ∀ k, k ∈ s ∧ p k = true ↔ k ∈ t ∧ q k = true) : s.toList.filter p = t.toList.filter q := by
  have hs := s.toList_sorted.filter p
  have ht := t.toList_sorted.filter q
  have hperm : (s.toList.filter p).Perm (t.toList.filter q) :=
    (List.perm_ext_iff_of_nodup (hs.imp ne_of_lt) (ht.imp ne_of_lt)).mpr fun k => by simp [h]
  exact hperm.eq_of_pairwise (fun a b _ _ hab hba => absurd hab hba.not_gt) hs ht

/-! ### Cardinalities -/

/-- A set is no larger than a list that has its elements. -/
theorem length_le_of_subset {s : SortedSet κ} {l : List κ} (h : ∀ k ∈ s, k ∈ l) :
    s.toList.length ≤ l.length :=
  (List.subperm_of_subset (SortedMap.keys_nodup s) fun k hk => h k hk).length_le

/-- Removing an element makes a set smaller. -/
theorem length_erase_lt {s : SortedSet κ} {k : κ} (h : k ∈ s) :
    (s.erase k).toList.length < s.toList.length := by
  have hnd : (k :: (s.erase k).toList).Nodup :=
    List.nodup_cons.mpr ⟨by simp, SortedMap.keys_nodup _⟩
  refine (List.subperm_of_subset hnd fun x hx => ?_).length_le
  rcases List.mem_cons.mp hx with rfl | hx
  · exact h
  · exact (mem_erase.mp hx).2

/-- Adding an element makes a set larger. -/
theorem length_lt_insert {s : SortedSet κ} {k : κ} (h : k ∉ s) :
    s.toList.length < (s.insert k).toList.length := by
  have hnd : (k :: s.toList).Nodup := List.nodup_cons.mpr ⟨h, SortedMap.keys_nodup s⟩
  refine (List.subperm_of_subset hnd fun x hx => ?_).length_le
  exact mem_insert.mpr (List.mem_cons.mp hx)

end SortedSet

end Nix
