import NixStore.Lib.SortedMap

/-!
# Tables of lists of entries

A table has a list of entries for each name.  Entries with the same key are taken to be the same: an
entry is added at the end of the list of its name, unless the list has one with its key.  What a table
stands for is then a set of names with keys.
-/

namespace Nix

/-- A table of lists. -/
abbrev Table (κ β : Type*) [LinearOrder κ] := SortedMap κ (List β)

variable {κ β ι : Type*} [LinearOrder κ]

namespace Table

/-- The list of a name. -/
def listAt (t : Table κ β) (k : κ) : List β := (t.find? k).getD []

/-- The list at a key has the entries of that key. -/
theorem mem_listAt {t : Table κ β} {k : κ} {b : β} :
    b ∈ t.listAt k ↔ ∃ l, (k, l) ∈ t.entries ∧ b ∈ l := by
  rw [listAt]
  cases hfind : t.find? k with
  | none =>
    refine iff_of_false List.not_mem_nil ?_
    rintro ⟨l, hl, -⟩
    rw [SortedMap.find?_eq_some_iff.mpr hl] at hfind
    cases hfind
  | some l =>
    constructor
    · exact fun h => ⟨l, SortedMap.find?_eq_some_iff.mp hfind, h⟩
    · rintro ⟨l', hl', h⟩
      rw [SortedMap.find?_eq_some_iff.mpr hl'] at hfind
      exact Option.some.inj hfind ▸ h

/-- All entries, each with its name. -/
def pairs (t : Table κ β) : List (κ × β) := t.entries.flatMap fun e => e.2.map fun b => (e.1, b)

/-- The pairs of a table are the elements of its lists. -/
theorem mem_pairs {t : Table κ β} {e : κ × β} : e ∈ t.pairs ↔ e.2 ∈ t.listAt e.1 := by
  rw [mem_listAt, pairs, List.mem_flatMap]
  constructor
  · rintro ⟨⟨k, l⟩, hl, he⟩
    obtain ⟨b, hb, rfl⟩ := List.mem_map.mp he
    exact ⟨l, hl, hb⟩
  · rintro ⟨l, hl, hb⟩
    exact ⟨(e.1, l), hl, List.mem_map.mpr ⟨e.2, hb, rfl⟩⟩

/-- Going through the pairs is going through the lists. -/
theorem flatMap_pairs {γ : Type*} (t : Table κ β) (f : κ → β → List γ) :
    (t.pairs.flatMap fun e => f e.1 e.2) = t.entries.flatMap fun e => e.2.flatMap (f e.1) := by
  rw [pairs, List.flatMap_assoc]
  simp only [List.flatMap_map]

/-- The names and keys of the entries. -/
def keysOf (key : β → ι) (t : Table κ β) : Set (κ × ι) := {x | ∃ b ∈ t.listAt x.1, key b = x.2}

/-- A table has finitely many entries. -/
theorem finite_keysOf (key : β → ι) (t : Table κ β) : (t.keysOf key).Finite := by
  refine (List.finite_toSet (t.pairs.map fun e => (e.1, key e.2))).subset ?_
  rintro ⟨k, i⟩ ⟨b, hb, rfl⟩
  exact List.mem_map.mpr ⟨(k, b), mem_pairs.mpr hb, rfl⟩

/-- The second table has more entries in its lists, behind those of the first. -/
def Extends (t t' : Table κ β) : Prop := ∀ k, t.listAt k <+: t'.listAt k

/-- A table extends itself. -/
theorem Extends.refl (t : Table κ β) : t.Extends t := fun _ => List.prefix_rfl

/-- Extensions follow each other. -/
theorem Extends.trans {t t' t'' : Table κ β} (h : t.Extends t') (h' : t'.Extends t'') :
    t.Extends t'' := fun k => (h k).trans (h' k)

end Table

open Table

variable [DecidableEq ι]

/-- Add an entry, unless there is one with its key; was it added? -/
def addEntry (key : β → ι) (t : Table κ β) (k : κ) (b : β) : Table κ β × Bool :=
  if (t.listAt k).any fun b' => key b' = key b then (t, false)
  else (t.insert k (t.listAt k ++ [b]), true)

variable {key : β → ι} {t : Table κ β} {k : κ} {b : β}

/-- An element with this key is in the list. -/
theorem any_key_iff :
    ((t.listAt k).any fun b' => key b' = key b) = true ↔ (k, key b) ∈ t.keysOf key := by
  simp only [List.any_eq_true, decide_eq_true_eq]
  rfl

/-- An entry that is there is not added. -/
theorem addEntry_of_mem (h : (k, key b) ∈ t.keysOf key) : addEntry key t k b = (t, false) := by
  rw [addEntry, if_pos (any_key_iff.mpr h)]

/-- A new entry is added at the end of its list. -/
theorem addEntry_of_notMem (h : (k, key b) ∉ t.keysOf key) :
    addEntry key t k b = (t.insert k (t.listAt k ++ [b]), true) := by
  rw [addEntry, if_neg (mt any_key_iff.mp h)]

/-- The lists after an insertion. -/
theorem listAt_insert (t : Table κ β) (k : κ) (l : List β) (k' : κ) :
    Table.listAt (t.insert k l) k' = if k' = k then l else t.listAt k' := by
  rw [Table.listAt, SortedMap.find?_insert]
  split_ifs <;> rfl

/-- The lists after an entry has been added. -/
theorem listAt_addEntry (h : (k, key b) ∉ t.keysOf key) (k' : κ) : (addEntry key t k b).1.listAt k' =
    if k' = k then t.listAt k' ++ [b] else t.listAt k' := by
  rw [addEntry_of_notMem h, listAt_insert]
  split_ifs with hk
  · rw [hk]
  · rfl

/-- Adding an entry extends the table. -/
theorem extends_addEntry : t.Extends (addEntry key t k b).1 := by
  intro k'
  by_cases hmem : (k, key b) ∈ t.keysOf key
  · rw [addEntry_of_mem hmem]
  · rw [listAt_addEntry hmem]
    split_ifs
    · exact List.prefix_append _ _
    · exact List.prefix_rfl

/-- The table has the key of the entry then, and those that it had. -/
theorem keysOf_addEntry : (addEntry key t k b).1.keysOf key = insert (k, key b) (t.keysOf key) := by
  by_cases hmem : (k, key b) ∈ t.keysOf key
  · rw [addEntry_of_mem hmem, Set.insert_eq_of_mem hmem]
  ext ⟨k', i⟩
  simp only [Table.keysOf, Set.mem_ofPred_eq, Set.mem_insert_iff, Prod.mk.injEq]
  rw [listAt_addEntry hmem]
  by_cases hk : k' = k
  · rw [if_pos hk]
    simp only [List.mem_append, List.mem_singleton, or_and_right, exists_or, exists_eq_left]
    constructor
    · rintro (h | h)
      · exact Or.inr h
      · exact Or.inl ⟨hk, h.symm⟩
    · rintro (⟨-, h⟩ | h)
      · exact Or.inr h.symm
      · exact Or.inl h
  · rw [if_neg hk]
    exact ⟨Or.inr, fun h => h.resolve_left fun heq => hk heq.1⟩

/-- Entries of the table come from the table before or are the new one. -/
theorem mem_listAt_addEntry {k' : κ} {b' : β} (h : b' ∈ (addEntry key t k b).1.listAt k') :
    b' ∈ t.listAt k' ∨ k' = k ∧ b' = b := by
  by_cases hmem : (k, key b) ∈ t.keysOf key
  · rw [addEntry_of_mem hmem] at h
    exact Or.inl h
  rw [listAt_addEntry hmem] at h
  split_ifs at h with hk
  · rcases List.mem_append.mp h with h | h
    · exact Or.inl h
    · exact Or.inr ⟨hk, List.mem_singleton.mp h⟩
  · exact Or.inl h

/-- A change is reported for a new entry. -/
theorem addEntry_changed : (addEntry key t k b).2 = true ↔ (k, key b) ∉ t.keysOf key := by
  by_cases hmem : (k, key b) ∈ t.keysOf key
  · rw [addEntry_of_mem hmem]
    exact iff_of_false Bool.false_ne_true (not_not.mpr hmem)
  · rw [addEntry_of_notMem hmem]
    exact iff_of_true rfl hmem

/-- Add entries one after the other; was one of them added, or something before? -/
def addEntries (key : β → ι) (acc : Table κ β × Bool) (entries : List (κ × β)) : Table κ β × Bool :=
  entries.foldl (fun acc e =>
    let (t, added) := addEntry key acc.1 e.1 e.2
    (t, added || acc.2)) acc

variable {acc : Table κ β × Bool} {entries : List (κ × β)}

/-- Adding entries, the first one first. -/
theorem addEntries_cons (e : κ × β) : addEntries key acc (e :: entries) =
    addEntries key ((addEntry key acc.1 e.1 e.2).1, (addEntry key acc.1 e.1 e.2).2 || acc.2)
      entries := rfl

/-- Without the flag, entries are added one after the other. -/
theorem addEntries_fst : (addEntries key acc entries).1 =
    entries.foldl (fun t e => (addEntry key t e.1 e.2).1) acc.1 := by
  induction entries generalizing acc with
  | nil => rfl
  | cons e entries ih => rw [addEntries_cons, ih, List.foldl_cons]

/-- Adding two lists of entries. -/
theorem addEntries_append (entries' : List (κ × β)) :
    addEntries key acc (entries ++ entries') = addEntries key (addEntries key acc entries) entries' :=
  List.foldl_append

/-- The keys after entries were added. -/
theorem keysOf_addEntries : (addEntries key acc entries).1.keysOf key =
    acc.1.keysOf key ∪ {x | ∃ e ∈ entries, x = (e.1, key e.2)} := by
  induction entries generalizing acc with
  | nil => simp [addEntries]
  | cons e entries ih =>
    rw [addEntries_cons, ih, keysOf_addEntry]
    ext x
    simp only [Set.mem_union, Set.mem_insert_iff, Set.mem_ofPred_eq, List.mem_cons, exists_eq_or_imp]
    tauto

/-- Adding entries extends the table. -/
theorem extends_addEntries : acc.1.Extends (addEntries key acc entries).1 := by
  induction entries generalizing acc with
  | nil => exact .refl _
  | cons e entries ih =>
    have hentry : acc.1.Extends (addEntry key acc.1 e.1 e.2).1 := extends_addEntry
    rw [addEntries_cons]
    exact hentry.trans
      (@ih ((addEntry key acc.1 e.1 e.2).1, (addEntry key acc.1 e.1 e.2).2 || acc.2))

/-- What is in a list after entries were added. -/
theorem mem_listAt_addEntries {k' : κ} {b' : β}
    (h : b' ∈ (addEntries key acc entries).1.listAt k') : b' ∈ acc.1.listAt k' ∨ (k', b') ∈ entries := by
  induction entries generalizing acc with
  | nil => exact Or.inl h
  | cons e entries ih =>
    rw [addEntries_cons] at h
    rcases ih h with h | h
    · rcases mem_listAt_addEntry h with h | ⟨rfl, rfl⟩
      · exact Or.inl h
      · exact Or.inr List.mem_cons_self
    · exact Or.inr (List.mem_cons_of_mem e h)

/-- Entries are added exactly if one of them has a new key. -/
theorem addEntries_changed (t : Table κ β) : (addEntries key (t, false) entries).2 = true ↔
    ∃ e ∈ entries, (e.1, key e.2) ∉ t.keysOf key := by
  suffices h : ∀ acc : Table κ β × Bool, (addEntries key acc entries).2 = true ↔
      acc.2 = true ∨ ∃ e ∈ entries, (e.1, key e.2) ∉ acc.1.keysOf key by
    simpa using h (t, false)
  induction entries with
  | nil => simp [addEntries]
  | cons e entries ih =>
    intro acc
    rw [addEntries_cons, ih]
    dsimp only
    rw [Bool.or_eq_true, addEntry_changed, keysOf_addEntry]
    simp only [List.mem_cons, exists_eq_or_imp, Set.mem_insert_iff, not_or]
    constructor
    · rintro ((h | h) | ⟨e', he', -, h⟩)
      · exact Or.inr (Or.inl h)
      · exact Or.inl h
      · exact Or.inr (Or.inr ⟨e', he', h⟩)
    · rintro (h | h | ⟨e', he', h⟩)
      · exact Or.inl (Or.inr h)
      · exact Or.inl (Or.inl h)
      · by_cases heq : (e'.1, key e'.2) = (e.1, key e.2)
        · exact Or.inl (Or.inl (heq ▸ h))
        · exact Or.inr ⟨e', he', heq, h⟩

/-- If nothing is added, the table stays as it is. -/
theorem addEntries_of_subset (h : ∀ e ∈ entries, (e.1, key e.2) ∈ t.keysOf key) :
    addEntries key (t, false) entries = (t, false) := by
  induction entries with
  | nil => rfl
  | cons e entries ih =>
    rw [addEntries_cons, addEntry_of_mem (h e List.mem_cons_self)]
    exact ih fun e' he' => h e' (List.mem_cons_of_mem e he')

/-! ### Adding the entries of a table -/

/-- Entries with different keys that a table does not have are all added. -/
theorem listAt_addEntries (hnodup : (entries.map fun e => (e.1, key e.2)).Nodup)
    (hnew : ∀ e ∈ entries, (e.1, key e.2) ∉ acc.1.keysOf key) (k : κ) :
    (addEntries key acc entries).1.listAt k =
      acc.1.listAt k ++ (entries.filter fun e => e.1 = k).map Prod.snd := by
  induction entries generalizing acc with
  | nil => exact (List.append_nil _).symm
  | cons e entries ih =>
    rw [List.map_cons, List.nodup_cons] at hnodup
    have hnew' : ∀ e' ∈ entries, (e'.1, key e'.2) ∉ (addEntry key acc.1 e.1 e.2).1.keysOf key := by
      intro e' he'
      rw [keysOf_addEntry, Set.mem_insert_iff, not_or]
      refine ⟨fun heq => hnodup.1 ?_, hnew e' (List.mem_cons_of_mem e he')⟩
      rw [← heq]
      exact List.mem_map.mpr ⟨e', he', rfl⟩
    rw [addEntries_cons, @ih ((addEntry key acc.1 e.1 e.2).1, (addEntry key acc.1 e.1 e.2).2 || acc.2)
      hnodup.2 hnew', listAt_addEntry (hnew e List.mem_cons_self)]
    by_cases hk : k = e.1
    · have hfilter : ((e :: entries).filter fun e' => e'.1 = k) =
          e :: entries.filter fun e' => e'.1 = k :=
        List.filter_cons_of_pos (decide_eq_true hk.symm)
      rw [if_pos hk, hfilter, List.map_cons, List.append_assoc, List.singleton_append]
    · have hfilter : ((e :: entries).filter fun e' => e'.1 = k) = entries.filter fun e' => e'.1 = k :=
        List.filter_cons_of_neg (by simpa using Ne.symm hk)
      rw [if_neg hk, hfilter]

/-- The pairs of one key are its list. -/
theorem filter_pairs (t : Table κ β) (k : κ) :
    (t.pairs.filter fun e => e.1 = k).map Prod.snd = t.listAt k := by
  have hlist : ∀ l : List (κ × List β), (l.map Prod.fst).Nodup →
      ((l.flatMap fun e => e.2.map fun b => (e.1, b)).filter fun e => e.1 = k).map Prod.snd =
        (l.lookup k).getD [] := by
    intro l hnodup
    induction l with
    | nil => rfl
    | cons e l ih =>
      rw [List.map_cons, List.nodup_cons] at hnodup
      rw [List.flatMap_cons, List.filter_append, List.map_append, List.lookup_cons]
      by_cases hk : k = e.1
      · have hfirst : ((e.2.map fun b => (e.1, b)).filter fun e' => e'.1 = k) =
            e.2.map fun b => (e.1, b) := by
          refine List.filter_eq_self.mpr fun e' he' => ?_
          obtain ⟨b, -, rfl⟩ := List.mem_map.mp he'
          exact decide_eq_true hk.symm
        have hrest : ((l.flatMap fun e => e.2.map fun b => (e.1, b)).filter fun e' => e'.1 = k) = [] := by
          refine List.filter_eq_nil_iff.mpr fun e' he' heq => hnodup.1 ?_
          obtain ⟨e'', he'', hmem⟩ := List.mem_flatMap.mp he'
          obtain ⟨b, -, rfl⟩ := List.mem_map.mp hmem
          exact List.mem_map.mpr ⟨e'', he'', (of_decide_eq_true heq).trans hk⟩
        rw [hfirst, hrest, hk, beq_self_eq_true, List.map_map, List.map_nil, List.append_nil]
        exact List.map_id e.2
      · have hfirst : ((e.2.map fun b => (e.1, b)).filter fun e' => e'.1 = k) = [] := by
          refine List.filter_eq_nil_iff.mpr fun e' he' heq => hk ?_
          obtain ⟨b, -, rfl⟩ := List.mem_map.mp he'
          exact (of_decide_eq_true heq).symm
        rw [hfirst, ih hnodup.2, beq_eq_false_iff_ne.mpr hk]
        rfl
  exact hlist t.entries t.keys_nodup

/-- A table is made again from its entries, if their keys are different. -/
theorem listAt_addEntries_pairs (h : ∀ k, ((t.listAt k).map key).Nodup) (k : κ) :
    (addEntries key (∅, false) t.pairs).1.listAt k = t.listAt k := by
  have hempty : ∀ k, Table.listAt (∅ : Table κ β) k = [] := fun k => rfl
  have hnodup : (t.pairs.map fun e => (e.1, key e.2)).Nodup := by
    rw [Table.pairs, List.map_flatMap]
    refine List.nodup_flatMap.mpr ⟨fun e he => ?_, ?_⟩
    · have hlist : t.listAt e.1 = e.2 := by
        rw [Table.listAt, SortedMap.find?_eq_some_iff.mpr he]
        rfl
      have hkeys := h e.1
      rw [hlist] at hkeys
      have hpairs := hkeys.map (f := fun i => (e.1, i)) fun i j hij => (Prod.mk.inj hij).2
      rw [List.map_map] at hpairs ⊢
      exact hpairs
    · refine t.sorted.imp fun {e e'} hlt x hx hx' => ?_
      simp only [List.map_map, List.mem_map, Function.comp_apply] at hx hx'
      obtain ⟨b, -, rfl⟩ := hx
      obtain ⟨b', -, heq⟩ := hx'
      exact hlt.ne (Prod.mk.inj heq).1.symm
  rw [listAt_addEntries hnodup, hempty, List.nil_append, filter_pairs]
  rintro e - ⟨b, hb, -⟩
  rw [hempty] at hb
  cases hb

end Nix
