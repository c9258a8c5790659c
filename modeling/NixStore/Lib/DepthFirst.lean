import Mathlib

/-!
# The order of a depth-first walk

A recursion that visits the successors of a node in ascending order, and no node twice, comes to a node
along the least of the walks that lead to it, in the lexicographic order, if there are no cycles.  So the
order of the visits is one of the graph alone (`VisitedBefore`).  The sets of nodes that have been
visited at the points of such a recursion are `Walk.Until`, `Walk.Between` and `Walk.Through`.
-/

namespace Nix

open Relation

variable {α : Type*} {start : Set α} {r : α → α → Prop} {a b u x : α} {c l m : List α}

/-- A list of nodes, from one of those where a walk can start, that leads to a node. -/
inductive Walk (start : Set α) (r : α → α → Prop) : List α → α → Prop
  | start {a : α} : a ∈ start → Walk start r [a] a
  | step {l : List α} {a b : α} : Walk start r l a → r a b → Walk start r (l ++ [b]) b

section

variable [LinearOrder α]

/-- The depth-first walk comes to one node before it comes to another one: one of the walks to it comes
before all those to the other one. -/
def VisitedBefore (start : Set α) (r : α → α → Prop) (a b : α) : Prop :=
  ∃ l, Walk start r l a ∧ ∀ l', Walk start r l' b → l < l'

/-- The nodes that have been visited when the recursion comes to the end of `c`. -/
def Walk.Until (start : Set α) (r : α → α → Prop) (c : List α) (x : α) : Prop :=
  ∃ l, Walk start r l x ∧ l < c

/-- The nodes that have been visited when the recursion leaves the end of `c`. -/
def Walk.Through (start : Set α) (r : α → α → Prop) (c : List α) (x : α) : Prop :=
  ∃ l, Walk start r l x ∧ (l < c ∨ c <+: l)

/-- The nodes that have been visited when the recursion is at the end of `c` and the successors in
`next` are left. -/
def Walk.Between (start : Set α) (r : α → α → Prop) (c next : List α) (x : α) : Prop :=
  ∃ l, Walk start r l x ∧ (l < c ∨ l = c ∨ ∃ u rest, l = c ++ u :: rest ∧ ∀ i ∈ next, u < i)

/-- The successors that are left: every other one has been visited, or comes before them. -/
def Walk.Left (start : Set α) (r : α → α → Prop) (c next : List α) : Prop :=
  ∀ u, Walk start r (c ++ [u]) u → u ∈ next ∨ Walk.Until start r c u ∨ ∀ i ∈ next, u < i

end

/-! ### Lexicographic order -/

section

variable [LinearOrder α]

/-- What follows makes no difference if a list comes before another one and is no prefix of it. -/
theorem append_lt_of_lt (h : l < c) (hnot : ¬l <+: c) (rest : List α) : l ++ rest < c := by
  induction l generalizing c with
  | nil => exact absurd List.nil_prefix hnot
  | cons a l ih =>
    cases c with
    | nil => exact absurd h (List.not_lt_nil _)
    | cons b c =>
      rw [List.cons_append, List.cons_lt_cons_iff]
      rcases List.cons_lt_cons_iff.mp h with hab | ⟨rfl, hlc⟩
      · exact .inl hab
      · exact .inr ⟨rfl, ih hlc fun hpre => hnot (List.cons_prefix_cons.mpr ⟨rfl, hpre⟩)⟩

/-- What comes before a list with one more element. -/
theorem lt_append_singleton_iff {i : α} :
    l < c ++ [i] ↔ l < c ∨ l = c ∨ ∃ u rest, l = c ++ u :: rest ∧ u < i := by
  induction c generalizing l with
  | nil =>
    cases l with
    | nil => simp
    | cons a l => simp [List.cons_lt_cons_iff]
  | cons b c ih =>
    cases l with
    | nil => simp
    | cons a l =>
      simp only [List.cons_append, List.cons_lt_cons_iff, ih, List.cons.injEq]
      constructor
      · rintro (h | ⟨rfl, h | rfl | ⟨u, rest, rfl, hu⟩⟩)
        · exact .inl (.inl h)
        · exact .inl (.inr ⟨rfl, h⟩)
        · exact .inr (.inl ⟨rfl, rfl⟩)
        · exact .inr (.inr ⟨u, rest, ⟨rfl, rfl⟩, hu⟩)
      · rintro ((h | ⟨rfl, h⟩) | ⟨rfl, rfl⟩ | ⟨u, rest, ⟨rfl, rfl⟩, hu⟩)
        · exact .inl h
        · exact .inr ⟨rfl, .inl h⟩
        · exact .inr ⟨rfl, .inr (.inl rfl)⟩
        · exact .inr ⟨rfl, .inr (.inr ⟨u, rest, rfl, hu⟩)⟩

end

namespace Walk

/-! ### Walks -/

/-- A walk ends at its last vertex. -/
theorem getLast?_eq (h : Walk start r l a) : l.getLast? = some a := by
  cases h <;> simp

/-- A walk is not empty. -/
theorem ne_nil (h : Walk start r l a) : l ≠ [] := by
  cases h <;> simp

/-- A walk has one end. -/
theorem end_eq (h : Walk start r l a) (h' : Walk start r l b) : a = b :=
  Option.some.inj (h.getLast?_eq.symm.trans h'.getLast?_eq)

/-- A walk goes on with a successor. -/
theorem rel_of_append (h : Walk start r l a) (h' : Walk start r m b) (hm : m = l ++ [b]) : r a b := by
  cases h' with
  | start _ =>
    exact absurd (List.append_inj' (hm : [] ++ [b] = l ++ [b]) rfl).1.symm h.ne_nil
  | step hla hab =>
    obtain ⟨rfl, -⟩ := List.append_inj' hm rfl
    obtain rfl := hla.end_eq h
    exact hab

/-- A walk of one vertex begins there. -/
theorem mem_start (h : Walk start r [a] a) : a ∈ start := by
  generalize hl : [a] = l at h
  cases h with
  | start ha => exact ha
  | step hla _ =>
    exact absurd (List.append_inj' (hl : [] ++ [a] = _) rfl).1.symm hla.ne_nil

/-- The beginning of a walk is one. -/
theorem of_append (h : Walk start r l x) {rest : List α} (hl : l = c ++ u :: rest) :
    Walk start r (c ++ [u]) u := by
  induction h generalizing rest with
  | @start a ha =>
    obtain ⟨rfl, heq⟩ | ⟨c', rfl, hc⟩ := List.append_eq_cons_iff.mp hl.symm
    · obtain ⟨rfl, rfl⟩ := List.cons.inj heq
      exact .start ha
    · simp at hc
  | @step l a b hla hab ih =>
    induction rest using List.reverseRecOn with
    | nil =>
      obtain ⟨rfl, heq⟩ := List.append_inj' hl rfl
      obtain rfl := List.singleton_inj.mp heq
      exact .step hla hab
    | append_singleton rest d _ =>
      rw [← List.cons_append, ← List.append_assoc] at hl
      exact ih (List.append_inj' hl rfl).1

/-- A walk can be continued as another walk to the same node was. -/
theorem append_of_append (h : Walk start r l x) {rest : List α} (hl : l = c ++ u :: rest)
    (hm : Walk start r m u) : Walk start r (m ++ rest) x := by
  induction h generalizing rest with
  | @start a ha =>
    obtain ⟨rfl, heq⟩ | ⟨c', rfl, hc⟩ := List.append_eq_cons_iff.mp hl.symm
    · obtain ⟨rfl, rfl⟩ := List.cons.inj heq
      rwa [List.append_nil]
    · simp at hc
  | @step l a b hla hab ih =>
    induction rest using List.reverseRecOn with
    | nil =>
      obtain ⟨-, heq⟩ := List.append_inj' hl rfl
      obtain rfl := List.singleton_inj.mp heq
      rwa [List.append_nil]
    | append_singleton rest d _ =>
      rw [← List.cons_append, ← List.append_assoc] at hl
      obtain ⟨hinit, heq⟩ := List.append_inj' hl rfl
      obtain rfl := List.singleton_inj.mp heq
      rw [← List.append_assoc]
      exact .step (ih hinit) hab

/-- The beginnings of a walk lead to nodes that lead to its end. -/
theorem eq_or_transGen (h : Walk start r c a) (hpre : m <+: c) (hm : Walk start r m u) :
    m = c ∨ TransGen r u a := by
  induction h with
  | @start a ha =>
    rcases List.prefix_cons_iff.mp hpre with rfl | ⟨t, rfl, ht⟩
    · exact absurd rfl hm.ne_nil
    · rw [List.prefix_nil.mp ht]
      exact .inl rfl
  | @step l a b hla hab ih =>
    rcases List.prefix_concat_iff.mp hpre with heq | hpre
    · exact .inl heq
    · rcases ih hpre with rfl | htrans
      · obtain rfl := hla.end_eq hm
        exact .inr (.single hab)
      · exact .inr (htrans.tail hab)

/-- A node is not on the way to itself. -/
theorem not_prefix_of_walk (hacyclic : ∀ a, ¬TransGen r a a) (h : Walk start r (c ++ [u]) u)
    (hm : Walk start r m u) : ¬m <+: c := fun hpre => by
  rcases h.eq_or_transGen (hpre.trans (List.prefix_append c [u])) hm with rfl | hcycle
  · exact absurd hpre.length_le (by simp)
  · exact hacyclic u hcycle

/-! ### What has been visited -/

section

variable [LinearOrder α] {i : α} {next : List α}

/-- Where a successor has been visited, what follows it has been too. -/
theorem until_of_append (hacyclic : ∀ a, ¬TransGen r a a) {rest : List α}
    (h : Walk start r (c ++ u :: rest) x) (hu : Until start r c u) : Until start r c x := by
  obtain ⟨m, hm, hlt⟩ := hu
  exact ⟨m ++ rest, h.append_of_append rfl hm,
    append_lt_of_lt hlt (not_prefix_of_walk hacyclic (h.of_append rfl) hm) rest⟩

/-- A node that has been visited is left at once. -/
theorem through_iff_of_until (hacyclic : ∀ a, ¬TransGen r a a) (hc : Walk start r c a)
    (h : Until start r c a) : Through start r c x ↔ Until start r c x := by
  refine ⟨?_, fun ⟨l, hl, hlt⟩ => ⟨l, hl, .inl hlt⟩⟩
  rintro ⟨l, hl, hlt | ⟨rest, rfl⟩⟩
  · exact ⟨l, hl, hlt⟩
  · obtain ⟨c, rfl⟩ := List.getLast?_eq_some_iff.mp hc.getLast?_eq
    obtain ⟨m, hm, hlt⟩ := h
    have hnot : ¬m <+: c ++ [a] := fun hpre =>
      (List.prefix_concat_iff.mp hpre).elim (fun heq => absurd (heq ▸ hlt) (lt_irrefl _))
        (not_prefix_of_walk hacyclic hc hm)
    exact ⟨m ++ rest, hl.append_of_append (List.append_assoc c [a] rest) hm,
      append_lt_of_lt hlt hnot rest⟩

/-- Nothing is visited from a node without successors. -/
theorem through_iff_of_leaf (hc : Walk start r c a) (hleaf : ∀ b, ¬r a b) :
    Through start r c x ↔ Until start r c x ∨ x = a := by
  constructor
  · rintro ⟨l, hl, hlt | ⟨rest, rfl⟩⟩
    · exact .inl ⟨l, hl, hlt⟩
    · cases rest with
      | nil =>
        rw [List.append_nil] at hl
        exact .inr (hl.end_eq hc)
      | cons b rest => exact absurd (hc.rel_of_append (hl.of_append rfl) rfl) (hleaf b)
  · rintro (⟨l, hl, hlt⟩ | rfl)
    · exact ⟨l, hl, .inl hlt⟩
    · exact ⟨c, hc, .inr (List.prefix_refl c)⟩

/-- In front of the successors only the node itself has been visited. -/
theorem between_iff_of_left (hc : Walk start r c a)
    (hacyclic : ∀ a, ¬TransGen r a a) (hnext : ∀ u, r a u → u ∈ next ∨ Until start r c u) :
    Between start r c next x ↔ Until start r c x ∨ x = a := by
  constructor
  · rintro ⟨l, hl, hlt | rfl | ⟨u, rest, rfl, hu⟩⟩
    · exact .inl ⟨l, hl, hlt⟩
    · exact .inr (hl.end_eq hc)
    · rcases hnext u (hc.rel_of_append (hl.of_append rfl) rfl) with hmem | huntil
      · exact absurd (hu u hmem) (lt_irrefl u)
      · exact .inl (until_of_append hacyclic hl huntil)
  · rintro (⟨l, hl, hlt⟩ | rfl)
    · exact ⟨l, hl, .inl hlt⟩
    · exact ⟨c, hc, .inr (.inl rfl)⟩

/-- At the start nothing lies between. -/
theorem not_between_start (hnext : ∀ u ∈ start, u ∈ next) : ¬Between start r [] next x := by
  rintro ⟨l, hl, hlt | rfl | ⟨u, rest, rfl, hu⟩⟩
  · exact List.not_lt_nil l hlt
  · exact hl.ne_nil rfl
  · exact lt_irrefl u (hu u (hnext u (hl.of_append (c := []) rfl).mem_start))

/-- The recursion comes to the next successor. -/
theorem between_cons (hlt : ∀ j ∈ next, i < j) :
    Between start r c (i :: next) x ↔ Until start r (c ++ [i]) x := by
  refine exists_congr fun l => and_congr_right fun _ => ?_
  rw [lt_append_singleton_iff]
  refine or_congr_right (or_congr_right (exists₂_congr fun u rest => and_congr_right fun _ => ?_))
  rw [List.forall_mem_cons]
  exact and_iff_left_of_imp fun hu j hj => hu.trans (hlt j hj)

/-- The recursion leaves a successor. -/
theorem through_append_singleton (hacyclic : ∀ a, ¬TransGen r a a) (hlt : ∀ j ∈ next, i < j)
    (hleft : Left start r c (i :: next)) :
    Through start r (c ++ [i]) x ↔ Between start r c next x := by
  constructor
  · rintro ⟨l, hl, h | ⟨rest, rfl⟩⟩
    · rcases lt_append_singleton_iff.mp h with h | rfl | ⟨u, rest, rfl, hu⟩
      · exact ⟨l, hl, .inl h⟩
      · exact ⟨l, hl, .inr (.inl rfl)⟩
      · exact ⟨_, hl, .inr (.inr ⟨u, rest, rfl, fun j hj => hu.trans (hlt j hj)⟩)⟩
    · exact ⟨_, hl, .inr (.inr ⟨i, rest, by simp, hlt⟩)⟩
  · rintro ⟨l, hl, h | rfl | ⟨u, rest, rfl, hu⟩⟩
    · exact ⟨l, hl, .inl (lt_append_singleton_iff.mpr (.inl h))⟩
    · exact ⟨l, hl, .inl (lt_append_singleton_iff.mpr (.inr (.inl rfl)))⟩
    · rcases lt_trichotomy u i with hui | rfl | hiu
      · exact ⟨_, hl, .inl (lt_append_singleton_iff.mpr (.inr (.inr ⟨u, rest, rfl, hui⟩)))⟩
      · exact ⟨_, hl, .inr ⟨rest, by simp⟩⟩
      · -- a successor that is passed over has been visited
        rcases hleft u (hl.of_append rfl) with hmem | huntil | hall
        · rcases List.mem_cons.mp hmem with rfl | hmem
          · exact absurd hiu (lt_irrefl u)
          · exact absurd (hu u hmem) (lt_irrefl u)
        · obtain ⟨m, hm, hmc⟩ := until_of_append hacyclic hl huntil
          exact ⟨m, hm, .inl (lt_append_singleton_iff.mpr (.inl hmc))⟩
        · exact absurd (hall i List.mem_cons_self) hiu.not_gt

/-- The first of the vertices left may be taken off when it is below the others. -/
theorem Left.tail (h : Left start r c (i :: next)) (hlt : ∀ j ∈ next, i < j) :
    Left start r c next := by
  intro u hu
  rcases h u hu with hmem | huntil | hall
  · rcases List.mem_cons.mp hmem with rfl | hmem
    · exact .inr (.inr hlt)
    · exact .inl hmem
  · exact .inr (.inl huntil)
  · exact .inr (.inr fun j hj => hall j (List.mem_cons_of_mem i hj))

/-- The recursion leaves a node when no successors are left. -/
theorem between_nil : Between start r c [] x ↔ Through start r c x := by
  refine exists_congr fun l => and_congr_right fun _ => or_congr_right ?_
  constructor
  · rintro (rfl | ⟨u, rest, rfl, -⟩)
    · exact List.prefix_refl l
    · exact List.prefix_append c _
  · rintro ⟨rest, rfl⟩
    cases rest with
    | nil => exact .inl (List.append_nil c)
    | cons u rest => exact .inr ⟨u, rest, rfl, by simp⟩

/-- What has been visited when the recursion comes to a node for the first time comes before it. -/
theorem until_iff_visitedBefore (hc : Walk start r c b) (hnot : ¬Until start r c b) :
    Until start r c a ↔ VisitedBefore start r a b := by
  refine ⟨fun ⟨l, hl, hlt⟩ => ⟨l, hl, fun l' hl' => ?_⟩, fun ⟨l, hl, hall⟩ => ⟨l, hl, hall c hc⟩⟩
  exact hlt.trans_le (not_lt.mp fun hl'c => hnot ⟨l', hl', hl'c⟩)

end

end Walk

end Nix
