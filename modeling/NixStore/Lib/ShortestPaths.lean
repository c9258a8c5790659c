import Mathlib

/-!
# Shortest paths

Dijkstra's algorithm on a graph with weights, by a search for the least label in a list.  Labels that
have not been reached hold a bound instead of an infinite distance; paths are given backwards, from
their last edge, as the algorithm retrieves them.
-/

namespace Nix

/-- A graph with weighted edges. -/
structure WeightedGraph (V E : Type*) where
  /-- The edges that leave a vertex. -/
  edges : V → List E
  source : E → V
  target : E → V
  weight : E → ℕ
  source_of_mem : ∀ {v e}, e ∈ edges v → source e = v

/-- The distances that are known, and the last edges of the paths that have them. -/
structure PathLabels (V E : Type*) where
  d : V → ℕ
  pred : V → Option E

/-- The label of a vertex is replaced. -/
def PathLabels.set {V E : Type*} [DecidableEq V] (L : PathLabels V E) (v : V) (d : ℕ) (e : E) :
    PathLabels V E :=
  ⟨Function.update L.d v d, Function.update L.pred v (some e)⟩

namespace WeightedGraph

variable {V E : Type*} (G : WeightedGraph V E)

/-! ### Paths -/

/-- The total weight of a path. -/
def cost (p : List E) : ℕ := (p.map G.weight).sum

@[simp] theorem cost_nil : G.cost [] = 0 := rfl

@[simp] theorem cost_cons (e : E) (p : List E) : G.cost (e :: p) = G.weight e + G.cost p :=
  List.sum_cons

/-- The path, read backwards, leads from `s` to a vertex. -/
inductive LeadsTo (s : V) : V → List E → Prop
  | nil : LeadsTo s s []
  | cons {e : E} {p : List E} (he : e ∈ G.edges (G.source e)) (hp : LeadsTo s (G.source e) p) :
    LeadsTo s (G.target e) (e :: p)

/-- The path that the last edges give. -/
inductive Traces (s : V) (L : PathLabels V E) : V → List E → Prop
  | nil : Traces s L s []
  | cons {v : V} {e : E} {p : List E} (hv : v ≠ s) (he : L.pred v = some e)
    (hp : Traces s L (G.source e) p) : Traces s L v (e :: p)

variable {G}

/-- A path on which the labels do not change stays. -/
theorem Traces.congr {s v : V} {L L' : PathLabels V E} {p : List E} {P : V → Prop}
    (h : G.Traces s L v p) (hv : P v)
    (hclosed : ∀ v e, P v → L.pred v = some e → P (G.source e))
    (hsame : ∀ v, P v → L'.pred v = L.pred v) : G.Traces s L' v p := by
  induction h with
  | nil => exact .nil
  | @cons v e p hne he hp ih =>
    exact .cons hne (by rw [hsame v hv, he]) (ih (hclosed v e hv he))

/-! ### The invariant -/

/-- The invariant of the main loop, with the vertices that have been removed from the list. -/
structure SearchInv (G : WeightedGraph V E) (s : V) (bound : ℕ) (done todo : List V)
    (L : PathLabels V E) : Prop where
  source : L.d s = 0
  le_bound : ∀ v, L.d v ≤ bound
  /-- Vertices are removed in the order of their distances. -/
  order : ∀ u ∈ done, ∀ v ∈ todo, L.d u ≤ L.d v
  relaxed : ∀ u ∈ done, ∀ e ∈ G.edges u, L.d (G.target e) ≤ L.d u + G.weight e
  pred_some : ∀ v e, L.pred v = some e → G.source e ∈ done ∧ e ∈ G.edges (G.source e) ∧
    G.target e = v ∧ L.d v = L.d (G.source e) + G.weight e ∧ L.d v < bound
  pred_none : ∀ v, v ≠ s → L.pred v = none → L.d v = bound
  trace : ∀ v ∈ done, L.d v < bound → ∃ p, G.Traces s L v p ∧ p.length < done.length

section

variable {s v : V} {L : PathLabels V E} {p : List E} {bound : ℕ} {done todo : List V}

/-- A traced path leads to its end, at the cost of the label. -/
theorem SearchInv.leadsTo (h : SearchInv G s bound done todo L) (hp : G.Traces s L v p) :
    G.LeadsTo s v p ∧ G.cost p = L.d v := by
  induction hp with
  | nil => exact ⟨.nil, h.source.symm⟩
  | @cons v e p hne he hp ih =>
    obtain ⟨-, hmem, rfl, hcost, -⟩ := h.pred_some v e he
    exact ⟨.cons hmem ih.1, by rw [cost_cons, ih.2, hcost, Nat.add_comm]⟩

/-- The labels are lower bounds for the weights of all paths. -/
theorem SearchInv.le_cost (h : SearchInv G s bound done [] L) (hs : s ∈ done)
    (hclosed : ∀ v ∈ done, ∀ e ∈ G.edges v, G.target e ∈ done) (hp : G.LeadsTo s v p) :
    v ∈ done ∧ L.d v ≤ G.cost p := by
  induction hp with
  | nil => exact ⟨hs, h.source.le⟩
  | @cons e p he hp ih =>
    refine ⟨hclosed _ ih.1 e he, (h.relaxed _ ih.1 e he).trans ?_⟩
    rw [cost_cons, Nat.add_comm]
    exact Nat.add_le_add_left ih.2 _

end

/-! ### The algorithm -/

variable [DecidableEq V] (G)

/-- The labels at the beginning. -/
def initialLabels (s : V) (bound : ℕ) : PathLabels V E :=
  ⟨fun v => if v = s then 0 else bound, fun _ => none⟩

/-- Relaxes an edge that leaves `u`. -/
def relaxEdge (u : V) (L : PathLabels V E) (e : E) : PathLabels V E :=
  if L.d (G.target e) > L.d u + G.weight e then L.set (G.target e) (L.d u + G.weight e) e else L

/-- Relaxes all edges that leave `u`. -/
def relax (u : V) (L : PathLabels V E) : PathLabels V E := (G.edges u).foldl (G.relaxEdge u) L

/-- The main loop: the vertex with the least label is at the end of the sorted list. -/
def searchLoop : ℕ → List V → PathLabels V E → PathLabels V E
  | 0, _, L => L
  | n + 1, todo, L =>
    let todo := todo.insertionSort fun a b => L.d b ≤ L.d a
    match todo.getLast? with
    | none => L
    | some u => searchLoop n todo.dropLast (G.relax u L)

/-- The labels that the algorithm finds for the given vertices. -/
def dijkstra (verts : List V) (L : PathLabels V E) : PathLabels V E :=
  G.searchLoop verts.length verts L

/-- Follows the last edges from a vertex back to `s`. -/
def retrieve (s : V) (L : PathLabels V E) : ℕ → V → Option (List E)
  | 0, _ => none
  | n + 1, v =>
    if v = s then some []
    else (L.pred v).bind fun e => (retrieve s L n (G.source e)).map fun p => e :: p

variable {G}

section

variable {s u v : V} {L L' : PathLabels V E} {e : E} {p : List E} {n bound : ℕ}

/-- The retrieved path is the traced one. -/
theorem Traces.retrieve_eq (h : G.Traces s L v p) (hn : p.length < n) :
    G.retrieve s L n v = some p := by
  induction h generalizing n with
  | nil =>
    cases n with
    | zero => cases hn
    | succ n => exact if_pos rfl
  | @cons v e p hv he hp ih =>
    cases n with
    | zero => cases hn
    | succ n =>
      rw [List.length_cons] at hn
      rw [retrieve, if_neg hv, he, Option.bind_some, ih (by omega), Option.map_some]

/-! ### Relaxation -/

/-- Relaxing an edge leaves the label of its source. -/
theorem relaxEdge_d_self : (G.relaxEdge u L e).d u = L.d u := by
  rw [relaxEdge]
  split_ifs with hlt
  · have hne : u ≠ G.target e := by
      rintro rfl
      omega
    exact Function.update_of_ne hne _ _
  · rfl

/-- What the relaxation of an edge does to a label. -/
theorem relaxEdge_spec (v : V) :
    (G.relaxEdge u L e).d v = L.d v ∧ (G.relaxEdge u L e).pred v = L.pred v ∨
      G.target e = v ∧ (G.relaxEdge u L e).pred v = some e ∧
        (G.relaxEdge u L e).d v = L.d u + G.weight e ∧ (G.relaxEdge u L e).d v < L.d v := by
  rw [relaxEdge]
  split_ifs with hlt
  · by_cases hv : v = G.target e
    · subst hv
      have hd : (L.set (G.target e) (L.d u + G.weight e) e).d (G.target e) = L.d u + G.weight e :=
        Function.update_self _ _ _
      exact Or.inr ⟨rfl, Function.update_self _ _ _, hd, by rw [hd]; exact hlt⟩
    · exact Or.inl ⟨Function.update_of_ne hv _ _, Function.update_of_ne hv _ _⟩
  · exact Or.inl ⟨rfl, rfl⟩

/-- After relaxing, the label of the target is no more than along the edge. -/
theorem relaxEdge_le : (G.relaxEdge u L e).d (G.target e) ≤ L.d u + G.weight e := by
  rw [relaxEdge]
  split_ifs with hlt
  · exact (Function.update_self (G.target e) (L.d u + G.weight e) L.d).le
  · exact Nat.le_of_not_lt hlt

/-- What the relaxation of edges does: the label of `u` stays, a label changes only to a smaller one that
an edge gives, and no edge gives a smaller label any more. -/
theorem foldl_relaxEdge_spec (es : List E) (L : PathLabels V E) :
    (∀ v, (es.foldl (G.relaxEdge u) L).d v = L.d v ∧
          (es.foldl (G.relaxEdge u) L).pred v = L.pred v ∨
        ∃ e ∈ es, G.target e = v ∧ (es.foldl (G.relaxEdge u) L).pred v = some e ∧
          (es.foldl (G.relaxEdge u) L).d v = L.d u + G.weight e ∧
          (es.foldl (G.relaxEdge u) L).d v < L.d v) ∧
      ∀ e ∈ es, (es.foldl (G.relaxEdge u) L).d (G.target e) ≤ L.d u + G.weight e := by
  induction es generalizing L with
  | nil => exact ⟨fun v => Or.inl ⟨rfl, rfl⟩, fun e he => absurd he List.not_mem_nil⟩
  | cons e es ih =>
    obtain ⟨hlabels, hrelaxed⟩ := ih (G.relaxEdge u L e)
    rw [relaxEdge_d_self] at hlabels hrelaxed
    rw [List.foldl_cons]
    refine ⟨fun v => ?_, fun e' he' => ?_⟩
    · rcases hlabels v with ⟨hd, hpred⟩ | ⟨e', he', htarget, hpred, hd, hlt⟩
      · rw [hd, hpred]
        rcases relaxEdge_spec v with hsame | hchanged
        · exact Or.inl hsame
        · exact Or.inr ⟨e, List.mem_cons_self, hchanged⟩
      · refine Or.inr ⟨e', List.mem_cons_of_mem e he', htarget, hpred, hd, ?_⟩
        rcases relaxEdge_spec (G := G) (u := u) (L := L) (e := e) v with ⟨hsame, -⟩ | ⟨-, -, -, hless⟩
        · rwa [hsame] at hlt
        · exact hlt.trans hless
    · rcases List.mem_cons.mp he' with rfl | he'
      · refine le_trans ?_ (relaxEdge_le (G := G) (u := u) (L := L) (e := e'))
        rcases hlabels (G.target e') with ⟨hd, -⟩ | ⟨-, -, -, -, -, hlt⟩
        · exact hd.le
        · exact hlt.le
      · exact hrelaxed e' he'

end

/-! ### The main loop -/

section

variable {s u v : V} {L : PathLabels V E} {e : E} {p : List E} {bound : ℕ} {done todo todo' : List V}

/-- The invariant holds at the start. -/
theorem searchInv_initial (todo : List V) :
    SearchInv G s bound [] todo (initialLabels s bound) where
  source := if_pos rfl
  le_bound v := by
    rw [initialLabels]
    dsimp only
    split_ifs
    · exact Nat.zero_le bound
    · exact le_rfl
  order u hu := absurd hu List.not_mem_nil
  relaxed u hu := absurd hu List.not_mem_nil
  pred_some v e he := by cases he
  pred_none v hv _ := if_neg hv
  trace v hv := absurd hv List.not_mem_nil

/-- The step: the edges of a vertex with the least label are relaxed. -/
theorem SearchInv.relax (h : SearchInv G s bound done todo L) (hu : u ∈ todo)
    (hleast : ∀ v ∈ todo, L.d u ≤ L.d v) (hsub : ∀ v ∈ todo', v ∈ todo) :
    SearchInv G s bound (u :: done) todo' (G.relax u L) := by
  obtain ⟨hlabels, hrelaxed⟩ := foldl_relaxEdge_spec (G := G) (u := u) (G.edges u) L
  have hdone : ∀ v ∈ u :: done, L.d v ≤ L.d u := by
    intro v hv
    rcases List.mem_cons.mp hv with rfl | hv
    · exact le_rfl
    · exact h.order v hv u hu
  -- a vertex that has been removed does not change any more
  have hsame : ∀ v ∈ u :: done, (G.relax u L).d v = L.d v ∧ (G.relax u L).pred v = L.pred v := by
    intro v hv
    rcases hlabels v with hsame | ⟨e, -, -, -, hd, hlt⟩
    · exact hsame
    · have hle := hdone v hv
      omega
  have hle : ∀ v, (G.relax u L).d v ≤ L.d v := by
    intro v
    rcases hlabels v with ⟨hd, -⟩ | ⟨-, -, -, -, -, hlt⟩
    · exact hd.le
    · exact hlt.le
  have hpredDone : ∀ v e, v ∈ done → L.pred v = some e → G.source e ∈ done := fun v e _ he =>
    (h.pred_some v e he).1
  refine ⟨?_, fun v => (hle v).trans (h.le_bound v), fun v hv w hw => ?_, fun v hv e he => ?_,
    fun v e he => ?_, fun v hv hnone => ?_, fun v hv hlt => ?_⟩
  · exact Nat.le_zero.mp (h.source ▸ hle s)
  · rw [(hsame v hv).1]
    refine (hdone v hv).trans ?_
    rcases hlabels w with ⟨hd, -⟩ | ⟨e, -, -, -, hd, -⟩
    · exact (hleast w (hsub w hw)).trans hd.ge
    · exact (Nat.le_add_right _ _).trans hd.ge
  · rw [(hsame v hv).1]
    rcases List.mem_cons.mp hv with rfl | hv
    · exact hrelaxed e he
    · exact (hle _).trans (h.relaxed v hv e he)
  · rcases hlabels v with ⟨hd, hpred⟩ | ⟨e', he', htarget, hpred, hd, hlt⟩
    · obtain ⟨hsource, hmem, htarget, hcost, hbound⟩ := h.pred_some v e (hpred.symm.trans he)
      have hsource' := List.mem_cons_of_mem u hsource
      refine ⟨hsource', hmem, htarget, ?_, (hle v).trans_lt hbound⟩
      rw [(hsame _ hsource').1, ← hcost]
      exact hd
    · obtain rfl : e' = e := Option.some.inj (hpred.symm.trans he)
      have hsource := G.source_of_mem he'
      rw [hsource]
      refine ⟨List.mem_cons_self, he', htarget, ?_, hlt.trans_le (h.le_bound v)⟩
      rw [(hsame u List.mem_cons_self).1]
      exact hd
  · rcases hlabels v with ⟨hd, hpred⟩ | ⟨e', -, -, hpred, -, -⟩
    · exact hd.trans (h.pred_none v hv (hpred.symm.trans hnone))
    · exact absurd (hpred.symm.trans hnone) (Option.some_ne_none e')
  · rw [(hsame v hv).1] at hlt
    have hkeep : ∀ v ∈ done, ∀ p, G.Traces s L v p → G.Traces s (G.relax u L) v p := by
      intro v hv p hp
      exact hp.congr hv hpredDone fun v hv => (hsame v (List.mem_cons_of_mem u hv)).2
    rw [List.length_cons]
    rcases List.mem_cons.mp hv with rfl | hv
    · by_cases hs : v = s
      · subst hs
        exact ⟨[], .nil, Nat.succ_pos _⟩
      · cases hpred : L.pred v with
        | none => exact absurd (h.pred_none v hs hpred) hlt.ne
        | some e =>
          obtain ⟨hsource, -, -, hcost, -⟩ := h.pred_some v e hpred
          obtain ⟨p, hp, hlength⟩ := h.trace _ hsource (by omega)
          refine ⟨e :: p, .cons hs ?_ (hkeep _ hsource p hp), Nat.succ_lt_succ hlength⟩
          rw [(hsame v List.mem_cons_self).2, hpred]
    · obtain ⟨p, hp, hlength⟩ := h.trace v hv hlt
      exact ⟨p, hkeep v hv p hp, hlength.trans (Nat.lt_succ_self _)⟩

/-- The run: all vertices are removed. -/
theorem SearchInv.searchLoop (h : SearchInv G s bound done todo L) :
    ∃ done', done'.Perm (done ++ todo) ∧
      SearchInv G s bound done' [] (G.searchLoop todo.length todo L) := by
  generalize hn : todo.length = n
  induction n generalizing done todo L with
  | zero =>
    obtain rfl := List.length_eq_zero_iff.mp hn
    exact ⟨done, by rw [List.append_nil], h⟩
  | succ n ih =>
    have htotal : Std.Total fun a b => L.d b ≤ L.d a := ⟨fun a b => Nat.le_total _ _⟩
    have htrans : IsTrans V fun a b => L.d b ≤ L.d a := ⟨fun a b c hab hbc => hbc.trans hab⟩
    have hsorted := List.pairwise_insertionSort (fun a b => L.d b ≤ L.d a) todo
    have hperm := List.perm_insertionSort (fun a b => L.d b ≤ L.d a) todo
    rw [WeightedGraph.searchLoop]
    generalize todo.insertionSort (fun a b => L.d b ≤ L.d a) = sorted at hsorted hperm
    rcases List.eq_nil_or_concat sorted with rfl | ⟨rest, u, rfl⟩
    · rw [← hperm.length_eq] at hn
      cases hn
    · rw [List.concat_eq_append] at hsorted hperm ⊢
      rw [List.getLast?_concat, List.dropLast_concat]
      have hmem : ∀ v ∈ rest, v ∈ todo := fun v hv =>
        hperm.mem_iff.mp (List.mem_append_left _ hv)
      have hleast : ∀ v ∈ todo, L.d u ≤ L.d v := by
        intro v hv
        rcases List.mem_append.mp (hperm.mem_iff.mpr hv) with hv | hv
        · exact (List.pairwise_append.mp hsorted).2.2 v hv u (List.mem_singleton_self u)
        · rw [List.mem_singleton.mp hv]
      have hu : u ∈ todo := hperm.mem_iff.mp (List.mem_append_right _ (List.mem_singleton_self u))
      have hlength : rest.length = n := by
        have hlength := hperm.length_eq
        rw [List.length_append, List.length_singleton, hn] at hlength
        omega
      obtain ⟨done', hperm', hinv⟩ := ih (h.relax hu hleast hmem) hlength
      refine ⟨done', hperm'.trans ?_, hinv⟩
      have hmove : (u :: done ++ rest).Perm (done ++ (rest ++ [u])) := by
        rw [List.cons_append, ← List.append_assoc]
        exact List.perm_append_singleton u (done ++ rest) |>.symm
      exact hmove.trans (hperm.append_left done)

/-- What the algorithm finds: the last edge of a path of least weight to each vertex that has a path of a
weight below the bound, and nothing for the others. -/
theorem dijkstra_spec {verts : List V} (hs : s ∈ verts)
    (hclosed : ∀ v ∈ verts, ∀ e ∈ G.edges v, G.target e ∈ verts) (hv : v ∈ verts) (hne : v ≠ s) :
    ((G.dijkstra verts (initialLabels s bound)).pred v = none →
        ∀ p, G.LeadsTo s v p → bound ≤ G.cost p) ∧
      ((G.dijkstra verts (initialLabels s bound)).pred v ≠ none → ∃ p,
        G.retrieve s (G.dijkstra verts (initialLabels s bound)) verts.length v = some p ∧ p ≠ [] ∧
        G.LeadsTo s v p ∧ G.cost p < bound ∧ ∀ p', G.LeadsTo s v p' → G.cost p ≤ G.cost p') := by
  have hinitial : SearchInv G s bound [] verts (initialLabels s bound) := searchInv_initial verts
  obtain ⟨done, hperm, h⟩ := hinitial.searchLoop
  rw [List.nil_append] at hperm
  have hlower : ∀ p, G.LeadsTo s v p → (G.dijkstra verts (initialLabels s bound)).d v ≤ G.cost p :=
    fun p hp => (h.le_cost (hperm.mem_iff.mpr hs) (fun v hv e he =>
      hperm.mem_iff.mpr (hclosed v (hperm.mem_iff.mp hv) e he)) hp).2
  constructor
  · intro hnone p hp
    rw [← h.pred_none v hne hnone]
    exact hlower p hp
  · intro hsome
    obtain ⟨e, he⟩ := Option.ne_none_iff_exists'.mp hsome
    obtain ⟨-, -, -, -, hbound⟩ := h.pred_some v e he
    obtain ⟨p, hp, hlength⟩ := h.trace v (hperm.mem_iff.mpr hv) hbound
    rw [hperm.length_eq] at hlength
    obtain ⟨hleads, hcost⟩ := h.leadsTo hp
    refine ⟨p, hp.retrieve_eq hlength, ?_, hleads, hcost.trans_lt hbound, fun p' hp' => ?_⟩
    · rintro rfl
      cases hp
      exact hne rfl
    · exact hcost.trans_le (hlower p' hp')

end

end WeightedGraph

end Nix
