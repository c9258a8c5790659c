import Mathlib

/-!
# Cycles of a relation

General facts about the transitive closure of a relation: the members of a cycle, and when adding
edges to a relation without cycles can close one; and a relation without cycles on a finite set is
well-founded.
-/

namespace Nix

open Relation

variable {α : Type*} {r s : α → α → Prop}

/-- Going from one point to another needs no step that stays in place. -/
theorem reflTransGen_ne {a b : α} (h : ReflTransGen r a b) :
    ReflTransGen (fun u v => r u v ∧ v ≠ u) a b := by
  induction h with
  | refl => exact .refl
  | @tail x y _ hxy ih =>
    by_cases hne : y = x
    · rwa [hne]
    · exact ih.tail ⟨hxy, hne⟩

/-- The points that lie on a cycle through `a`. -/
def OnCycle (r : α → α → Prop) (a x : α) : Prop := TransGen r a x ∧ TransGen r x a

/-- A point that leads to itself is on a cycle. -/
theorem OnCycle.self {a : α} (h : TransGen r a a) : OnCycle r a a := ⟨h, h⟩

/-- The points of a cycle lead to each other. -/
theorem OnCycle.transGen {a x y : α} (hx : OnCycle r a x) (hy : OnCycle r a y) : TransGen r x y :=
  hx.2.trans hy.1

/-- Every point of a cycle has a successor on it. -/
theorem OnCycle.exists_next {a x : α} (hx : OnCycle r a x) : ∃ y, r x y ∧ OnCycle r a y := by
  obtain ⟨y, hxy, hya⟩ := TransGen.head'_iff.mp (hx.transGen hx)
  refine ⟨y, hxy, hx.1.tail hxy, ?_⟩
  rcases reflTransGen_iff_eq_or_transGen.mp hya with rfl | hya
  · exact hx.2
  · exact hya.trans hx.2

/-- A cycle does not leave the set of its points. -/
theorem transGen_onCycle {a x : α} (hx : OnCycle r a x) :
    TransGen (fun u v => r u v ∧ OnCycle r a u ∧ OnCycle r a v) x x := by
  have hcycle : ∀ y, TransGen r x y → OnCycle r a y →
      TransGen (fun u v => r u v ∧ OnCycle r a u ∧ OnCycle r a v) x y := by
    intro y hxy
    induction hxy with
    | single hxy => exact fun hy => .single ⟨hxy, hx, hy⟩
    | tail hxy hyz ih =>
      intro hz
      have hy : OnCycle r a _ := ⟨hx.1.trans hxy, .head hyz hz.2⟩
      exact (ih hy).tail ⟨hyz, hy, hz⟩
  exact hcycle x (hx.transGen hx) hx

/-- If a property spreads backwards along the edges of a cycle, one point with the property gives it
to all. -/
theorem OnCycle.forall_of_backwards {a x : α} {p : α → Prop} (hx : OnCycle r a x) (hpx : p x)
    (hback : ∀ u v, OnCycle r a u → OnCycle r a v → r u v → p v → p u) :
    ∀ y, OnCycle r a y → p y := by
  intro y hy
  have hyx := hy.transGen hx
  have hall : ∀ z, TransGen r z x → OnCycle r a z → p z := by
    intro z hzx
    induction hzx using TransGen.head_induction_on with
    | single hzx => exact fun hz => hback _ _ hz hx hzx hpx
    | head hzw hwx ih =>
      intro hz
      have hw : OnCycle r a _ := ⟨hz.1.tail hzw, hwx.trans hx.2⟩
      exact hback _ _ hz hw hzw (ih hw)
  exact hall y hyx hy

/-- Adding to a relation without cycles edges that leave a set `B`.  Here `V` is a set of points
that has both ends of the old edges.  A new cycle that does not stay inside `B` goes along an added
edge that starts at a point of `V`. -/
theorem exists_added_edge_of_cycle {V B : Set α} (hr : ∀ u v, r u v → u ∈ V ∧ v ∈ V)
    (hac : ∀ x, ¬ TransGen r x x) (hs : ∀ u v, s u v → r u v ∨ u ∈ B) {a x : α}
    (ha : TransGen s a a) (hx : OnCycle s a x) (hxB : x ∉ B) :
    ∃ u v, OnCycle s a u ∧ OnCycle s a v ∧ u ∈ V ∧ s u v ∧ ¬ r u v := by
  by_contra hno
  have hold : ∀ u v, OnCycle s a u → OnCycle s a v → u ∈ V → s u v → r u v := by
    intro u v hu hv huV huv
    by_contra hruv
    exact hno ⟨u, v, hu, hv, huV, huv, hruv⟩
  by_cases hV : ∃ n, OnCycle s a n ∧ n ∉ V
  · -- no edge leads from `V` to a point outside of `V`, so the whole cycle is outside of `V`
    obtain ⟨n, hn, hnV⟩ := hV
    have hout : ∀ y, OnCycle s a y → y ∉ V :=
      hn.forall_of_backwards hnV fun u v hu hv huv hvV huV =>
        hvV (hr u v (hold u v hu hv huV huv)).2
    obtain ⟨y, hxy, -⟩ := hx.exists_next
    rcases hs x y hxy with hxy | hxB'
    · exact hout x hx (hr x y hxy).1
    · exact hxB hxB'
  · have hin : ∀ y, OnCycle s a y → y ∈ V := fun y hy => by
      by_contra hyV
      exact hV ⟨y, hy, hyV⟩
    have hcycle := transGen_onCycle (OnCycle.self ha)
    exact hac a (hcycle.lift id fun u v huv => hold u v huv.2.1 huv.2.2 (hin u huv.2.1) huv.1)

/-- A relation without cycles that only leads into a finite set leads nowhere forever: along it the
set of points that are still ahead gets smaller. -/
theorem wellFounded_of_acyclic {S : Set α} (hS : S.Finite) (hr : ∀ a b, r a b → b ∈ S)
    (hac : ∀ a, ¬ TransGen r a a) : WellFounded fun b a => r a b := by
  have hahead : ∀ a, {b | TransGen r a b} ⊆ S := by
    intro a b hab
    obtain ⟨c, -, hcb⟩ := TransGen.tail'_iff.mp hab
    exact hr c b hcb
  refine Subrelation.wf (r := fun b a => {c | TransGen r b c}.ncard < {c | TransGen r a c}.ncard)
    ?_ (measure fun a => {b | TransGen r a b}.ncard).wf
  intro b a hab
  refine Set.ncard_lt_ncard ⟨fun c hbc => .head hab hbc, fun hsub => ?_⟩ (hS.subset (hahead a))
  exact hac b (hsub (TransGen.single hab))

end Nix
