import NixStore.Store.GcStates
import NixStore.Store.GcTermination

/-!
# Exactness of the garbage collector

When a run that deletes all dead paths removes exactly the paths that are not live.  It does if
components are symmetric and all outputs that valid derivations declare are valid; otherwise there
are roots and an order of the entries for which a run keeps a dead path, deletes a live one or ends
with an exception in the middle.
-/

namespace Nix

open Relation

/-- What holds between two calls of a run that deletes: no path in `K` has been removed, and only paths
in `L` have been marked as live. -/
structure ExactState (env : GCEnv) (g : StoreGraph) (disk : SortedMap Path StoreEntry)
    (K L : Path → Prop) (s : GCState) : Prop extends ShrunkState env g disk s where
  dead : ∀ x ∈ removed g s, ¬ K x
  live : ∀ x ∈ s.live, L x

variable {env : GCEnv} {g : StoreGraph} {disk : SortedMap Path StoreEntry} {K L : Path → Prop}
  {s s' : GCState}

/-- Marking what may be marked keeps a state exact. -/
theorem ExactState.markLive (h : ExactState env g disk K L s) {paths : PathSet}
    (hL : ∀ x ∈ paths, L x) : ExactState env g disk K L (markLive env paths s) where
  toShrunkState := h.toShrunkState.markLive paths
  dead := h.dead
  live x hx := by
    rcases SortedSet.mem_foldl_insert.mp hx with hx | hx
    · exact hL x hx
    · exact h.live x hx

/-- Components are removed as a whole, so what is left of a symmetric component is all of it. -/
theorem ShrunkState.component_eq (h : ShrunkState env g disk s)
    (hsym : g.ComponentsSymmetric env.keep) {path : Path} (hpath : path ∈ s.db.graph.valid) :
    s.db.graph.Component env.keep path = g.Component env.keep path := by
  ext x
  rw [h.mem_component_iff hpath]
  refine ⟨And.left, fun hx => ⟨hx, fun hxD => ?_⟩⟩
  exact (h.keepClosed.component_subset hxD (hsym path (h.mem_initial hpath) x hx)).2 hpath

/-- A run that deletes all dead paths has no limit. -/
structure UnlimitedRun (env : GCEnv) (g : StoreGraph) (disk : SortedMap Path StoreEntry) : Prop
    extends DeletingRun env g disk where
  unlimited : env.options.maxFreed = 0xffffffffffffffff

/-- A run without limits does not stop at one. -/
theorem UnlimitedRun.not_limited {e : GCStop} (hrun : UnlimitedRun env g disk) : ¬ Limited env e :=
  fun he => he.2 hrun.unlimited

/-- A dead component without outside referrers is deleted without an exception. -/
theorem deletePaths_exact (hrun : UnlimitedRun env g disk) (h : ExactState env g disk K L s)
    (paths : PathSet) (hvalid : ∀ x ∈ paths, x ∈ s.db.graph.valid)
    (hrefs : ∀ u x, x ∈ paths → s.db.graph.refers u x → u ∈ paths)
    (hclosed : g.KeepClosed env.keep (removed g s ∪ {x | x ∈ paths}))
    (hdead : ∀ x ∈ paths, ¬ K x) (st : StoreEntry) :
    Prog.Ends (deletePaths env st paths) s
      (fun _ s' => ExactState env g disk K L s' ∧ removed g s' = removed g s ∪ {x | x ∈ paths})
      fun _ _ => False := by
  refine (deletePaths_shrinks hrun.toDeletingRun h.toShrunkState paths hvalid hrefs hclosed st).mono
    ?_ fun _ _ he => hrun.not_limited he.1
  rintro _ s' ⟨hs', hremoved, hlive⟩
  refine ⟨⟨hs', fun x hx => ?_, hlive ▸ h.live⟩, hremoved⟩
  rw [hremoved] at hx
  exact hx.elim (h.dead x) (hdead x)

/-! ### Calls on valid paths -/

/-- Paths whose components are being considered when a call on `path` starts: each of them waits for
another one or for the component of `path`. -/
structure Active (env : GCEnv) (g : StoreGraph) (path : Path) (A : Set Path) : Prop where
  valid : ∀ x ∈ A, x ∈ g.valid
  closed : ∀ x ∈ A, g.Component env.keep x ⊆ A
  waits : ∀ x ∈ A, ∃ y, g.DependsOn env.keep x y ∧ (y ∈ A ∨ y ∈ g.Component env.keep path)

/-- A path from which nothing was asked is active. -/
theorem active_empty (path : Path) : Active env g path ∅ := by
  constructor <;> simp

/-- While `path` waits for `y`, its component is active, too. -/
theorem Active.extend (hsym : g.ComponentsSymmetric env.keep) {path y : Path} {A : Set Path}
    (hA : Active env g path A) (hpath : path ∈ g.valid) (hy : g.DependsOn env.keep path y) :
    Active env g y (A ∪ g.Component env.keep path) where
  valid x hx := hx.elim (hA.valid x) (StoreGraph.mem_valid_of_mem_component hpath)
  closed x hx := by
    rcases hx with hx | hx
    · exact (hA.closed x hx).trans Set.subset_union_left
    · rw [hsym.component_eq hpath hx]
      exact Set.subset_union_right
  waits x hx := by
    rcases hx with hx | hx
    · obtain ⟨z, hz, hzA⟩ := hA.waits x hx
      exact ⟨z, hz, Or.inl hzA⟩
    · exact ⟨y, (hsym.dependsOn_iff hpath hx).mpr hy, Or.inr StoreGraph.mem_component_self⟩

/-- What is left of a component is removed with all of it. -/
theorem removed_union_component {path : Path} {paths : PathSet} (hless : removed g s ⊆ removed g s')
    (hspec : ∀ q, q ∈ paths ↔ q ∈ g.Component env.keep path ∧ q ∉ removed g s) :
    removed g s' ∪ {x | x ∈ paths} = removed g s' ∪ g.Component env.keep path := by
  ext x
  simp only [Set.mem_union, Set.mem_ofPred_eq, hspec]
  constructor
  · rintro (hx | hx)
    · exact Or.inl hx
    · exact Or.inr hx.1
  · rintro (hx | hx)
    · exact Or.inl hx
    · by_cases hxr : x ∈ removed g s
      · exact Or.inl (hless hxr)
      · exact Or.inr ⟨hx, hxr⟩

/-- If all outside referrers of what is left of a component have been removed, nothing in it is kept. -/
theorem ShrunkState.not_kept {roots : Set Path} (h : ShrunkState env g disk s)
    (hdead : ∀ x ∈ removed g s, ¬ g.Kept env.keep roots x)
    (hdead' : ∀ x ∈ removed g s', ¬ g.Kept env.keep roots x) {path : Path}
    (hval : path ∈ s.db.graph.valid) {paths : PathSet}
    (hspec : ∀ q, q ∈ paths ↔ q ∈ g.Component env.keep path ∧ q ∉ removed g s)
    (hnoroot : ∀ i ∈ paths, i ∉ roots)
    (hrefs : ∀ x ∈ paths, ∀ y, g.refers y x → y ∈ removed g s' ∨ y ∈ paths) :
    ∀ x ∈ paths, ¬ g.Kept env.keep roots x := by
  have hnot : path ∉ removed g s := fun hr => hr.2 hval
  have hspec' : ∀ q, q ∈ (g.without (removed g s)).Component env.keep path ↔ q ∈ paths := fun q => by
    rw [hspec, h.keepClosed.component_without hnot]
    exact Iff.rfl
  refine fun x hx => StoreGraph.not_kept_of_mem_component hdead hnot (fun z hz => ?_)
    (fun y hy => ?_) x ((hspec' x).mpr hx)
  · exact hnoroot z ((hspec' z).mp hz)
  · obtain ⟨hyc, z, hz, hyz⟩ := hy
    refine hdead' y ((hrefs z ((hspec' z).mp hz) y hyz.1).resolve_right fun hyp => ?_)
    exact hyc ((hspec' y).mpr hyp)

/-- What a call on a valid path has found out when it returns. -/
structure Verdict (env : GCEnv) (g : StoreGraph) (disk : SortedMap Path StoreEntry)
    (K L : Path → Prop) (path : Path) (s : GCState) (b : Bool) (s' : GCState) : Prop where
  state : ExactState env g disk K L s'
  less : s'.db.graph.valid ⊆ s.db.graph.valid
  dead : b = true → path ∈ removed g s'
  live : b = false → L path

/-- The deletion of a component for which all referrers have been removed. -/
theorem ExactState.deletePaths (hrun : UnlimitedRun env g disk) {roots : Set Path} {path : Path}
    (hs : ExactState env g disk (g.Kept env.keep roots) L s)
    (hs' : ExactState env g disk (g.Kept env.keep roots) L s')
    (hless : s'.db.graph.valid ⊆ s.db.graph.valid) (hval : path ∈ s.db.graph.valid) {paths : PathSet}
    (hspec : ∀ q, q ∈ paths ↔ q ∈ g.Component env.keep path ∧ q ∉ removed g s)
    (hnoroot : ∀ i ∈ paths, i ∉ roots)
    (hrefs : ∀ x ∈ paths, ∀ y, g.refers y x → y ∈ removed g s' ∨ y ∈ paths)
    (hvalid : (∀ x ∈ paths, ¬ g.Kept env.keep roots x) → ∀ x ∈ paths, x ∈ s'.db.graph.valid)
    (st : StoreEntry) :
    Prog.Ends (Nix.deletePaths env st paths) s'
      (fun _ s'' => Verdict env g disk (g.Kept env.keep roots) L path s true s'' ∧
        removed g s'' = removed g s' ∪ {x | x ∈ paths})
      fun _ _ => False := by
  have hnot := hs.not_kept hs.dead hs'.dead hval hspec hnoroot hrefs
  refine (deletePaths_exact hrun hs' paths (hvalid hnot) (fun u x hx hux => ?_) ?_ hnot st).mono ?_
    fun _ _ => id
  · rw [hs'.graph] at hux
    exact (hrefs x hx u hux.1).resolve_left hux.2.1
  · rw [removed_union_component (removed_mono hless) hspec]
    exact hs'.keepClosed.union_component
  · rintro _ s'' ⟨hs'', hremoved⟩
    refine ⟨⟨hs'', fun x hx => ?_, fun _ => ?_, by simp⟩, hremoved⟩
    · refine hless ((mem_removed_or_valid (hs''.mem_initial hx)).resolve_left fun hxr => ?_)
      exact (hremoved ▸ Or.inl hxr : x ∈ removed g s'').2 hx
    · rw [hremoved]
      exact Or.inr ((hspec path).mpr ⟨StoreGraph.mem_component_self, fun hr => hr.2 hval⟩)

/-- If components are symmetric, a call that returns has the right verdict and has not touched the
components that are being considered.  The argument for the latter: an active component that is
entered again waits for an active one, so nothing active is ever found to be dead. -/
theorem tryToDelete_exact (hrun : UnlimitedRun env g disk) (hsym : g.ComponentsSymmetric env.keep)
    {roots : Set Path} (hroots : ∀ p, p ∈ env.roots ↔ p ∈ roots) :
    ∀ (n : ℕ) (A : Set Path) (path : Path) (s : GCState), path ∈ g.valid → Active env g path A →
      (∀ x ∈ A, x ∈ s.db.graph.valid) →
      ExactState env g disk (g.Kept env.keep roots) (g.Kept env.keep roots) s →
      Prog.Ends (tryToDelete env n path) s
        (fun b s' => Verdict env g disk (g.Kept env.keep roots) (g.Kept env.keep roots) path s b s' ∧
          ∀ x ∈ A, x ∈ s'.db.graph.valid)
        fun e _ => e = .outOfFuel := by
  intro n
  induction n with
  | zero => exact fun _ _ _ _ _ _ _ => Prog.ends_throw rfl
  | succ n ih =>
    intro A path s hpath hA hAs hs
    -- a kept member of the component keeps all of it
    have hall : ∀ {x}, x ∈ g.Component env.keep path → g.Kept env.keep roots x →
        ∀ z ∈ g.Component env.keep path, g.Kept env.keep roots z := fun {x} hx hkept z hz => by
      have hxz : x ∈ g.Component env.keep z := by rwa [hsym.component_eq hpath hz]
      exact hkept.of_mem_component (StoreGraph.mem_valid_of_mem_component hpath hz) hxz
    refine ends_tryToDelete_valid hrun.toDeletingRun hs.toShrunkState hpath ?_ ?_ ?_ ?_
    · exact fun hr => ⟨⟨hs, subset_rfl, fun _ => hr, by simp⟩, hAs⟩
    · exact fun hlive => ⟨⟨hs, subset_rfl, by simp, fun _ => hs.live path hlive⟩, hAs⟩
    · rintro paths hspec ⟨i, hi, hr⟩
      have hkept := hall ((hspec i).mp hi).1 (.root ((hroots i).mp hr))
      exact ⟨⟨hs.markLive fun x hx => hkept x ((hspec x).mp hx).1, subset_rfl, by simp,
        fun _ => hkept path StoreGraph.mem_component_self⟩, hAs⟩
    · intro st paths referrers hval _ hspec hnoroot hmem
      have hdep : ∀ y ∈ referrers, g.DependsOn env.keep path y :=
        fun y hy => dependsOn_of_mem_referrers hspec hmem hy
      have hcompval : ∀ x ∈ g.Component env.keep path, x ∈ s.db.graph.valid := by
        rw [← hs.component_eq hsym hval]
        exact fun x hx => StoreGraph.mem_valid_of_mem_component hval hx
      refine (Prog.Ends.all
        (I := fun done s' => ExactState env g disk (g.Kept env.keep roots) (g.Kept env.keep roots) s' ∧
          s'.db.graph.valid ⊆ s.db.graph.valid ∧
          (∀ x ∈ A ∪ g.Component env.keep path, x ∈ s'.db.graph.valid) ∧
          ∀ y ∈ done, y ∈ removed g s')
        (F := fun y s' => ExactState env g disk (g.Kept env.keep roots) (g.Kept env.keep roots) s' ∧
          s'.db.graph.valid ⊆ s.db.graph.valid ∧
          (∀ x ∈ A ∪ g.Component env.keep path, x ∈ s'.db.graph.valid) ∧ g.Kept env.keep roots y)
        referrers ?_ ⟨hs, subset_rfl, fun x hx => hx.elim (hAs x) (hcompval x), by simp⟩).mono ?_
        fun _ _ => id
      · -- the call on a referrer
        rintro done y rest s₁ hl ⟨hs₁, hless, hact, hdone⟩
        have hy := hdep y (by simp [hl])
        refine (ih _ y s₁ (StoreGraph.dependsOn_mem_valid hy) (hA.extend hsym hpath hy) hact
          hs₁).mono ?_ fun _ _ => id
        rintro b s₂ ⟨hv, hact₂⟩
        cases b with
        | true =>
          refine ⟨hv.state, hv.less.trans hless, hact₂, fun z hz => ?_⟩
          rcases List.mem_append.mp hz with hz | hz
          · exact removed_mono hv.less (hdone z hz)
          · rw [List.mem_singleton.mp hz]
            exact hv.dead rfl
        | false => exact ⟨hv.state, hv.less.trans hless, hact₂, hv.live rfl⟩
      · intro b s₁ hs₁
        cases b with
        | false =>
          obtain ⟨y, hy, hs₁, hless, hact, hkept⟩ := hs₁
          obtain ⟨-, x, hx, hyx⟩ := hdep y hy
          have hcomp := hall hx (.reference hkept hyx)
          exact ⟨⟨hs₁.markLive fun z hz => hcomp z ((hspec z).mp hz).1, hless, by simp,
            fun _ => hcomp path StoreGraph.mem_component_self⟩, fun x hx => hact x (Or.inl hx)⟩
        | true =>
          obtain ⟨hs₁, hless, hact, hgone⟩ := hs₁
          have hrefs₁ : ∀ x ∈ paths, ∀ y, g.refers y x → y ∈ removed g s₁ ∨ y ∈ paths :=
            fun x hx y hyx => removed_of_refers hmem (removed_mono hless) hgone hx hyx
          have hmem : ∀ x ∈ g.Component env.keep path, x ∈ paths := fun x hx =>
            (hspec x).mpr ⟨hx, fun hr => hr.2 (hcompval x hx)⟩
          have hpathA : path ∉ A := fun hpA => by
            obtain ⟨y, ⟨hyc, x, hx, hyx⟩, hyA⟩ := hA.waits path hpA
            refine ((hrefs₁ x (hmem x hx) y hyx).elim (fun hy => hy.2 (hact y hyA)) fun hy => ?_)
            exact hyc ((hspec y).mp hy).1
          have hdisj : ∀ x ∈ A, x ∉ g.Component env.keep path := fun x hx hxc =>
            hpathA (hA.closed x hx (hsym path hpath x hxc))
          refine (hs.deletePaths hrun hs₁ hless hval hspec (fun i hi hr => hnoroot i hi
            ((hroots i).mpr hr)) hrefs₁ (fun _ x hx => hact x (Or.inr ((hspec x).mp hx).1)) st).mono
            ?_ fun _ _ => False.elim
          rintro _ s₂ ⟨hv, hremoved⟩
          refine ⟨hv, fun x hx => ?_⟩
          refine (mem_removed_or_valid (hA.valid x hx)).resolve_left fun hxr => ?_
          rw [hremoved] at hxr
          rcases hxr with hxr | hxr
          · exact hxr.2 (hact x (Or.inl hx))
          · exact hdisj x hx ((hspec x).mp hxr).1

/-! ### Components that are apart -/

/-- What a call on `path` can remove. -/
def Upstream (g : StoreGraph) (k : KeepFlags) (path : Path) : Set Path :=
  {x | ∃ q, ReflTransGen (g.DependsOn k) path q ∧ x ∈ g.Component k q}

/-- `L` has all paths that a run can mark as live. -/
def MarksOnly (g : StoreGraph) (k : KeepFlags) (roots : Set Path) (L : Path → Prop) : Prop :=
  ∀ p ∈ g.valid, ((∃ r ∈ g.Component k p, r ∈ roots) ∨ ∃ y, g.DependsOn k p y ∧ L y) →
    ∀ q ∈ g.Component k p, L q

/-- What may be marked, where everything may. -/
theorem marksOnly_true (k : KeepFlags) (roots : Set Path) : MarksOnly g k roots fun _ => True :=
  fun _ _ _ _ _ => trivial

/-- If components are uniform, only kept paths are marked. -/
theorem marksOnly_kept {k : KeepFlags} {roots : Set Path}
    (h : g.ComponentsUniform k roots) : MarksOnly g k roots (g.Kept k roots) := by
  rintro p hp (⟨r, hr, hroot⟩ | ⟨y, ⟨-, x, hx, hyx⟩, hy⟩)
  · exact h p hp ((StoreGraph.Kept.root hroot).of_mem_component hp hr)
  · exact h p hp ((StoreGraph.Kept.reference hy hyx).of_mem_component hp hx)

/-- If components are apart, a call that returns has removed its path if it says so, and the recursion
over the referrers has left the component of the path alone. -/
theorem tryToDelete_apart (hrun : UnlimitedRun env g disk) {roots : Set Path}
    (hroots : ∀ p, p ∈ env.roots ↔ p ∈ roots) (hapart : g.ComponentsApart env.keep roots)
    (hL : MarksOnly g env.keep roots L) :
    ∀ (n : ℕ) (path : Path) (s : GCState), path ∈ g.valid →
      ExactState env g disk (g.Kept env.keep roots) L s →
      Prog.Ends (tryToDelete env n path) s
        (fun b s' => Verdict env g disk (g.Kept env.keep roots) L path s b s' ∧
          removed g s' ⊆ removed g s ∪ Upstream g env.keep path)
        fun e _ => e = .outOfFuel := by
  intro n
  induction n with
  | zero => exact fun _ _ _ _ => Prog.ends_throw rfl
  | succ n ih =>
    intro path s hpath hs
    refine ends_tryToDelete_valid hrun.toDeletingRun hs.toShrunkState hpath ?_ ?_ ?_ ?_
    · exact fun hr => ⟨⟨hs, subset_rfl, fun _ => hr, by simp⟩, Set.subset_union_left⟩
    · exact fun hlive => ⟨⟨hs, subset_rfl, by simp, fun _ => hs.live path hlive⟩,
        Set.subset_union_left⟩
    · rintro paths hspec ⟨i, hi, hr⟩
      have hmark := hL path hpath (Or.inl ⟨i, ((hspec i).mp hi).1, (hroots i).mp hr⟩)
      exact ⟨⟨hs.markLive fun x hx => hmark x ((hspec x).mp hx).1, subset_rfl, by simp,
        fun _ => hmark path StoreGraph.mem_component_self⟩, Set.subset_union_left⟩
    · intro st paths referrers hval _ hspec hnoroot hmem
      have hdep : ∀ y ∈ referrers, g.DependsOn env.keep path y :=
        fun y hy => dependsOn_of_mem_referrers hspec hmem hy
      refine (Prog.Ends.all
        (I := fun done s' => ExactState env g disk (g.Kept env.keep roots) L s' ∧
          s'.db.graph.valid ⊆ s.db.graph.valid ∧ (∀ x ∈ removed g s', x ∈ removed g s ∨
            ∃ q, TransGen (g.DependsOn env.keep) path q ∧ x ∈ g.Component env.keep q) ∧
          ∀ y ∈ done, y ∈ removed g s')
        (F := fun y s' => ExactState env g disk (g.Kept env.keep roots) L s' ∧
          s'.db.graph.valid ⊆ s.db.graph.valid ∧ (∀ x ∈ removed g s', x ∈ removed g s ∨
            ∃ q, TransGen (g.DependsOn env.keep) path q ∧ x ∈ g.Component env.keep q) ∧ L y)
        referrers ?_ ⟨hs, subset_rfl, fun _ => Or.inl, by simp⟩).mono ?_ fun _ _ => id
      · -- the call on a referrer removes what depends on it
        rintro done y rest s₁ hl ⟨hs₁, hless, hup, hdone⟩
        have hy := hdep y (by simp [hl])
        refine (ih y s₁ (StoreGraph.dependsOn_mem_valid hy) hs₁).mono ?_ fun _ _ => id
        rintro b s₂ ⟨hv, hup₂⟩
        have hup' : ∀ x ∈ removed g s₂, x ∈ removed g s ∨
            ∃ q, TransGen (g.DependsOn env.keep) path q ∧ x ∈ g.Component env.keep q := by
          intro x hx
          rcases hup₂ hx with hx | ⟨q, hyq, hx⟩
          · exact hup x hx
          · exact Or.inr ⟨q, .head' hy hyq, hx⟩
        cases b with
        | true =>
          refine ⟨hv.state, hv.less.trans hless, hup', fun z hz => ?_⟩
          rcases List.mem_append.mp hz with hz | hz
          · exact removed_mono hv.less (hdone z hz)
          · rw [List.mem_singleton.mp hz]
            exact hv.dead rfl
        | false => exact ⟨hv.state, hv.less.trans hless, hup', hv.live rfl⟩
      · intro b s₁ hs₁
        cases b with
        | false =>
          obtain ⟨y, hy, hs₁, hless, hup, hlive⟩ := hs₁
          have hmark := hL path hpath (Or.inr ⟨y, hdep y hy, hlive⟩)
          refine ⟨⟨hs₁.markLive fun z hz => hmark z ((hspec z).mp hz).1, hless, by simp,
            fun _ => hmark path StoreGraph.mem_component_self⟩, fun x hx => ?_⟩
          exact (hup x hx).imp id fun ⟨q, hpq, hxq⟩ => ⟨q, hpq.to_reflTransGen, hxq⟩
        | true =>
          obtain ⟨hs₁, hless, hup, hgone⟩ := hs₁
          have hrefs₁ : ∀ x ∈ paths, ∀ y, g.refers y x → y ∈ removed g s₁ ∨ y ∈ paths :=
            fun x hx y hyx => removed_of_refers hmem (removed_mono hless) hgone hx hyx
          refine (hs.deletePaths hrun hs₁ hless hval hspec (fun i hi hr => hnoroot i hi
            ((hroots i).mpr hr)) hrefs₁ (fun hnot x hx => ?_) st).mono ?_ fun _ _ => False.elim
          · -- the path is dead, so its component has nothing in common with what has been removed
            have hpathp := (hspec path).mpr ⟨StoreGraph.mem_component_self, fun hr => hr.2 hval⟩
            obtain ⟨hxc, hxr⟩ := (hspec x).mp hx
            refine (mem_removed_or_valid
              (StoreGraph.mem_valid_of_mem_component hpath hxc)).resolve_left fun hxr₁ => ?_
            obtain ⟨q, hpq, hxq⟩ := (hup x hxr₁).resolve_left hxr
            exact Set.disjoint_left.mp (hapart path hpath (hnot path hpathp) q hpq) hxc hxq
          · rintro _ s₂ ⟨hv, hremoved⟩
            refine ⟨hv, fun x hx => ?_⟩
            rw [hremoved] at hx
            rcases hx with hx | hx
            · exact (hup x hx).imp id fun ⟨q, hpq, hxq⟩ => ⟨q, hpq.to_reflTransGen, hxq⟩
            · exact Or.inr ⟨path, .refl, ((hspec x).mp hx).1⟩

/-! ### Whole runs -/

section

variable {roots : Set Path} {dirents : List Path} {shuffle : List Path → List Path}

/-- A state with the same store is exact. -/
theorem SameStore.exactState (h : SameStore env g disk s s') (hs : ExactState env g disk K L s)
    (hroots : ∀ p ∈ env.roots, L p) : ExactState env g disk K L s' :=
  ⟨h.state, (removed_eq_of_graph_eq h.graph) ▸ hs.dead, fun q hq =>
    (h.live q hq).elim (hs.live q) fun hq => hroots q hq.2⟩

/-- If all calls on valid paths have the right verdict, a run over all entries removes the paths that
are not in `L`. -/
theorem deleteEntries_exact (fuel : ℕ) (hrun : UnlimitedRun env g disk) (hroots : ∀ p ∈ env.roots, L p)
    (hcall : ∀ (path : Path) (s : GCState), path ∈ g.valid → ExactState env g disk K L s →
      Prog.Ends (tryToDelete env fuel path) s (fun b s' => Verdict env g disk K L path s b s')
        fun e _ => e = .outOfFuel)
    (hdirents : ∀ p ∈ g.valid, p ∈ dirents) (hshuffle : ∀ l, (shuffle l).Perm l)
    (hs : ExactState env g disk K L s) (hgraph : s.db.graph = g) (hinv : ∀ p, p ∉ s.invalidated) :
    Prog.Ends (deleteEntries env fuel dirents shuffle) s
      (fun _ s' => ExactState env g disk K L s' ∧ ∀ p ∈ g.valid, p ∈ removed g s' ∨ L p)
      fun e _ => e = .outOfFuel := by
  refine (readEntries_spec hrun.toDeletingRun fuel dirents [] s hs.toShrunkState hgraph hinv).bind ?_
    fun e _ he => (he.resolve_right fun he => hrun.not_limited he.1).2
  rintro entries s₁ ⟨hs₁, hentries⟩
  have hmem : ∀ p, p ∈ shuffle entries ↔ p ∈ g.valid := fun p => by
    rw [(hshuffle entries).mem_iff, hentries]
    simpa using hdirents p
  refine (Prog.Ends.each (I := fun done s' => ExactState env g disk K L s' ∧
    ∀ p ∈ done, p ∈ removed g s' ∨ L p) (shuffle entries) ?_
    ⟨hs₁.exactState hs hroots, by simp⟩).mono
    (fun _ s' hs' => ⟨hs'.1, fun p hp => hs'.2 p ((hmem p).mpr hp)⟩) fun _ _ => id
  rintro done p rest s₂ hl ⟨hs₂, hdone⟩
  have hp : p ∈ g.valid := (hmem p).mp (by simp [hl])
  refine (hcall p s₂ hp hs₂).bind (fun b s₃ hv => ?_) fun _ _ => id
  refine ⟨hv.state, fun q hq => ?_⟩
  rcases List.mem_append.mp hq with hq | hq
  · exact (hdone q hq).imp (fun h => removed_mono hv.less h) id
  · rw [List.mem_singleton.mp hq]
    cases b with
    | true => exact Or.inl (hv.dead rfl)
    | false => exact Or.inr (hv.live rfl)

end

/-- What is assumed about a store on which the collector is run. -/
structure GCInput (settings : GCSettings) (db : Database) (disk : SortedMap Path StoreEntry) :
    Prop where
  wellFormed : db.WellFormed
  acyclic : db.graph.Acyclic
  storePaths : db.StorePathsOnly settings.cfg
  onDisk : ∀ p ∈ db.graph.valid, p ∈ disk
  notLinks : linksDir settings.cfg ∉ db.graph.valid
  /-- No entry has the name of a directory that this process would rename. -/
  fresh : ∀ p ∈ db.graph.valid, p ++ str "-gc-" ++ settings.pid ∉ disk

variable {settings : GCSettings} {db : Database} {disk : SortedMap Path StoreEntry}
  {permRoots tempRoots : PathSet}

/-- An input of the collector has fresh temporary names. -/
theorem GCInput.freshNames (h : GCInput settings db disk) :
    FreshNames settings.pid db.graph disk :=
  ⟨h.fresh, fun p hp htmp => h.fresh p hp (h.onDisk _ htmp)⟩

/-- Every run that deletes is one on such a store. -/
theorem GCInput.deletingRun (h : GCInput settings db disk) (options : GCOptions)
    (hdelete : shouldDelete options.action = true) (permRoots tempRoots : PathSet) :
    DeletingRun (gcEnv settings options permRoots tempRoots) db.graph disk where
  shouldDelete := hdelete
  acyclic := h.acyclic
  storePaths := h.storePaths
  onDisk := h.onDisk
  notLinks := h.notLinks
  names := h.freshNames

/-- The first state is exact. -/
theorem GCInput.exactState_init (h : GCInput settings db disk) (env : GCEnv) :
    ExactState env db.graph disk K L (GCState.init db disk) where
  toShrunkState := shrunkState_init h.wellFormed
  dead x hx := by
    rw [removed_init] at hx
    exact absurd hx (Set.notMem_empty x)
  live := by simp [GCState.init]

end Nix
