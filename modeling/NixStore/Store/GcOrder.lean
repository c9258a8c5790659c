import NixStore.Store.GcExactness
import NixStore.Store.GcSafety

/-!
# Order dependence of the garbage collector

If some component is not symmetric, the verdicts of `tryToDelete` depend on the path from which a
component is entered.  Let `d` be in the component of `z` but not the other way round.  If `z` keeps
`d`, a run without roots that starts with `d` deletes it twice and fails; otherwise a run that starts
with a root like `z` marks the dead path `d` as live.  Together with the results on symmetric
components this gives the exact condition for runs to be exact.
-/

namespace Nix

open Relation

variable {env : GCEnv} {g : StoreGraph} {disk : SortedMap Path StoreEntry} {K : Path → Prop}
  {s s' : GCState}

/-! ### Runs that start with a dead path -/

/-- The state of a run that has only looked at dead paths: with a path all paths that keep it are
gone. -/
structure Swept (env : GCEnv) (g : StoreGraph) (disk : SortedMap Path StoreEntry) (K : Path → Prop)
    (s : GCState) : Prop where
  state : ExactState env g disk K K s
  keepers : g.HasKeepers env.keep (removed g s)

/-- A path that keeps `d` and has `d` in its component is in the component of `d`. -/
def KeptWithin (g : StoreGraph) (k : KeepFlags) (d : Path) : Prop :=
  ∀ z ∈ g.valid, g.Kept k {z} d → d ∈ g.Component k z → z ∈ g.Component k d

/-- All that keeps the component of `d` can be removed before it without removing a member of it, except
for those in `D₀`. -/
def ReachedWhole (g : StoreGraph) (k : KeepFlags) (D₀ : Set Path) (d : Path) : Prop :=
  ∃ D, g.HasKeepers k D ∧ (∀ y, g.DependsOn k d y → y ∈ D) ∧ ∀ x ∈ g.Component k d, x ∈ D → x ∈ D₀

/-- What is reached as a whole keeps within its component. -/
theorem ReachedWhole.keptWithin {k : KeepFlags} {d : Path} (h : ReachedWhole g k ∅ d) :
    KeptWithin g k d := by
  obtain ⟨D, hD, hdep, hapart⟩ := h
  intro z hz hkept hdz
  have hmem := (hD.union_component hdep).mem_of_kept hz hkept (Or.inr StoreGraph.mem_component_self)
  refine hmem.resolve_left fun hzD => ?_
  exact hapart d StoreGraph.mem_component_self (hD.keepClosed.component_subset hzD hdz)

/-- The component has nothing in common with those that have to be garbage first. -/
theorem ReachedWhole.disjoint {k : KeepFlags} {d q : Path} (h : ReachedWhole g k ∅ d)
    (hq : Relation.TransGen (g.DependsOn k) d q) :
    Disjoint (g.Component k d) (g.Component k q) := by
  obtain ⟨D, hD, hdep, hapart⟩ := h
  rw [Set.disjoint_left]
  intro x hx hxq
  exact hapart x hx (hD.keepClosed.component_subset (hD.mem_of_transGen hdep hq) hxq)

/-- If the deletion loop returns, all of its paths were there. -/
theorem deletePaths_returns (hrun : DeletingRun env g disk) (h : ShrunkState env g disk s)
    {paths : PathSet} (hvalid : ∀ x ∈ paths, x ∈ g.valid) (st : StoreEntry) :
    Prog.Ends (deletePaths env st paths) s
      (fun _ s' => (∀ x ∈ paths, x ∈ s.db.graph.valid) ∧
        ∃ l, (∀ x, x ∈ l ↔ x ∈ paths) ∧ MidDeletion env g disk s l s')
      fun e _ => Thrown env e := by
  refine (ends_deletePaths (I := fun done s' => MidDeletion env g disk s done s' ∧
    ∀ x ∈ done, x ∈ s.db.graph.valid)
    (Or.inl (topoSortPaths_isOk h.wellFormed (h.acyclic hrun) paths))
    ⟨.init h.toLooseState, by simp⟩ ?_).mono ?_ fun _ _ => id
  · rintro l hmem hnd - done i rest s' hl ⟨hs', hdone⟩
    have hig : i ∈ g.valid := hvalid i ((hmem i).mp (by simp [hl]))
    refine (deletePath_spec hs'.state.wellFormed st).mono (fun _ s'' hdel => ?_) fun _ _ he => he.1
    obtain ⟨hival, hstep⟩ := hs'.step hrun hig hdel
    refine ⟨hstep, fun x hx => ?_⟩
    rcases List.mem_append.mp hx with hx | hx
    · exact hdone x hx
    · rw [List.mem_singleton.mp hx]
      refine (mem_removed_or_valid hig).resolve_left fun hir => ?_
      exact (hs'.removed_eq ▸ Or.inl hir : i ∈ removed g s').2 hival
  · rintro _ s' ⟨l, hmem, hs', hl⟩
    exact ⟨fun x hx => hl x ((hmem x).mpr hx), l, hmem, hs'⟩

/-- A call on a dead path that returns has removed its path.  If the path was still there, everything
that keeps its component has been removed before it, without removing a member: the deletion of a member
that is gone would have failed. -/
theorem tryToDelete_sweeps (hrun : UnlimitedRun env g disk) {roots : Set Path}
    (hroots : ∀ p, p ∈ env.roots ↔ p ∈ roots) :
    ∀ (n : ℕ) (path : Path) (s : GCState), path ∈ g.valid → ¬ g.Kept env.keep roots path →
      Swept env g disk (g.Kept env.keep roots) s →
      Prog.Ends (tryToDelete env n path) s
        (fun b s' => b = true ∧ Swept env g disk (g.Kept env.keep roots) s' ∧
          s'.db.graph.valid ⊆ s.db.graph.valid ∧ path ∈ removed g s' ∧
          (path ∈ s.db.graph.valid → ReachedWhole g env.keep (removed g s) path))
        fun e _ => e ≠ .limitReached := by
  intro n
  induction n with
  | zero => exact fun _ _ _ _ _ => Prog.ends_throw (by simp)
  | succ n ih =>
    intro path s hpath hdead hs
    have hcompdead : ∀ x ∈ g.Component env.keep path, ¬ g.Kept env.keep roots x :=
      fun x hx hkept => hdead (hkept.of_mem_component hpath hx)
    refine ends_tryToDelete_valid hrun.toDeletingRun hs.state.toShrunkState hpath ?_ ?_ ?_ ?_
    · exact fun hr => ⟨rfl, hs, subset_rfl, hr, fun hval => absurd hval hr.2⟩
    · exact fun hlive => absurd (hs.state.live path hlive) hdead
    · rintro paths hspec ⟨i, hi, hr⟩
      exact absurd (.root ((hroots i).mp hr)) (hcompdead i ((hspec i).mp hi).1)
    · intro st paths referrers hval _ hspec hnoroot hmem
      refine (Prog.Ends.all (I := fun done s' => Swept env g disk (g.Kept env.keep roots) s' ∧
        s'.db.graph.valid ⊆ s.db.graph.valid ∧ ∀ y ∈ done, y ∈ removed g s')
        (F := fun _ _ => False) referrers ?_ ⟨hs, subset_rfl, by simp⟩).mono ?_ fun _ _ => id
      · rintro done y rest s₁ hl ⟨hs₁, hless, hdone⟩
        have hy := dependsOn_of_mem_referrers hspec hmem (y := y) (by simp [hl])
        have hydead : ¬ g.Kept env.keep roots y := fun hkept => by
          obtain ⟨-, x, hx, hyx⟩ := hy
          exact hcompdead x hx (.reference hkept hyx)
        refine (ih y s₁ (StoreGraph.dependsOn_mem_valid hy) hydead hs₁).mono ?_ fun _ _ => id
        rintro b s₂ ⟨rfl, hs₂, hless₂, hyr, -⟩
        refine ⟨hs₂, hless₂.trans hless, fun z hz => ?_⟩
        rcases List.mem_append.mp hz with hz | hz
        · exact removed_mono hless₂ (hdone z hz)
        · rwa [List.mem_singleton.mp hz]
      · intro b s₁ hs₁
        cases b with
        | false =>
          obtain ⟨_, -, hfalse⟩ := hs₁
          exact hfalse.elim
        | true =>
          obtain ⟨hs₁, hless, hgone⟩ := hs₁
          have hpathsg : ∀ x ∈ paths, x ∈ g.valid := fun x hx =>
            StoreGraph.mem_valid_of_mem_component hpath ((hspec x).mp hx).1
          have hdepgone : ∀ y, g.DependsOn env.keep path y → y ∈ removed g s₁ := by
            rintro y ⟨hyc, x, hx, hyx⟩
            by_cases hxr : x ∈ removed g s
            · exact removed_mono hless (hs.keepers.referrers x hxr y hyx)
            exact (removed_of_refers hmem (removed_mono hless) hgone ((hspec x).mpr ⟨hx, hxr⟩)
              hyx).resolve_right fun hy => hyc ((hspec y).mp hy).1
          refine (deletePaths_returns hrun.toDeletingRun hs₁.state.toShrunkState hpathsg st).mono ?_
            fun e _ he => ?_
          · rintro _ s₂ ⟨hvalid, l, hlmem, hmid⟩
            have hunion := removed_union_component (removed_mono hless) hspec
            obtain ⟨hs₂, hremoved, hlive⟩ := hmid.shrunkState hlmem
              (hunion ▸ hs₁.state.keepClosed.union_component)
            rw [hunion] at hremoved
            have hself : path ∈ removed g s₂ := hremoved ▸ Or.inr StoreGraph.mem_component_self
            refine ⟨rfl, ⟨⟨hs₂, fun x hx => ?_, hlive ▸ hs₁.state.live⟩, ?_⟩, fun x hx => ?_, hself,
              fun _ => ⟨removed g s₁, hs₁.keepers, hdepgone, fun x hx hxr => ?_⟩⟩
            · rw [hremoved] at hx
              exact hx.elim (hs₁.state.dead x) (hcompdead x)
            · rw [hremoved]
              exact hs₁.keepers.union_component hdepgone
            · refine hless ((mem_removed_or_valid (hs₂.mem_initial hx)).resolve_left fun hxr => ?_)
              exact (hremoved ▸ Or.inl hxr : x ∈ removed g s₂).2 hx
            · by_contra hnot
              exact hxr.2 (hvalid x ((hspec x).mpr ⟨hx, hnot⟩))
          · rcases he with ⟨msg, rfl⟩ | ⟨-, hne⟩
            · simp
            · exact absurd hrun.unlimited hne

/-- An order of the entries in which a given path comes first. -/
def moveToFront (d : Path) (l : List Path) : List Path := if d ∈ l then d :: l.erase d else l

/-- Moving a path to the front is a permutation. -/
theorem moveToFront_perm (d : Path) (l : List Path) : (moveToFront d l).Perm l := by
  rw [moveToFront]
  split_ifs with h
  · exact (List.perm_cons_erase h).symm
  · exact .refl l

/-- Without a limit, a call is not stopped by the limit. -/
theorem tryToDelete_unlimited (env : GCEnv) (hmax : env.options.maxFreed = 0xffffffffffffffff) (n : ℕ)
    (path : Path) (s : GCState) (hwf : s.db.WellFormed) :
    Prog.Ends (tryToDelete env n path) s (fun _ s' => s'.db.WellFormed)
      fun e _ => e ≠ .limitReached := by
  refine tryToDelete_preserves env (I := fun s => s.db.WellFormed) (fun _ => id) (fun _ _ => id)
    (fun st i s hs => ?_) (fun _ _ => by simp) (fun _ _ => Or.inr fun _ => id) n path s hwf
  refine (deletePath_spec hs st).mono (fun _ _ hs' => hs'.wellFormed) fun e _ he => ?_
  rcases he.1 with ⟨msg, rfl⟩ | ⟨-, hlimit⟩
  · simp
  · exact absurd hmax hlimit

section

variable {fuel : ℕ} {dirents : List Path}

/-- Nothing was removed while the graph is that of the start. -/
theorem removed_eq_empty (hgraph : s.db.graph = g) : removed g s = ∅ := by
  ext x
  simp [removed, hgraph]

/-- A run that starts with the dead path `d`. -/
theorem deleteEntries_sweeps (fuel : ℕ) (hrun : UnlimitedRun env g disk) {roots : Set Path}
    (hroots : ∀ p, p ∈ env.roots ↔ p ∈ roots) (hdirents : ∀ p ∈ g.valid, p ∈ dirents)
    (hs : ExactState env g disk (g.Kept env.keep roots) (g.Kept env.keep roots) s)
    (hgraph : s.db.graph = g) (hinv : ∀ p, p ∉ s.invalidated) {d : Path} (hd : d ∈ g.valid)
    (hdead : ¬ g.Kept env.keep roots d) :
    Prog.Ends (deleteEntries env fuel dirents (moveToFront d)) s
      (fun _ _ => ReachedWhole g env.keep ∅ d) fun e _ => e ≠ .limitReached := by
  refine (readEntries_spec hrun.toDeletingRun fuel dirents [] s hs.toShrunkState hgraph hinv).bind ?_
    fun e _ he => ?_
  swap
  · simp [(he.resolve_right fun he => hrun.not_limited he.1).2]
  rintro entries s₁ ⟨hs₁, hentries⟩
  have hdmem : d ∈ entries := by
    rw [hentries]
    exact Or.inr ⟨hdirents d hd, hd⟩
  have hgraph₁ : s₁.db.graph = g := hs₁.graph.trans hgraph
  have hnone : removed g s₁ = ∅ := removed_eq_empty hgraph₁
  have hswept : Swept env g disk (g.Kept env.keep roots) s₁ := by
    refine ⟨hs₁.exactState hs fun p hp => .root ((hroots p).mp hp), hs₁.state.keepClosed, ?_⟩
    simp [hnone]
  rw [moveToFront, if_pos hdmem]
  refine Prog.Ends.bind (Q := fun _ s₂ => s₂.db.WellFormed ∧ ReachedWhole g env.keep ∅ d)
    (E := fun e _ => e ≠ .limitReached) ?_ ?_ fun _ _ => id
  · refine (tryToDelete_sweeps hrun hroots fuel d s₁ hd hdead hswept).bind ?_ fun _ _ => id
    rintro b s₂ ⟨-, hs₂, -, -, hreached⟩
    exact ⟨hs₂.state.wellFormed, hnone ▸ hreached (hgraph₁ ▸ hd)⟩
  · rintro _ s₂ ⟨hwf, hreached⟩
    refine (Prog.Ends.each (I := fun _ s => s.db.WellFormed) (entries.erase d)
      (fun _ p _ s₃ _ hs₃ => ?_) hwf).mono (fun _ _ _ => hreached) fun _ _ => id
    exact (tryToDelete_unlimited env hrun.unlimited fuel p s₃ hs₃).bind (fun _ _ h => h)
      fun _ _ => id

/-! ### Runs that start with a root -/

/-- The dead path `d` has been marked as live with the component of the root `x`. -/
structure Marked (env : GCEnv) (g : StoreGraph) (x d : Path) (s : GCState) : Prop where
  live : ∀ q ∈ g.Component env.keep x, q ∈ s.live
  valid : d ∈ s.db.graph.valid

/-- Marking keeps what is marked. -/
theorem Marked.markLive {x d : Path} (h : Marked env g x d s) (paths : PathSet) :
    Marked env g x d (markLive env paths s) :=
  ⟨fun q hq => SortedSet.mem_foldl_insert.mpr (Or.inr (h.live q hq)), h.valid⟩

/-- Deleting other paths keeps what is marked. -/
theorem Marked.deletePaths {x d : Path} (hwf : s.db.WellFormed) (h : Marked env g x d s)
    {paths : PathSet} (hd : d ∉ paths) (st : StoreEntry) :
    Prog.Ends (deletePaths env st paths) s (fun _ => Marked env g x d)
      fun _ => Marked env g x d := by
  have hstep : ∀ {i s₁ s₂}, i ∈ paths → DeleteStep env i s₁ s₂ → Marked env g x d s₁ →
      Marked env g x d s₂ := fun {i s₁ s₂} hi hdel h₁ => by
    refine ⟨by rw [hdel.live]; exact h₁.live, ?_⟩
    rcases hdel.graph with hsame | hless
    · rw [hsame]
      exact h₁.valid
    · rw [hless]
      exact ⟨h₁.valid, fun hdi => hd ((Set.mem_singleton_iff.mp hdi) ▸ hi)⟩
  refine (ends_deletePaths (I := fun _ s' => s'.db.WellFormed ∧ Marked env g x d s')
    (Or.inr fun _ _ => h) ⟨hwf, h⟩ ?_).mono (fun _ _ h => by obtain ⟨_, -, -, h⟩ := h; exact h)
    fun _ _ => id
  rintro l hmem - - done i rest s' hl ⟨hwf', h'⟩
  have hi : i ∈ paths := (hmem i).mp (by simp [hl])
  exact (deletePath_spec hwf' st).mono
    (fun _ s'' hdel => ⟨hdel.wellFormed, hstep hi hdel.toDeleteStep h'⟩)
    fun _ _ hdel => hstep hi hdel.2 h'

/-- The call on a root marks its component. -/
theorem tryToDelete_marks_root (hrun : DeletingRun env g disk) (hs : ShrunkState env g disk s)
    (hgraph : s.db.graph = g) {x d : Path} (hx : x ∈ g.valid) (hxroot : x ∈ env.roots)
    (hlive : x ∉ s.live) (hdx : d ∈ g.Component env.keep x) (n : ℕ) :
    Prog.Ends (tryToDelete env n x) s (fun _ => Marked env g x d) fun e _ => e = .outOfFuel := by
  have hnone : removed g s = ∅ := removed_eq_empty hgraph
  cases n with
  | zero => exact Prog.ends_throw rfl
  | succ n =>
    refine ends_tryToDelete_valid hrun hs hx ?_ (fun hcached => absurd hcached hlive) ?_ ?_
    · simp [hnone]
    · intro paths hspec _
      refine ⟨fun q hq => SortedSet.mem_foldl_insert.mpr (Or.inl ((hspec q).mpr ⟨hq, ?_⟩)), ?_⟩
      · simp [hnone]
      · exact hgraph ▸ StoreGraph.mem_valid_of_mem_component hx hdx
    · intro st paths referrers hval _ hspec hnoroot
      exact absurd hxroot (hnoroot x ((hspec x).mpr ⟨StoreGraph.mem_component_self, fun h => h.2 hval⟩))

/-- Once `d` is marked, no call deletes it, if the paths that are not kept are those that keep
`d`. -/
theorem tryToDelete_keeps_marked (hrun : DeletingRun env g disk) {roots : Set Path}
    (hroots : ∀ p, p ∈ env.roots ↔ p ∈ roots) {x d : Path}
    (hwithin : KeptWithin g env.keep d) (hdx : d ∈ g.Component env.keep x)
    (hdead : ∀ z ∈ g.valid, ¬ g.Kept env.keep roots z → g.Kept env.keep {z} d) (n : ℕ) (path : Path)
    (hs : SafeState g (g.Kept env.keep roots) s) (hm : Marked env g x d s) :
    Prog.Ends (tryToDelete env n path) s
      (fun _ s' => SafeState g (g.Kept env.keep roots) s' ∧ Marked env g x d s')
      fun _ s' => SafeState g (g.Kept env.keep roots) s' ∧ Marked env g x d s' := by
  refine (tryToDelete_safe hroots hrun.notLinks (fun paths t hm => hm.markLive paths) ?_ n path s
    hs hm).mono (fun _ _ h => h.1) fun _ _ => id
  intro path paths st t t' ht hm hcached hpaths hnot ht' hm'
  refine hm'.deletePaths ht'.wellFormed (fun hdp => ?_) st
  rcases hpaths with ⟨hval, hcomp⟩ | ⟨hinval, hself⟩
  · -- `path` is not kept, so it keeps `d` and is in the component of `d`, which is marked
    have hpathg := ht.mem_initial hval
    have hkeeps := hdead path hpathg (hnot path ((hcomp path).mpr StoreGraph.mem_component_self))
    have hdpath : d ∈ g.Component env.keep path := by
      obtain ⟨D, hgraphD, -⟩ := ht.shrunk
      have hdp' := (hcomp d).mp hdp
      rw [hgraphD] at hdp'
      exact StoreGraph.component_without_subset hdp'
    exact hcached (hm.live path
      (StoreGraph.component_trans hdx (hwithin path hpathg hkeeps hdpath)))
  · exact hinval ((hself d).mp hdp ▸ hm.valid)

/-- A run that starts with the root `x` keeps the path `d` of its component, if the paths that are
not kept are those that keep `d`. -/
theorem deleteEntries_marks (fuel : ℕ) (hrun : UnlimitedRun env g disk) {roots : Set Path}
    (hroots : ∀ p, p ∈ env.roots ↔ p ∈ roots) {x d : Path} (hx : x ∈ g.valid) (hxroot : x ∈ roots)
    (hdx : d ∈ g.Component env.keep x) (hwithin : KeptWithin g env.keep d)
    (hdead : ∀ z ∈ g.valid, ¬ g.Kept env.keep roots z → g.Kept env.keep {z} d)
    (hdirents : ∀ p ∈ g.valid, p ∈ dirents) (hs : ShrunkState env g disk s)
    (hsafe : SafeState g (g.Kept env.keep roots) s) (hlive : ∀ p, p ∉ s.live)
    (hgraph : s.db.graph = g) (hinv : ∀ p, p ∉ s.invalidated) :
    Prog.Ends (deleteEntries env fuel dirents (moveToFront x)) s
      (fun _ s' => d ∈ s'.db.graph.valid)
      fun e s' => e = .outOfFuel ∨ d ∈ s'.db.graph.valid := by
  have hsafeCall : ∀ p t, SafeState g (g.Kept env.keep roots) t →
      Prog.Ends (tryToDelete env fuel p) t (fun _ => SafeState g (g.Kept env.keep roots))
        fun _ => SafeState g (g.Kept env.keep roots) := fun p t ht =>
    (tryToDelete_safe (X := fun _ => True) hroots hrun.notLinks (fun _ _ => id)
      (fun _ _ _ _ _ _ _ _ _ _ _ _ => Prog.ends_true) fuel p t ht trivial).mono
      (fun _ _ h => h.1.1) fun _ _ h => h.1
  refine ((readEntries_spec hrun.toDeletingRun fuel dirents [] s hs hgraph hinv).and
    (ends_readEntries hsafeCall dirents [] s hsafe)).bind ?_
    fun _ _ he => Or.inl (he.1.resolve_right fun he => hrun.not_limited he.1).2
  rintro entries s₁ ⟨⟨hs₁, hentries⟩, hsafe₁⟩
  have hgraph₁ : s₁.db.graph = g := hs₁.graph.trans hgraph
  have hlive₁ : x ∉ s₁.live := fun h =>
    (hs₁.live x h).elim (hlive x) fun hnot => hnot.1 hx
  have hxmem : x ∈ entries := by
    rw [hentries]
    exact Or.inr ⟨hdirents x hx, hx⟩
  rw [moveToFront, if_pos hxmem]
  refine (Prog.Ends.each (I := fun done s' => SafeState g (g.Kept env.keep roots) s' ∧
    (done = [] → s' = s₁) ∧ (done ≠ [] → Marked env g x d s')) (x :: entries.erase x) ?_
    ⟨hsafe₁, fun _ => rfl, by simp⟩).mono (fun _ _ h => (h.2.2 (by simp)).valid) fun _ _ => id
  rintro done p rest s₂ hl ⟨hs₂, hfirst, hlater⟩
  cases done with
  | nil =>
    obtain rfl := hfirst rfl
    obtain rfl : x = p := (List.cons.inj hl).1
    refine ((hsafeCall x s₂ hs₂).and (tryToDelete_marks_root hrun.toDeletingRun hs₁.state hgraph₁ hx
      ((hroots x).mpr hxroot) hlive₁ hdx fuel)).bind (fun _ s₃ h => ?_) fun _ _ he => Or.inl he.2
    exact ⟨h.1, by simp, fun _ => h.2⟩
  | cons q done =>
    refine (tryToDelete_keeps_marked hrun.toDeletingRun hroots hwithin hdx hdead fuel p hs₂
      (hlater (by simp))).bind (fun _ s₃ h => ?_) fun _ _ he => Or.inr he.2.valid
    exact ⟨h.1, by simp, fun _ => h.2⟩

end

/-! ### When runs are exact -/

/-- Every run that deletes all dead paths without a limit ends normally, unless its recursion does
not end, and removes exactly the paths that are not live.  In particular all orders of the entries
lead to the same result. -/
def ExactRunsFor (settings : GCSettings) (db : Database) (disk : SortedMap Path StoreEntry)
    (permRoots tempRoots : PathSet) : Prop :=
  ∀ (fuel : ℕ) (dirents : List Path) (shuffle : List Path → List Path), dirents.Perm disk.keys →
    (∀ l, (shuffle l).Perm l) →
    let roots := {r | r ∈ (gcEnv settings .default permRoots tempRoots).roots}
    let run := collectGarbage settings .default permRoots tempRoots fuel dirents shuffle
      (GCState.init db disk)
    run.1 ≠ .error .outOfFuel →
      run.1 = .ok () ∧ ∀ p ∈ db.graph.valid,
        (p ∈ run.2.db.graph.valid ↔ db.graph.Live settings.keep roots p) ∧
        (p ∈ run.2.disk ↔ db.graph.Live settings.keep roots p)

/-- The same for all roots. -/
def ExactRuns (settings : GCSettings) (db : Database) (disk : SortedMap Path StoreEntry) : Prop :=
  ∀ permRoots tempRoots : PathSet, ExactRunsFor settings db disk permRoots tempRoots

variable {settings : GCSettings} {db : Database} {permRoots tempRoots : PathSet} {fuel : ℕ}
  {dirents : List Path} {shuffle : List Path → List Path}

/-- The roots of the default options are the permanent and the temporary ones. -/
theorem mem_gcEnv_roots {p : Path} :
    p ∈ (gcEnv settings .default permRoots tempRoots).roots ↔ p ∈ tempRoots ∨ p ∈ permRoots := by
  simp [gcEnv, GCOptions.default, SortedSet.mem_foldl_insert]

/-- Every valid path is in the directory. -/
theorem mem_dirents_of_perm (h : GCInput settings db disk) (hdirents : dirents.Perm disk.keys) :
    ∀ p ∈ db.graph.valid, p ∈ dirents :=
  fun p hp => hdirents.mem_iff.mpr (h.onDisk p hp)

/-- An input of the collector gives a run without limits. -/
theorem GCInput.unlimitedRun (h : GCInput settings db disk) (options : GCOptions)
    (hdelete : shouldDelete options.action = true) (hmax : options.maxFreed = 0xffffffffffffffff)
    (permRoots tempRoots : PathSet) :
    UnlimitedRun (gcEnv settings options permRoots tempRoots) db.graph disk :=
  ⟨h.deletingRun options hdelete permRoots tempRoots, hmax⟩

/-- Between two calls, all renamed paths are there. -/
theorem LooseState.invalidated_onDisk (h : LooseState env g disk s) : ∀ x ∈ s.invalidated, x ∈ s.disk :=
  fun x hx => (h.invalidated x hx).1

/-- No valid path is deleted as a renamed one. -/
theorem LooseState.notMem_invalidated (hnames : FreshNames env.pid g disk)
    (h : LooseState env g disk s) {p : Path} (hp : p ∈ g.valid) : p ∉ s.invalidated := by
  intro hinv
  obtain ⟨-, q, hq, rfl⟩ := h.invalidated p hinv
  exact hnames.notMem_valid q hq.1 hp

/-- If all calls on valid paths have the right verdict, runs remove exactly what is not kept. -/
theorem collectGarbage_exact (shuffle : List Path → List Path) (h : GCInput settings db disk)
    (hdirents : dirents.Perm disk.keys) (hshuffle : ∀ l, (shuffle l).Perm l)
    (hcall : ∀ (path : Path) (s : GCState), path ∈ db.graph.valid →
      ExactState (gcEnv settings .default permRoots tempRoots) db.graph disk
        (db.graph.Kept settings.keep {r | r ∈ (gcEnv settings .default permRoots tempRoots).roots})
        (db.graph.Kept settings.keep {r | r ∈ (gcEnv settings .default permRoots tempRoots).roots}) s →
      Prog.Ends (tryToDelete (gcEnv settings .default permRoots tempRoots) fuel path) s
        (fun b s' => Verdict (gcEnv settings .default permRoots tempRoots) db.graph disk
          (db.graph.Kept settings.keep {r | r ∈ (gcEnv settings .default permRoots tempRoots).roots})
          (db.graph.Kept settings.keep {r | r ∈ (gcEnv settings .default permRoots tempRoots).roots})
          path s b s') fun e _ => e = .outOfFuel)
    (hfuel : (collectGarbage settings .default permRoots tempRoots fuel dirents shuffle
      (GCState.init db disk)).1 ≠ .error .outOfFuel) :
    ∃ s', collectGarbage settings .default permRoots tempRoots fuel dirents shuffle
        (GCState.init db disk) = (.ok (), s') ∧
      ∀ p ∈ db.graph.valid,
        (p ∈ s'.db.graph.valid ↔ db.graph.Kept settings.keep
          {r | r ∈ (gcEnv settings .default permRoots tempRoots).roots} p) ∧
        (p ∈ s'.disk ↔ db.graph.Kept settings.keep
          {r | r ∈ (gcEnv settings .default permRoots tempRoots).roots} p) := by
  have hrun := h.unlimitedRun .default rfl rfl permRoots tempRoots
  have hend := ends_collectGarbage (by decide) (by decide)
    (deleteEntries_exact fuel hrun (fun p hp => .root hp) hcall (mem_dirents_of_perm h hdirents)
      hshuffle (h.exactState_init _) rfl (by simp [GCState.init])) (fun s' hs' => by
      exact (hs'.resolve_right (by simp)).1.invalidated_onDisk)
  rcases hres : collectGarbage settings .default permRoots tempRoots fuel dirents shuffle
    (GCState.init db disk) with ⟨e | _, s'⟩
  · rw [hres] at hfuel
    exact absurd (congrArg _ (hend.of_error hres)) hfuel
  · obtain ⟨s₁, hs₁, hclean⟩ := hend.of_ok hres
    obtain ⟨hs₁, hall⟩ := hs₁.resolve_right (by simp)
    have hval : ∀ p ∈ db.graph.valid, p ∈ s₁.db.graph.valid ↔ db.graph.Kept settings.keep
        {r | r ∈ (gcEnv settings .default permRoots tempRoots).roots} p := fun p hp =>
      ⟨fun hval => (hall p hp).resolve_left fun hr => hr.2 hval,
        fun hkept => (mem_removed_or_valid hp).resolve_left fun hr => hs₁.dead p hr hkept⟩
    refine ⟨s', rfl, fun p hp => ⟨hclean.db ▸ hval p hp, ?_⟩⟩
    rw [← hval p hp, hclean.mem_disk_iff]
    exact ⟨fun hdisk => hs₁.mem_valid hp hdisk.1, fun hpv =>
      ⟨hs₁.onDisk hrun.toDeletingRun p hpv, hs₁.notMem_invalidated hrun.names hp⟩⟩

/-- With symmetric components, all calls have the right verdict. -/
theorem collectGarbage_exact_of_symmetric (shuffle : List Path → List Path)
    (h : GCInput settings db disk) (hsym : db.graph.ComponentsSymmetric settings.keep)
    (hdirents : dirents.Perm disk.keys) (hshuffle : ∀ l, (shuffle l).Perm l)
    (hfuel : (collectGarbage settings .default permRoots tempRoots fuel dirents shuffle
      (GCState.init db disk)).1 ≠ .error .outOfFuel) :
    ∃ s', collectGarbage settings .default permRoots tempRoots fuel dirents shuffle
        (GCState.init db disk) = (.ok (), s') ∧
      ∀ p ∈ db.graph.valid,
        (p ∈ s'.db.graph.valid ↔ db.graph.Kept settings.keep
          {r | r ∈ (gcEnv settings .default permRoots tempRoots).roots} p) ∧
        (p ∈ s'.disk ↔ db.graph.Kept settings.keep
          {r | r ∈ (gcEnv settings .default permRoots tempRoots).roots} p) :=
  collectGarbage_exact shuffle h hdirents hshuffle (fun path s hpath hs =>
    (tryToDelete_exact (h.unlimitedRun .default rfl rfl permRoots tempRoots) hsym (fun _ => Iff.rfl)
      fuel ∅ path s hpath (active_empty path) (by simp) hs).mono (fun _ _ hv => hv.1)
      fun _ _ => id) hfuel

/-- Enough fuel for a run. -/
theorem exists_fuel_collectGarbage (h : GCInput settings db disk)
    (hcomp : db.graph.ComponentsAcyclic settings.keep) (permRoots tempRoots : PathSet)
    (dirents : List Path) (shuffle : List Path → List Path) :
    ∃ fuel, (collectGarbage settings .default permRoots tempRoots fuel dirents shuffle
      (GCState.init db disk)).1 ≠ .error .outOfFuel := by
  obtain ⟨N, hN⟩ := collectGarbage_terminates settings .default permRoots tempRoots disk h.wellFormed
    h.acyclic hcomp.rootless
  exact ⟨N, hN N le_rfl dirents shuffle⟩

/-- A finite set of paths can be given as a set of roots. -/
theorem exists_pathSet {R : Set Path} (hR : R.Finite) : ∃ P : PathSet, ∀ p, p ∈ P ↔ p ∈ R :=
  ⟨.ofList hR.toFinset.toList, by simp⟩

/-- Exact runs without roots show that no path keeps another one of its component from outside. -/
theorem ExactRuns.keptWithin (h : GCInput settings db disk)
    (hcomp : db.graph.ComponentsAcyclic settings.keep) (hexact : ExactRuns settings db disk)
    {d : Path} (hd : d ∈ db.graph.valid) : KeptWithin db.graph settings.keep d := by
  obtain ⟨fuel, hfuel⟩ := exists_fuel_collectGarbage h hcomp ∅ ∅ disk.keys (moveToFront d)
  obtain ⟨hok, -⟩ := hexact ∅ ∅ fuel disk.keys (moveToFront d) (.refl _) (moveToFront_perm d) hfuel
  have hdead : ¬ db.graph.Kept settings.keep {r | r ∈ (gcEnv settings .default ∅ ∅).roots} d := by
    intro hkept
    obtain ⟨r, hr, -⟩ := hkept.exists_root
    exact absurd hr (by simp [mem_gcEnv_roots])
  have hend := ends_collectUnderLock_entries (by decide) (by decide)
    (deleteEntries_sweeps fuel (h.unlimitedRun .default rfl rfl ∅ ∅) (fun _ => Iff.rfl)
      (mem_dirents_of_perm h (.refl _)) (h.exactState_init _) rfl (by simp [GCState.init]) hd hdead)
  obtain ⟨s₁, hs₁, -⟩ := collectGarbage_returns hend hok
  exact (hs₁.resolve_right fun hne => hne rfl).keptWithin

/-- Exact runs show that components are symmetric. -/
theorem ExactRuns.symmetric (h : GCInput settings db disk)
    (hcomp : db.graph.ComponentsAcyclic settings.keep) (hexact : ExactRuns settings db disk) :
    db.graph.ComponentsSymmetric settings.keep := by
  intro x hx d hdx
  by_contra hxd
  have hd : d ∈ db.graph.valid := StoreGraph.mem_valid_of_mem_component hx hdx
  have hwithin := hexact.keptWithin h hcomp hd
  -- the roots are all paths that do not keep `d`
  have hfin : {z | z ∈ db.graph.valid ∧ ¬ db.graph.Kept settings.keep {z} d}.Finite :=
    (finite_valid db).subset fun _ hz => hz.1
  obtain ⟨permRoots, hperm⟩ := exists_pathSet hfin
  have hroots : ∀ p, p ∈ (gcEnv settings .default permRoots ∅).roots ↔
      p ∈ db.graph.valid ∧ ¬ db.graph.Kept settings.keep {p} d := fun p => hperm p
  obtain ⟨fuel, hfuel⟩ := exists_fuel_collectGarbage h hcomp permRoots ∅ disk.keys (moveToFront x)
  obtain ⟨hok, hlive⟩ := hexact permRoots ∅ fuel disk.keys (moveToFront x) (.refl _)
    (moveToFront_perm x) hfuel
  have hend := ends_collectUnderLock_entries (by decide) (by decide) (deleteEntries_marks fuel
    (h.unlimitedRun .default rfl rfl permRoots ∅) hroots (x := x) hx
    ⟨hx, fun hkept => hxd (hwithin x hx hkept hdx)⟩ hdx hwithin (fun z hz hnot => ?_)
    (mem_dirents_of_perm h (.refl _)) (shrunkState_init h.wellFormed)
    (safeState_init h.wellFormed h.onDisk) (by simp [GCState.init]) rfl (by simp [GCState.init]))
  · obtain ⟨s₁, hs₁, -, hclean⟩ := collectGarbage_returns hend hok
    have hdval : d ∈ s₁.db.graph.valid := hs₁.elim id fun hor => hor.resolve_left (by simp)
    rw [← hclean.db] at hdval
    have hdlive := ((hlive d hd).1.mp hdval).kept_of_roots_valid fun r hr => ((hroots r).mp hr).1
    obtain ⟨r, hr, hkept⟩ := hdlive.1.exists_root
    exact ((hroots r).mp hr).2 hkept
  · by_contra hzd
    exact hnot (.root ⟨hz, hzd⟩)

/-- Exact runs show that all declared outputs are valid, if derivers are to be kept. -/
theorem ExactRuns.outputs_valid (h : GCInput settings db disk)
    (hcomp : db.graph.ComponentsAcyclic settings.keep) (hexact : ExactRuns settings db disk)
    (hkeep : settings.keep.gcKeepDerivations = true) {d o : Path} (hder : db.graph.derives d o) :
    o ∈ db.graph.valid := by
  by_contra ho
  have hroots : ∀ p, p ∈ (gcEnv settings .default (.ofList [o]) ∅).roots ↔ p = o := by
    simp [mem_gcEnv_roots]
  have hd := db.graph.mem_valid_of_derives hder
  obtain ⟨fuel, hfuel⟩ := exists_fuel_collectGarbage h hcomp (.ofList [o]) ∅ disk.keys id
  obtain ⟨s', hres, hkept⟩ := collectGarbage_exact_of_symmetric id h (hexact.symmetric h hcomp)
    (.refl _) (fun l => .refl l) hfuel
  obtain ⟨-, hlive⟩ := hexact (.ofList [o]) ∅ fuel disk.keys id (.refl _) (fun l => .refl l) hfuel
  rw [hres] at hlive
  have hdlive : db.graph.Live settings.keep
      {r | r ∈ (gcEnv settings .default (.ofList [o]) ∅).roots} d :=
    .deriver hkeep (.root ((hroots o).mpr rfl)) hder
  -- a root that is not valid keeps only itself
  have honly : ∀ p, db.graph.Kept settings.keep
      {r | r ∈ (gcEnv settings .default (.ofList [o]) ∅).roots} p → p = o := by
    intro p hp
    induction hp with
    | root hr => exact (hroots _).mp hr
    | reference _ href ih => exact absurd (ih ▸ (db.graph.mem_valid_of_refers href).1) ho
    | output _ _ hder' _ ih => exact absurd (ih ▸ db.graph.mem_valid_of_derives hder') ho
    | deriver _ _ hval _ ih => exact absurd (ih ▸ hval) ho
  have hdkept := (hkept d hd).1.mp ((hlive d hd).1.mpr hdlive)
  exact ho (honly d hdkept ▸ hd)

/-- A store with a derivation and its output. -/
def builtStore : Database where
  validPaths :=
    [⟨1, str "/nix/store/a", sampleHashText, 1, some (str "/nix/store/a.drv"), none⟩,
      ⟨2, str "/nix/store/a.drv", sampleHashText, 1, none, none⟩]
  refs := []
  derivationOutputs := [⟨2, str "out", str "/nix/store/a"⟩]
  nextId := 3

/-- The entries of its directory. -/
def builtDisk : SortedMap Path StoreEntry :=
  .ofList [(str "/nix/store/a", ⟨true, 512⟩), (str "/nix/store/a.drv", ⟨false, 512⟩)]

/-- The sample is an input of the collector. -/
theorem gcInput_builtStore (keep : KeepFlags) :
    GCInput ⟨defaultConfig, keep, str "1", fun _ => false⟩ builtStore builtDisk := by
  have hwf : builtStore.WellFormed := by constructor <;> decide
  have hpaths : ∀ r ∈ builtStore.validPaths, isStorePath defaultConfig r.path = true ∧
      r.path ∈ builtDisk ∧ r.path ++ str "-gc-" ++ str "1" ∉ builtDisk := by decide
  have hlinks : linksDir defaultConfig ∉ builtStore.graph.valid := by decide
  refine ⟨hwf, Database.acyclic_of_refs_descend hwf (by decide), ?_, ?_, hlinks, ?_⟩
  all_goals rintro p ⟨r, hr, rfl⟩
  · exact (hpaths r hr).1
  · exact (hpaths r hr).2.1
  · exact (hpaths r hr).2.2

end Nix
