import NixStore.Store.GcSteps

/-!
# The states of a run that deletes

What holds between two actions of a run that deletes, if no entry and no valid path has the name that a
directory gets when it is renamed (`FreshNames`): the database is the initial one without the paths that
have been removed, and their entries are gone (`LooseState`).  Between two calls whole components are
gone (`ShrunkState`).
-/

namespace Nix

/-- No entry and no valid path has the name that a valid path gets when process `pid` renames it. -/
structure FreshNames (pid : Str) (g : StoreGraph) (disk : SortedMap Path StoreEntry) : Prop where
  notMem_disk : ∀ p ∈ g.valid, p ++ str "-gc-" ++ pid ∉ disk
  notMem_valid : ∀ p ∈ g.valid, p ++ str "-gc-" ++ pid ∉ g.valid

/-- The valid paths of `g` that a run has removed so far. -/
def removed (g : StoreGraph) (s : GCState) : Set Path := {x | x ∈ g.valid ∧ x ∉ s.db.graph.valid}

/-- What holds between two actions of a run that started with the graph `g` and the entries `disk`. -/
structure LooseState (env : GCEnv) (g : StoreGraph) (disk : SortedMap Path StoreEntry) (s : GCState) :
    Prop where
  wellFormed : s.db.WellFormed
  graph : s.db.graph = g.without (removed g s)
  offDisk : ∀ x ∈ removed g s, x ∉ s.disk
  entries : ∀ x ∈ s.db.graph.valid, s.disk.find? x = disk.find? x
  known : ∀ x ∈ s.disk, x ∈ disk ∨ ∃ p ∈ removed g s, x = tmpName env p
  invalidated : ∀ x ∈ s.invalidated, x ∈ s.disk ∧ ∃ p ∈ removed g s, x = tmpName env p
  deleted : ∀ x ∈ s.deleted, x ∈ g.valid → x ∈ removed g s

/-- What holds between two calls of such a run. -/
structure ShrunkState (env : GCEnv) (g : StoreGraph) (disk : SortedMap Path StoreEntry) (s : GCState) :
    Prop extends LooseState env g disk s where
  keepClosed : g.KeepClosed env.keep (removed g s)

variable {env : GCEnv} {g : StoreGraph} {disk : SortedMap Path StoreEntry} {s s' : GCState} {i x : Path}

/-- A path of the start is removed or still valid. -/
theorem mem_removed_or_valid (hx : x ∈ g.valid) : x ∈ removed g s ∨ x ∈ s.db.graph.valid := by
  by_cases hval : x ∈ s.db.graph.valid
  · exact Or.inr hval
  · exact Or.inl ⟨hx, hval⟩

/-- What was removed stays so. -/
theorem removed_mono (h : s'.db.graph.valid ⊆ s.db.graph.valid) : removed g s ⊆ removed g s' :=
  fun _ hx => ⟨hx.1, fun hval => hx.2 (h hval)⟩

/-- What was removed depends on the graph only. -/
theorem removed_eq_of_graph_eq (h : s'.db.graph = s.db.graph) : removed g s' = removed g s := by
  rw [removed, removed, h]

/-- At first nothing was removed. -/
theorem removed_init (db : Database) (disk : SortedMap Path StoreEntry) :
    removed db.graph (GCState.init db disk) = ∅ := by
  ext x
  simp [removed, GCState.init]

namespace LooseState

/-- What is valid was so at the start. -/
theorem mem_initial (h : LooseState env g disk s) (hx : x ∈ s.db.graph.valid) : x ∈ g.valid := by
  rw [h.graph] at hx
  exact hx.1

/-- Where a valid path had an entry, it has one as long as it is valid. -/
theorem mem_disk (h : LooseState env g disk s) (hx : x ∈ s.db.graph.valid) (hdisk : x ∈ disk) :
    x ∈ s.disk := by
  rw [SortedMap.mem_iff_find?_ne_none, h.entries x hx]
  exact SortedMap.mem_iff_find?_ne_none.mp hdisk

/-- A valid path that has an entry has not been removed. -/
theorem mem_valid (h : LooseState env g disk s) (hx : x ∈ g.valid) (hdisk : x ∈ s.disk) :
    x ∈ s.db.graph.valid :=
  (mem_removed_or_valid hx).resolve_left fun hrem => h.offDisk x hrem hdisk

/-- Marking changes neither the database nor the disk. -/
theorem markLive (h : LooseState env g disk s) (paths : PathSet) :
    LooseState env g disk (markLive env paths s) :=
  ⟨h.wellFormed, h.graph, h.offDisk, h.entries, h.known, h.invalidated, h.deleted⟩

/-- The name for the renaming of a valid path is free. -/
theorem fresh (hnames : FreshNames env.pid g disk) (h : LooseState env g disk s)
    (hx : x ∈ s.db.graph.valid) : tmpName env x ∉ s.disk := by
  intro htmp
  rcases h.known _ htmp with hdisk | ⟨p, hp, heq⟩
  · exact hnames.notMem_disk x (h.mem_initial hx) hdisk
  · exact hp.2 (tmpName_injective env heq ▸ hx)

/-- One more valid path goes away. -/
theorem step (hnames : FreshNames env.pid g disk) (h : LooseState env g disk s) (hi : i ∈ g.valid)
    (hgo : Vanished env i s s') :
    i ∈ s.db.graph.valid ∧ LooseState env g disk s' ∧ removed g s' = removed g s ∪ {i} := by
  have hgraph := hgo.graph
  have hgone := hgo.disk
  have hival := h.mem_valid hi hgo.mem_disk
  have hremoved : removed g s' = removed g s ∪ {i} := by
    ext x
    rw [removed, hgraph]
    constructor
    · rintro ⟨hxg, hx⟩
      by_cases hxi : x = i
      · exact Or.inr hxi
      · exact Or.inl ⟨hxg, fun hval => hx ⟨hval, hxi⟩⟩
    · rintro (hx | rfl)
      · exact ⟨hx.1, fun hval => hx.2 hval.1⟩
      · exact ⟨hi, fun hval => hval.2 rfl⟩
  have htmp : ∀ x ∈ g.valid, x ≠ tmpName env i := by
    rintro x hx rfl
    exact hnames.notMem_valid i hi hx
  refine ⟨hival, ⟨hgo.wellFormed, ?_, fun x hx hdisk => ?_, fun x hx => ?_, fun x hx => ?_,
    fun x hx => ?_, fun x hx hxg => ?_⟩, hremoved⟩
  · rw [hremoved, hgraph, h.graph, StoreGraph.without_without]
  · rw [hremoved] at hx
    have hxg : x ∈ g.valid := hx.elim And.left fun hxi => (Set.mem_singleton_iff.mp hxi) ▸ hi
    rcases hgone.mem_disk hdisk with ⟨hne, hold⟩ | ⟨-, heq⟩
    · exact h.offDisk x (hx.resolve_right hne) hold
    · exact htmp x hxg heq
  · rw [hgraph] at hx
    rw [hgone.find?_eq hx.2 fun _ => htmp x (h.mem_initial hx.1)]
    exact h.entries x hx.1
  · rcases hgone.mem_disk hx with ⟨-, hx⟩ | ⟨-, heq⟩
    · exact (h.known x hx).imp id fun ⟨p, hp, heq⟩ => ⟨p, hremoved ▸ Or.inl hp, heq⟩
    · exact Or.inr ⟨i, hremoved ▸ Or.inr rfl, heq⟩
  · rcases hgone.mem_invalidated hx with hx | ⟨-, heq, hdisk⟩
    · obtain ⟨hdisk, p, hp, rfl⟩ := h.invalidated x hx
      refine ⟨hgone.mem_disk_of_ne ?_ hdisk, p, hremoved ▸ Or.inl hp, rfl⟩
      rintro rfl
      exact hnames.notMem_valid p hp.1 hi
    · exact ⟨hdisk, i, hremoved ▸ Or.inr rfl, heq⟩
  · rw [hremoved]
    exact (hgo.deleted x hx).symm.imp (fun hx => h.deleted x hx hxg) id

/-- An entry goes away that is no valid path and was there at the beginning. -/
theorem step_other (h : LooseState env g disk s) (hi : i ∉ g.valid) (hinv : i ∉ s.invalidated)
    (hgo : Vanished env i s s') :
    s'.db.graph = s.db.graph ∧ s'.invalidated = s.invalidated ∧ LooseState env g disk s' := by
  have hinval : i ∉ s.db.graph.valid := fun hval => hi (h.mem_initial hval)
  have hgraph : s'.db.graph = s.db.graph := by
    rw [hgo.graph, StoreGraph.without_singleton_of_notMem hinval]
  have hremoved := removed_eq_of_graph_eq (g := g) hgraph
  obtain ⟨hdisk, hsame⟩ := hgo.disk.resolve_right fun hval => hinval hval.1
  refine ⟨hgraph, hsame, hgo.wellFormed, by rw [hgraph, hremoved, ← h.graph], fun x hx hxd => ?_,
    fun x hx => ?_, fun x hx => ?_, fun x hx => ?_, fun x hx hxg => ?_⟩
  · rw [hdisk] at hxd
    exact h.offDisk x (hremoved ▸ hx) (SortedMap.mem_erase.mp hxd).2
  · rw [hgraph] at hx
    have hne : x ≠ i := by
      rintro rfl
      exact hinval hx
    rw [hdisk, SortedMap.find?_erase, if_neg hne]
    exact h.entries x hx
  · rw [hdisk] at hx
    rw [hremoved]
    exact h.known x (SortedMap.mem_erase.mp hx).2
  · rw [hsame] at hx
    rw [hdisk, hremoved, SortedMap.mem_erase]
    have hne : x ≠ i := by
      rintro rfl
      exact hinv hx
    exact ⟨⟨hne, (h.invalidated x hx).1⟩, (h.invalidated x hx).2⟩
  · rw [hremoved]
    refine h.deleted x ((hgo.deleted x hx).resolve_left ?_) hxg
    rintro rfl
    exact hi hxg

end LooseState

/-- Marking keeps a shrunk state. -/
theorem ShrunkState.markLive (h : ShrunkState env g disk s) (paths : PathSet) :
    ShrunkState env g disk (markLive env paths s) :=
  ⟨h.toLooseState.markLive paths, h.keepClosed⟩

/-- While whole components are removed, `tryToDelete` finds what is left of the initial one. -/
theorem ShrunkState.mem_component_iff (h : ShrunkState env g disk s) {path q : Path}
    (hpath : path ∈ s.db.graph.valid) : q ∈ s.db.graph.Component env.keep path ↔
      q ∈ g.Component env.keep path ∧ q ∉ removed g s := by
  rw [h.graph, h.keepClosed.component_without fun hp => hp.2 hpath]
  exact Iff.rfl

/-- The first state is shrunk from itself. -/
theorem shrunkState_init {db : Database} (hwf : db.WellFormed) :
    ShrunkState env db.graph disk (GCState.init db disk) where
  wellFormed := hwf
  graph := by
    rw [removed_init, StoreGraph.without_empty]
    rfl
  offDisk := by simp [removed_init]
  entries _ _ := rfl
  known _ hx := Or.inl hx
  invalidated := by simp [GCState.init]
  deleted := by simp [GCState.init]
  keepClosed := by
    rw [removed_init]
    exact StoreGraph.keepClosed_empty

/-! ### The deletion loop -/

/-- What is assumed about a run that deletes and about its store. -/
structure DeletingRun (env : GCEnv) (g : StoreGraph) (disk : SortedMap Path StoreEntry) : Prop where
  shouldDelete : shouldDelete env.options.action = true
  acyclic : g.Acyclic
  storePaths : ∀ p ∈ g.valid, isStorePath env.cfg p = true
  onDisk : ∀ p ∈ g.valid, p ∈ disk
  notLinks : linksDir env.cfg ∉ g.valid
  names : FreshNames env.pid g disk

/-- The paths are still store paths. -/
theorem LooseState.storePathsOnly (h : LooseState env g disk s) (hrun : DeletingRun env g disk) :
    s.db.StorePathsOnly env.cfg :=
  fun p hp => hrun.storePaths p (h.mem_initial hp)

/-- What is valid is on disk. -/
theorem LooseState.onDisk (h : LooseState env g disk s) (hrun : DeletingRun env g disk) :
    ∀ p ∈ s.db.graph.valid, p ∈ s.disk :=
  fun p hp => h.mem_disk hp (hrun.onDisk p (h.mem_initial hp))

/-- The graph is still acyclic. -/
theorem LooseState.acyclic (h : LooseState env g disk s) (hrun : DeletingRun env g disk) :
    s.db.graph.Acyclic :=
  h.graph ▸ hrun.acyclic.without _

/-- The state in the middle of the deletion loop, after the paths `done`. -/
structure MidDeletion (env : GCEnv) (g : StoreGraph) (disk : SortedMap Path StoreEntry) (s : GCState)
    (done : List Path) (s' : GCState) : Prop where
  state : LooseState env g disk s'
  removed_eq : removed g s' = removed g s ∪ {x | x ∈ done}
  live : s'.live = s.live

/-- A deletion begins with nothing deleted. -/
theorem MidDeletion.init (h : LooseState env g disk s) : MidDeletion env g disk s [] s :=
  ⟨h, by simp, rfl⟩

/-- A path that is still to be deleted is valid. -/
theorem MidDeletion.mem_valid {done : List Path} (h : MidDeletion env g disk s done s')
    (hx : x ∈ s.db.graph.valid) (hxg : x ∈ g.valid) (hdone : x ∉ done) : x ∈ s'.db.graph.valid := by
  refine (mem_removed_or_valid hxg).resolve_left fun hr => ?_
  rw [h.removed_eq] at hr
  exact hr.elim (fun hr => hr.2 hx) hdone

/-- One more path is deleted. -/
theorem MidDeletion.step (hrun : DeletingRun env g disk) {done : List Path} {s'' : GCState}
    (h : MidDeletion env g disk s done s') (hi : i ∈ g.valid) (hdel : Deleted env i s' s'') :
    i ∈ s'.db.graph.valid ∧ MidDeletion env g disk s (done ++ [i]) s'' := by
  obtain ⟨hival, hstate, hremoved⟩ :=
    h.state.step hrun.names hi (hdel.vanished hrun.shouldDelete)
  refine ⟨hival, hstate, ?_, hdel.live.trans h.live⟩
  ext x
  simp only [hremoved, h.removed_eq, Set.mem_union, Set.mem_ofPred_eq, Set.mem_singleton_iff,
    List.mem_append, List.mem_singleton, or_assoc]

/-- The state after the deletion loop. -/
theorem MidDeletion.shrunkState {l : List Path} {paths : PathSet}
    (hs' : MidDeletion env g disk s l s') (hmem : ∀ x, x ∈ l ↔ x ∈ paths)
    (hclosed : g.KeepClosed env.keep (removed g s ∪ {x | x ∈ paths})) :
    ShrunkState env g disk s' ∧ removed g s' = removed g s ∪ {x | x ∈ paths} ∧
      s'.live = s.live := by
  have hremoved : removed g s' = removed g s ∪ {x | x ∈ paths} := by
    rw [hs'.removed_eq]
    simp only [hmem]
  exact ⟨⟨hs'.state, hremoved ▸ hclosed⟩, hremoved, hs'.live⟩

/-- Whole components without outside referrers are deleted without an exception but the limit. -/
theorem deletePaths_shrinks (hrun : DeletingRun env g disk) (h : ShrunkState env g disk s)
    (paths : PathSet) (hvalid : ∀ x ∈ paths, x ∈ s.db.graph.valid)
    (hrefs : ∀ u x, x ∈ paths → s.db.graph.refers u x → u ∈ paths)
    (hclosed : g.KeepClosed env.keep (removed g s ∪ {x | x ∈ paths})) (st : StoreEntry) :
    Prog.Ends (deletePaths env st paths) s
      (fun _ s' => ShrunkState env g disk s' ∧ removed g s' = removed g s ∪ {x | x ∈ paths} ∧
        s'.live = s.live)
      fun e s' => Limited env e ∧ LooseState env g disk s' := by
  refine (ends_deletePaths (I := MidDeletion env g disk s)
    (Or.inl (topoSortPaths_isOk h.wellFormed (h.acyclic hrun) paths))
    (.init h.toLooseState) ?_).mono (fun _ s' ⟨l, hmem, hs'⟩ => hs'.shrunkState hmem hclosed)
    fun _ _ => id
  intro l hmem hnd hfollow done i rest s' hl hs'
  have hi : i ∈ paths := (hmem i).mp (by simp [hl])
  have hig := h.mem_initial (hvalid i hi)
  have hival := hs'.mem_valid (hvalid i hi) hig (notMem_done hnd hl)
  have hremovable : Removable env s' i := by
    refine ⟨hs'.state.onDisk hrun i hival, fun _ => hrun.storePaths i hig, ?_,
      fun _ => hs'.state.fresh hrun.names hival⟩
    -- another referrer is in `paths` and has been deleted before `i`
    intro u hui
    by_contra hne
    have huval := (s'.db.graph.mem_valid_of_refers hui).1
    have hui' : s.db.graph.refers u i := by
      rw [hs'.state.graph, hs'.removed_eq] at hui
      rw [h.graph]
      exact ⟨hui.1, fun hu => hui.2.1 (Or.inl hu), fun hi => hui.2.2 (Or.inl hi)⟩
    have hu : u ∈ paths := hrefs u i hi hui'
    have hfol : FollowedRef s.db.references paths u i :=
      ⟨(Database.mem_references_iff h.wellFormed).mpr hui', fun hiu => hne hiu.symm, hi⟩
    rw [hl] at hfollow hnd
    have hdone := hfollow.mem_before hnd u (hl ▸ (hmem u).mpr hu) hfol
    have hur : u ∈ removed g s' := by
      rw [hs'.removed_eq]
      exact Or.inr hdone
    exact hur.2 huval
  refine (deletePath_ends hs'.state.wellFormed hremovable hrun.shouldDelete st).mono
    (fun _ s'' hdel => (hs'.step hrun hig hdel).2) ?_
  exact fun e s'' he => ⟨he.1, (hs'.state.step hrun.names hig he.2).2.1⟩

/-! ### Calls on valid paths -/

/-- How a call on a valid path ends; what a run has removed is not on disk. -/
theorem ends_tryToDelete_valid (hrun : DeletingRun env g disk) (hs : ShrunkState env g disk s) {n : ℕ}
    {path : Path} (hpath : path ∈ g.valid) {Q : Bool → GCState → Prop} {E : GCStop → GCState → Prop}
    (hgone : path ∈ removed g s → Q true s) (hlive : path ∈ s.live → Q false s)
    (hroot : ∀ paths, (∀ q, q ∈ paths ↔ q ∈ g.Component env.keep path ∧ q ∉ removed g s) →
      (∃ i ∈ paths, i ∈ env.roots) → Q false (markLive env paths s))
    (hrefs : ∀ st paths referrers, path ∈ s.db.graph.valid → disk.find? path = some st →
      (∀ q, q ∈ paths ↔ q ∈ g.Component env.keep path ∧ q ∉ removed g s) →
      (∀ i ∈ paths, i ∉ env.roots) →
      (∀ y, y ∈ referrers ↔ (y ∉ removed g s ∧ y ∉ paths) ∧ ∃ x ∈ paths, g.refers y x) →
      Prog.Ends (Prog.all (tryToDelete env n) referrers) s
        (fun b s' => if b then Prog.Ends (deletePaths env st paths) s' (fun _ => Q true) E
          else Q false (markLive env paths s')) E) :
    Prog.Ends (tryToDelete env (n + 1) path) s Q E := by
  have hcomp : ∀ {paths}, path ∈ s.disk → PathsOf env s.db.graph path paths →
      path ∈ s.db.graph.valid ∧
        ∀ q, q ∈ paths ↔ q ∈ g.Component env.keep path ∧ q ∉ removed g s := by
    intro paths hdisk hpaths
    have hval := hs.mem_valid hpath hdisk
    refine ⟨hval, fun q => ?_⟩
    rcases hpaths with ⟨-, hcomp⟩ | ⟨hinval, -⟩
    · rw [hcomp, hs.mem_component_iff hval]
    · exact absurd hval hinval
  refine ends_tryToDelete hs.wellFormed ?_ ?_ ?_ ?_ ?_
  · rintro (rfl | hoff | hdel)
    · exact absurd hpath hrun.notLinks
    · exact hgone ⟨hpath, fun hval => hoff (hs.onDisk hrun path hval)⟩
    · exact hgone (hs.deleted path hdel hpath)
  · rintro hdisk (hcached | hinval)
    · exact hlive hcached
    · exact absurd (hs.mem_valid hpath hdisk) hinval.1
  · exact fun hbad => absurd (hs.storePathsOnly hrun) hbad
  · exact fun paths hdisk hpaths => hroot paths (hcomp hdisk hpaths).2
  · intro st paths referrers _ hfind _ _ _ hpaths hnoroot hmem
    obtain ⟨hval, hspec⟩ := hcomp (mem_disk_of_find? hfind) hpaths
    refine hrefs st paths referrers hval ((hs.entries path hval).symm.trans hfind) hspec hnoroot
      fun y => ?_
    rw [hmem, hs.graph]
    constructor
    · rintro ⟨hyp, x, hx, hyx, hyr, -⟩
      exact ⟨⟨hyr, hyp⟩, x, hx, hyx⟩
    · rintro ⟨⟨hyr, hyp⟩, x, hx, hyx⟩
      exact ⟨hyp, x, hx, hyx, hyr, ((hspec x).mp hx).2⟩

/-- The referrers that a call looks at depend on the path. -/
theorem dependsOn_of_mem_referrers {path y : Path} {paths : PathSet} {referrers : List Path}
    (hspec : ∀ q, q ∈ paths ↔ q ∈ g.Component env.keep path ∧ q ∉ removed g s)
    (hmem : ∀ y, y ∈ referrers ↔ (y ∉ removed g s ∧ y ∉ paths) ∧ ∃ x ∈ paths, g.refers y x)
    (hy : y ∈ referrers) : g.DependsOn env.keep path y := by
  obtain ⟨⟨hyr, hyp⟩, x, hx, hyx⟩ := (hmem y).mp hy
  exact ⟨fun hyc => hyp ((hspec y).mpr ⟨hyc, hyr⟩), x, ((hspec x).mp hx).1, hyx⟩

/-- If all referrers have been removed, those outside of `paths` have. -/
theorem removed_of_refers {x y : Path} {paths : PathSet} {referrers : List Path}
    (hmem : ∀ y, y ∈ referrers ↔ (y ∉ removed g s ∧ y ∉ paths) ∧ ∃ x ∈ paths, g.refers y x)
    (hless : removed g s ⊆ removed g s') (hgone : ∀ y ∈ referrers, y ∈ removed g s')
    (hx : x ∈ paths) (hyx : g.refers y x) : y ∈ removed g s' ∨ y ∈ paths := by
  by_cases hyr : y ∈ removed g s
  · exact Or.inl (hless hyr)
  by_cases hyp : y ∈ paths
  · exact Or.inr hyp
  · exact Or.inl (hgone y ((hmem y).mpr ⟨⟨hyr, hyp⟩, x, hx, hyx⟩))

/-! ### Calls on other entries -/

/-- What a call on an entry that never was a valid path can change. -/
structure SameStore (env : GCEnv) (g : StoreGraph) (disk : SortedMap Path StoreEntry)
    (s s' : GCState) : Prop where
  state : ShrunkState env g disk s'
  graph : s'.db.graph = s.db.graph
  invalidated : s'.invalidated = s.invalidated
  live : ∀ q ∈ s'.live, q ∈ s.live ∨ q ∉ g.valid ∧ q ∈ env.roots

/-- A state has its own store. -/
theorem SameStore.refl (h : ShrunkState env g disk s) : SameStore env g disk s s :=
  ⟨h, rfl, rfl, fun _ => Or.inl⟩

/-- States with the same store. -/
theorem SameStore.trans {s'' : GCState} (h : SameStore env g disk s s')
    (h' : SameStore env g disk s' s'') : SameStore env g disk s s'' :=
  ⟨h'.state, h'.graph.trans h.graph, h'.invalidated.trans h.invalidated, fun q hq =>
    (h'.live q hq).elim (h.live q) Or.inr⟩

/-- A call on an entry that is not a valid path leaves the store alone. -/
theorem tryToDelete_other (hrun : DeletingRun env g disk) {path : Path} (hpath : path ∉ g.valid)
    (hinv : path ∉ s.invalidated) (hs : ShrunkState env g disk s) (n : ℕ) :
    Prog.Ends (tryToDelete env n path) s (fun _ => SameStore env g disk s)
      fun e s' => n = 0 ∧ e = .outOfFuel ∨ Limited env e ∧ LooseState env g disk s' := by
  have hinval : path ∉ s.db.graph.valid := fun hval => hpath (hs.mem_initial hval)
  have hself : ∀ {paths}, PathsOf env s.db.graph path paths → ∀ q, q ∈ paths ↔ q = path := by
    rintro paths (⟨hval, -⟩ | ⟨-, hself⟩)
    · exact absurd hval hinval
    · exact hself
  cases n with
  | zero => exact Prog.ends_throw (Or.inl ⟨rfl, rfl⟩)
  | succ n =>
    refine ends_tryToDelete hs.wellFormed (fun _ => .refl hs) (fun _ _ => .refl hs)
      (fun hbad => absurd (hs.storePathsOnly hrun) hbad) ?_ ?_
    · rintro paths - hpaths ⟨i, hi, hr⟩
      have hmem := hself hpaths
      obtain rfl := (hmem i).mp hi
      refine ⟨hs.markLive paths, rfl, rfl, fun q hq => ?_⟩
      rcases SortedSet.mem_foldl_insert.mp hq with hq | hq
      · obtain rfl := (hmem q).mp hq
        exact Or.inr ⟨hpath, hr⟩
      · exact Or.inl hq
    · intro st paths referrers _ hfind _ _ _ hpaths _ hmem
      have hpathsmem := hself hpaths
      have hnone : ∀ y, y ∉ referrers := fun y hy => by
        obtain ⟨-, x, hx, hyx⟩ := (hmem y).mp hy
        rw [(hpathsmem x).mp hx] at hyx
        exact hinval (s.db.graph.mem_valid_of_refers hyx).2
      obtain rfl : referrers = [] := List.eq_nil_iff_forall_not_mem.mpr hnone
      refine (ends_deletePaths (I := fun done s' => SameStore env g disk s s' ∧
        (path ∉ done → s' = s))
        (Or.inl (topoSortPaths_isOk hs.wellFormed (hs.acyclic hrun) paths))
        ⟨.refl hs, fun _ => rfl⟩ ?_).mono (fun _ s' hs' => ?_) fun _ _ => id
      · rintro l hlmem hnd - done i rest s' hl ⟨-, hsame⟩
        obtain rfl : i = path := (hpathsmem i).mp ((hlmem i).mp (by simp [hl]))
        obtain rfl := hsame (notMem_done hnd hl)
        have hremovable : Removable env s' i :=
          ⟨mem_disk_of_find? hfind, fun hval => absurd hval hinval,
            fun u hu => absurd (s'.db.graph.mem_valid_of_refers hu).2 hinval,
            fun hval => absurd hval hinval⟩
        refine (deletePath_ends hs.wellFormed hremovable hrun.shouldDelete st).mono ?_ ?_
        · intro _ s'' hdel
          obtain ⟨hgraph, hsameinv, hstate⟩ :=
            hs.step_other hpath hinv (hdel.vanished hrun.shouldDelete)
          refine ⟨⟨⟨hstate, ?_⟩, hgraph, hsameinv, fun q hq => Or.inl (hdel.live ▸ hq)⟩,
            fun hnot => absurd (by simp) hnot⟩
          exact (removed_eq_of_graph_eq hgraph) ▸ hs.keepClosed
        · exact fun e s'' he => Or.inr ⟨he.1, (hs.step_other hpath hinv he.2).2.2⟩
      · obtain ⟨l, -, hs', -⟩ := hs'
        exact hs'

/-- Reading the store directory deletes entries that are no valid paths and collects the others. -/
theorem readEntries_spec (hrun : DeletingRun env g disk) (fuel : ℕ) (dirents : List Path) :
    ∀ (entries : List Path) (s : GCState), ShrunkState env g disk s → s.db.graph = g →
      (∀ p, p ∉ s.invalidated) →
      Prog.Ends (readEntries env fuel dirents entries) s
        (fun es s' => SameStore env g disk s s' ∧
          ∀ p, p ∈ es ↔ p ∈ entries ∨ p ∈ dirents ∧ p ∈ g.valid)
        fun e s' => fuel = 0 ∧ e = .outOfFuel ∨ Limited env e ∧ LooseState env g disk s' := by
  induction dirents with
  | nil => exact fun entries s hs _ _ => Prog.ends_pure ⟨.refl hs, by simp⟩
  | cons path rest ih =>
    intro entries s hs hgraph hinv
    refine Prog.Ends.bind (Q := fun es s' => SameStore env g disk s s' ∧
      ∀ p, p ∈ es ↔ p ∈ entries ∨ p = path ∧ p ∈ g.valid) (E := fun e s' =>
        fuel = 0 ∧ e = .outOfFuel ∨ Limited env e ∧ LooseState env g disk s') ?_ ?_ fun _ _ => id
    · refine Prog.ends_get_bind ?_
      split_ifs with hval
      · have hpath : path ∈ g.valid := hs.mem_initial (Database.isValidPath_iff.mp hval)
        refine ⟨.refl hs, fun p => ?_⟩
        rw [List.mem_append, List.mem_singleton]
        exact or_congr_right ⟨fun h => ⟨h, h ▸ hpath⟩, fun h => h.1⟩
      · have hpath : path ∉ g.valid := fun h => hval (Database.isValidPath_iff.mpr (hgraph ▸ h))
        refine (tryToDelete_other hrun hpath (hinv path) hs fuel).bind (fun _ s' hs' => ?_)
          fun _ _ => id
        refine ⟨hs', fun p => ?_⟩
        rw [or_iff_left]
        rintro ⟨rfl, hp⟩
        exact hpath hp
    · rintro es s' ⟨hs', hes⟩
      refine (ih es s' hs'.state (hs'.graph.trans hgraph) (hs'.invalidated ▸ hinv)).mono ?_
        fun _ _ => id
      rintro es' s'' ⟨hs'', hes'⟩
      refine ⟨hs'.trans hs'', fun p => ?_⟩
      rw [hes', hes, List.mem_cons]
      tauto

end Nix
