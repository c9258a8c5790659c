import NixStore.Store.GcSteps

/-!
# Termination of the garbage collector

`tryToDelete` recurses from a path to the paths that refer to its component and keeps no record of
the paths it is considering.  It terminates on every input if the dependencies between the components
that contain no root have no cycle.  The database only loses whole components without roots between
calls, so no new dependencies appear.  Conversely, if components are symmetric, a cycle of dependencies
makes the recursion endless for some roots.
-/

namespace Nix

open Relation

/-- What holds between two calls of a run that started with the graph `g`: whole components without
roots are gone. -/
structure WholeComponents (env : GCEnv) (g : StoreGraph) (s : GCState) : Prop where
  wellFormed : s.db.WellFormed
  shrunk : ∃ D : Set Path, s.db.graph = g.without D ∧ g.KeepClosed env.keep D ∧ ∀ x ∈ D, x ∉ env.roots

variable {env : GCEnv} {g : StoreGraph} {s s' : GCState}

/-- Marking keeps components whole. -/
theorem WholeComponents.markLive (h : WholeComponents env g s) (paths : PathSet) :
    WholeComponents env g (markLive env paths s) :=
  ⟨h.wellFormed, h.shrunk⟩

/-- A removed path that was considered first stays removed. -/
theorem mem_of_without_eq {g : StoreGraph} {D D' : Set Path}
    (h : (g.without D').valid ⊆ (g.without D).valid) {x : Path} (hx : x ∈ g.valid) (hxD : x ∈ D) :
    x ∈ D' := by
  by_contra hxD'
  exact (h ⟨hx, hxD'⟩).2 hxD

/-- The deletion loop removes what is left of a component. -/
theorem deletePaths_wholeComponents (hac : g.Acyclic) {path : Path} {paths : PathSet}
    (hs : WholeComponents env g s) (hpaths : PathsOf env s.db.graph path paths)
    (hnoroot : ∀ i ∈ paths, i ∉ env.roots) (hs' : WholeComponents env g s')
    (hless : s'.db.graph.valid ⊆ s.db.graph.valid) (st : StoreEntry) :
    Prog.Ends (deletePaths env st paths) s'
      (fun _ s'' => WholeComponents env g s'' ∧ s''.db.graph.valid ⊆ s.db.graph.valid)
      fun e _ => e ≠ .outOfFuel := by
  obtain ⟨D, hgraph, hD, hDroots⟩ := hs.shrunk
  obtain ⟨D', hgraph', hD', hDroots'⟩ := hs'.shrunk
  have hac' : s'.db.graph.Acyclic := hgraph' ▸ hac.without D'
  refine (deletePaths_spec hs'.wellFormed hac' st paths).mono (fun _ s'' hs'' => ?_)
    fun _ _ he => he.ne_outOfFuel
  obtain ⟨hwf, hdel, hsame⟩ := hs''
  cases hshould : shouldDelete env.options.action with
  | false => exact ⟨⟨hwf, D', by rw [hsame hshould, hgraph'], hD', hDroots'⟩, by rwa [hsame hshould]⟩
  | true =>
    have hgraph'' := hdel hshould
    refine ⟨⟨hwf, ?_⟩, fun p hp => hless (by rw [hgraph''] at hp; exact hp.1)⟩
    rcases hpaths with ⟨hval, hcomp⟩ | ⟨hinval, hself⟩
    · -- what was gone from the component before is still gone
      rw [hgraph] at hval hcomp
      refine ⟨D' ∪ g.Component env.keep path, ?_, hD'.union_component, fun x hx => ?_⟩
      swap
      · rcases hx with hx | hx
        · exact hDroots' x hx
        by_cases hxD : x ∈ D
        · exact hDroots x hxD
        · refine hnoroot x ((hcomp x).mpr ?_)
          rw [hD.component_without hval.2]
          exact ⟨hx, hxD⟩
      rw [hgraph'', hgraph', StoreGraph.without_without]
      have hvalid : ∀ x ∈ g.Component env.keep path, x ∈ g.valid := fun x hx =>
        StoreGraph.mem_valid_of_mem_component hval.1 hx
      congr 1
      ext x
      simp only [Set.mem_union, Set.mem_ofPred_eq, hcomp, hD.component_without hval.2,
        Set.mem_sdiff]
      constructor
      · rintro (hx | ⟨hx, -⟩)
        · exact Or.inl hx
        · exact Or.inr hx
      · rintro (hx | hx)
        · exact Or.inl hx
        · by_cases hxD : x ∈ D
          · exact Or.inl (mem_of_without_eq (by rwa [← hgraph, ← hgraph']) (hvalid x hx) hxD)
          · exact Or.inr ⟨hx, hxD⟩
    · refine ⟨D', ?_, hD', hDroots'⟩
      have hset : {x | x ∈ paths} = {path} := by
        ext x
        simp [hself]
      rw [hgraph'', hset, StoreGraph.without_singleton_of_notMem fun h => hinval (hless h), hgraph']

/-- How a call ends if all calls on dependencies of a component without roots end. -/
theorem tryToDelete_ends_of_dependsOn (hac : g.Acyclic) {n : ℕ} {path : Path}
    (ih : ∀ y, (g.DependsOn env.keep path y ∧ ∀ x ∈ g.Component env.keep path, x ∉ env.roots) →
      ∀ s, WholeComponents env g s →
      Prog.Ends (tryToDelete env n y) s
        (fun _ s' => WholeComponents env g s' ∧ s'.db.graph.valid ⊆ s.db.graph.valid)
        fun e _ => e ≠ .outOfFuel) (s : GCState) (hs : WholeComponents env g s) :
    Prog.Ends (tryToDelete env (n + 1) path) s
      (fun _ s' => WholeComponents env g s' ∧ s'.db.graph.valid ⊆ s.db.graph.valid)
      fun e _ => e ≠ .outOfFuel := by
  refine ends_tryToDelete hs.wellFormed (fun _ => ⟨hs, subset_rfl⟩) (fun _ _ => ⟨hs, subset_rfl⟩)
    (fun _ _ => by simp) (fun paths _ _ _ => ⟨hs.markLive paths, subset_rfl⟩) ?_
  intro st paths referrers _ _ _ _ _ hpaths hnoroot hmem
  obtain ⟨D, hgraph, hD, hDroots⟩ := hs.shrunk
  refine (Prog.Ends.all (I := fun _ s' => WholeComponents env g s' ∧
      s'.db.graph.valid ⊆ s.db.graph.valid) (F := fun _ s' => WholeComponents env g s' ∧
      s'.db.graph.valid ⊆ s.db.graph.valid) referrers ?_ ⟨hs, subset_rfl⟩).mono ?_ fun _ _ => id
  · rintro done y rest s' hl ⟨hs', hless⟩
    obtain ⟨hy, x, hx, hyx⟩ := (hmem y).mp (by simp [hl])
    have hdep : g.DependsOn env.keep path y ∧ ∀ x ∈ g.Component env.keep path, x ∉ env.roots := by
      rcases hpaths with ⟨hval, hcomp⟩ | ⟨hinval, hself⟩
      · rw [hgraph] at hval hcomp hyx
        refine ⟨hD.dependsOn_of_without hval.2
          ⟨fun h => hy ((hcomp y).mpr h), x, (hcomp x).mp hx, hyx⟩, fun z hz => ?_⟩
        by_cases hzD : z ∈ D
        · exact hDroots z hzD
        · refine hnoroot z ((hcomp z).mpr ?_)
          rw [hD.component_without hval.2]
          exact ⟨hz, hzD⟩
      · rw [(hself x).mp hx] at hyx
        exact absurd (s.db.graph.mem_valid_of_refers hyx).2 hinval
    refine (ih y hdep s' hs').mono (fun b s'' hs'' => ?_) fun _ _ => id
    have hpost := And.intro hs''.1 (hs''.2.trans hless)
    split_ifs <;> exact hpost
  · intro b s' hs'
    cases b with
    | true => exact deletePaths_wholeComponents hac hs hpaths hnoroot hs'.1 hs'.2 st
    | false =>
      obtain ⟨_, -, hs', hless⟩ := hs'
      exact ⟨hs'.markLive paths, hless⟩

/-- One bound on the depth is enough for all paths and all states of a run. -/
theorem exists_fuel (env : GCEnv) (hfin : g.valid.Finite) (hac : g.Acyclic)
    (hcomp : g.RootlessAcyclic env.keep {r | r ∈ env.roots}) :
    ∃ N, ∀ n ≥ N, ∀ path s, WholeComponents env g s →
      Prog.Ends (tryToDelete env n path) s
        (fun _ s' => WholeComponents env g s' ∧ s'.db.graph.valid ⊆ s.db.graph.valid)
        fun e _ => e ≠ .outOfFuel := by
  have hwf := wellFounded_of_acyclic hfin (fun _ _ h => StoreGraph.dependsOn_mem_valid h.1) hcomp
  -- a bound for one path from bounds for its dependencies, which are finitely many
  have hbound : ∀ path, ∃ N, ∀ n ≥ N, ∀ s, WholeComponents env g s →
      Prog.Ends (tryToDelete env n path) s
        (fun _ s' => WholeComponents env g s' ∧ s'.db.graph.valid ⊆ s.db.graph.valid)
        fun e _ => e ≠ .outOfFuel := by
    intro path
    induction path using hwf.induction with
    | _ path ih =>
      choose! N hN using ih
      refine ⟨hfin.toFinset.sup N + 1, fun n hn => ?_⟩
      obtain ⟨m, rfl⟩ : ∃ m, n = m + 1 := ⟨n - 1, by omega⟩
      refine tryToDelete_ends_of_dependsOn hac fun y hy => hN y hy m ?_
      have hy' : y ∈ hfin.toFinset := hfin.mem_toFinset.mpr (StoreGraph.dependsOn_mem_valid hy.1)
      have := Finset.le_sup (f := N) hy'
      omega
  choose N hN using hbound
  refine ⟨hfin.toFinset.sup N + 1, fun n hn path => ?_⟩
  obtain ⟨m, rfl⟩ : ∃ m, n = m + 1 := ⟨n - 1, by omega⟩
  refine tryToDelete_ends_of_dependsOn hac fun y hy => hN y m ?_
  have hy' : y ∈ hfin.toFinset := hfin.mem_toFinset.mpr (StoreGraph.dependsOn_mem_valid hy.1)
  have := Finset.le_sup (f := N) hy'
  omega

/-- A database has finitely many valid paths. -/
theorem finite_valid (db : Database) : db.graph.valid.Finite :=
  (db.validPaths.map ValidPathRow.path).finite_toSet.subset fun _ ⟨r, hr, hrp⟩ =>
    List.mem_map.mpr ⟨r, hr, hrp⟩

/-- At first every component is whole. -/
theorem wholeComponents_init {db : Database} (hwf : db.WellFormed)
    (disk : SortedMap Path StoreEntry) : WholeComponents env db.graph (GCState.init db disk) :=
  ⟨hwf, ∅, by simp [GCState.init], StoreGraph.keepClosed_empty, by simp⟩

/-! ### Cycles of dependencies -/

/-- A path from which a cycle of dependencies can be reached. -/
def LeadsToCycle (g : StoreGraph) (k : KeepFlags) (p : Path) : Prop :=
  p ∈ g.valid ∧ ∃ c, ReflTransGen (g.DependsOn k) p c ∧ TransGen (g.DependsOn k) c c

/-- A path that leads to a cycle depends on one that does. -/
theorem LeadsToCycle.exists_next {k : KeepFlags} {p : Path} (h : LeadsToCycle g k p) :
    ∃ q, g.DependsOn k p q ∧ LeadsToCycle g k q := by
  obtain ⟨-, c, hpc, hcc⟩ := h
  have hpc' : TransGen (g.DependsOn k) p c := TransGen.trans_right hpc hcc
  obtain ⟨q, hpq, hqc⟩ := TransGen.head'_iff.mp hpc'
  exact ⟨q, hpq, StoreGraph.dependsOn_mem_valid hpq, c, hqc, hcc⟩

/-- When components are symmetric, all members of one lead to the cycle. -/
theorem LeadsToCycle.of_mem_component {k : KeepFlags} (hsym : g.ComponentsSymmetric k) {p q : Path}
    (hp : p ∈ g.valid) (hq : q ∈ g.Component k p) (h : LeadsToCycle g k q) : LeadsToCycle g k p := by
  obtain ⟨y, hy, -, c, hyc, hcc⟩ := h.exists_next
  exact ⟨hp, c, .head ((hsym.dependsOn_iff hp hq).mp hy) hyc, hcc⟩

/-- The states of a run that only asks what is dead, without any roots. -/
structure AskingState (env : GCEnv) (db : Database) (disk : SortedMap Path StoreEntry)
    (s : GCState) : Prop where
  db_eq : s.db = db
  disk_eq : s.disk = disk
  live : ∀ p, p ∉ s.live
  deleted : ∀ p ∈ s.deleted, ¬ LeadsToCycle db.graph env.keep p

/-- Asking about paths changes nothing. -/
theorem AskingState.deletePaths {db : Database} {disk : SortedMap Path StoreEntry}
    (hwf : db.WellFormed) (hac : db.graph.Acyclic) (hask : env.options.action = .gcReturnDead)
    (hs : AskingState env db disk s) {st : StoreEntry} {paths : PathSet}
    (hpaths : ∀ p ∈ paths, ¬ LeadsToCycle db.graph env.keep p) :
    Prog.Ends (deletePaths env st paths) s (fun _ => AskingState env db disk)
      fun e _ => e = .outOfFuel := by
  have hsort : ∃ l, topoSortPaths s.db.references paths = .ok l := by
    rw [hs.db_eq]
    exact topoSortPaths_isOk hwf hac paths
  refine (ends_deletePaths (I := fun _ => AskingState env db disk) (Or.inl hsort) hs ?_).mono
    (fun _ s' hs' => by obtain ⟨l, -, hs'⟩ := hs'; exact hs') fun _ _ => id
  intro l hmem _ _ done i rest s' hl hs'
  rw [deletePath, shouldDelete, hask]
  refine Prog.ends_modify ⟨hs'.db_eq, hs'.disk_eq, hs'.live, fun p hp => ?_⟩
  rcases SortedSet.mem_insert.mp hp with rfl | hp
  · exact hpaths p ((hmem p).mp (by simp [hl]))
  · exact hs'.deleted p hp

/-- Without roots, a call that only asks comes back only from paths that lead to no cycle. -/
theorem tryToDelete_outOfFuel (env : GCEnv) {db : Database} {disk : SortedMap Path StoreEntry}
    (hwf : db.WellFormed) (hac : db.graph.Acyclic) (hstore : db.StorePathsOnly env.cfg)
    (hdisk : ∀ p ∈ db.graph.valid, p ∈ disk) (hlinks : linksDir env.cfg ∉ db.graph.valid)
    (hsym : db.graph.ComponentsSymmetric env.keep) (hask : env.options.action = .gcReturnDead)
    (hroots : ∀ p, p ∉ env.roots) :
    ∀ (n : ℕ) (path : Path) (s : GCState), path ∈ db.graph.valid → AskingState env db disk s →
      Prog.Ends (tryToDelete env n path) s
        (fun b s' => b = true ∧ AskingState env db disk s' ∧ ¬ LeadsToCycle db.graph env.keep path)
        fun e _ => e = .outOfFuel := by
  intro n
  induction n with
  | zero => exact fun _ _ _ _ => Prog.ends_throw rfl
  | succ n ih =>
    intro path s hpath hs
    refine ends_tryToDelete (hs.db_eq ▸ hwf) ?_ ?_ ?_ ?_ ?_
    · rintro (rfl | hgone | hdel)
      · exact absurd hpath hlinks
      · exact absurd (hs.disk_eq ▸ hdisk path hpath) hgone
      · exact ⟨rfl, hs, hs.deleted path hdel⟩
    · rintro - (hlive | hinval)
      · exact absurd hlive (hs.live path)
      · exact absurd (hs.db_eq ▸ hpath) hinval.1
    · exact fun hbad => absurd (hs.db_eq ▸ hstore) hbad
    · rintro paths - - ⟨i, -, hi⟩
      exact absurd hi (hroots i)
    · intro st paths referrers _ _ _ _ _ hpaths _ hmem
      rw [hs.db_eq] at hpaths hmem
      have hcomp : ∀ q, q ∈ paths ↔ q ∈ db.graph.Component env.keep path := by
        rcases hpaths with ⟨-, hcomp⟩ | ⟨hinval, -⟩
        · exact hcomp
        · exact absurd hpath hinval
      refine (Prog.Ends.all (I := fun done s' => AskingState env db disk s' ∧
        ∀ y ∈ done, ¬ LeadsToCycle db.graph env.keep y) (F := fun _ _ => False)
        referrers ?_ ⟨hs, by simp⟩).mono ?_ fun _ _ => id
      · rintro done y rest s' hl ⟨hs', hdone⟩
        obtain ⟨-, x, -, hyx⟩ := (hmem y).mp (by simp [hl])
        refine (ih y s' (db.graph.mem_valid_of_refers hyx).1 hs').mono ?_ fun _ _ => id
        rintro b s'' ⟨rfl, hs'', hy⟩
        refine ⟨hs'', fun z hz => ?_⟩
        rcases List.mem_append.mp hz with hz | hz
        · exact hdone z hz
        · rwa [List.mem_singleton.mp hz]
      · intro b s' hs'
        cases b with
        | false =>
          obtain ⟨_, -, hfalse⟩ := hs'
          exact hfalse.elim
        | true =>
          obtain ⟨hs', hrefs⟩ := hs'
          have hnot : ¬ LeadsToCycle db.graph env.keep path := by
            intro hbad
            obtain ⟨y, ⟨hyc, x, hx, hyx⟩, hy⟩ := hbad.exists_next
            exact hrefs y ((hmem y).mpr ⟨fun h => hyc ((hcomp y).mp h), x, (hcomp x).mpr hx, hyx⟩) hy
          have hall : ∀ p ∈ paths, ¬ LeadsToCycle db.graph env.keep p := fun p hp hbad =>
            hnot (hbad.of_mem_component hsym hpath ((hcomp p).mp hp))
          exact (hs'.deletePaths hwf hac hask hall).mono (fun _ s'' hs'' => ⟨rfl, hs'', hnot⟩)
            fun _ _ => id

/-! ### When the recursion terminates -/

/-- A deep enough recursion is enough for the call. -/
def Terminates (env : GCEnv) (path : Path) (s : GCState) : Prop :=
  ∃ N, ∀ n ≥ N, (tryToDelete env n path s).1 ≠ .error .outOfFuel

/-- A run that ends has not used up its fuel. -/
theorem ne_outOfFuel_of_ends {α : Type} {m : GCM α} {Q : α → GCState → Prop}
    (h : Prog.Ends m s Q fun e _ => e ≠ .outOfFuel) : (m s).1 ≠ .error .outOfFuel := by
  intro hm
  exact h.of_error (Prod.ext hm rfl) rfl

/-- A store of which only the dead paths are asked for, without any roots. -/
def askDead (cfg : StoreConfig) (keep : KeepFlags) : GCEnv :=
  ⟨cfg, { GCOptions.default with action := .gcReturnDead }, ∅, ∅, keep, str "1", fun _ => false⟩

/-- Where the collector always returns and components are symmetric, none lies on a cycle. -/
theorem componentsAcyclic_of_terminates {cfg : StoreConfig} (keep : KeepFlags) {db : Database}
    {disk : SortedMap Path StoreEntry} (hwf : db.WellFormed) (hac : db.graph.Acyclic)
    (hstore : db.StorePathsOnly cfg) (hdisk : ∀ p ∈ db.graph.valid, p ∈ disk)
    (hlinks : linksDir cfg ∉ db.graph.valid) (hsym : db.graph.ComponentsSymmetric keep)
    (h : ∀ path ∈ db.graph.valid, Terminates (askDead cfg keep) path (GCState.init db disk)) :
    db.graph.ComponentsAcyclic keep := by
  intro p hp
  have hpval : p ∈ db.graph.valid := by
    obtain ⟨q, -, hqp⟩ := TransGen.tail'_iff.mp hp
    exact StoreGraph.dependsOn_mem_valid hqp
  obtain ⟨N, hN⟩ := h p hpval
  have hend := tryToDelete_outOfFuel (askDead cfg keep) hwf hac hstore hdisk hlinks hsym rfl
    (by simp [askDead]) N p (GCState.init db disk) hpval ⟨rfl, rfl, by simp [GCState.init],
      by simp [GCState.init]⟩
  rcases hres : tryToDelete (askDead cfg keep) N p (GCState.init db disk) with ⟨e | b, s'⟩
  · exact hN N le_rfl (by rw [hres, hend.of_error hres])
  · exact (hend.of_ok hres).2.2 ⟨hpval, p, .refl, hp⟩

/-- If the dependencies between the components without roots have no cycle, `tryToDelete` terminates on
every path. -/
theorem terminates_of_rootlessAcyclic (env : GCEnv) {db : Database} (disk : SortedMap Path StoreEntry)
    (hwf : db.WellFormed) (hac : db.graph.Acyclic)
    (hcomp : db.graph.RootlessAcyclic env.keep {r | r ∈ env.roots}) (path : Path) :
    Terminates env path (GCState.init db disk) := by
  obtain ⟨N, hN⟩ := exists_fuel env (finite_valid db) hac hcomp
  exact ⟨N, fun n hn => ne_outOfFuel_of_ends (hN n hn path _ (wholeComponents_init hwf disk))⟩

/-- So does every run of the collector. -/
theorem collectGarbage_terminates (settings : GCSettings) (options : GCOptions)
    (permRoots tempRoots : PathSet) {db : Database} (disk : SortedMap Path StoreEntry)
    (hwf : db.WellFormed) (hac : db.graph.Acyclic)
    (hcomp : db.graph.RootlessAcyclic (gcEnv settings options permRoots tempRoots).keep
      {r | r ∈ (gcEnv settings options permRoots tempRoots).roots}) :
    ∃ N, ∀ fuel ≥ N, ∀ dirents shuffle,
      (collectGarbage settings options permRoots tempRoots fuel dirents shuffle
        (GCState.init db disk)).1 ≠ .error .outOfFuel := by
  obtain ⟨N, hN⟩ := exists_fuel (gcEnv settings options permRoots tempRoots) (finite_valid db) hac hcomp
  refine ⟨N, fun fuel hfuel dirents shuffle => ?_⟩
  have hlocked := ends_collectUnderLock fuel dirents shuffle
    (I := WholeComponents (gcEnv settings options permRoots tempRoots) db.graph)
    (fun p s hs => (hN fuel hfuel p s hs).mono (fun _ _ h => h.1) fun _ _ => id)
    (fun _ _ _ => by simp) (wholeComponents_init hwf disk)
  have hrun : Prog.Ends (collectGarbage settings options permRoots tempRoots fuel dirents shuffle)
      (GCState.init db disk) (fun _ _ => True) fun e _ => e ≠ .outOfFuel := by
    refine hlocked.bind (fun _ s _ => ?_) fun _ _ => id
    refine deleteInvalidated_spec.mono (fun _ _ _ => trivial) ?_
    rintro _ _ ⟨⟨msg, rfl⟩, -⟩
    simp
  exact ne_outOfFuel_of_ends hrun

/-- If the dependencies between components have no cycle, `tryToDelete` terminates on every path, and
so does every run of the collector.  For given roots, the components without a root are enough.  If
components are symmetric, as they are when both settings are equal, it only terminates on all paths for
all roots if the dependencies have no cycle. -/
theorem tryToDelete_terminates (cfg : StoreConfig) (keep : KeepFlags) (db : Database)
    (disk : SortedMap Path StoreEntry) (hwf : db.WellFormed) (hac : db.graph.Acyclic) :
    (db.graph.ComponentsAcyclic keep →
      (∀ env : GCEnv, env.cfg = cfg → env.keep = keep →
        ∀ path, Terminates env path (GCState.init db disk)) ∧
      ∀ (settings : GCSettings) (options : GCOptions) (permRoots tempRoots : PathSet),
        (gcEnv settings options permRoots tempRoots).keep = keep →
        ∃ N, ∀ fuel ≥ N, ∀ dirents shuffle,
          (collectGarbage settings options permRoots tempRoots fuel dirents shuffle
            (GCState.init db disk)).1 ≠ .error .outOfFuel) ∧
    (∀ env : GCEnv, env.cfg = cfg → env.keep = keep →
      db.graph.RootlessAcyclic keep {r | r ∈ env.roots} →
      ∀ path, Terminates env path (GCState.init db disk)) ∧
    (db.StorePathsOnly cfg → (∀ p ∈ db.graph.valid, p ∈ disk) → linksDir cfg ∉ db.graph.valid →
      (keep.gcKeepOutputs = keep.gcKeepDerivations ∨ db.graph.ComponentsSymmetric keep) →
      (∀ env : GCEnv, env.cfg = cfg → env.keep = keep →
        ∀ path, Terminates env path (GCState.init db disk)) →
      db.graph.ComponentsAcyclic keep) := by
  refine ⟨fun hcomp => ⟨fun env _ hkeep => ?_, fun settings options permRoots tempRoots hkeep => ?_⟩,
    fun env _ hkeep hcomp => ?_, fun hstore hdisk hlinks hsym h => ?_⟩
  · exact terminates_of_rootlessAcyclic env disk hwf hac (hkeep ▸ hcomp.rootless)
  · exact collectGarbage_terminates settings options permRoots tempRoots disk hwf hac
      (hkeep ▸ hcomp.rootless)
  · exact terminates_of_rootlessAcyclic env disk hwf hac (hkeep ▸ hcomp)
  · have hsym' : db.graph.ComponentsSymmetric keep :=
      hsym.elim StoreGraph.componentsSymmetric_of_flags id
    exact componentsAcyclic_of_terminates keep hwf hac hstore hdisk hlinks hsym'
      fun path _ => h (askDead cfg keep) rfl rfl path

/-- A derivation, its output, and a path that refers to the output. -/
def usedOutputStore : Database where
  validPaths :=
    [⟨1, str "/nix/store/a", sampleHashText, 1, some (str "/nix/store/a.drv"), none⟩,
      ⟨2, str "/nix/store/a.drv", sampleHashText, 1, none, none⟩,
      ⟨3, str "/nix/store/b", sampleHashText, 1, none, none⟩]
  refs := [(3, 1)]
  derivationOutputs := [⟨2, str "out", str "/nix/store/a"⟩]
  nextId := 4

/-- The entries of its directory. -/
def usedOutputDisk : SortedMap Path StoreEntry := .ofList
  [(str "/nix/store/a", ⟨true, 512⟩), (str "/nix/store/a.drv", ⟨false, 512⟩),
    (str "/nix/store/b", ⟨true, 512⟩)]

/-- The first sample is well formed. -/
theorem wellFormed_usedOutputStore : usedOutputStore.WellFormed := by
  constructor <;> decide

/-- The references in the first sample. -/
theorem eq_of_refers_usedOutputStore {y x : Path} (h : usedOutputStore.graph.refers y x) :
    y = str "/nix/store/b" := by
  obtain ⟨r, hr, q, hq, rfl, -, he⟩ := h
  have hall : ∀ r ∈ usedOutputStore.validPaths, r.id = 3 → r.path = str "/nix/store/b" := by decide
  exact hall r hr (Prod.ext_iff.mp (List.mem_singleton.mp he)).1

/-- Only `b` refers to another path, and no path refers to `b`. -/
theorem componentsAcyclic_usedOutputStore (keep : KeepFlags) :
    usedOutputStore.graph.ComponentsAcyclic keep := by
  intro p hp
  obtain ⟨y, -, -, x, hx, hyx⟩ := TransGen.tail'_iff.mp hp
  obtain ⟨z, ⟨hz, w, hw, hzw⟩, -⟩ := TransGen.head'_iff.mp hp
  obtain rfl := eq_of_refers_usedOutputStore hyx
  obtain rfl := eq_of_refers_usedOutputStore hzw
  exact hz StoreGraph.mem_component_self

/-- With both settings on, the recursion from `a.drv` to `b`, which refers to the output, terminates. -/
theorem tryToDelete_terminates_usedOutputStore :
    Terminates (askDead defaultConfig ⟨true, true⟩) (str "/nix/store/a.drv")
      (GCState.init usedOutputStore usedOutputDisk) :=
  ((tryToDelete_terminates defaultConfig ⟨true, true⟩ usedOutputStore usedOutputDisk
    wellFormed_usedOutputStore
    (Database.acyclic_of_refs_descend wellFormed_usedOutputStore (by decide))).1
    (componentsAcyclic_usedOutputStore ⟨true, true⟩)).1
    (askDead defaultConfig ⟨true, true⟩) rfl rfl _

/-- Two derivations `a.drv` and `c.drv` have the same output `o`, and `c.drv` depends on `a.drv`
through `b.drv`. -/
def sharedOutputStore : Database where
  validPaths :=
    [⟨1, str "/nix/store/a.drv", sampleHashText, 1, none, none⟩,
      ⟨2, str "/nix/store/b.drv", sampleHashText, 1, none, none⟩,
      ⟨3, str "/nix/store/c.drv", sampleHashText, 1, none, none⟩,
      ⟨4, str "/nix/store/o", sampleHashText, 1, none, none⟩]
  refs := [(2, 1), (3, 2)]
  derivationOutputs := [⟨1, str "out", str "/nix/store/o"⟩, ⟨3, str "out", str "/nix/store/o"⟩]
  nextId := 5

/-- The entries of its directory. -/
def sharedOutputDisk : SortedMap Path StoreEntry := .ofList
  [(str "/nix/store/a.drv", ⟨false, 512⟩), (str "/nix/store/b.drv", ⟨false, 512⟩),
    (str "/nix/store/c.drv", ⟨false, 512⟩), (str "/nix/store/o", ⟨true, 512⟩)]

/-- The second sample is well formed. -/
theorem wellFormed_sharedOutputStore : sharedOutputStore.WellFormed := by
  constructor <;> decide

/-- The paths of the second sample are store paths. -/
theorem storePathsOnly_sharedOutputStore : sharedOutputStore.StorePathsOnly defaultConfig := by
  rintro p ⟨r, hr, rfl⟩
  have hall : ∀ r ∈ sharedOutputStore.validPaths, isStorePath defaultConfig r.path = true := by
    decide
  exact hall r hr

/-- The paths of the second sample are on disk. -/
theorem onDisk_sharedOutputStore : ∀ p ∈ sharedOutputStore.graph.valid, p ∈ sharedOutputDisk := by
  rintro p ⟨r, hr, rfl⟩
  have hall : ∀ r ∈ sharedOutputStore.validPaths, r.path ∈ sharedOutputDisk := by decide
  exact hall r hr

/-- References go from rows with larger ids to rows with smaller ids. -/
theorem acyclic_sharedOutputStore : sharedOutputStore.graph.Acyclic :=
  Database.acyclic_of_refs_descend wellFormed_sharedOutputStore (by decide)

/-- With both settings on, the component of `o` depends on `b.drv` and the other way round, and the
recursion does not terminate. -/
theorem tryToDelete_endless_on_sharedOutputStore :
    ¬ ∀ (db : Database) (disk : SortedMap Path StoreEntry) (env : GCEnv) (path : Path),
      db.WellFormed → db.graph.Acyclic → db.StorePathsOnly env.cfg →
      (∀ p ∈ db.graph.valid, p ∈ disk) → linksDir env.cfg ∉ db.graph.valid →
      Terminates env path (GCState.init db disk) := by
  intro h
  have hcomp := componentsAcyclic_of_terminates ⟨true, true⟩
    wellFormed_sharedOutputStore acyclic_sharedOutputStore storePathsOnly_sharedOutputStore
    onDisk_sharedOutputStore (by decide) (StoreGraph.componentsSymmetric_of_flags rfl)
    fun path _ => h sharedOutputStore sharedOutputDisk (askDead defaultConfig ⟨true, true⟩) path
      wellFormed_sharedOutputStore acyclic_sharedOutputStore storePathsOnly_sharedOutputStore
      onDisk_sharedOutputStore (by decide)
  have hc : ∀ q, q ∈ sharedOutputStore.graph.Component ⟨true, true⟩ (str "/nix/store/c.drv") ↔
      q ∈ SortedSet.ofList
        [str "/nix/store/a.drv", str "/nix/store/c.drv", str "/nix/store/o"] := fun q =>
    mem_component_iff_of_pathsOf (askDead defaultConfig ⟨true, true⟩)
      wellFormed_sharedOutputStore (by decide) (by decide +kernel)
  have hb : ∀ q, q ∈ sharedOutputStore.graph.Component ⟨true, true⟩ (str "/nix/store/b.drv") ↔
      q ∈ SortedSet.ofList [str "/nix/store/b.drv"] := fun q =>
    mem_component_iff_of_pathsOf (askDead defaultConfig ⟨true, true⟩)
      wellFormed_sharedOutputStore (by decide) (by decide +kernel)
  have hcb : sharedOutputStore.graph.DependsOn ⟨true, true⟩ (str "/nix/store/c.drv")
      (str "/nix/store/b.drv") :=
    ⟨by rw [hc]; decide, str "/nix/store/a.drv", (hc _).mpr (by decide), by decide⟩
  have hbc : sharedOutputStore.graph.DependsOn ⟨true, true⟩ (str "/nix/store/b.drv")
      (str "/nix/store/c.drv") :=
    ⟨by rw [hb]; decide, str "/nix/store/b.drv", (hb _).mpr (by decide), by decide⟩
  exact hcomp (str "/nix/store/c.drv") (.tail (.single hcb) hbc)

end Nix
