import NixStore.Store.GcSteps

/-!
# Safety of the garbage collector

No run of the collector invalidates, deletes or renames a kept path, whatever the order in which it
looks at paths, and also when it is cut short by an exception.  `SafeState` is the invariant: the
database is the initial one without paths that are not kept, and the verdicts in `deleted` are right.
A renamed directory can take the place of a kept path only if that one has the name of the renaming;
`Untouched` says that the entries of the kept paths are left alone otherwise.
-/

namespace Nix

/-- What holds between two actions of a run that started with the graph `g`; `K` are the kept
paths. -/
structure SafeState (g : StoreGraph) (K : Path → Prop) (s : GCState) : Prop where
  wellFormed : s.db.WellFormed
  shrunk : ∃ D : Set Path, s.db.graph = g.without D ∧ ∀ x ∈ D, ¬ K x
  deleted : ∀ x ∈ s.deleted, ¬ K x
  onDisk : ∀ p ∈ s.db.graph.valid, p ∈ s.disk
  log : ∀ e ∈ s.log, ¬ K e.path

variable {env : GCEnv} {g : StoreGraph} {K : Path → Prop} {s s' : GCState} {i : Path}

/-- A kept path that was valid is valid. -/
theorem SafeState.mem_valid (h : SafeState g K s) {p : Path} (hp : p ∈ g.valid) (hK : K p) :
    p ∈ s.db.graph.valid := by
  obtain ⟨D, hgraph, hD⟩ := h.shrunk
  rw [hgraph]
  exact ⟨hp, fun hpD => hD p hpD hK⟩

/-- What is valid was so at the start. -/
theorem SafeState.mem_initial (h : SafeState g K s) {p : Path} (hp : p ∈ s.db.graph.valid) :
    p ∈ g.valid := by
  obtain ⟨D, hgraph, -⟩ := h.shrunk
  rw [hgraph] at hp
  exact hp.1

/-- Marking keeps a state safe. -/
theorem SafeState.markLive (h : SafeState g K s) (paths : PathSet) :
    SafeState g K (markLive env paths s) :=
  ⟨h.wellFormed, h.shrunk, h.deleted, h.onDisk, h.log⟩

/-- The treatment of a path that is not kept is safe. -/
theorem DeleteStep.safeState (hstep : DeleteStep env i s s') (h : SafeState g K s) (hi : ¬ K i) :
    SafeState g K s' where
  wellFormed := hstep.wellFormed
  shrunk := by
    obtain ⟨D, hgraph, hD⟩ := h.shrunk
    rcases hstep.graph with hsame | hless
    · exact ⟨D, hsame.trans hgraph, hD⟩
    · refine ⟨D ∪ {i}, by rw [hless, hgraph, StoreGraph.without_without], ?_⟩
      rintro x (hx | rfl)
      · exact hD x hx
      · exact hi
  deleted x hx := by
    rcases hstep.deleted with hsame | hmore
    · exact h.deleted x (hsame ▸ hx)
    · rw [hmore, SortedSet.mem_insert] at hx
      rcases hx with rfl | hx
      · exact hi
      · exact h.deleted x hx
  onDisk p hp := hstep.mem_disk_of_mem_valid hp (h.onDisk p (hstep.mem_valid hp))
  log e he := by
    rcases hstep.log e he with he | he
    · exact h.log e he
    · rwa [he]

/-- Deleting paths that are not kept is safe. -/
theorem deletePaths_safe {st : StoreEntry} {paths : PathSet} (h : SafeState g K s)
    (hpaths : ∀ x ∈ paths, ¬ K x) :
    Prog.Ends (deletePaths env st paths) s (fun _ => SafeState g K) fun _ => SafeState g K := by
  refine (ends_deletePaths (I := fun _ => SafeState g K) (Or.inr fun _ _ => h) h ?_).mono
    (fun _ s' hs' => by obtain ⟨l, -, hs'⟩ := hs'; exact hs') fun _ _ => id
  intro l hmem _ _ done i rest s' hl hs'
  have hi : ¬ K i := hpaths i ((hmem i).mp (by simp [hl]))
  exact (deletePath_spec hs'.wellFormed st).mono
    (fun _ s'' hdel => hdel.toDeleteStep.safeState hs' hi)
    fun _ s'' hdel => hdel.2.safeState hs' hi

/-- A call of `tryToDelete` is safe, and its verdict about a valid path is right if it is `true`.  The
lemma carries along a property `X` of the states that the deletion of paths that are not kept, found
from a path without a verdict, preserves. -/
theorem tryToDelete_safe {roots : Set Path} {X : GCState → Prop}
    (hroots : ∀ p, p ∈ env.roots ↔ p ∈ roots) (hlinks : linksDir env.cfg ∉ g.valid)
    (hXlive : ∀ paths s, X s → X (markLive env paths s))
    (hXdel : ∀ path paths st s s', SafeState g (g.Kept env.keep roots) s → X s → path ∉ s.live →
      PathsOf env s.db.graph path paths → (∀ x ∈ paths, ¬ g.Kept env.keep roots x) →
      SafeState g (g.Kept env.keep roots) s' → X s' →
      Prog.Ends (deletePaths env st paths) s' (fun _ => X) fun _ => X) :
    ∀ (n : ℕ) (path : Path) (s : GCState), SafeState g (g.Kept env.keep roots) s → X s →
      Prog.Ends (tryToDelete env n path) s
        (fun b s' => (SafeState g (g.Kept env.keep roots) s' ∧ X s') ∧
          (b = true → path ∈ g.valid → ¬ g.Kept env.keep roots path))
        fun _ s' => SafeState g (g.Kept env.keep roots) s' ∧ X s' := by
  intro n
  induction n with
  | zero => exact fun _ _ hs hX => Prog.ends_throw ⟨hs, hX⟩
  | succ n ih =>
    intro path s hs hX
    refine ends_tryToDelete hs.wellFormed ?_ (fun _ _ => ⟨⟨hs, hX⟩, by simp⟩) (fun _ _ => ⟨hs, hX⟩)
      (fun paths _ _ _ => ⟨⟨hs.markLive paths, hXlive paths s hX⟩, by simp⟩) ?_
    · rintro (rfl | hdisk | hdeleted)
      · exact ⟨⟨hs, hX⟩, fun _ hval => absurd hval hlinks⟩
      · exact ⟨⟨hs, hX⟩, fun _ hval hkept => hdisk (hs.onDisk path (hs.mem_valid hval hkept))⟩
      · exact ⟨⟨hs, hX⟩, fun _ _ => hs.deleted path hdeleted⟩
    · intro st paths referrers _ _ _ hcached _ hpaths hnoroot hmem
      obtain ⟨D, hgraph, hD⟩ := hs.shrunk
      refine (Prog.Ends.all (I := fun done s' => (SafeState g (g.Kept env.keep roots) s' ∧ X s') ∧
        ∀ y ∈ done, ¬ g.Kept env.keep roots y)
        (F := fun _ s' => SafeState g (g.Kept env.keep roots) s' ∧ X s')
        referrers ?_ ⟨⟨hs, hX⟩, by simp⟩).mono ?_ fun _ _ => id
      · -- one referrer
        intro done y rest s' hl ⟨⟨hs', hX'⟩, hdone⟩
        have hyval : y ∈ g.valid := by
          obtain ⟨-, x, -, hyx⟩ := (hmem y).mp (by simp [hl])
          exact hs.mem_initial (s.db.graph.mem_valid_of_refers hyx).1
        refine (ih y s' hs' hX').mono (fun b s'' hs'' => ?_) fun _ _ => id
        cases b with
        | true =>
          refine ⟨hs''.1, fun z hz => ?_⟩
          rcases List.mem_append.mp hz with hz | hz
          · exact hdone z hz
          · rw [List.mem_singleton.mp hz]
            exact hs''.2 rfl hyval
        | false => exact hs''.1
      · intro b s' hs'
        cases b with
        | false =>
          obtain ⟨_, -, hs', hX'⟩ := hs'
          exact ⟨⟨hs'.markLive paths, hXlive paths s' hX'⟩, by simp⟩
        | true =>
          obtain ⟨⟨hs', hX'⟩, hdead⟩ := hs'
          -- the referrers are not kept, so neither is a member of `paths`
          have hnot : ∀ x ∈ paths, ¬ g.Kept env.keep roots x := by
            rcases hpaths with ⟨hval, hcomp⟩ | ⟨hinval, hself⟩
            · rw [hgraph] at hval hcomp hmem
              intro x hx
              refine StoreGraph.not_kept_of_mem_component hD hval.2 (fun z hz hzr => ?_)
                (fun y hy => ?_) x ((hcomp x).mp hx)
              · exact hnoroot z ((hcomp z).mpr hz) ((hroots z).mpr hzr)
              · obtain ⟨hyc, z, hz, hyz⟩ := hy
                exact hdead y ((hmem y).mpr
                  ⟨fun hy => hyc ((hcomp y).mp hy), z, (hcomp z).mpr hz, hyz⟩)
            · intro x hx hkept
              obtain rfl := (hself x).mp hx
              rcases hkept.mem_valid with hr | hval
              · exact hnoroot x hx ((hroots x).mpr hr)
              · exact hinval (hs.mem_valid hval hkept)
          refine ((deletePaths_safe hs' hnot).and
            (hXdel path paths st s s' hs hX hcached hpaths hnot hs' hX')).mono
            (fun _ s'' hs'' => ⟨hs'', fun _ _ => ?_⟩) fun _ _ => id
          rcases hpaths with ⟨-, hcomp⟩ | ⟨-, hself⟩
          · exact hnot path ((hcomp path).mpr StoreGraph.mem_component_self)
          · exact hnot path ((hself path).mpr rfl)

/-- The entries of the kept paths are what they were in `disk`, and what waits for its deletion has the
name that a path got which is not kept. -/
structure Untouched (env : GCEnv) (g : StoreGraph) (K : Path → Prop) (disk : SortedMap Path StoreEntry)
    (s : GCState) : Prop where
  entry : ∀ p ∈ g.valid, K p → s.disk.find? p = disk.find? p
  invalidated : ∀ x ∈ s.invalidated, ∃ p ∈ g.valid, ¬ K p ∧ x = tmpName env p

variable {disk : SortedMap Path StoreEntry}

/-- The treatment of a path that is not kept leaves the kept ones alone, unless one of them has the name
of a renaming. -/
theorem DeleteStep.untouched (hstep : DeleteStep env i s s') (h : Untouched env g K disk s)
    (hsafe : SafeState g K s) (hi : ¬ K i)
    (hfresh : ∀ p ∈ g.valid, ¬ K p → tmpName env p ∈ g.valid → ¬ K (tmpName env p)) :
    Untouched env g K disk s' := by
  rcases hstep.disk with ⟨hdisk, hinv⟩ | ⟨-, hgone⟩
  · exact ⟨by rw [hdisk]; exact h.entry, by rw [hinv]; exact h.invalidated⟩
  · refine ⟨fun p hp hK => ?_, fun x hx => ?_⟩
    · rw [hgone.find?_eq (fun hpi => hi (hpi ▸ hK)) fun hval htmp => ?_]
      · exact h.entry p hp hK
      · exact hfresh i (hsafe.mem_initial hval) hi (htmp ▸ hp) (htmp ▸ hK)
    · rcases hgone.mem_invalidated hx with hx | ⟨hval, rfl, -⟩
      · exact h.invalidated x hx
      · exact ⟨i, hsafe.mem_initial hval, hi, rfl⟩

/-- Deleting paths that are not kept leaves the entries of the kept ones. -/
theorem deletePaths_untouched {st : StoreEntry} {paths : PathSet} (h : Untouched env g K disk s)
    (hsafe : SafeState g K s) (hpaths : ∀ x ∈ paths, ¬ K x)
    (hfresh : ∀ p ∈ g.valid, ¬ K p → tmpName env p ∈ g.valid → ¬ K (tmpName env p)) :
    Prog.Ends (deletePaths env st paths) s (fun _ => Untouched env g K disk)
      fun _ => Untouched env g K disk := by
  refine (ends_deletePaths (I := fun _ s' => SafeState g K s' ∧ Untouched env g K disk s')
    (Or.inr fun _ _ => h) ⟨hsafe, h⟩ ?_).mono
    (fun _ s' hs' => by obtain ⟨l, -, -, hs'⟩ := hs'; exact hs') fun _ _ => id
  rintro l hmem - - done i rest s' hl ⟨hsafe', h'⟩
  have hi : ¬ K i := hpaths i ((hmem i).mp (by simp [hl]))
  exact (deletePath_spec hsafe'.wellFormed st).mono
    (fun _ s'' hdel => ⟨hdel.toDeleteStep.safeState hsafe' hi,
      hdel.toDeleteStep.untouched h' hsafe' hi hfresh⟩)
    fun _ s'' hdel => hdel.2.untouched h' hsafe' hi hfresh

/-- The first state is safe. -/
theorem safeState_init {db : Database} {disk : SortedMap Path StoreEntry} (hwf : db.WellFormed)
    (hdisk : ∀ p ∈ db.graph.valid, p ∈ disk) : SafeState db.graph K (GCState.init db disk) where
  wellFormed := hwf
  shrunk := ⟨∅, by simp [GCState.init], by simp⟩
  deleted := by simp [GCState.init]
  onDisk := hdisk
  log := by simp [GCState.init]

/-- While it holds the lock, a run of the collector neither invalidates nor deletes nor renames a path
that was kept in the initial database: no such event happens.  If no kept path has the name that a path
gets which is not kept, the kept paths are still valid and on disk after the run.  This holds for every
action, for every order of the entries, and however the run ends. -/
theorem collectGarbage_safe (settings : GCSettings) (options : GCOptions)
    (permRoots tempRoots : PathSet) (fuel : ℕ) (dirents : List Path)
    (shuffle : List Path → List Path) (db : Database) (disk : SortedMap Path StoreEntry)
    (hwf : db.WellFormed) (hdisk : ∀ p ∈ db.graph.valid, p ∈ disk)
    (hlinks : linksDir settings.cfg ∉ db.graph.valid) :
    let env := gcEnv settings options permRoots tempRoots
    let K := db.graph.Kept env.keep {r | r ∈ env.roots}
    let locked := (collectUnderLock settings options permRoots tempRoots fuel dirents shuffle
      (GCState.init db disk)).2
    let final := (collectGarbage settings options permRoots tempRoots fuel dirents shuffle
      (GCState.init db disk)).2
    (∀ e ∈ locked.log, ¬ K e.path) ∧
      ((∀ p ∈ db.graph.valid, ¬ K p → tmpName env p ∈ db.graph.valid → ¬ K (tmpName env p)) →
        ∀ p ∈ db.graph.valid, K p →
          p ∈ final.db.graph.valid ∧ final.disk.find? p = disk.find? p) := by
  intro env K locked final
  have hcall : ∀ (X : GCState → Prop), (∀ paths s, X s → X (markLive env paths s)) →
      (∀ path paths st s s', SafeState db.graph K s → X s → path ∉ s.live →
        PathsOf env s.db.graph path paths → (∀ x ∈ paths, ¬ K x) → SafeState db.graph K s' → X s' →
        Prog.Ends (deletePaths env st paths) s' (fun _ => X) fun _ => X) → X (GCState.init db disk) →
      Prog.Ends (collectUnderLock settings options permRoots tempRoots fuel dirents shuffle)
        (GCState.init db disk) (fun _ s => SafeState db.graph K s ∧ X s)
        fun _ s => SafeState db.graph K s ∧ X s := fun X hlive hdel hX =>
    (ends_collectUnderLock fuel dirents shuffle (s := .init db disk)
      (I := fun s => SafeState db.graph K s ∧ X s) (E := fun _ s => SafeState db.graph K s ∧ X s)
      (fun p s hs => (tryToDelete_safe (fun _ => Iff.rfl) hlinks hlive hdel fuel p s hs.1 hs.2).mono
        (fun _ _ h => h.1) fun _ _ h => h) (fun _ _ h => h) ⟨safeState_init hwf hdisk, hX⟩).mono
      (fun _ _ h => h.elim id id) fun _ _ => id
  refine ⟨?_, fun hfresh p hp hK => ?_⟩
  · exact ((hcall (fun _ => True) (fun _ _ => id)
      (fun _ _ _ _ _ _ _ _ _ _ _ _ => Prog.ends_true) trivial).state_of (fun _ _ => id)
      fun _ _ => id).1.log
  · have hlocked := hcall (Untouched env db.graph K disk) (fun _ _ h => ⟨h.entry, h.invalidated⟩)
      (fun _ _ _ _ _ _ _ _ _ hnot hsafe h => deletePaths_untouched h hsafe hnot hfresh)
      ⟨fun _ _ _ => rfl, by simp [GCState.init]⟩
    have hrest : ∀ s, SafeState db.graph K s ∧ Untouched env db.graph K disk s →
        p ∈ s.db.graph.valid ∧ s.disk.find? p = disk.find? p ∧ p ∉ s.invalidated := by
      rintro s ⟨hsafe, h⟩
      refine ⟨hsafe.mem_valid hp hK, h.entry p hp hK, fun hinv => ?_⟩
      obtain ⟨q, hq, hqK, rfl⟩ := h.invalidated p hinv
      exact hfresh q hq hqK hp hK
    have hrun : Prog.Ends (collectGarbage settings options permRoots tempRoots fuel dirents shuffle)
        (GCState.init db disk)
        (fun _ s => p ∈ s.db.graph.valid ∧ s.disk.find? p = disk.find? p)
        fun _ s => p ∈ s.db.graph.valid ∧ s.disk.find? p = disk.find? p := by
      refine hlocked.bind (fun _ s hs => ?_) fun _ s hs => ⟨(hrest s hs).1, (hrest s hs).2.1⟩
      obtain ⟨hval, hentry, hinv⟩ := hrest s hs
      refine deleteInvalidated_spec.mono ?_ ?_
      · rintro _ s' ⟨-, hs'⟩
        exact ⟨hs'.db ▸ hval, by rw [hs'.find?, if_neg hinv, hentry]⟩
      · rintro _ s' ⟨-, -, hdb, hfind⟩
        exact ⟨hdb ▸ hval, by rw [hfind p hinv, hentry]⟩
    exact hrun.state_of (fun _ _ => id) fun _ _ => id

/-- A store with a derivation whose output is not valid yet. -/
def unbuiltStore : Database where
  validPaths := [⟨1, str "/nix/store/a.drv", sampleHashText, 1, none, none⟩]
  refs := []
  derivationOutputs := [⟨1, str "out", str "/nix/store/a"⟩]
  nextId := 2

/-- The entries of its directory. -/
def unbuiltDisk : SortedMap Path StoreEntry := .ofList [(str "/nix/store/a.drv", ⟨false, 512⟩)]

/-- The default settings: derivations are kept, outputs are not. -/
def defaultGCSettings : GCSettings := ⟨defaultConfig, ⟨false, true⟩, str "1", fun _ => false⟩

/-- The first sample is well formed. -/
theorem wellFormed_unbuiltStore : unbuiltStore.WellFormed := by
  constructor <;> decide

/-- The paths of the first sample are on disk. -/
theorem onDisk_unbuiltStore : ∀ p ∈ unbuiltStore.graph.valid, p ∈ unbuiltDisk := by
  rintro p ⟨r, hr, rfl⟩
  rw [List.mem_singleton.mp hr]
  decide

/-- Deleting everything else leaves the derivation if it is a root. -/
theorem collectGarbage_safe_unbuiltStore :
    str "/nix/store/a.drv" ∈ (collectGarbage defaultGCSettings .default
      (.ofList [str "/nix/store/a.drv"]) ∅ 3 [str "/nix/store/a.drv"] id
      (GCState.init unbuiltStore unbuiltDisk)).2.db.graph.valid := by
  refine ((collectGarbage_safe defaultGCSettings .default (.ofList [str "/nix/store/a.drv"]) ∅ 3
    [str "/nix/store/a.drv"] id unbuiltStore unbuiltDisk wellFormed_unbuiltStore onDisk_unbuiltStore
    (by decide)).2 ?_ _ (by decide) (.root (by decide))).1
  rintro p ⟨r, hr, rfl⟩ -
  rw [List.mem_singleton.mp hr]
  exact fun htmp => absurd htmp (by decide)

/-- A store with a directory, and another one that has the name which the first one gets when process 1
renames it. -/
def renamedStore : Database where
  validPaths := [⟨1, str "/nix/store/a", sampleHashText, 1, none, none⟩,
    ⟨2, str "/nix/store/a-gc-1", sampleHashText, 1, none, none⟩]
  refs := []
  derivationOutputs := []
  nextId := 3

/-- The entries of its directory. -/
def renamedDisk : SortedMap Path StoreEntry :=
  .ofList [(str "/nix/store/a", ⟨true, 512⟩), (str "/nix/store/a-gc-1", ⟨true, 0⟩)]

/-- The second sample is well formed. -/
theorem wellFormed_renamedStore : renamedStore.WellFormed := by
  constructor <;> decide

/-- Without references there is no cycle. -/
theorem acyclic_of_no_refs {db : Database} (h : db.refs = []) : db.graph.Acyclic := by
  intro p hp
  obtain ⟨q, ⟨⟨r, _, q', _, _, _, he⟩, -⟩, -⟩ := Relation.TransGen.head'_iff.mp hp
  exact absurd (h ▸ he) List.not_mem_nil

/-- If the output of a derivation is a temporary root but not valid yet, as during a build, the
collector deletes the derivation although it is to keep the derivers of live paths.  And a directory
that is renamed takes the place of an empty one with that name, which is then deleted although it is
live. -/
theorem collectGarbage_deletes_live_deriver :
    (¬ ∀ (settings : GCSettings) (options : GCOptions) (permRoots tempRoots : PathSet) (fuel : ℕ)
      (dirents : List Path) (shuffle : List Path → List Path) (db : Database)
      (disk : SortedMap Path StoreEntry), db.WellFormed → db.graph.Acyclic →
      (∀ p ∈ db.graph.valid, p ∈ disk) → linksDir settings.cfg ∉ db.graph.valid →
      ∀ e ∈ (collectUnderLock settings options permRoots tempRoots fuel dirents shuffle
        (GCState.init db disk)).2.log,
      ¬ db.graph.Live (gcEnv settings options permRoots tempRoots).keep
        {r | r ∈ (gcEnv settings options permRoots tempRoots).roots} e.path) ∧
    ¬ ∀ (settings : GCSettings) (options : GCOptions) (permRoots tempRoots : PathSet) (fuel : ℕ)
      (dirents : List Path) (shuffle : List Path → List Path) (db : Database)
      (disk : SortedMap Path StoreEntry), db.WellFormed → db.graph.Acyclic →
      (∀ p ∈ db.graph.valid, p ∈ disk) → linksDir settings.cfg ∉ db.graph.valid →
      ∀ p ∈ db.graph.valid, db.graph.Live (gcEnv settings options permRoots tempRoots).keep
          {r | r ∈ (gcEnv settings options permRoots tempRoots).roots} p →
        p ∈ (collectGarbage settings options permRoots tempRoots fuel dirents shuffle
          (GCState.init db disk)).2.disk := by
  constructor
  · intro h
    refine h defaultGCSettings .default ∅ (.ofList [str "/nix/store/a"]) 3
      [str "/nix/store/a.drv"] id unbuiltStore unbuiltDisk wellFormed_unbuiltStore
      (acyclic_of_no_refs rfl) onDisk_unbuiltStore (by decide) (.invalidate (str "/nix/store/a.drv"))
      (by decide +kernel) ?_
    have hroot : unbuiltStore.graph.Live ⟨false, true⟩ {r | r ∈ (gcEnv defaultGCSettings .default ∅
        (.ofList [str "/nix/store/a"])).roots} (str "/nix/store/a") :=
      .root (by decide)
    exact .deriver (by decide) hroot (by decide)
  · intro h
    have hdisk : ∀ p ∈ renamedStore.graph.valid, p ∈ renamedDisk := by
      rintro p ⟨r, hr, rfl⟩
      have hall : ∀ r ∈ renamedStore.validPaths, r.path ∈ renamedDisk := by decide
      exact hall r hr
    exact absurd (h { defaultGCSettings with replaces := fun _ => true } .default
      (.ofList [str "/nix/store/a-gc-1"]) ∅ 3 [str "/nix/store/a", str "/nix/store/a-gc-1"] id
      renamedStore renamedDisk wellFormed_renamedStore (acyclic_of_no_refs rfl) hdisk (by decide)
      (str "/nix/store/a-gc-1") (by decide) (.root (by decide))) (by decide)

end Nix
