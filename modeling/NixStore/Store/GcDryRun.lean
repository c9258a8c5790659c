import NixStore.Store.GcOrder
import NixStore.Store.GcReport

/-!
# Dry runs of the garbage collector

A run with `gcReturnDead` compared with a run with `gcDeleteDead`.  The first one only remembers what
it would have deleted, the second one asks a database and a store directory that it is shrinking; if
both return, they have found the same paths.  `Predicts` relates their states between two calls.  The
second one need not return: it is aborted when it is to delete a path that the recursion over the
referrers has deleted already.
-/

namespace Nix

variable {env : GCEnv} {s s' : GCState}

/-! ### The two deletion loops -/

/-- The deletion loop of a run that only asks. -/
theorem deletePaths_asks (hask : env.options.action = .gcReturnDead) (st : StoreEntry)
    (paths : PathSet) :
    Prog.Ends (deletePaths env st paths) s
      (fun _ s' => s'.db = s.db ∧ s'.disk = s.disk ∧ s'.live = s.live ∧
        (∀ x, x ∈ s'.deleted ↔ x ∈ s.deleted ∨ x ∈ paths) ∧
        ∀ x, x ∈ s'.paths ↔ x ∈ s.paths ∨ x ∈ paths)
      fun _ _ => True := by
  refine (ends_deletePaths (I := fun done s' => s'.db = s.db ∧ s'.disk = s.disk ∧ s'.live = s.live ∧
    (∀ x, x ∈ s'.deleted ↔ x ∈ s.deleted ∨ x ∈ done) ∧
    ∀ x, x ∈ s'.paths ↔ x ∈ s.paths ∨ x ∈ done) (Or.inr fun _ _ => trivial) (by simp) ?_).mono ?_
    fun _ _ => id
  · rintro l - - - done i rest s' - ⟨hdb, hdisk, hlive, hdeleted, hpaths⟩
    rw [deletePath, shouldDelete, hask]
    refine Prog.ends_modify ⟨hdb, hdisk, hlive, fun x => ?_, fun x => ?_⟩
    · simp only [markDeleted, SortedSet.mem_insert, hdeleted, List.mem_append, List.mem_singleton]
      tauto
    · simp only [markDeleted, hask, ne_eq, reduceCtorEq, not_false_eq_true, if_true,
        SortedSet.mem_insert, hpaths, List.mem_append, List.mem_singleton]
      tauto
  · rintro _ s' ⟨l, hmem, hs'⟩
    simpa only [hmem] using hs'

/-- A path that is removed has no other referrers. -/
theorem removePath_noReferrers (h : s.db.WellFormed) (st : StoreEntry) (i : Path) :
    Prog.Ends (removePath env st i) s (fun _ _ => ∀ u, s.db.graph.refers u i → u = i)
      fun _ _ => True := by
  -- the invalidation succeeds only without them, whatever comes after it
  have hinvalidate : ∀ (m : GCM Unit) (s₁ : GCState), s₁.db = s.db →
      Prog.Ends (do invalidate env i; m) s₁ (fun _ _ => ∀ u, s.db.graph.refers u i → u = i)
        fun _ _ => True := by
    intro m s₁ hs₁
    refine Prog.Ends.bind (Q := fun _ _ => ∀ u, s.db.graph.refers u i → u = i)
      (E := fun _ _ => True) ?_
      (fun _ _ h => Prog.ends_true.mono (fun _ _ _ => h) fun _ _ => id) fun _ _ => id
    refine Prog.ends_get_bind ?_
    rw [hs₁]
    cases hok : s.db.invalidatePathChecked env.cfg i with
    | ok db' => exact fun u hu => Database.eq_of_refers_of_invalidatePathChecked h hok hu
    | error e => trivial
    | diverge => trivial
  refine Prog.ends_get_bind ?_
  split_ifs with hval hdir
  · exact Prog.ends_modify_bind (hinvalidate _ _ rfl)
  · exact hinvalidate _ s rfl
  · refine Prog.ends_true.mono (fun _ _ _ u hu => absurd (s.db.graph.mem_valid_of_refers hu).2 ?_)
      fun _ _ => id
    exact fun hi => hval (Database.isValidPath_iff.mpr hi)

/-- What a run that deletes has done with a set of paths. -/
structure DeletedAll (P : Set Path) (s s' : GCState) : Prop where
  wellFormed : s'.db.WellFormed
  graph : s'.db.graph = s.db.graph.without P
  live : s'.live = s.live
  deleted : ∀ x, x ∈ s'.deleted ↔ x ∈ s.deleted ∨ x ∈ P
  onDisk : ∀ x ∈ s.disk, x ∉ P → x ∈ s'.disk
  referrers : ∀ x ∈ P, ∀ y, s.db.graph.refers y x → y ∈ P

/-- `deletePath` deletes one path. -/
theorem deletePath_deletes (hdel : shouldDelete env.options.action = true) (h : s.db.WellFormed)
    (st : StoreEntry) (i : Path) :
    Prog.Ends (deletePath env st i) s (fun _ => DeletedAll {i} s) fun _ _ => True := by
  have hrefs : Prog.Ends (deletePath env st i) s (fun _ _ => ∀ u, s.db.graph.refers u i → u = i)
      fun _ _ => True := by
    rw [deletePath, if_pos hdel]
    refine (removePath_noReferrers h st i).bind (fun _ s₁ hs₁ => ?_) fun _ _ => id
    exact Prog.ends_true.mono (fun _ _ _ => hs₁) fun _ _ => id
  refine ((deletePath_spec h st).and hrefs).mono ?_ fun _ _ _ => trivial
  rintro _ s' ⟨hgone, hrefs⟩
  refine ⟨hgone.wellFormed, (hgone.removed hdel).1, hgone.live, fun x => ?_, fun x hx hne => ?_,
    fun x hx y hy => ?_⟩
  · rw [hgone.deleted_eq, SortedSet.mem_insert, Set.mem_singleton_iff]
    exact or_comm
  · exact (hgone.vanished hdel).disk.mem_disk_of_ne hne hx
  · obtain rfl := Set.mem_singleton_iff.mp hx
    exact hrefs y hy

/-- Deleting a set and then one more path. -/
theorem DeletedAll.step {P : Set Path} {i : Path} {s'' : GCState} (h : DeletedAll P s s')
    (h' : DeletedAll {i} s' s'') : DeletedAll (P ∪ {i}) s s'' where
  wellFormed := h'.wellFormed
  graph := by rw [h'.graph, h.graph, StoreGraph.without_without]
  live := h'.live.trans h.live
  deleted x := by rw [h'.deleted, h.deleted, or_assoc, Set.mem_union]
  onDisk x hx hne := by
    rw [Set.mem_union, not_or] at hne
    exact h'.onDisk x (h.onDisk x hx hne.1) hne.2
  referrers x hx y hy := by
    by_contra hnot
    rw [Set.mem_union, not_or] at hnot
    rcases hx with hx | hx
    · exact hnot.1 (h.referrers x hx y hy)
    by_cases hxP : x ∈ P
    · exact hnot.1 (h.referrers x hxP y hy)
    · refine hnot.2 (h'.referrers x hx y ?_)
      rw [h.graph]
      exact ⟨hy, hnot.1, hxP⟩

/-- The deletion loop of a run that deletes. -/
theorem deletePaths_deletes (hdel : shouldDelete env.options.action = true) (h : s.db.WellFormed)
    (st : StoreEntry) (paths : PathSet) :
    Prog.Ends (deletePaths env st paths) s (fun _ => DeletedAll {x | x ∈ paths} s)
      fun _ _ => True := by
  refine (ends_deletePaths (I := fun done => DeletedAll {x | x ∈ done} s)
    (Or.inr fun _ _ => trivial) ?_ ?_).mono ?_ fun _ _ => id
  · constructor <;> simp [h]
  · rintro l - - - done i rest s₁ - hs₁
    refine (deletePath_deletes hdel hs₁.wellFormed st i).mono (fun _ s₂ hs₂ => ?_) fun _ _ => id
    have hset : {x | x ∈ done ++ [i]} = {x | x ∈ done} ∪ {i} := by
      ext x
      simp [or_comm]
    exact hset ▸ hs₁.step hs₂
  · rintro _ s₁ ⟨l, hmem, hs₁⟩
    simpa only [hmem] using hs₁

/-! ### The states of the two runs -/

/-- The surroundings of a run that only asks and of a run that deletes. -/
structure DryRunOf (env env' : GCEnv) : Prop where
  cfg : env'.cfg = env.cfg
  roots : env'.roots = env.roots
  tempRoots : env'.tempRoots = env.tempRoots
  keep : env'.keep = env.keep
  asks : env.options.action = .gcReturnDead
  deletes : shouldDelete env'.options.action = true

/-- The states `d` of a run that only asks and `r` of a run that deletes, which have looked at the same
paths of the store `db`, `disk`. -/
structure Predicts (env : GCEnv) (db : Database) (disk : SortedMap Path StoreEntry)
    (d r : GCState) : Prop where
  db_eq : d.db = db
  disk_eq : d.disk = disk
  reported : ∀ x, x ∈ d.paths ↔ x ∈ d.deleted
  deleted : ∀ x, x ∈ r.deleted ↔ x ∈ d.deleted
  /-- A path can be in both caches; then the first one counts. -/
  live : ∀ x, x ∉ d.deleted → (x ∈ r.live ↔ x ∈ d.live)
  wellFormed : r.db.WellFormed
  graph : r.db.graph = db.graph.without {x | x ∈ d.deleted}
  onDisk : ∀ x ∈ disk, x ∉ d.deleted → x ∈ r.disk
  roots : ∀ x ∈ d.deleted, x ∉ env.roots
  referrers : ∀ x ∈ d.deleted, ∀ y, db.graph.refers y x → y ∈ d.deleted
  keepClosed : db.graph.KeepClosed env.keep {x | x ∈ db.graph.valid ∧ x ∈ d.deleted}

variable {env' : GCEnv} {db : Database} {disk : SortedMap Path StoreEntry} {d r : GCState}
  {path : Path} {paths paths' : PathSet}

/-- The paths that the dry run did not report are still valid. -/
theorem Predicts.mem_valid_iff (h : Predicts env db disk d r) {x : Path} (hx : x ∉ d.deleted) :
    x ∈ r.db.graph.valid ↔ x ∈ db.graph.valid := by
  rw [h.graph]
  exact ⟨fun hval => hval.1, fun hval => ⟨hval, hx⟩⟩

/-- So `isValidPath` answers alike in both runs. -/
theorem Predicts.isValidPath_eq (h : Predicts env db disk d r) (hpath : path ∉ d.deleted) :
    r.db.isValidPath path = db.isValidPath path := by
  rw [Bool.eq_iff_iff, Database.isValidPath_iff, Database.isValidPath_iff, h.mem_valid_iff hpath]

/-- The second run finds what is left of the component that the first one finds. -/
theorem Predicts.mem_paths_iff (hdry : DryRunOf env env') (h : Predicts env db disk d r)
    (hpath : path ∉ d.deleted) (hpaths : PathsOf env db.graph path paths)
    (hpaths' : PathsOf env' r.db.graph path paths') {q : Path} :
    q ∈ paths' ↔ q ∈ paths ∧ q ∉ d.deleted := by
  rw [PathsOf, hdry.keep] at hpaths'
  rcases hpaths with ⟨hval, hcomp⟩ | ⟨hinval, hself⟩
  · rcases hpaths' with ⟨-, hcomp'⟩ | ⟨hinval', -⟩
    · have hgraph : r.db.graph = db.graph.without {x | x ∈ db.graph.valid ∧ x ∈ d.deleted} :=
        h.graph.trans (StoreGraph.without_inter_valid _ _).symm
      rw [hcomp', hcomp, hgraph, h.keepClosed.component_without fun hp => hpath hp.2]
      refine and_congr_right fun hq => not_congr ⟨fun hq => hq.2, fun hqd => ⟨?_, hqd⟩⟩
      exact StoreGraph.mem_valid_of_mem_component hval hq
    · exact absurd ((h.mem_valid_iff hpath).mpr hval) hinval'
  · rcases hpaths' with ⟨hval', -⟩ | ⟨-, hself'⟩
    · exact absurd ((h.mem_valid_iff hpath).mp hval') hinval
    · rw [hself', hself]
      exact ⟨fun hq => ⟨hq, hq ▸ hpath⟩, fun hq => hq.1⟩

/-- The second run looks at the same referrers, without those that are gone. -/
theorem Predicts.referrers_eq (h : Predicts env db disk d r) (hwf : db.WellFormed)
    (hmem : ∀ q, q ∈ paths' ↔ q ∈ paths ∧ q ∉ d.deleted) :
    (referrersOf r.db paths').toList.filter (fun i => i ∉ paths') =
      ((referrersOf db paths).toList.filter fun i => i ∉ paths).filter fun i => i ∉ d.deleted := by
  rw [List.filter_filter]
  refine SortedSet.filter_toList_eq fun y => ?_
  simp only [mem_referrersOf_iff h.wellFormed, mem_referrersOf_iff hwf, decide_eq_true_eq,
    Bool.and_eq_true, hmem]
  constructor
  · rintro ⟨⟨x, ⟨hx, hxd⟩, hyx⟩, hy⟩
    rw [h.graph] at hyx
    have hyd : y ∉ d.deleted := hyx.2.1
    exact ⟨⟨x, hx, hyx.1⟩, hyd, fun hyp => hy ⟨hyp, hyd⟩⟩
  · rintro ⟨⟨x, hx, hyx⟩, hyd, hy⟩
    have hxd : x ∉ d.deleted := fun hxd => hyd (h.referrers x hxd y hyx)
    refine ⟨⟨x, ⟨hx, hxd⟩, ?_⟩, fun hyp => hy hyp.1⟩
    rw [h.graph]
    exact ⟨hyx, hyd, hxd⟩

/-- Both runs find out that the path is live. -/
theorem Predicts.markLive (hdry : DryRunOf env env') (h : Predicts env db disk d r)
    (hmem : ∀ q, q ∉ d.deleted → (q ∈ paths' ↔ q ∈ paths)) :
    Predicts env db disk (markLive env paths d) (markLive env' paths' r) where
  db_eq := h.db_eq
  disk_eq := h.disk_eq
  reported x := by
    simp only [Nix.markLive, hdry.asks, reduceCtorEq, if_false]
    exact h.reported x
  deleted := h.deleted
  live x hx := by
    have hx' : x ∉ d.deleted := hx
    simp only [Nix.markLive, SortedSet.mem_foldl_insert, SortedSet.mem_toList, hmem x hx',
      h.live x hx']
  wellFormed := h.wellFormed
  graph := h.graph
  onDisk := h.onDisk
  roots := h.roots
  referrers := h.referrers
  keepClosed := h.keepClosed

/-- Both runs delete the paths that they have found. -/
theorem Predicts.delete {d' r' : GCState} (h : Predicts env db disk d r)
    (hpaths : PathsOf env db.graph path paths) (hroots : ∀ i ∈ paths, i ∉ env.roots)
    (hmem : ∀ q, q ∉ d.deleted → (q ∈ paths' ↔ q ∈ paths)) (hdb : d'.db = d.db)
    (hdisk : d'.disk = d.disk) (hlive : d'.live = d.live)
    (hdeleted : ∀ x, x ∈ d'.deleted ↔ x ∈ d.deleted ∨ x ∈ paths)
    (hreported : ∀ x, x ∈ d'.paths ↔ x ∈ d.paths ∨ x ∈ paths)
    (hr : DeletedAll {x | x ∈ paths'} r r') : Predicts env db disk d' r' := by
  have hunion : ∀ x, x ∈ d.deleted ∨ x ∈ paths' ↔ x ∈ d'.deleted := fun x => by
    rw [hdeleted]
    by_cases hx : x ∈ d.deleted
    · simp [hx]
    · rw [hmem x hx]
  refine ⟨hdb.trans h.db_eq, hdisk.trans h.disk_eq, fun x => ?_, fun x => ?_,
    fun x hx => ?_, hr.wellFormed, ?_, fun x hx hxd => ?_, fun x hx => ?_, fun x hx y hy => ?_, ?_⟩
  · rw [hreported, hdeleted, h.reported]
  · rw [hr.deleted, h.deleted]
    exact hunion x
  · rw [hr.live, hlive]
    exact h.live x fun hxd => hx ((hunion x).mp (Or.inl hxd))
  · rw [hr.graph, h.graph, StoreGraph.without_without]
    congr 1
    ext x
    exact hunion x
  · refine hr.onDisk x (h.onDisk x hx fun hxd' => ?_) fun hxp => ?_
    · exact hxd ((hunion x).mp (Or.inl hxd'))
    · exact hxd ((hunion x).mp (Or.inr hxp))
  · rcases (hdeleted x).mp hx with hx | hx
    · exact h.roots x hx
    · exact hroots x hx
  · rw [← hunion] at hx ⊢
    by_cases hxd : x ∈ d.deleted
    · exact Or.inl (h.referrers x hxd y hy)
    by_cases hyd : y ∈ d.deleted
    · exact Or.inl hyd
    refine Or.inr (hr.referrers x (hx.resolve_left hxd) y ?_)
    rw [h.graph]
    exact ⟨hy, hyd, hxd⟩
  · rcases hpaths with ⟨hval, hcomp⟩ | ⟨hinval, hself⟩
    · have hset : {x | x ∈ db.graph.valid ∧ x ∈ d'.deleted} =
          {x | x ∈ db.graph.valid ∧ x ∈ d.deleted} ∪ db.graph.Component env.keep path := by
        ext x
        simp only [Set.mem_ofPred_eq, Set.mem_union, hdeleted, hcomp]
        have := fun hx => StoreGraph.mem_valid_of_mem_component (k := env.keep) (q := x) hval hx
        tauto
      rw [hset]
      exact h.keepClosed.union_component
    · have hset : {x | x ∈ db.graph.valid ∧ x ∈ d'.deleted} =
          {x | x ∈ db.graph.valid ∧ x ∈ d.deleted} := by
        ext x
        simp only [Set.mem_ofPred_eq, hdeleted, hself]
        have : x ∈ db.graph.valid → x ≠ path := fun hx hxp => hinval (hxp ▸ hx)
        tauto
      rw [hset]
      exact h.keepClosed

/-! ### Calls -/

/-- What holds after a call on a path in both runs. -/
structure SameVerdict (env : GCEnv) (db : Database) (disk : SortedMap Path StoreEntry) (path : Path)
    (d : GCState) (b : Bool) (d' : GCState) (b' : Bool) (r' : GCState) : Prop where
  verdict : b = b'
  predicts : Predicts env db disk d' r'
  grows : ∀ x ∈ d.deleted, x ∈ d'.deleted
  invalid : path ∉ db.graph.valid → ∀ x ∈ d'.deleted, x ∈ d.deleted ∨ x = path

/-- A path that is in the first cache is not looked at again. -/
theorem tryToDelete_of_deleted (hdel : path ∈ s.deleted) (n : ℕ) :
    Prog.Ends (tryToDelete env n path) s (fun b s' => b = true ∧ s' = s) fun _ _ => True := by
  cases n with
  | zero => trivial
  | succ n =>
    rw [tryToDelete]
    refine Prog.ends_get_bind ?_
    split_ifs with hlinks
    · exact ⟨rfl, rfl⟩
    split
    · exact ⟨rfl, rfl⟩
    · exact ⟨rfl, rfl⟩

/-- How two calls on a path of the store directory go on together. -/
theorem both_tryToDelete (hdry : DryRunOf env env') (hwf : db.WellFormed)
    (h : Predicts env db disk d r) (hpath : path ∈ disk) {n m : ℕ}
    {R : Bool → GCState → Bool → GCState → Prop} (hsame : ∀ b, R b d b r)
    (hroot : ∀ paths paths', PathsOf env db.graph path paths →
      (∀ q, q ∈ paths' ↔ q ∈ paths ∧ q ∉ d.deleted) →
      R false (markLive env paths d) false (markLive env' paths' r))
    (hrefs : ∀ st st' paths paths' referrers, PathsOf env db.graph path paths →
      (∀ q, q ∈ paths' ↔ q ∈ paths ∧ q ∉ d.deleted) → (∀ i ∈ paths, i ∉ env.roots) →
      (∀ y ∈ referrers, ∃ x ∈ paths, db.graph.refers y x) →
      Prog.Both (Prog.all (tryToDelete env n) referrers)
        (Prog.all (tryToDelete env' m) (referrers.filter fun i => i ∉ d.deleted)) d r
        fun b d₁ b' r₁ => b = b' ∧ if b then
          Prog.Both (deletePaths env st paths) (deletePaths env' st' paths') d₁ r₁
            fun _ d₂ _ r₂ => R true d₂ true r₂
          else R false (markLive env paths d₁) false (markLive env' paths' r₁)) :
    Prog.Both (tryToDelete env (n + 1) path) (tryToDelete env' (m + 1) path) d r R := by
  by_cases hdeleted : path ∈ d.deleted
  · refine Prog.Both.of_ends (tryToDelete_of_deleted hdeleted _)
      (tryToDelete_of_deleted ((h.deleted path).mpr hdeleted) _) ?_
    rintro _ _ _ _ ⟨rfl, rfl⟩ ⟨rfl, rfl⟩
    exact hsame true
  have htemp : ∀ suffix, isActiveTempFile env' path suffix = isActiveTempFile env path suffix :=
    fun suffix => by rw [isActiveTempFile, isActiveTempFile, hdry.tempRoots]
  obtain ⟨st, hst⟩ : ∃ st, disk.find? path = some st :=
    Option.ne_none_iff_exists'.mp (SortedMap.mem_iff_find?_ne_none.mp hpath)
  obtain ⟨st', hst'⟩ : ∃ st', r.disk.find? path = some st' :=
    Option.ne_none_iff_exists'.mp
      (SortedMap.mem_iff_find?_ne_none.mp (h.onDisk path hpath hdeleted))
  rw [tryToDelete, tryToDelete]
  refine Prog.both_get_bind ?_
  rw [hdry.cfg, h.db_eq, h.disk_eq, hst, hst', h.isValidPath_eq hdeleted, htemp, htemp]
  dsimp only
  by_cases hlinks : path = linksDir env.cfg
  · rw [if_pos hlinks, if_pos hlinks]
    exact hsame true
  rw [if_neg hlinks, if_neg hlinks, if_neg hdeleted,
    if_neg fun hr => hdeleted ((h.deleted path).mp hr)]
  by_cases hlive : path ∈ d.live
  · rw [if_pos hlive, if_pos ((h.live path hdeleted).mpr hlive)]
    exact hsame false
  rw [if_neg hlive, if_neg fun hr => hlive ((h.live path hdeleted).mp hr)]
  split_ifs with hactive
  · exact hsame false
  rcases pathsOf_spec env hwf path with ⟨paths, hpaths, hspec⟩ | ⟨⟨e, he⟩, -⟩
  swap
  · rw [he]
    exact Prog.both_throw_left
  rcases pathsOf_spec env' h.wellFormed path with ⟨paths', hpaths', hspec'⟩ | ⟨⟨e, he⟩, -⟩
  swap
  · rw [he]
    exact Prog.both_throw_right
  rw [hpaths, hpaths']
  have hmem : ∀ q, q ∈ paths' ↔ q ∈ paths ∧ q ∉ d.deleted := fun q =>
    h.mem_paths_iff hdry hdeleted hspec hspec'
  change Prog.Both (ite _ _ _) (ite _ _ _) d r _
  by_cases hroots : ∃ i ∈ paths.toList, i ∈ env.roots
  · have hroots' : ∃ i ∈ paths'.toList, i ∈ env'.roots := by
      obtain ⟨i, hi, hr⟩ := hroots
      exact ⟨i, (hmem i).mpr ⟨hi, fun hid => h.roots i hid hr⟩, hdry.roots ▸ hr⟩
    rw [if_pos hroots, if_pos hroots']
    exact hroot paths paths' hspec hmem
  · have hroots' : ¬∃ i ∈ paths'.toList, i ∈ env'.roots := by
      rintro ⟨i, hi, hr⟩
      exact hroots ⟨i, ((hmem i).mp hi).1, hdry.roots ▸ hr⟩
    rw [if_neg hroots, if_neg hroots', h.referrers_eq hwf hmem]
    refine (hrefs st st' paths paths' _ hspec hmem (fun i hi hr => hroots ⟨i, hi, hr⟩)
      fun y hy => (mem_referrersOf_iff hwf).mp (List.mem_filter.mp hy).1).bind ?_
    rintro b d₁ b' r₁ ⟨rfl, hcont⟩
    cases b with
    | true => exact Prog.Both.bind hcont fun _ _ _ _ hR => hR
    | false => exact hcont

/-- Two calls on a path of the store directory come to the same verdict, by induction on the depth of
the recursion in the first run. -/
theorem tryToDelete_predicts (hdry : DryRunOf env env') (hwf : db.WellFormed)
    (hdisk : ∀ p ∈ db.graph.valid, p ∈ disk) :
    ∀ (n m : ℕ) (path : Path) (d r : GCState), path ∈ disk → Predicts env db disk d r →
      Prog.Both (tryToDelete env n path) (tryToDelete env' m path) d r
        (SameVerdict env db disk path d) := by
  intro n
  induction n with
  | zero => exact fun _ _ _ _ _ _ => Prog.both_throw_left
  | succ n ih =>
    intro m path d r hpath h
    cases m with
    | zero => exact Prog.both_throw_right
    | succ m =>
      refine both_tryToDelete hdry hwf h hpath
        (fun b => ⟨rfl, h, fun _ => id, fun _ _ => Or.inl⟩)
        (fun paths paths' _ hmem => ⟨rfl, h.markLive hdry fun q hq => by simp [hmem, hq],
          fun _ => id, fun _ _ => Or.inl⟩) ?_
      intro st st' paths paths' referrers hpaths hmem hroots hreferrers
      have hleft : ∀ {d₁ : GCState}, (∀ x ∈ d.deleted, x ∈ d₁.deleted) →
          ∀ q, q ∉ d₁.deleted → (q ∈ paths' ↔ q ∈ paths) := fun hgrows q hq =>
        (hmem q).trans (and_iff_left fun hqd => hq (hgrows q hqd))
      -- an entry that is not valid has no referrers
      have hvalid : ∀ y ∈ referrers, path ∈ db.graph.valid := fun y hy => by
        obtain ⟨x, hx, hyx⟩ := hreferrers y hy
        rcases hpaths with ⟨hval, -⟩ | ⟨-, hself⟩
        · exact hval
        · exact (hself x).mp hx ▸ (db.graph.mem_valid_of_refers hyx).2
      refine (Prog.Both.all_filter (I := fun d₁ r₁ => Predicts env db disk d₁ r₁ ∧
        (∀ x ∈ d.deleted, x ∈ d₁.deleted) ∧
        (path ∉ db.graph.valid → ∀ x ∈ d₁.deleted, x ∈ d.deleted)) ?_ ?_ d r
        ⟨h, fun _ => id, fun _ _ => id⟩).mono ?_
      · -- the first run asks about the referrers that are gone, too
        rintro y - hgone d₁ r₁ hI
        have hyd : y ∈ d.deleted := by simpa using hgone
        refine (tryToDelete_of_deleted (hI.2.1 y hyd) n).mono ?_ fun _ _ _ => trivial
        rintro b _ ⟨hb, rfl⟩
        exact ⟨hb, hI⟩
      · rintro y hy - d₁ r₁ ⟨h₁, hgrows, -⟩
        obtain ⟨x, -, hyx⟩ := hreferrers y hy
        refine (ih m y d₁ r₁ (hdisk y (db.graph.mem_valid_of_refers hyx).1) h₁).mono ?_
        rintro b d₂ b' r₂ h₂
        exact ⟨h₂.verdict, h₂.predicts, fun z hz => h₂.grows z (hgrows z hz),
          fun hinval => absurd (hvalid y hy) hinval⟩
      · rintro b d₁ b' r₁ ⟨rfl, h₁, hgrows, hsmall⟩
        refine ⟨rfl, ?_⟩
        cases b with
        | false =>
          exact ⟨rfl, h₁.markLive hdry (hleft hgrows), hgrows,
            fun hinval x hx => Or.inl (hsmall hinval x hx)⟩
        | true =>
          refine Prog.Both.of_ends (deletePaths_asks hdry.asks st paths)
            (deletePaths_deletes hdry.deletes h₁.wellFormed st' paths') ?_
          rintro _ d₂ _ r₂ ⟨hdb, hdisk₂, hlive, hdeleted, hreported⟩ hr₂
          refine ⟨rfl, h₁.delete hpaths hroots (hleft hgrows) hdb hdisk₂ hlive hdeleted hreported
            hr₂, fun x hx => (hdeleted x).mpr (Or.inl (hgrows x hx)), fun hinval x hx => ?_⟩
          rcases (hdeleted x).mp hx with hx | hx
          · exact Or.inl (hsmall hinval x hx)
          · exact Or.inr ((hpaths.resolve_left fun hval => hinval hval.1).2 x |>.mp hx)

/-! ### Runs -/

section

variable {fuel fuel' : ℕ} {dirents : List Path} {shuffle : List Path → List Path}

/-- Reading the store directory: the entries that are deleted at once are not valid. -/
theorem readEntries_predicts (hdry : DryRunOf env env') (hwf : db.WellFormed)
    (hdisk : ∀ p ∈ db.graph.valid, p ∈ disk) (hdirents : ∀ p ∈ dirents, p ∈ disk) :
    ∀ (entries : List Path) (d r : GCState), (∀ p ∈ entries, p ∈ disk) → Predicts env db disk d r →
      (∀ x ∈ d.deleted, x ∉ db.graph.valid) →
      Prog.Both (readEntries env fuel dirents entries) (readEntries env' fuel' dirents entries) d r
        fun es d' es' r' => es = es' ∧ (∀ p ∈ es, p ∈ disk) ∧ Predicts env db disk d' r' := by
  induction dirents with
  | nil => exact fun entries d r hentries h _ => ⟨rfl, hentries, h⟩
  | cons path rest ih =>
    intro entries d r hentries h hinvalid
    have hpath : path ∈ disk := hdirents path List.mem_cons_self
    refine Prog.Both.bind (R := fun es d' es' r' => es = es' ∧ (∀ p ∈ es, p ∈ disk) ∧
      Predicts env db disk d' r' ∧ ∀ x ∈ d'.deleted, x ∉ db.graph.valid) ?_ ?_
    · refine Prog.both_get_bind ?_
      have hsame : r.db.isValidPath path = d.db.isValidPath path := by
        rw [h.db_eq, Bool.eq_iff_iff, Database.isValidPath_iff, Database.isValidPath_iff, h.graph]
        exact ⟨fun hval => hval.1, fun hval => ⟨hval, fun hx => hinvalid path hx hval⟩⟩
      rw [hsame]
      split_ifs with hval
      · refine ⟨rfl, fun p hp => ?_, h, hinvalid⟩
        rcases List.mem_append.mp hp with hp | hp
        · exact hentries p hp
        · exact List.mem_singleton.mp hp ▸ hpath
      · have hnot : path ∉ db.graph.valid := fun hp =>
          hval (Database.isValidPath_iff.mpr (h.db_eq ▸ hp))
        refine (tryToDelete_predicts hdry hwf hdisk fuel fuel' path d r hpath h).bind ?_
        rintro b d' b' r' h'
        refine ⟨rfl, hentries, h'.predicts, fun x hx => ?_⟩
        rcases h'.invalid hnot x hx with hx | rfl
        · exact hinvalid x hx
        · exact hnot
    · rintro es d' es' r' ⟨rfl, hes, h', hinvalid'⟩
      exact ih (fun p hp => hdirents p (List.mem_cons_of_mem path hp)) es d' r' hes h' hinvalid'

/-- The dry run predicts both passes over the directory. -/
theorem deleteEntries_predicts (fuel fuel' : ℕ) (hdry : DryRunOf env env') (hwf : db.WellFormed)
    (hdisk : ∀ p ∈ db.graph.valid, p ∈ disk) (hdirents : ∀ p ∈ dirents, p ∈ disk)
    (hshuffle : ∀ l, (shuffle l).Perm l) (h : Predicts env db disk d r)
    (hinvalid : ∀ x ∈ d.deleted, x ∉ db.graph.valid) :
    Prog.Both (deleteEntries env fuel dirents shuffle) (deleteEntries env' fuel' dirents shuffle) d r
      fun _ d' _ r' => Predicts env db disk d' r' := by
  refine (readEntries_predicts hdry hwf hdisk hdirents [] d r (by simp) h hinvalid).bind ?_
  rintro es d₁ es' r₁ ⟨rfl, hes, h₁⟩
  refine Prog.Both.each (fun p hp d₂ r₂ h₂ => ?_) d₁ r₁ h₁
  have hp : p ∈ disk := hes p ((hshuffle es).mem_iff.mp hp)
  exact (tryToDelete_predicts hdry hwf hdisk fuel fuel' p d₂ r₂ hp h₂).bind
    fun _ _ _ _ h₃ => h₃.predicts

/-- A run that only asks fails only for lack of depth, and renames nothing. -/
theorem deleteEntries_asks (fuel : ℕ) (dirents : List Path) (shuffle : List Path → List Path)
    (hask : env.options.action = .gcReturnDead) (hwf : db.WellFormed) (hac : db.graph.Acyclic)
    (hpaths : db.StorePathsOnly env.cfg) (hs : s.db = db) (hinv : ∀ p, p ∉ s.invalidated) :
    Prog.Ends (deleteEntries env fuel dirents shuffle) s (fun _ s' => ∀ p, p ∉ s'.invalidated)
      fun e _ => e = .outOfFuel := by
  refine (ends_deleteEntries (I := fun s => s.db = db ∧ ∀ p, p ∉ s.invalidated)
    (tryToDelete_preserves env ?_ ?_ ?_ ?_ ?_ fuel) dirents shuffle ⟨hs, hinv⟩).mono
    (fun _ _ h => h.2) fun _ _ => id
  · exact fun s hs => hs.1 ▸ hwf
  · exact fun _ _ hs => hs
  · intro st i s hs
    rw [deletePath, shouldDelete, hask]
    exact hs
  · exact fun _ _ => rfl
  · exact fun s hs => Or.inl ⟨hs.1 ▸ hpaths, topoSortPaths_isOk (hs.1 ▸ hwf) (hs.1 ▸ hac)⟩

end

/-- The options of the run that only asks. -/
def GCOptions.dryRun (options : GCOptions) : GCOptions := { options with action := .gcReturnDead }

/-- The options of the run that deletes all dead paths without a limit. -/
def GCOptions.realRun (options : GCOptions) : GCOptions :=
  { options with action := .gcDeleteDead, maxFreed := 0xffffffffffffffff }

/-- For every order of the entries, if the recursions of a run that only asks and of a run that deletes
without a limit end, then both return, and the first one reports what the second one removes from the
store. -/
def Predicted (settings : GCSettings) (options : GCOptions) (permRoots tempRoots : PathSet)
    (db : Database) (disk : SortedMap Path StoreEntry) : Prop :=
  ∀ (fuel fuel' : ℕ) (dirents : List Path) (shuffle : List Path → List Path),
    dirents.Perm disk.keys → (∀ l, (shuffle l).Perm l) →
    let dry := collectGarbage settings options.dryRun permRoots tempRoots fuel dirents shuffle
      (GCState.init db disk)
    let real := collectGarbage settings options.realRun permRoots tempRoots fuel' dirents shuffle
      (GCState.init db disk)
    dry.1 ≠ .error .outOfFuel → real.1 ≠ .error .outOfFuel →
      dry.1 = .ok () ∧ real.1 = .ok () ∧ ∀ x, x ∈ dry.2.paths ↔ RemovedBy db disk real.2 x

section

variable {settings : GCSettings} {options : GCOptions} {permRoots tempRoots : PathSet} {fuel : ℕ}
  {dirents : List Path} {shuffle : List Path → List Path}

/-- The environments of the two runs differ in the action only. -/
theorem dryRunOf (settings : GCSettings) (options : GCOptions) (permRoots tempRoots : PathSet) :
    DryRunOf (gcEnv settings options.dryRun permRoots tempRoots)
      (gcEnv settings options.realRun permRoots tempRoots) := by
  refine ⟨rfl, rfl, rfl, ?_, rfl, rfl⟩
  simp [gcEnv, GCOptions.dryRun, GCOptions.realRun]

/-- The loops of the run that only asks. -/
theorem deleteEntries_dryRun (h : GCInput settings db disk) :
    Prog.Ends (deleteEntries (gcEnv settings options.dryRun permRoots tempRoots) fuel dirents shuffle)
      (GCState.init db disk) (fun _ s' => ∀ p, p ∉ s'.invalidated) fun e _ => e = .outOfFuel :=
  deleteEntries_asks fuel dirents shuffle rfl h.wellFormed h.acyclic h.storePaths rfl
    (by simp [GCState.init])

/-- If components are apart, the loops of the run that deletes fail only for lack of depth, too. -/
theorem deleteEntries_realRun (h : GCInput settings db disk)
    (hapart : db.graph.ComponentsApart settings.keep
      {r | r ∈ (gcEnv settings options.realRun permRoots tempRoots).roots})
    (hdirents : dirents.Perm disk.keys) (hshuffle : ∀ l, (shuffle l).Perm l) :
    Prog.Ends (deleteEntries (gcEnv settings options.realRun permRoots tempRoots) fuel dirents shuffle)
      (GCState.init db disk) (fun _ s' => ∀ x ∈ s'.invalidated, x ∈ s'.disk)
      fun e _ => e = .outOfFuel := by
  have hrun := h.unlimitedRun options.realRun rfl rfl permRoots tempRoots
  have hroots : ∀ p, p ∈ (gcEnv settings options.realRun permRoots tempRoots).roots ↔
      p ∈ {r | r ∈ (gcEnv settings options.realRun permRoots tempRoots).roots} := fun _ => Iff.rfl
  have hinit : ExactState (gcEnv settings options.realRun permRoots tempRoots) db.graph disk
      (db.graph.Kept settings.keep {r | r ∈ (gcEnv settings options.realRun permRoots tempRoots).roots})
      (fun _ => True) (GCState.init db disk) := h.exactState_init _
  refine (deleteEntries_exact fuel hrun (fun _ _ => trivial) (fun path s hpath hs => ?_)
    (mem_dirents_of_perm h hdirents) hshuffle hinit rfl (by simp [GCState.init])).mono
    (fun _ _ hs' => hs'.1.invalidated_onDisk) fun _ _ => id
  exact (tryToDelete_apart hrun hroots hapart (marksOnly_true _ _) fuel path s hpath hs).mono
    (fun _ _ hv => hv.1) fun _ _ => id

end

/-- If components are apart, the run that only asks predicts the run that deletes. -/
theorem predicted_of_apart {settings : GCSettings} {options : GCOptions} {permRoots tempRoots : PathSet}
    (h : GCInput settings db disk) (hfreed : options.maxFreed > 0)
    (hapart : db.graph.ComponentsApart settings.keep
      {r | r ∈ (gcEnv settings options.realRun permRoots tempRoots).roots}) :
    Predicted settings options permRoots tempRoots db disk := by
  intro fuel fuel' dirents shuffle hdirents hshuffle dry real hdryEnds hrealEnds
  have hdryFreed : options.dryRun.maxFreed > 0 := hfreed
  have hrealFreed : options.realRun.maxFreed > 0 := by simp [GCOptions.realRun]
  have hdryAction : options.dryRun.action ≠ .gcDeleteSpecific := by simp [GCOptions.dryRun]
  have hrealAction : options.realRun.action ≠ .gcDeleteSpecific := by simp [GCOptions.realRun]
  -- both runs return
  have hasks : Prog.Ends (deleteEntries (gcEnv settings options.dryRun permRoots tempRoots) fuel dirents
      shuffle) (GCState.init db disk) _ _ := deleteEntries_dryRun h
  have hdeletes : Prog.Ends (deleteEntries (gcEnv settings options.realRun permRoots tempRoots) fuel'
      dirents shuffle) (GCState.init db disk) _ _ := deleteEntries_realRun h hapart hdirents hshuffle
  have hdry : dry.1 = .ok () := Prog.fst_eq_ok (ends_collectGarbage hdryAction hdryFreed hasks
    fun s' hs' x hx => absurd hx (hs'.resolve_right (by simp) x)) hdryEnds
  have hreal : real.1 = .ok () := Prog.fst_eq_ok (ends_collectGarbage hrealAction hrealFreed hdeletes
    fun s' hs' => hs'.resolve_right (by simp)) hrealEnds
  refine ⟨hdry, hreal, fun x => ?_⟩
  -- the states at the end of their loops are related
  obtain ⟨d, hd, -, hcleand⟩ := collectGarbage_returns
    (ends_collectUnderLock_entries hdryAction hdryFreed Prog.ends_self) hdry
  obtain ⟨r, hr, hrdisk, hcleanr⟩ := collectGarbage_returns
    (ends_collectUnderLock_entries hrealAction hrealFreed Prog.ends_self) hreal
  replace hd := hd.resolve_right fun he => absurd (hasks.of_error he) (by simp)
  replace hr := hr.resolve_right fun he => absurd (hdeletes.of_error he) (by simp)
  have hinit : Predicts (gcEnv settings options.dryRun permRoots tempRoots) db disk
      (GCState.init db disk) (GCState.init db disk) := by
    constructor <;> simp [GCState.init, h.wellFormed, StoreGraph.KeepClosed]
  have hpredicts := (deleteEntries_predicts fuel fuel' (dryRunOf settings options permRoots tempRoots)
    h.wellFormed h.onDisk (fun p hp => hdirents.mem_iff.mp hp) hshuffle hinit
    (by simp [GCState.init])).of_ok hd hr
  have htraced := (ends_deleteEntries (tryToDelete_traced h.freshNames rfl fuel') dirents shuffle
    (traced_init h.wellFormed)).of_ok hr
  calc x ∈ dry.2.paths ↔ x ∈ d.paths := by rw [hcleand.paths]
    _ ↔ x ∈ r.deleted := (hpredicts.reported x).trans (hpredicts.deleted x).symm
    _ ↔ x ∈ real.2.paths := by rw [hcleanr.paths, htraced.reported]
    _ ↔ RemovedBy db disk real.2 x := htraced.mem_paths_iff h.freshNames hrdisk hcleanr x

/-- If the run that only asks predicts the run that deletes, components are apart: a run that starts with
a dead path returns only if nothing of its component has been removed before it. -/
theorem Predicted.apart {settings : GCSettings} {options : GCOptions} {permRoots tempRoots : PathSet}
    (h : GCInput settings db disk) (hcomp : db.graph.ComponentsAcyclic settings.keep)
    (hpredicted : Predicted settings options permRoots tempRoots db disk) :
    db.graph.ComponentsApart settings.keep
      {r | r ∈ (gcEnv settings options.realRun permRoots tempRoots).roots} := by
  intro p hp hdead q hpq
  have hkeep := (dryRunOf settings options permRoots tempRoots).keep
  obtain ⟨N, hN⟩ := collectGarbage_terminates settings options.dryRun permRoots tempRoots disk
    h.wellFormed h.acyclic (hkeep ▸ hcomp.rootless)
  obtain ⟨N', hN'⟩ := collectGarbage_terminates settings options.realRun permRoots tempRoots disk
    h.wellFormed h.acyclic hcomp.rootless
  obtain ⟨-, hok, -⟩ := hpredicted N N' disk.keys (moveToFront p) (.refl _) (moveToFront_perm p)
    (hN N le_rfl _ _) (hN' N' le_rfl _ _)
  have hend := ends_collectUnderLock_entries (by simp [GCOptions.realRun]) (by simp [GCOptions.realRun])
    (deleteEntries_sweeps N' (h.unlimitedRun options.realRun rfl rfl permRoots tempRoots)
      (fun _ => Iff.rfl) (mem_dirents_of_perm h (.refl _)) (h.exactState_init _) rfl
      (by simp [GCState.init]) hp hdead)
  obtain ⟨s₁, hs₁, -⟩ := collectGarbage_returns hend hok
  exact (hs₁.resolve_right fun hne => hne rfl).disjoint hpq

/-- A store with a derivation that has its output among its inputs, as is possible for an output with a
fixed hash, and another path. -/
def fixedOutputStore : Database where
  validPaths := [⟨1, str "/nix/store/a", sampleHashText, 1, none, none⟩,
    ⟨2, str "/nix/store/a.drv", sampleHashText, 1, none, none⟩,
    ⟨3, str "/nix/store/b", sampleHashText, 1, none, none⟩]
  refs := [(2, 1)]
  derivationOutputs := [⟨2, str "out", str "/nix/store/a"⟩]
  nextId := 4

/-- The entries of its directory. -/
def fixedOutputDisk : SortedMap Path StoreEntry :=
  .ofList [(str "/nix/store/a", ⟨false, 512⟩), (str "/nix/store/a.drv", ⟨false, 512⟩),
    (str "/nix/store/b", ⟨false, 512⟩)]

/-- The sample is well formed. -/
theorem wellFormed_fixedOutputStore : fixedOutputStore.WellFormed := by
  constructor <;> decide

/-- The sample is acyclic. -/
theorem acyclic_fixedOutputStore : fixedOutputStore.graph.Acyclic :=
  Database.acyclic_of_refs_descend wellFormed_fixedOutputStore (by decide)

/-- The valid paths of the sample are on disk. -/
theorem valid_fixedOutputStore : ∀ p ∈ fixedOutputStore.graph.valid,
    isStorePath defaultConfig p = true ∧ p ∈ fixedOutputDisk := by
  rintro p ⟨r, hr, rfl⟩
  have hall : ∀ r ∈ fixedOutputStore.validPaths,
      isStorePath defaultConfig r.path = true ∧ r.path ∈ fixedOutputDisk := by decide
  exact hall r hr

/-- The sample is an input of the collector. -/
theorem gcInput_usedOutputStore (keep : KeepFlags) :
    GCInput ⟨defaultConfig, keep, str "1", fun _ => false⟩ usedOutputStore usedOutputDisk := by
  have hpaths : ∀ r ∈ usedOutputStore.validPaths, isStorePath defaultConfig r.path = true ∧
      r.path ∈ usedOutputDisk ∧ r.path ++ str "-gc-" ++ str "1" ∉ usedOutputDisk := by decide
  have hlinks : linksDir defaultConfig ∉ usedOutputStore.graph.valid := by decide
  refine ⟨wellFormed_usedOutputStore,
    Database.acyclic_of_refs_descend wellFormed_usedOutputStore (by decide), ?_, ?_, hlinks, ?_⟩
  all_goals rintro p ⟨r, hr, rfl⟩
  · exact (hpaths r hr).1
  · exact (hpaths r hr).2.1
  · exact (hpaths r hr).2.2

end Nix
