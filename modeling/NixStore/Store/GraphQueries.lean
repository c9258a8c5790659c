import NixStore.Store.Closure
import NixStore.Store.Graph

/-!
# Closures and topological orders on the local store

`computeFSClosure` and `topoSortPaths` of `misc.cc` with the queries of the local store, in terms of
the graph behind the database: the closure is what can be reached (`Database.computeFSClosure_exact`),
and the sort fails on cycles only and otherwise orders the paths (`Database.topoSortPaths_exact`).
-/

namespace Nix

namespace StoreGraph

/-- An edge of the closure relation: a reference, followed forwards or backwards, or from a derivation
to one of its outputs that is valid. -/
def ClosureEdge (g : StoreGraph) (flipDirection includeOutputs : Bool) (u v : Path) : Prop :=
  (if flipDirection then g.refers v u else g.refers u v) ∨
    (includeOutputs = true ∧ isDerivation u = true ∧ g.derives u v ∧ v ∈ g.valid)

/-- A reference to another path inside a set of paths. -/
def MemberRef (g : StoreGraph) (paths : PathSet) (u v : Path) : Prop :=
  g.ProperRef u v ∧ u ∈ paths ∧ v ∈ paths

end StoreGraph

namespace Database

variable {db : Database} {cfg : StoreConfig}

/-! ### Closures -/

/-- Model of `LocalStore::queryReferences`; `queryPathInfo` also parses the hash of the row. -/
def queryReferences (db : Database) (cfg : StoreConfig) (path : Path) : Outcome Str PathSet := do
  assertStorePath cfg path
  let _ ← db.queryValidPathId path
  return db.references path

/-- The queries of `computeFSClosure` on the local store. -/
def closureStore (db : Database) (cfg : StoreConfig) : ClosureStore where
  queryReferences := db.queryReferences cfg
  queryReferrers path := do
    assertStorePath cfg path
    return db.queryReferrers path
  queryDerivationOutputs := db.queryDerivationOutputs
  isValidPath := db.isValidPath

/-- The valid paths as a set of the program. -/
def validPathSet (db : Database) : PathSet := .ofList (db.validPaths.map ValidPathRow.path)

/-- The set of valid paths is that of the graph. -/
theorem mem_validPathSet {p : Path} : p ∈ db.validPathSet ↔ p ∈ db.graph.valid := by
  simp [validPathSet, graph]

/-- A query in one direction. -/
theorem queryDirection_eq (hwf : db.WellFormed) (hpaths : db.StorePathsOnly cfg) {p : Path}
    (hp : p ∈ db.graph.valid) (flipDirection : Bool) :
    (db.closureStore cfg).queryDirection flipDirection p =
      .ok (if flipDirection then db.queryReferrers p else db.references p) := by
  obtain ⟨r, hrow, -⟩ := exists_row?_of_mem_valid hwf hp
  have hassert : assertStorePath cfg p = .ok () := if_pos (hpaths p hp)
  cases flipDirection <;>
    simp [ClosureStore.queryDirection, closureStore, queryReferences, queryValidPathId, hassert, hrow]

/-- The database answers the queries of the closure. -/
theorem closureStore_answers (hwf : db.WellFormed) (hpaths : db.StorePathsOnly cfg) :
    (db.closureStore cfg).Answers db.validPathSet where
  mem_of_isValidPath p hp := mem_validPathSet.mpr (isValidPath_iff.mp hp)
  direction flipDirection p hp := by
    refine ⟨_, queryDirection_eq hwf hpaths (mem_validPathSet.mp hp) flipDirection, fun q hq => ?_⟩
    rw [mem_validPathSet]
    cases flipDirection with
    | false => exact (db.graph.mem_valid_of_refers ((mem_references_iff hwf).mp hq)).2
    | true => exact (db.graph.mem_valid_of_refers ((mem_queryReferrers_iff hwf).mp hq)).1
  outputs p hp := by
    obtain ⟨outputs, houtputs, -⟩ := queryDerivationOutputs_eq hwf (mem_validPathSet.mp hp)
    exact ⟨outputs, houtputs⟩

/-- On valid paths the closure follows the edges of the graph. -/
theorem edge_closureStore_iff (hwf : db.WellFormed) (hpaths : db.StorePathsOnly cfg) {u v : Path}
    (hu : u ∈ db.graph.valid) {flipDirection includeOutputs : Bool} :
    (db.closureStore cfg).Edge flipDirection includeOutputs u v ↔
      db.graph.ClosureEdge flipDirection includeOutputs u v := by
  have hdir := queryDirection_eq hwf hpaths hu flipDirection
  have hrefs : v ∈ (if flipDirection then db.queryReferrers u else db.references u) ↔
      if flipDirection then db.graph.refers v u else db.graph.refers u v := by
    cases flipDirection with
    | false => exact mem_references_iff hwf
    | true => exact mem_queryReferrers_iff hwf
  obtain ⟨outputs, houtputs, hmem⟩ := queryDerivationOutputs_eq hwf hu
  constructor
  · rintro (⟨hq, hv⟩ | ⟨hincl, hdrv, hq, hv, hvalid⟩)
    · cases hdir.symm.trans hq
      exact Or.inl (hrefs.mp hv)
    · cases houtputs.symm.trans hq
      exact Or.inr ⟨hincl, hdrv, (hmem v).mp hv, isValidPath_iff.mp hvalid⟩
  · rintro (hv | ⟨hincl, hdrv, hv, hvalid⟩)
    · exact .reference hdir (hrefs.mpr hv)
    · exact .output hincl hdrv houtputs ((hmem v).mpr hv) (isValidPath_iff.mpr hvalid)

/-- The store knows edges of valid paths only. -/
theorem mem_valid_of_edge (hwf : db.WellFormed) {u v : Path} {flipDirection includeOutputs : Bool}
    (h : (db.closureStore cfg).Edge flipDirection includeOutputs u v) : u ∈ db.graph.valid := by
  have hid : ∀ id, db.queryValidPathId u = .ok id → u ∈ db.graph.valid := by
    intro id hid
    obtain ⟨r, hr, -, hpath⟩ := queryValidPathId_eq_ok hwf hid
    exact ⟨r, hr, hpath⟩
  rcases h with ⟨hq, hv⟩ | ⟨-, -, hq, -⟩
  · cases flipDirection with
    | false =>
      obtain ⟨-, -, hq⟩ := Outcome.bind_eq_ok.mp hq
      obtain ⟨id, hok, -⟩ := Outcome.bind_eq_ok.mp hq
      exact hid id hok
    | true =>
      obtain ⟨-, -, hq⟩ := Outcome.bind_eq_ok.mp hq
      cases hq
      exact (db.graph.mem_valid_of_refers ((mem_queryReferrers_iff hwf).mp hv)).2
  · obtain ⟨id, hok, -⟩ := Outcome.bind_eq_ok.mp hq
    exact hid id hok

/-- What an edge leads to is valid. -/
theorem mem_valid_of_closureEdge {u v : Path} {flipDirection includeOutputs : Bool}
    (h : db.graph.ClosureEdge flipDirection includeOutputs u v) : v ∈ db.graph.valid := by
  rcases h with h | ⟨-, -, -, hv⟩
  · cases flipDirection with
    | false => exact (db.graph.mem_valid_of_refers h).2
    | true => exact (db.graph.mem_valid_of_refers h).1
  · exact hv

/-- From a valid path the store and the graph lead to the same paths. -/
theorem reaches_closureStore_iff (hwf : db.WellFormed) (hpaths : db.StorePathsOnly cfg) {p q : Path}
    (hp : p ∈ db.graph.valid) {flipDirection includeOutputs : Bool} :
    Relation.ReflTransGen ((db.closureStore cfg).Edge flipDirection includeOutputs) p q ↔
      Relation.ReflTransGen (db.graph.ClosureEdge flipDirection includeOutputs) p q := by
  constructor
  · intro h
    refine h.lift id fun u v huv => ?_
    exact (edge_closureStore_iff hwf hpaths (mem_valid_of_edge hwf huv)).mp huv
  · intro h
    suffices hreach : q ∈ db.graph.valid ∧
        Relation.ReflTransGen ((db.closureStore cfg).Edge flipDirection includeOutputs) p q from
      hreach.2
    induction h with
    | refl => exact ⟨hp, .refl⟩
    | tail _ hstep ih =>
      exact ⟨mem_valid_of_closureEdge hstep,
        ih.2.tail ((edge_closureStore_iff hwf hpaths ih.1).mpr hstep)⟩

/-- The closure of a valid path in a closed set of paths can be computed, and it is the set and all
that can be reached from the path. -/
theorem computeFSClosure_exact (hwf : db.WellFormed) (hpaths : db.StorePathsOnly cfg)
    {flipDirection includeOutputs : Bool} {storePath : Path} (hp : storePath ∈ db.graph.valid)
    {paths : PathSet}
    (hclosed : ∀ u ∈ paths, ∀ v, db.graph.ClosureEdge flipDirection includeOutputs u v → v ∈ paths) :
    ∃ paths' : PathSet,
      (∃ n, ∀ fuel ≥ n, computeFSClosure (db.closureStore cfg) flipDirection includeOutputs fuel
        storePath paths = .ok paths') ∧
      ∀ q, q ∈ paths' ↔ q ∈ paths ∨
        Relation.ReflTransGen (db.graph.ClosureEdge flipDirection includeOutputs) storePath q := by
  have hresult : ∀ fuel paths', computeFSClosure (db.closureStore cfg) flipDirection includeOutputs
      fuel storePath paths = .ok paths' → ∀ q, q ∈ paths' ↔ q ∈ paths ∨
        Relation.ReflTransGen (db.graph.ClosureEdge flipDirection includeOutputs) storePath q := by
    intro fuel paths' h q
    rw [(explores_computeFSClosure fuel h).mem_iff fun u hu v huv => hclosed u hu v
      ((edge_closureStore_iff hwf hpaths (mem_valid_of_edge hwf huv)).mp huv),
      reaches_closureStore_iff hwf hpaths hp]
  obtain ⟨n, hn⟩ : ∃ n, n = (missingPaths db.validPathSet paths).card + 1 := ⟨_, rfl⟩
  have hterm : ∀ fuel ≥ n, ∃ paths', computeFSClosure (db.closureStore cfg) flipDirection
      includeOutputs fuel storePath paths = .ok paths' := fun fuel hfuel =>
    exists_computeFSClosure (closureStore_answers hwf hpaths) fuel includeOutputs paths storePath
      (mem_validPathSet.mpr hp) (by omega)
  obtain ⟨paths', h'⟩ := hterm n le_rfl
  refine ⟨paths', ⟨n, fun fuel hfuel => ?_⟩, hresult n paths' h'⟩
  obtain ⟨paths'', h''⟩ := hterm fuel hfuel
  -- whatever the bound is, the members are the same
  have heq : paths'' = paths' := SortedMap.ext_mem fun q =>
    (hresult fuel paths'' h'' q).trans (hresult _ paths' h' q).symm
  rw [h'', heq]

/-- A store with two paths that refer to each other, and a derivation with one of them as its
output. -/
def cyclicStore : Database where
  validPaths := [⟨1, str "/nix/store/a", sampleHashText, 1, none, none⟩,
    ⟨2, str "/nix/store/b", sampleHashText, 1, none, none⟩,
    ⟨3, str "/nix/store/a.drv", sampleHashText, 1, none, none⟩]
  refs := [(1, 2), (2, 1)]
  derivationOutputs := [⟨3, str "out", str "/nix/store/a"⟩]
  nextId := 4

/-- The sample is well formed. -/
theorem wellFormed_cyclicStore : cyclicStore.WellFormed := by
  constructor <;> decide

/-- The paths of the sample are store paths. -/
theorem storePathsOnly_cyclicStore : cyclicStore.StorePathsOnly defaultConfig := by
  rintro p ⟨r, hr, rfl⟩
  fin_cases hr <;> decide

/-- The derivation leads to its output and from there around the cycle. -/
theorem computeFSClosure_cyclicStore :
    ∃ paths' : PathSet,
      (∃ n, ∀ fuel ≥ n, computeFSClosure (cyclicStore.closureStore defaultConfig) false true fuel
        (str "/nix/store/a.drv") ∅ = .ok paths') ∧
      ∀ q, q ∈ paths' ↔ q ∈ (∅ : PathSet) ∨
        Relation.ReflTransGen (cyclicStore.graph.ClosureEdge false true) (str "/nix/store/a.drv") q :=
  computeFSClosure_exact wellFormed_cyclicStore storePathsOnly_cyclicStore (by decide)
    fun u hu => absurd hu (SortedMap.notMem_empty u)

/-! ### Topological orders -/

/-- A way through the references within a set. -/
theorem transGen_memberRef {paths : PathSet} (hwf : db.WellFormed) {u v : Path} (hu : u ∈ paths) :
    Relation.TransGen (FollowedRef db.references paths) u v ↔
      Relation.TransGen (db.graph.MemberRef paths) u v := by
  have hstep : ∀ {a b}, a ∈ paths →
      (FollowedRef db.references paths a b ↔ db.graph.MemberRef paths a b) := by
    intro a b ha
    simp only [FollowedRef, StoreGraph.MemberRef, StoreGraph.ProperRef, mem_references_iff hwf, ha,
      true_and, and_assoc]
  constructor
  · intro h
    suffices hmem : v ∈ paths ∧ Relation.TransGen (db.graph.MemberRef paths) u v from hmem.2
    induction h with
    | single h => exact ⟨h.2.2, .single ((hstep hu).mp h)⟩
    | tail _ h ih => exact ⟨h.2.2, ih.2.tail ((hstep ih.1).mp h)⟩
  · exact fun h => h.lift id fun a b hab => (hstep hab.2.1).mpr hab

/-- The sort throws if and only if there is a cycle of references between members of the set, apart
from self-references; otherwise it lists the members of the set, each before the members that it
leads to through members. -/
theorem topoSortPaths_exact (hwf : db.WellFormed) (paths : PathSet) :
    ((∃ e, topoSortPaths db.references paths = .error e) ↔
      ∃ p ∈ paths, Relation.TransGen (db.graph.MemberRef paths) p p) ∧
    ((¬ ∃ p ∈ paths, Relation.TransGen (db.graph.MemberRef paths) p p) →
      ∃ sorted, topoSortPaths db.references paths = .ok sorted ∧ sorted.Perm paths.toList ∧
        ∀ u v, Relation.TransGen (db.graph.MemberRef paths) u v → [u, v].Sublist sorted) := by
  have hcycle : (∃ l, topoSortPaths db.references paths = .ok l) ↔
      ¬ ∃ p ∈ paths, Relation.TransGen (db.graph.MemberRef paths) p p := by
    rw [topoSortPaths_isOk_iff]
    simp only [not_exists, not_and]
    exact forall₂_congr fun p hp => not_congr (transGen_memberRef hwf hp)
  refine ⟨?_, fun hno => ?_⟩
  · cases hsort : topoSortPaths db.references paths with
    | ok l => simpa using hcycle.mp ⟨l, hsort⟩
    | error e =>
      refine ⟨fun _ => ?_, fun _ => ⟨e, rfl⟩⟩
      by_contra hno
      obtain ⟨l, hl⟩ := hcycle.mpr hno
      cases hsort.symm.trans hl
    | diverge => exact absurd hsort topoSortPaths_ne_diverge
  · obtain ⟨sorted, hsort⟩ := hcycle.mpr hno
    obtain ⟨hmem, hnodup, hfollow⟩ := topoSortPaths_spec hsort
    refine ⟨sorted, hsort, ?_, fun u v huv => ?_⟩
    · exact (List.perm_ext_iff_of_nodup hnodup (SortedMap.keys_nodup _)).mpr hmem
    · obtain ⟨w, huw, -⟩ := Relation.TransGen.head'_iff.mp huv
      exact hfollow.sublist ((hmem u).mpr huw.2.1) ((transGen_memberRef hwf huw.2.1).mpr huv)

/-- Two paths that refer to each other cannot be sorted. -/
theorem topoSortPaths_cyclicStore : ∃ e, topoSortPaths cyclicStore.references
    (.ofList [str "/nix/store/a", str "/nix/store/b"]) = .error e :=
  (topoSortPaths_exact wellFormed_cyclicStore _).1.mpr ⟨str "/nix/store/a", by decide,
    .tail (.single (b := str "/nix/store/b") ⟨⟨by decide, by decide⟩, by decide, by decide⟩)
      ⟨⟨by decide, by decide⟩, by decide, by decide⟩⟩

end Database

end Nix
