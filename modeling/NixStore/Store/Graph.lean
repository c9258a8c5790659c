import NixStore.Lib.Relations
import NixStore.Store.Database

/-!
# The graph behind the database

The garbage collector and the cycle check only see the database through its queries.  `StoreGraph`
is what the queries show: which paths are valid, which path refers to which, and which valid
derivation declares which output.  `Database.WellFormed` collects the constraints of the schema, and
under them the queries and the deletion of a path are expressed in terms of the graph.
-/

namespace Nix

/-- Valid paths, references between them, and the outputs that valid derivations declare. -/
@[ext]
structure StoreGraph where
  valid : Set Path
  refers : Path → Path → Prop
  derives : Path → Path → Prop
  /-- References are between valid paths. -/
  mem_valid_of_refers : ∀ {u v}, refers u v → u ∈ valid ∧ v ∈ valid
  /-- Only valid derivations are known, but their outputs need not be valid. -/
  mem_valid_of_derives : ∀ {d o}, derives d o → d ∈ valid

namespace StoreGraph

/-- A reference to another path. -/
def ProperRef (g : StoreGraph) (u v : Path) : Prop := g.refers u v ∧ v ≠ u

/-- There is no cycle of references apart from self-references. -/
def Acyclic (g : StoreGraph) : Prop := ∀ p, ¬ Relation.TransGen g.ProperRef p p

/-- The graph without the paths of a set. -/
def without (g : StoreGraph) (D : Set Path) : StoreGraph where
  valid := g.valid \ D
  refers u v := g.refers u v ∧ u ∉ D ∧ v ∉ D
  derives d o := g.derives d o ∧ d ∉ D
  mem_valid_of_refers h :=
    ⟨⟨(g.mem_valid_of_refers h.1).1, h.2.1⟩, ⟨(g.mem_valid_of_refers h.1).2, h.2.2⟩⟩
  mem_valid_of_derives h := ⟨g.mem_valid_of_derives h.1, h.2⟩

/-- Removing nothing. -/
@[simp] theorem without_empty (g : StoreGraph) : g.without ∅ = g := by
  ext <;> simp [StoreGraph.without]

/-- Removing two sets one after the other. -/
theorem without_without (g : StoreGraph) (D D' : Set Path) :
    (g.without D).without D' = g.without (D ∪ D') := by
  ext u v
  · simp [StoreGraph.without, and_assoc]
  · simp only [StoreGraph.without, Set.mem_union, not_or]
    tauto
  · simp [StoreGraph.without, and_assoc]

/-- Removing a path that is not valid changes nothing. -/
theorem without_singleton_of_notMem {g : StoreGraph} {p : Path} (hp : p ∉ g.valid) :
    g.without {p} = g := by
  ext u v
  · simp only [StoreGraph.without, Set.mem_sdiff, Set.mem_singleton_iff, and_iff_left_iff_imp]
    exact fun hu h => hp (h ▸ hu)
  · simp only [StoreGraph.without, Set.mem_singleton_iff, and_iff_left_iff_imp]
    intro h
    exact ⟨fun hu => hp (hu ▸ (g.mem_valid_of_refers h).1),
      fun hv => hp (hv ▸ (g.mem_valid_of_refers h).2)⟩
  · simp only [StoreGraph.without, Set.mem_singleton_iff, and_iff_left_iff_imp]
    exact fun h hu => hp (hu ▸ g.mem_valid_of_derives h)

/-- Only the valid paths of the set matter. -/
theorem without_inter_valid (g : StoreGraph) (D : Set Path) :
    g.without {x | x ∈ g.valid ∧ x ∈ D} = g.without D := by
  ext u v
  · simp only [StoreGraph.without, Set.mem_sdiff, Set.mem_ofPred_eq]
    tauto
  · simp only [StoreGraph.without, Set.mem_ofPred_eq]
    have := g.mem_valid_of_refers (u := u) (v := v)
    tauto
  · simp only [StoreGraph.without, Set.mem_ofPred_eq]
    have := g.mem_valid_of_derives (d := u) (o := v)
    tauto

/-- An acyclic graph stays so when paths are removed. -/
theorem Acyclic.without {g : StoreGraph} (h : g.Acyclic) (D : Set Path) : (g.without D).Acyclic :=
  fun p hp => h p (hp.lift id fun _ _ huv => ⟨huv.1.1, huv.2⟩)

end StoreGraph

namespace Database

/-- The graph that the queries show. -/
def graph (db : Database) : StoreGraph where
  valid := {p | ∃ r ∈ db.validPaths, r.path = p}
  refers u v := ∃ r ∈ db.validPaths, ∃ q ∈ db.validPaths,
    r.path = u ∧ q.path = v ∧ (r.id, q.id) ∈ db.refs
  derives d o := ∃ r ∈ db.validPaths, r.path = d ∧
    ∃ out ∈ db.derivationOutputs, out.drv = r.id ∧ out.path = o
  mem_valid_of_refers := by
    rintro u v ⟨r, hr, q, hq, hru, hqv, -⟩
    exact ⟨⟨r, hr, hru⟩, ⟨q, hq, hqv⟩⟩
  mem_valid_of_derives := by
    rintro d o ⟨r, hr, hrd, -⟩
    exact ⟨r, hr, hrd⟩

instance (db : Database) (p : Path) : Decidable (p ∈ db.graph.valid) :=
  inferInstanceAs (Decidable (∃ r ∈ db.validPaths, r.path = p))

instance (db : Database) (u v : Path) : Decidable (db.graph.refers u v) :=
  inferInstanceAs (Decidable (∃ r ∈ db.validPaths, ∃ q ∈ db.validPaths,
    r.path = u ∧ q.path = v ∧ (r.id, q.id) ∈ db.refs))

instance (db : Database) (d o : Path) : Decidable (db.graph.derives d o) :=
  inferInstanceAs (Decidable (∃ r ∈ db.validPaths, r.path = d ∧
    ∃ out ∈ db.derivationOutputs, out.drv = r.id ∧ out.path = o))

/-- The constraints of the schema: paths and ids are unique, new ids are new, the foreign keys point
to rows, and outputs belong to derivations. -/
structure WellFormed (db : Database) : Prop where
  /-- Every path has at most one row. -/
  paths_nodup : (db.validPaths.map ValidPathRow.path).Nodup
  ids_nodup : (db.validPaths.map ValidPathRow.id).Nodup
  ids_lt : ∀ r ∈ db.validPaths, r.id < db.nextId
  /-- Both ends of a reference are rows of `ValidPaths`. -/
  refs_valid : ∀ e ∈ db.refs,
    (∃ r ∈ db.validPaths, r.id = e.1) ∧ ∃ r ∈ db.validPaths, r.id = e.2
  /-- Every output belongs to a valid derivation. -/
  outputs_valid : ∀ o ∈ db.derivationOutputs,
    ∃ r ∈ db.validPaths, r.id = o.drv ∧ isDerivation r.path = true

/-- All valid paths are paths of the store. -/
def StorePathsOnly (db : Database) (cfg : StoreConfig) : Prop :=
  ∀ p ∈ db.graph.valid, isStorePath cfg p = true

/-- The empty database is well formed. -/
theorem wellFormed_empty : Database.empty.WellFormed := by
  constructor <;> simp [Database.empty]

variable {db : Database}

/-! ### Rows are determined by their path and by their id -/

/-- A path has one row. -/
theorem WellFormed.eq_of_path_eq (h : db.WellFormed) {r q : ValidPathRow}
    (hr : r ∈ db.validPaths) (hq : q ∈ db.validPaths) (heq : r.path = q.path) : r = q :=
  List.inj_on_of_nodup_map h.paths_nodup hr hq heq

/-- An id has one row. -/
theorem WellFormed.eq_of_id_eq (h : db.WellFormed) {r q : ValidPathRow}
    (hr : r ∈ db.validPaths) (hq : q ∈ db.validPaths) (heq : r.id = q.id) : r = q :=
  List.inj_on_of_nodup_map h.ids_nodup hr hq heq

/-- Looking up a path finds its row. -/
theorem row?_eq_some_iff (h : db.WellFormed) {p : Path} {r : ValidPathRow} :
    db.row? p = some r ↔ r ∈ db.validPaths ∧ r.path = p := by
  constructor
  · intro hr
    exact ⟨List.mem_of_find?_eq_some hr, by simpa using List.find?_some hr⟩
  · rintro ⟨hr, hp⟩
    cases hf : db.row? p with
    | none => exact absurd hp (by simpa using List.find?_eq_none.mp hf r hr)
    | some q =>
      have hq : q.path = p := by simpa using List.find?_some hf
      rw [h.eq_of_path_eq (List.mem_of_find?_eq_some hf) hr (hq.trans hp.symm)]

/-- Looking up fails for the paths that are not valid. -/
theorem row?_eq_none_iff {p : Path} : db.row? p = none ↔ p ∉ db.graph.valid := by
  simp [row?, graph]

/-! ### The queries -/

/-- `isValidPath` says what is valid. -/
theorem isValidPath_iff {p : Path} : db.isValidPath p = true ↔ p ∈ db.graph.valid := by
  rw [isValidPath, ← not_iff_not, ← row?_eq_none_iff]
  simp

/-- `isValidPath` says what is not valid. -/
theorem isValidPath_eq_false_iff {p : Path} : db.isValidPath p = false ↔ p ∉ db.graph.valid := by
  rw [← isValidPath_iff, Bool.not_eq_true]

/-- A valid path has a row. -/
theorem exists_row?_of_mem_valid (h : db.WellFormed) {p : Path} (hp : p ∈ db.graph.valid) :
    ∃ r, db.row? p = some r ∧ r ∈ db.validPaths ∧ r.path = p := by
  obtain ⟨r, hr, hrp⟩ := hp
  exact ⟨r, (row?_eq_some_iff h).mpr ⟨hr, hrp⟩, hr, hrp⟩

/-- `queryValidPathId` gives the id of the row. -/
theorem queryValidPathId_eq_ok (h : db.WellFormed) {p : Path} {id : ℕ}
    (hok : db.queryValidPathId p = .ok id) : ∃ r ∈ db.validPaths, r.id = id ∧ r.path = p := by
  rw [queryValidPathId] at hok
  cases hrow : db.row? p with
  | none => simp [hrow] at hok
  | some r =>
    obtain ⟨hr, hp⟩ := (row?_eq_some_iff h).mp hrow
    exact ⟨r, hr, by simpa [hrow] using hok, hp⟩

/-- A reference is a pair of ids. -/
theorem refers_iff_of_rows (h : db.WellFormed) {r q : ValidPathRow} (hr : r ∈ db.validPaths)
    (hq : q ∈ db.validPaths) : db.graph.refers r.path q.path ↔ (r.id, q.id) ∈ db.refs := by
  constructor
  · rintro ⟨r', hr', q', hq', hrp, hqp, he⟩
    rwa [h.eq_of_path_eq hr' hr hrp, h.eq_of_path_eq hq' hq hqp] at he
  · exact fun he => ⟨r, hr, q, hq, rfl, rfl, he⟩

/-- Only derivations derive anything. -/
theorem isDerivation_of_derives (hwf : db.WellFormed) {d o : Path} (h : db.graph.derives d o) :
    isDerivation d = true := by
  obtain ⟨r, hr, rfl, out, hout, hdrv, -⟩ := h
  obtain ⟨q, hq, hqid, hder⟩ := hwf.outputs_valid out hout
  rwa [hwf.eq_of_id_eq hr hq (hdrv.symm.trans hqid.symm)]

/-- The references of a path. -/
theorem mem_references_iff (h : db.WellFormed) {u v : Path} :
    v ∈ db.references u ↔ db.graph.refers u v := by
  rw [references]
  cases hrow : db.row? u with
  | none =>
    have hu := row?_eq_none_iff.mp hrow
    simpa using fun href => hu (db.graph.mem_valid_of_refers href).1
  | some r =>
    obtain ⟨hr, rfl⟩ := (row?_eq_some_iff h).mp hrow
    simp only [referencesOf, SortedSet.mem_ofList, List.mem_filterMap, Option.ite_none_right_eq_some,
      Option.some.injEq]
    constructor
    · rintro ⟨q, hq, he, rfl⟩
      exact (refers_iff_of_rows h hr hq).mpr he
    · intro href
      obtain ⟨q, hq, rfl⟩ := (db.graph.mem_valid_of_refers href).2
      exact ⟨q, hq, (refers_iff_of_rows h hr hq).mp href, rfl⟩

/-- The referrers of a path. -/
theorem mem_queryReferrers_iff (h : db.WellFormed) {u v : Path} :
    u ∈ db.queryReferrers v ↔ db.graph.refers u v := by
  rw [queryReferrers]
  cases hrow : db.row? v with
  | none =>
    have hv := row?_eq_none_iff.mp hrow
    simpa using fun href => hv (db.graph.mem_valid_of_refers href).2
  | some r =>
    obtain ⟨hr, rfl⟩ := (row?_eq_some_iff h).mp hrow
    simp only [SortedSet.mem_ofList, List.mem_filterMap, Option.ite_none_right_eq_some,
      Option.some.injEq]
    constructor
    · rintro ⟨q, hq, he, rfl⟩
      exact (refers_iff_of_rows h hq hr).mpr he
    · intro href
      obtain ⟨q, hq, rfl⟩ := (db.graph.mem_valid_of_refers href).1
      exact ⟨q, hq, (refers_iff_of_rows h hq hr).mp href, rfl⟩

/-- The derivers of a path. -/
theorem mem_queryValidDerivers_iff {d o : Path} :
    d ∈ db.queryValidDerivers o ↔ db.graph.derives d o := by
  simp only [queryValidDerivers, SortedSet.mem_ofList, List.mem_filterMap, List.any_eq_true,
    decide_eq_true_eq, Option.ite_none_right_eq_some, Option.some.injEq, graph]
  constructor
  · rintro ⟨r, hr, hout, rfl⟩
    exact ⟨r, hr, rfl, hout⟩
  · rintro ⟨r, hr, rfl, hout⟩
    exact ⟨r, hr, hout, rfl⟩

/-- `queryDerivationOutputs` gives the outputs of a valid derivation. -/
theorem queryDerivationOutputs_eq (h : db.WellFormed) {d : Path} (hd : d ∈ db.graph.valid) :
    ∃ outputs, db.queryDerivationOutputs d = .ok outputs ∧
      ∀ o, o ∈ outputs ↔ db.graph.derives d o := by
  obtain ⟨r, hrow, hr, rfl⟩ := exists_row?_of_mem_valid h hd
  refine ⟨_, by rw [queryDerivationOutputs, queryValidPathId, hrow]; rfl, fun o => ?_⟩
  simp only [SortedSet.mem_ofList, List.mem_filterMap, Option.ite_none_right_eq_some,
    Option.some.injEq, graph]
  constructor
  · rintro ⟨out, hout, hdrv, rfl⟩
    exact ⟨r, hr, rfl, out, hout, hdrv, rfl⟩
  · rintro ⟨r', hr', hrp, out, hout, hdrv, rfl⟩
    rw [h.eq_of_path_eq hr' hr hrp] at hdrv
    exact ⟨out, hout, hdrv, rfl⟩

/-- References that always go to a smaller id have no cycle. -/
theorem acyclic_of_refs_descend (h : db.WellFormed) (hrefs : ∀ e ∈ db.refs, e.2 < e.1) :
    db.graph.Acyclic := by
  have hdescend : ∀ u v, Relation.TransGen db.graph.ProperRef u v →
      ∀ r ∈ db.validPaths, ∀ q ∈ db.validPaths, r.path = u → q.path = v → q.id < r.id := by
    intro u v huv
    induction huv with
    | single huv =>
      rintro r hr q hq rfl rfl
      exact hrefs _ ((refers_iff_of_rows h hr hq).mp huv.1)
    | tail _ hvw ih =>
      rintro r hr q hq hru rfl
      obtain ⟨m, hm, rfl⟩ := (db.graph.mem_valid_of_refers hvw.1).1
      exact (hrefs _ ((refers_iff_of_rows h hm hq).mp hvw.1)).trans (ih r hr m hm hru rfl)
  intro p hp
  obtain ⟨q, hpq, -⟩ := Relation.TransGen.head'_iff.mp hp
  obtain ⟨r, hr, hrp⟩ := (db.graph.mem_valid_of_refers hpq.1).1
  exact (hdescend p p hp r hr r hr hrp hrp).false

/-! ### Invalidation -/

/-- The rows that remain after the deletion of a row. -/
theorem WellFormed.delete (h : db.WellFormed) {r : ValidPathRow} (hr : r ∈ db.validPaths)
    (hrefs : ¬ ∃ e ∈ db.refs, e.2 = r.id ∧ e.1 ≠ r.id) :
    WellFormed { db with
      validPaths := db.validPaths.filter fun q => q.path ≠ r.path
      refs := db.refs.filter fun e => e.1 ≠ r.id
      derivationOutputs := db.derivationOutputs.filter fun o => o.drv ≠ r.id } := by
  have hkeep : ∀ q ∈ db.validPaths, q.id ≠ r.id → q.path ≠ r.path := fun q hq hid hp =>
    hid (congrArg ValidPathRow.id (h.eq_of_path_eq hq hr hp))
  constructor
  · exact (List.filter_sublist.map _).nodup h.paths_nodup
  · exact (List.filter_sublist.map _).nodup h.ids_nodup
  · exact fun q hq => h.ids_lt q (List.mem_of_mem_filter hq)
  · intro e he
    obtain ⟨he, hne⟩ := List.mem_filter.mp he
    have hne : e.1 ≠ r.id := by simpa using hne
    have hne' : e.2 ≠ r.id := fun h => hrefs ⟨e, he, h, hne⟩
    obtain ⟨⟨q, hq, hqid⟩, ⟨q', hq', hqid'⟩⟩ := h.refs_valid e he
    refine ⟨⟨q, List.mem_filter.mpr ⟨hq, ?_⟩, hqid⟩, ⟨q', List.mem_filter.mpr ⟨hq', ?_⟩, hqid'⟩⟩
    · simpa using hkeep q hq (hqid ▸ hne)
    · simpa using hkeep q' hq' (hqid' ▸ hne')
  · intro o ho
    obtain ⟨ho, hne⟩ := List.mem_filter.mp ho
    have hne : o.drv ≠ r.id := by simpa using hne
    obtain ⟨q, hq, hqid, hder⟩ := h.outputs_valid o ho
    exact ⟨q, List.mem_filter.mpr ⟨hq, by simpa using hkeep q hq (hqid ▸ hne)⟩, hqid, hder⟩

/-- The graph after the deletion of a row. -/
theorem graph_delete (h : db.WellFormed) {r : ValidPathRow} (hr : r ∈ db.validPaths) :
    graph { db with
      validPaths := db.validPaths.filter fun q => q.path ≠ r.path
      refs := db.refs.filter fun e => e.1 ≠ r.id
      derivationOutputs := db.derivationOutputs.filter fun o => o.drv ≠ r.id } =
    db.graph.without {r.path} := by
  have hid : ∀ q ∈ db.validPaths, q.path ≠ r.path → q.id ≠ r.id := fun q hq hp hid =>
    hp (congrArg ValidPathRow.path (h.eq_of_id_eq hq hr hid))
  ext u v
  · simp only [graph, StoreGraph.without, Set.mem_ofPred_eq, List.mem_filter, decide_eq_true_eq,
      Set.mem_sdiff, Set.mem_singleton_iff]
    constructor
    · rintro ⟨q, ⟨hq, hne⟩, rfl⟩
      exact ⟨⟨q, hq, rfl⟩, hne⟩
    · rintro ⟨⟨q, hq, rfl⟩, hne⟩
      exact ⟨q, ⟨hq, hne⟩, rfl⟩
  · simp only [graph, StoreGraph.without, List.mem_filter, decide_eq_true_eq,
      Set.mem_singleton_iff]
    constructor
    · rintro ⟨q, ⟨hq, hqp⟩, q', ⟨hq', hqp'⟩, rfl, rfl, he, -⟩
      exact ⟨⟨q, hq, q', hq', rfl, rfl, he⟩, hqp, hqp'⟩
    · rintro ⟨⟨q, hq, q', hq', rfl, rfl, he⟩, hqp, hqp'⟩
      exact ⟨q, ⟨hq, hqp⟩, q', ⟨hq', hqp'⟩, rfl, rfl, he, hid q hq hqp⟩
  · simp only [graph, StoreGraph.without, List.mem_filter, decide_eq_true_eq,
      Set.mem_singleton_iff]
    constructor
    · rintro ⟨q, ⟨hq, hqp⟩, rfl, out, ⟨hout, -⟩, hdrv, rfl⟩
      exact ⟨⟨q, hq, rfl, out, hout, hdrv, rfl⟩, hqp⟩
    · rintro ⟨⟨q, hq, rfl, out, hout, hdrv, rfl⟩, hqp⟩
      exact ⟨q, ⟨hq, hqp⟩, rfl, out, ⟨hout, hdrv ▸ hid q hq hqp⟩, hdrv, rfl⟩

/-- A successful deletion removes the path from the graph. -/
theorem invalidatePath_spec (h : db.WellFormed) {p : Path} {db' : Database}
    (hok : db.invalidatePath p = .ok db') :
    db'.WellFormed ∧ db'.graph = db.graph.without {p} := by
  rw [invalidatePath] at hok
  cases hrow : db.row? p with
  | none =>
    rw [hrow] at hok
    obtain rfl : db = db' := by simpa using hok
    exact ⟨h, (StoreGraph.without_singleton_of_notMem (row?_eq_none_iff.mp hrow)).symm⟩
  | some r =>
    obtain ⟨hr, rfl⟩ := (row?_eq_some_iff h).mp hrow
    simp only [hrow] at hok
    split_ifs at hok with hrefs
    obtain rfl := Outcome.ok.inj hok
    exact ⟨h.delete hr hrefs, graph_delete h hr⟩

/-- A path that no other path refers to can be deleted. -/
theorem invalidatePath_isOk (h : db.WellFormed) {p : Path}
    (hp : ∀ u, db.graph.refers u p → u = p) : ∃ db', db.invalidatePath p = .ok db' := by
  rw [invalidatePath]
  cases hrow : db.row? p with
  | none => exact ⟨db, rfl⟩
  | some r =>
    obtain ⟨hr, rfl⟩ := (row?_eq_some_iff h).mp hrow
    refine ⟨_, if_neg ?_⟩
    rintro ⟨e, he, he₂, he₁⟩
    obtain ⟨⟨q, hq, hqid⟩, -⟩ := h.refs_valid e he
    have href : db.graph.refers q.path r.path :=
      (refers_iff_of_rows h hq hr).mpr (by rw [hqid, ← he₂]; exact he)
    exact he₁ (hqid ▸ congrArg ValidPathRow.id (h.eq_of_path_eq hq hr (hp _ href)))

/-- Only a path that no other path refers to can be deleted. -/
theorem eq_of_refers_of_invalidatePath (h : db.WellFormed) {p : Path} {db' : Database}
    (hok : db.invalidatePath p = .ok db') {u : Path} (hu : db.graph.refers u p) : u = p := by
  obtain ⟨q, hq, r, hr, rfl, rfl, href⟩ := hu
  rw [invalidatePath, (row?_eq_some_iff h).mpr ⟨hr, rfl⟩] at hok
  dsimp only at hok
  split_ifs at hok with hrefs
  by_contra hne
  exact hrefs ⟨_, href, rfl, fun hid => hne (congrArg ValidPathRow.path (h.eq_of_id_eq hq hr hid))⟩

/-- What `invalidatePathChecked` does when it returns. -/
theorem invalidatePathChecked_spec (h : db.WellFormed) {cfg : StoreConfig} {p : Path}
    {db' : Database} (hok : db.invalidatePathChecked cfg p = .ok db') :
    db'.WellFormed ∧ db'.graph = db.graph.without {p} := by
  obtain ⟨-, -, hok⟩ := Outcome.bind_eq_ok.mp hok
  dsimp only at hok
  split_ifs at hok with hval hrefs
  · exact invalidatePath_spec h hok
  · obtain rfl : db = db' := by simpa using hok
    exact ⟨h, (StoreGraph.without_singleton_of_notMem (by simpa [isValidPath_iff] using hval)).symm⟩

/-- A path that was invalidated had no referrer but itself. -/
theorem eq_of_refers_of_invalidatePathChecked (h : db.WellFormed) {cfg : StoreConfig} {p : Path}
    {db' : Database} (hok : db.invalidatePathChecked cfg p = .ok db') {u : Path}
    (hu : db.graph.refers u p) : u = p := by
  obtain ⟨-, -, hok⟩ := Outcome.bind_eq_ok.mp hok
  dsimp only at hok
  split_ifs at hok with hval hrefs
  · exact eq_of_refers_of_invalidatePath h hok hu
  · exact absurd (isValidPath_iff.mpr (db.graph.mem_valid_of_refers hu).2) hval

/-- `invalidatePathChecked` returns on a path of the store that no other path refers to. -/
theorem invalidatePathChecked_isOk (h : db.WellFormed) {cfg : StoreConfig} {p : Path}
    (hcfg : isStorePath cfg p = true) (hp : ∀ u, db.graph.refers u p → u = p) :
    ∃ db', db.invalidatePathChecked cfg p = .ok db' := by
  rw [invalidatePathChecked, assertStorePath, if_pos hcfg, Outcome.ok_bind]
  dsimp only
  split_ifs with hval hrefs
  · obtain ⟨u, hu⟩ := List.exists_mem_of_ne_nil _ hrefs
    rw [SortedSet.mem_toList, SortedSet.mem_erase, mem_queryReferrers_iff h] at hu
    exact absurd (hp u hu.2) hu.1
  · exact invalidatePath_isOk h hp
  · exact ⟨db, rfl⟩

end Database

end Nix
