import NixStore.Store.Graph

/-!
# The invariant of the database

Registration adds the paths of a batch and the references that it lists for them, also for paths
that were valid before.  The topological sort at its end only looks at the paths of the batch, so a
new reference of an old path can close a cycle through a path outside of the batch.
`registerValidPaths_acyclic_iff` says that this is the only way in which a registration that
succeeds leaves a cycle, and the invariant is then carried along runs of registrations and
invalidations.
-/

namespace Nix

namespace Database

variable {db db' : Database} {cfg : StoreConfig} {env : RegisterEnv}

/-- `db'` is `db` with the valid paths `P` and the references `E` added. -/
structure Extends (db db' : Database) (P : Set Path) (E : Path → Path → Prop) : Prop where
  wellFormed : db'.WellFormed
  valid : ∀ p, p ∈ db'.graph.valid ↔ p ∈ db.graph.valid ∨ p ∈ P
  refers : ∀ u v, db'.graph.refers u v ↔ db.graph.refers u v ∨ E u v

/-- A database extends itself by nothing. -/
theorem Extends.refl (h : db.WellFormed) : db.Extends db ∅ fun _ _ => False :=
  ⟨h, by simp, by simp⟩

/-- Extensions follow each other. -/
theorem Extends.trans {db'' : Database} {P Q : Set Path} {E F : Path → Path → Prop}
    (h : db.Extends db' P E) (h' : db'.Extends db'' Q F) :
    db.Extends db'' (P ∪ Q) fun u v => E u v ∨ F u v where
  wellFormed := h'.wellFormed
  valid p := by rw [h'.valid, h.valid, Set.mem_union, or_assoc]
  refers u v := by rw [h'.refers, h.refers, or_assoc]

/-- An extension by the same paths and edges. -/
theorem Extends.congr {P Q : Set Path} {E F : Path → Path → Prop} (h : db.Extends db' P E)
    (hP : ∀ p, p ∈ P ↔ p ∈ Q) (hE : ∀ u v, E u v ↔ F u v) : db.Extends db' Q F where
  wellFormed := h.wellFormed
  valid p := by rw [h.valid, hP]
  refers u v := by rw [h.refers, hE]

/-! ### One row at a time -/

/-- An output of a derivation adds neither path nor edge. -/
theorem addDerivationOutput_spec (h : db.WellFormed) {row : DerivationOutputRow}
    (hrow : ∃ r ∈ db.validPaths, r.id = row.drv ∧ isDerivation r.path = true) :
    db.Extends (db.addDerivationOutput row) ∅ fun _ _ => False where
  wellFormed := by
    refine ⟨h.paths_nodup, h.ids_nodup, h.ids_lt, h.refs_valid, fun o ho => ?_⟩
    rcases List.mem_append.mp ho with ho | ho
    · exact h.outputs_valid o (List.mem_of_mem_filter ho)
    · rwa [List.mem_singleton.mp ho]
  valid p := by simp [addDerivationOutput, graph]
  refers u v := by simp [addDerivationOutput, graph]

/-- A new row has no references yet, because its id is new. -/
theorem insertRow_spec (h : db.WellFormed) {row : ValidPathRow} (hid : row.id = db.nextId)
    (hnew : row.path ∉ db.graph.valid) :
    db.Extends { db with validPaths := db.validPaths ++ [row], nextId := db.nextId + 1 } {row.path}
      fun _ _ => False := by
  have hmem : ∀ r, r ∈ db.validPaths ++ [row] ↔ r ∈ db.validPaths ∨ r = row := by simp
  have hne : ∀ r ∈ db.validPaths, r.id ≠ row.id := fun r hr => hid ▸ (h.ids_lt r hr).ne
  have hold : ∀ e ∈ db.refs, e.1 ≠ row.id ∧ e.2 ≠ row.id := by
    intro e he
    obtain ⟨⟨r, hr, hr₁⟩, ⟨q, hq, hq₂⟩⟩ := h.refs_valid e he
    exact ⟨hr₁ ▸ hne r hr, hq₂ ▸ hne q hq⟩
  refine ⟨⟨?_, ?_, ?_, ?_, ?_⟩, ?_, ?_⟩
  · rw [List.map_append, List.nodup_append_comm]
    refine List.nodup_cons.mpr ⟨fun hp => hnew ?_, h.paths_nodup⟩
    simpa [graph] using hp
  · rw [List.map_append, List.nodup_append_comm]
    refine List.nodup_cons.mpr ⟨fun hp => ?_, h.ids_nodup⟩
    obtain ⟨r, hr, hrid⟩ := List.mem_map.mp hp
    exact hne r hr hrid
  · intro r hr
    rcases (hmem r).mp hr with hr | rfl
    · exact Nat.lt_succ_of_lt (h.ids_lt r hr)
    · exact hid ▸ Nat.lt_succ_self _
  · intro e he
    obtain ⟨⟨r, hr, hr₁⟩, ⟨q, hq, hq₂⟩⟩ := h.refs_valid e he
    exact ⟨⟨r, (hmem r).mpr (Or.inl hr), hr₁⟩, ⟨q, (hmem q).mpr (Or.inl hq), hq₂⟩⟩
  · intro o ho
    obtain ⟨r, hr, hrid, hder⟩ := h.outputs_valid o ho
    exact ⟨r, (hmem r).mpr (Or.inl hr), hrid, hder⟩
  · intro p
    constructor
    · rintro ⟨r, hr, rfl⟩
      rcases (hmem r).mp hr with hr | rfl
      · exact Or.inl ⟨r, hr, rfl⟩
      · exact Or.inr rfl
    · rintro (⟨r, hr, rfl⟩ | hp)
      · exact ⟨r, (hmem r).mpr (Or.inl hr), rfl⟩
      · exact ⟨row, (hmem row).mpr (Or.inr rfl), hp.symm⟩
  · intro u v
    rw [or_false]
    constructor
    · rintro ⟨r, hr, q, hq, rfl, rfl, he⟩
      have hr' := (hmem r).mp hr
      have hq' := (hmem q).mp hq
      rw [or_iff_left (by rintro rfl; exact (hold _ he).1 rfl)] at hr'
      rw [or_iff_left (by rintro rfl; exact (hold _ he).2 rfl)] at hq'
      exact ⟨r, hr', q, hq', rfl, rfl, he⟩
    · rintro ⟨r, hr, q, hq, rfl, rfl, he⟩
      exact ⟨r, (hmem r).mpr (Or.inl hr), q, (hmem q).mpr (Or.inl hq), rfl, rfl, he⟩

/-- `insertValidPath` adds one path. -/
theorem insertValidPath_spec (h : db.WellFormed) {info : ValidPathInfo} {id : ℕ}
    (hok : db.insertValidPath env info = .ok (db', id)) :
    db.Extends db' {info.path} (fun _ _ => False) ∧
      ∃ r ∈ db'.validPaths, r.id = id ∧ r.path = info.path := by
  rw [insertValidPath] at hok
  by_cases hval : db.isValidPath info.path = true
  · simp [hval] at hok
  · rw [if_neg hval] at hok
    obtain ⟨rfl, rfl⟩ := Prod.mk.inj (Outcome.ok.inj hok)
    exact ⟨insertRow_spec h rfl fun hp => hval (isValidPath_iff.mpr hp),
      _, List.mem_append_right _ (List.mem_singleton_self _), rfl, rfl⟩

/-- `addReference` adds one edge. -/
theorem addReference_spec (h : db.WellFormed) {r q : ValidPathRow} (hr : r ∈ db.validPaths)
    (hq : q ∈ db.validPaths) (hok : db.addReference r.id q.id = .ok db') :
    (db.Extends db' ∅ fun u v => u = r.path ∧ v = q.path) ∧ db'.validPaths = db.validPaths := by
  rw [addReference, if_pos ⟨⟨r, hr, rfl⟩, ⟨q, hq, rfl⟩⟩] at hok
  have hdb := Outcome.ok.inj hok
  have hmem : ∀ e, e ∈ db'.refs ↔ e ∈ db.refs ∨ e = (r.id, q.id) := by
    intro e
    rw [← hdb]
    dsimp only
    split_ifs with he
    · refine ⟨Or.inl, ?_⟩
      rintro (h | rfl)
      · exact h
      · exact he
    · simp
  have hvalid : db'.validPaths = db.validPaths := by rw [← hdb]
  have hout : db'.derivationOutputs = db.derivationOutputs := by rw [← hdb]
  have hnext : db'.nextId = db.nextId := by rw [← hdb]
  refine ⟨⟨⟨?_, ?_, ?_, ?_, ?_⟩, ?_, ?_⟩, hvalid⟩
  · rw [hvalid]
    exact h.paths_nodup
  · rw [hvalid]
    exact h.ids_nodup
  · rw [hvalid, hnext]
    exact h.ids_lt
  · intro e he
    rw [hvalid]
    rcases (hmem e).mp he with he | rfl
    · exact h.refs_valid e he
    · exact ⟨⟨r, hr, rfl⟩, ⟨q, hq, rfl⟩⟩
  · rw [hvalid, hout]
    exact h.outputs_valid
  · simp [graph, hvalid]
  · intro u v
    simp only [graph, hvalid, hmem]
    constructor
    · rintro ⟨r', hr', q', hq', rfl, rfl, he | he⟩
      · exact Or.inl ⟨r', hr', q', hq', rfl, rfl, he⟩
      · obtain ⟨he₁, he₂⟩ := Prod.mk.inj he
        exact Or.inr ⟨by rw [h.eq_of_id_eq hr' hr he₁], by rw [h.eq_of_id_eq hq' hq he₂]⟩
    · rintro (⟨r', hr', q', hq', rfl, rfl, he⟩ | ⟨rfl, rfl⟩)
      · exact ⟨r', hr', q', hq', rfl, rfl, Or.inl he⟩
      · exact ⟨r, hr, q, hq, rfl, rfl, Or.inr rfl⟩

/-! ### The loops of `registerValidPaths` -/

/-- The loop of `addValidPath` over the outputs of a derivation. -/
theorem addDerivationOutputs_spec {id : ℕ} {path : Path} (hpath : isDerivation path = true)
    (outputs : List (Str × DerivationOutput)) :
    ∀ db : Database, db.WellFormed → (∃ r ∈ db.validPaths, r.id = id ∧ r.path = path) →
      db.Extends (outputs.foldl (fun db o => db.addDerivationOutput ⟨id, o.1, o.2.path⟩) db) ∅
        fun _ _ => False := by
  induction outputs with
  | nil => exact fun db h _ => .refl h
  | cons o outputs ih =>
    intro db h hrow
    obtain ⟨r, hr, hid, hp⟩ := hrow
    have hout : db.Extends (db.addDerivationOutput ⟨id, o.1, o.2.path⟩) ∅ fun _ _ => False :=
      addDerivationOutput_spec h ⟨r, hr, hid, hp ▸ hpath⟩
    have hrest := ih _ hout.wellFormed ⟨r, hr, hid, hp⟩
    exact (hout.trans hrest).congr (by simp) (by simp)

/-- `addValidPath` adds one path. -/
theorem addValidPath_spec (h : db.WellFormed) {info : ValidPathInfo}
    (hok : db.addValidPath env info = .ok db') :
    db.Extends db' {info.path} fun _ _ => False := by
  obtain ⟨⟨db₁, id⟩, h₁, hok⟩ := Outcome.bind_eq_ok.mp hok
  obtain ⟨hext, hrow⟩ := insertValidPath_spec h h₁
  dsimp only at hok
  split_ifs at hok with hder
  · obtain ⟨outputs, -, hok⟩ := Outcome.bind_eq_ok.mp hok
    obtain rfl := Outcome.ok.inj hok
    have hout := addDerivationOutputs_spec hder outputs.entries db₁ hext.wellFormed hrow
    exact (hext.trans hout).congr (by simp) (by simp)
  · obtain rfl := Outcome.ok.inj hok
    exact hext

/-- The first loop makes the paths of the batch valid. -/
theorem addPaths_spec (infos : List ValidPathInfo) :
    ∀ (db : Database) (paths : PathSet) {db' : Database} {paths' : PathSet}, db.WellFormed →
      infos.foldlM (addPathsStep env) (db, paths) = .ok (db', paths') →
      (db.Extends db' {p | ∃ i ∈ infos, i.path = p} fun _ _ => False) ∧
        ∀ p, p ∈ paths' ↔ p ∈ paths ∨ ∃ i ∈ infos, i.path = p := by
  induction infos with
  | nil =>
    intro db paths db' paths' h hok
    obtain ⟨rfl, rfl⟩ := Prod.mk.inj (Outcome.ok.inj hok)
    exact ⟨(Extends.refl h).congr (by simp) (by simp), by simp⟩
  | cons i infos ih =>
    intro db paths db' paths' h hok
    obtain ⟨⟨db₁, paths₁⟩, h₁, hok⟩ := Outcome.bind_eq_ok.mp hok
    obtain ⟨hext, rfl⟩ : db.Extends db₁ {i.path} (fun _ _ => False) ∧ paths₁ = paths.insert i.path := by
      rw [addPathsStep] at h₁
      split_ifs at h₁ with hhash hval
      · obtain ⟨rfl, rfl⟩ := Prod.mk.inj (Outcome.ok.inj h₁)
        refine ⟨⟨h, fun p => ?_, by simp⟩, rfl⟩
        refine ⟨Or.inl, ?_⟩
        rintro (hp | rfl)
        · exact hp
        · exact isValidPath_iff.mp hval
      · obtain ⟨db₂, h₂, h₁⟩ := Outcome.bind_eq_ok.mp h₁
        obtain ⟨rfl, rfl⟩ := Prod.mk.inj (Outcome.ok.inj h₁)
        exact ⟨addValidPath_spec h h₂, rfl⟩
    obtain ⟨hrest, hpaths⟩ := ih db₁ _ hext.wellFormed hok
    refine ⟨(hext.trans hrest).congr (fun p => ?_) (by simp), fun p => ?_⟩
    · simp [eq_comm]
    · rw [hpaths, SortedSet.mem_insert]
      simp only [List.mem_cons, exists_eq_or_imp]
      rw [or_comm (a := p = i.path), or_assoc, eq_comm]

/-- The references that a batch lists. -/
def ListedRef (infos : List ValidPathInfo) (u v : Path) : Prop :=
  ∃ i ∈ infos, i.path = u ∧ v ∈ i.references

/-- The loop of `addReferences` over the references of one path. -/
theorem addReferencesLoop_spec {r : ValidPathRow} (refs : List Path) :
    ∀ (db : Database) {db' : Database}, db.WellFormed → r ∈ db.validPaths →
      refs.foldlM (fun db j => do
        let reference ← db.queryValidPathId j
        db.addReference r.id reference) db = .ok db' →
      db.Extends db' ∅ fun u v => u = r.path ∧ v ∈ refs := by
  induction refs with
  | nil =>
    intro db db' h _ hok
    obtain rfl := Outcome.ok.inj hok
    exact (Extends.refl h).congr (by simp) (by simp)
  | cons j refs ih =>
    intro db db' h hr hok
    obtain ⟨db₁, hstep, hloop⟩ := Outcome.bind_eq_ok.mp hok
    obtain ⟨reference, hj, hadd⟩ := Outcome.bind_eq_ok.mp hstep
    obtain ⟨q, hq, rfl, rfl⟩ := queryValidPathId_eq_ok h hj
    obtain ⟨hext, hvalid⟩ := addReference_spec h hr hq hadd
    have hrest := ih db₁ hext.wellFormed (hvalid ▸ hr) hloop
    refine (hext.trans hrest).congr (by simp) fun u v => ?_
    rw [List.mem_cons, ← and_or_left]

/-- `addReferences` adds the edges from one path. -/
theorem addReferences_spec (h : db.WellFormed) {i : ValidPathInfo}
    (hok : db.addReferences i = .ok db') :
    db.Extends db' ∅ fun u v => i.path = u ∧ v ∈ i.references := by
  obtain ⟨referrer, hi, hok⟩ := Outcome.bind_eq_ok.mp hok
  obtain ⟨r, hr, rfl, hp⟩ := queryValidPathId_eq_ok h hi
  refine (addReferencesLoop_spec _ db h hr hok).congr (fun _ => Iff.rfl) fun u v => ?_
  rw [hp, eq_comm, SortedSet.mem_toList]

/-- The second loop adds the references that the batch lists. -/
theorem addReferences_foldlM_spec (infos : List ValidPathInfo) :
    ∀ (db : Database) {db' : Database}, db.WellFormed →
      infos.foldlM addReferences db = .ok db' → db.Extends db' ∅ (ListedRef infos) := by
  induction infos with
  | nil =>
    intro db db' h hok
    obtain rfl := Outcome.ok.inj hok
    exact (Extends.refl h).congr (fun _ => Iff.rfl) (by simp [ListedRef])
  | cons i infos ih =>
    intro db db' h hok
    obtain ⟨db₁, h₁, hok⟩ := Outcome.bind_eq_ok.mp hok
    have hext := addReferences_spec h h₁
    refine (hext.trans (ih db₁ hext.wellFormed hok)).congr (by simp) fun u v => ?_
    simp [ListedRef]

/-! ### The cycle check -/

/-- The paths of a batch. -/
def batch (infos : List ValidPathInfo) : Set Path := {p | ∃ i ∈ infos, i.path = p}

/-- The assertions pass for store paths only. -/
theorem assertStorePaths_spec {paths : PathSet} {u : Unit}
    (hok : assertStorePaths cfg paths = .ok u) : ∀ p ∈ paths, isStorePath cfg p = true := by
  have hloop : ∀ l : List Path, l.foldlM (fun _ p => assertStorePath cfg p) () = .ok u →
      ∀ p ∈ l, isStorePath cfg p = true := by
    intro l
    induction l with
    | nil => simp
    | cons q l ih =>
      intro hok p hp
      obtain ⟨_, hq, hrest⟩ := Outcome.bind_eq_ok.mp hok
      rcases List.mem_cons.mp hp with rfl | hp
      · simp only [assertStorePath] at hq
        split_ifs at hq with hstore
        exact hstore
      · exact ih hrest p hp
  exact hloop paths.toList hok

/-- What a successful registration does to the graph, and what the sort at its end has checked. -/
theorem registerValidPaths_spec (h : db.WellFormed) {infos : List ValidPathInfo}
    (hok : db.registerValidPaths cfg env infos = .ok db') :
    db.Extends db' (batch infos) (ListedRef infos) ∧
      (∀ p ∈ batch infos, isStorePath cfg p = true) ∧
      ∀ p, ¬ Relation.TransGen (fun u v => db'.graph.ProperRef u v ∧ v ∈ batch infos) p p := by
  obtain ⟨⟨db₁, paths⟩, hpaths, hok⟩ := Outcome.bind_eq_ok.mp hok
  obtain ⟨db₂, hrefs, hok⟩ := Outcome.bind_eq_ok.mp hok
  obtain ⟨_, hassert, hok⟩ := Outcome.bind_eq_ok.mp hok
  obtain ⟨l, htopo, hok⟩ := Outcome.bind_eq_ok.mp hok
  obtain rfl : db₂ = db' := Outcome.ok.inj hok
  obtain ⟨hext₁, hmem⟩ := addPaths_spec infos db ∅ h hpaths
  have hext₂ := addReferences_foldlM_spec infos db₁ hext₁.wellFormed hrefs
  have hbatch : ∀ p, p ∈ paths ↔ p ∈ batch infos := fun p => by
    rw [hmem]
    simp [batch]
  refine ⟨(hext₁.trans hext₂).congr (fun p => by simp [batch]) (by simp),
    fun p hp => assertStorePaths_spec hassert p ((hbatch p).mpr hp), fun p hp => ?_⟩
  have hfollow : Relation.TransGen (FollowedRef db₂.references paths) p p :=
    hp.lift id fun u v huv =>
      ⟨(mem_references_iff hext₂.wellFormed).mpr huv.1.1, huv.1.2, (hbatch v).mpr huv.2⟩
  obtain ⟨u, -, hup⟩ := Relation.TransGen.tail'_iff.mp hfollow
  exact topoSortPaths_isOk_iff.mp ⟨l, htopo⟩ p hup.2.2 hfollow

/-- The references after the registration of a batch. -/
def RegisteredRef (db : Database) (infos : List ValidPathInfo) (u v : Path) : Prop :=
  db.graph.refers u v ∨ ListedRef infos u v

/-- The batch lists a new reference `v` for a path `u` that is already valid, and `v` leads back to
`u` through a path outside of the batch. -/
def ClosesLoop (db : Database) (infos : List ValidPathInfo) : Prop :=
  ∃ u ∈ db.graph.valid, ∃ v, ListedRef infos u v ∧ ¬ db.graph.refers u v ∧ v ≠ u ∧
    ∃ x, x ∉ batch infos ∧ Relation.ReflTransGen (db.RegisteredRef infos) v x ∧
      Relation.ReflTransGen (db.RegisteredRef infos) x u

/-- A registration that succeeds leaves a cycle exactly when it closes a loop. -/
theorem registerValidPaths_acyclic_iff (h : db.WellFormed) (hac : db.graph.Acyclic)
    {infos : List ValidPathInfo} (hok : db.registerValidPaths cfg env infos = .ok db') :
    db'.graph.Acyclic ↔ ¬ db.ClosesLoop infos := by
  obtain ⟨hext, -, hsorted⟩ := registerValidPaths_spec h hok
  constructor
  · rintro hac' ⟨u, -, v, huv, -, hne, x, -, hvx, hxu⟩
    have huv' : db'.graph.ProperRef u v := ⟨(hext.refers u v).mpr (Or.inr huv), hne⟩
    have hvu : Relation.ReflTransGen db'.graph.ProperRef v u :=
      reflTransGen_ne ((hvx.trans hxu).lift id fun a b hab => (hext.refers a b).mpr hab)
    exact hac' u (.head' huv' hvu)
  · intro hloop a ha
    by_cases hin : ∀ x, OnCycle db'.graph.ProperRef a x → x ∈ batch infos
    · exact hsorted a ((transGen_onCycle (.self ha)).lift id fun u v huv => ⟨huv.1, hin v huv.2.2⟩)
    · -- the cycle leaves the batch, so one of its edges was added to an old path
      push Not at hin
      obtain ⟨x, hx, hxB⟩ := hin
      obtain ⟨u, v, hu, hv, huV, huv, hold⟩ :=
        exists_added_edge_of_cycle (r := db.graph.ProperRef) (V := db.graph.valid)
          (B := batch infos) (fun u v huv => db.graph.mem_valid_of_refers huv.1) hac (fun u v huv => by
            rcases (hext.refers u v).mp huv.1 with hold | ⟨i, hi, hiu, -⟩
            · exact Or.inl ⟨hold, huv.2⟩
            · exact Or.inr ⟨i, hi, hiu⟩) ha hx hxB
      have hreg : ∀ {p q}, Relation.TransGen db'.graph.ProperRef p q →
          Relation.ReflTransGen (db.RegisteredRef infos) p q := fun hpq =>
        (hpq.lift id fun a b hab => (hext.refers a b).mp hab.1).to_reflTransGen
      have hnew : ¬ db.graph.refers u v := fun href => hold ⟨href, huv.2⟩
      exact hloop ⟨u, huV, v, ((hext.refers u v).mp huv.1).resolve_left hnew, hnew, huv.2, x, hxB,
        hreg (hv.transGen hx), hreg (hx.transGen hu)⟩

/-! ### Runs -/

/-- The calls that change the database. -/
inductive Call where
  | registerValidPaths (env : RegisterEnv) (infos : List ValidPathInfo)
  | invalidatePathChecked (path : Path)

/-- The database after a call; a call that does not return leaves no trace. -/
def call (cfg : StoreConfig) (db : Database) (c : Call) : Database :=
  let result := match c with
    | .registerValidPaths env infos => db.registerValidPaths cfg env infos
    | .invalidatePathChecked path => db.invalidatePathChecked cfg path
  match result with
  | .ok db' => db'
  | .error _ => db
  | .diverge => db

/-- A call does not register a batch that closes a loop. -/
def Call.ClosesNoLoop (db : Database) : Call → Prop
  | .registerValidPaths _ infos => ¬ db.ClosesLoop infos
  | .invalidatePathChecked _ => True

/-- A call of `registerValidPaths` succeeds or is rolled back. -/
theorem call_registerValidPaths {infos : List ValidPathInfo} :
    db.call cfg (.registerValidPaths env infos) = db ∨
      db.registerValidPaths cfg env infos = .ok (db.call cfg (.registerValidPaths env infos)) := by
  cases hok : db.registerValidPaths cfg env infos with
  | ok db' => exact Or.inr (by simp only [call, hok])
  | error e => exact Or.inl (by simp only [call, hok])
  | diverge => exact Or.inl (by simp only [call, hok])

/-- A call of `invalidatePathChecked` succeeds or is rolled back. -/
theorem call_invalidatePathChecked {path : Path} :
    db.call cfg (.invalidatePathChecked path) = db ∨
      db.invalidatePathChecked cfg path = .ok (db.call cfg (.invalidatePathChecked path)) := by
  cases hok : db.invalidatePathChecked cfg path with
  | ok db' => exact Or.inr (by simp only [call, hok])
  | error e => exact Or.inl (by simp only [call, hok])
  | diverge => exact Or.inl (by simp only [call, hok])

/-- The part of the invariant that every call keeps. -/
theorem call_wellFormed (h : db.WellFormed) (hstore : db.StorePathsOnly cfg) (c : Call) :
    (db.call cfg c).WellFormed ∧ (db.call cfg c).StorePathsOnly cfg := by
  cases c with
  | registerValidPaths env infos =>
    rcases call_registerValidPaths with hsame | hok
    · rw [hsame]
      exact ⟨h, hstore⟩
    · obtain ⟨hext, hpaths, -⟩ := registerValidPaths_spec h hok
      refine ⟨hext.wellFormed, fun p hp => ?_⟩
      rcases (hext.valid p).mp hp with hp | hp
      · exact hstore p hp
      · exact hpaths p hp
  | invalidatePathChecked path =>
    rcases call_invalidatePathChecked with hsame | hok
    · rw [hsame]
      exact ⟨h, hstore⟩
    · obtain ⟨hwf, hgraph⟩ := invalidatePathChecked_spec h hok
      refine ⟨hwf, fun p hp => hstore p ?_⟩
      rw [hgraph] at hp
      exact hp.1

/-- A call that closes no loop keeps the graph free of cycles. -/
theorem call_acyclic (h : db.WellFormed) (hac : db.graph.Acyclic) {c : Call}
    (hc : c.ClosesNoLoop db) : (db.call cfg c).graph.Acyclic := by
  cases c with
  | registerValidPaths env infos =>
    rcases call_registerValidPaths with hsame | hok
    · rwa [hsame]
    · exact (registerValidPaths_acyclic_iff h hac hok).mpr hc
  | invalidatePathChecked path =>
    rcases call_invalidatePathChecked with hsame | hok
    · rwa [hsame]
    · rw [(invalidatePathChecked_spec h hok).2]
      exact hac.without _

/-- The empty graph is acyclic. -/
theorem acyclic_empty : Database.empty.graph.Acyclic := by
  intro p hp
  obtain ⟨q, hpq, -⟩ := Relation.TransGen.head'_iff.mp hp
  simpa [Database.empty, graph] using hpq.1

/-- The database that a list of calls leaves. -/
def run (cfg : StoreConfig) (db : Database) (calls : List Call) : Database :=
  calls.foldl (call cfg) db

/-- No call of a run registers a batch that closes a loop. -/
def RunClosesNoLoop (cfg : StoreConfig) (db : Database) : List Call → Prop
  | [] => True
  | c :: calls => c.ClosesNoLoop db ∧ RunClosesNoLoop cfg (db.call cfg c) calls

/-- A run keeps the database well formed and its paths store paths. -/
theorem run_wellFormed (calls : List Call) :
    ∀ db : Database, db.WellFormed → db.StorePathsOnly cfg →
      (db.run cfg calls).WellFormed ∧ (db.run cfg calls).StorePathsOnly cfg := by
  induction calls with
  | nil => exact fun db h hstore => ⟨h, hstore⟩
  | cons c calls ih =>
    intro db h hstore
    obtain ⟨hwf, hstore'⟩ := call_wellFormed h hstore c
    exact ih _ hwf hstore'

/-- A run that closes no loop keeps the graph acyclic, by induction on the calls. -/
theorem run_acyclic (calls : List Call) :
    ∀ db : Database, db.WellFormed → db.StorePathsOnly cfg → db.graph.Acyclic →
      RunClosesNoLoop cfg db calls → (db.run cfg calls).graph.Acyclic := by
  induction calls with
  | nil => exact fun db _ _ hac _ => hac
  | cons c calls ih =>
    intro db h hstore hac hc
    obtain ⟨hwf, hstore'⟩ := call_wellFormed h hstore c
    exact ih _ hwf hstore' (call_acyclic h hac hc.1) hc.2

/-- The empty database has no path outside the store. -/
theorem storePathsOnly_empty : Database.empty.StorePathsOnly cfg := by
  rintro p ⟨r, hr, -⟩
  simp [Database.empty] at hr

/-- A batch that lists no new reference for an old path closes no loop. -/
theorem not_closesLoop_of_refers {infos : List ValidPathInfo}
    (h : ∀ i ∈ infos, i.path ∈ db.graph.valid →
      ∀ v ∈ i.references.toList, db.graph.refers i.path v) :
    ¬ db.ClosesLoop infos := by
  rintro ⟨u, hu, v, ⟨i, hi, rfl, hv⟩, hnew, -⟩
  exact hnew (h i hi hu v hv)

/-- An environment in which no derivation can be read. -/
def noDerivations : RegisterEnv := ⟨1, fun _ path => .error (str "opening file `" ++ path)⟩

/-- Information about a path of which only the references matter. -/
def infoWithReferences (path : Path) (references : List Path) : ValidPathInfo :=
  ⟨path, [], ⟨.htSHA256, List.replicate 32 0⟩, .ofList references, 1, 0⟩

/-- The call that registers one path. -/
def registerPath (path : Path) (references : List Path) : Call :=
  .registerValidPaths noDerivations [infoWithReferences path references]

/-- The constraints of the schema hold after every run from the empty database, and the references
have no cycle apart from self-references if no call of the run closes a loop. -/
theorem run_empty_invariant (cfg : StoreConfig) (calls : List Call)
    (hcalls : RunClosesNoLoop cfg Database.empty calls) :
    (Database.empty.run cfg calls).WellFormed ∧ (Database.empty.run cfg calls).graph.Acyclic :=
  ⟨(run_wellFormed calls _ wellFormed_empty storePathsOnly_empty).1,
    run_acyclic calls _ wellFormed_empty storePathsOnly_empty acyclic_empty hcalls⟩

/-- A path is registered, a second one that refers to it, and the second one once more. -/
theorem run_empty_invariant_reregistration :
    (Database.empty.run defaultConfig
        [registerPath (str "/nix/store/a") [],
          registerPath (str "/nix/store/b") [str "/nix/store/a"],
          registerPath (str "/nix/store/b") [str "/nix/store/a"]]).WellFormed ∧
      (Database.empty.run defaultConfig
        [registerPath (str "/nix/store/a") [],
          registerPath (str "/nix/store/b") [str "/nix/store/a"],
          registerPath (str "/nix/store/b") [str "/nix/store/a"]]).graph.Acyclic := by
  refine run_empty_invariant defaultConfig _ ⟨?_, ?_, ?_, trivial⟩
  all_goals exact not_closesLoop_of_refers (by decide +kernel)

/-- Registering `a`, then `b` with a reference to `a`, then `a` again with a reference to `b` leaves a
cycle: the sort after the last call only looks at `a`. -/
theorem run_empty_leaves_cycle :
    ¬ ∀ (cfg : StoreConfig) (calls : List Call),
      (Database.empty.run cfg calls).WellFormed ∧ (Database.empty.run cfg calls).graph.Acyclic := by
  intro h
  obtain ⟨-, hac⟩ := h defaultConfig
    [registerPath (str "/nix/store/a") [],
      registerPath (str "/nix/store/b") [str "/nix/store/a"],
      registerPath (str "/nix/store/a") [str "/nix/store/b"]]
  refine hac (str "/nix/store/a") (.tail (.single (b := str "/nix/store/b") ⟨?_, ?_⟩) ⟨?_, ?_⟩)
  all_goals decide +kernel

end Database

end Nix
