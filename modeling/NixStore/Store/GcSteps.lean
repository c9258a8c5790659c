import NixStore.Store.Gc

/-!
# The steps of the garbage collector

What the parts of `tryToDelete` do, in terms of the graph of the database: the loop that computes
`paths` returns the component of a valid path, the deletion loop removes the paths of a list one by
one, and `tryToDelete_cases` lists the ways in which a call can end in terms of these parts.
-/

namespace Nix

open Relation

variable {env : GCEnv} {db : Database}

/-! ### The component of a path -/

/-- One round of the loop adds exactly the paths that keep `p` alive. -/
theorem keptByPaths_spec (env : GCEnv) (h : db.WellFormed) {p : Path} (hp : p ∈ db.graph.valid) :
    ∃ l, keptByPaths env db p = .ok l ∧ ∀ q, q ∈ l ↔ db.graph.KeptBy env.keep p q := by
  obtain ⟨outputs, hout, hmem⟩ := Database.queryDerivationOutputs_eq h hp
  have hder : ∀ q, (env.keep.gcKeepOutputs = true ∧ db.graph.derives q p) ↔
      q ∈ (if env.keep.gcKeepOutputs then (db.queryValidDerivers p).toList else []) := by
    intro q
    split_ifs with hk
    · simp [hk, Database.mem_queryValidDerivers_iff]
    · simp [hk]
  by_cases hk : (env.keep.gcKeepDerivations && isDerivation p) = true
  · refine ⟨_, by rw [keptByPaths, if_pos hk, hout]; rfl, fun q => ?_⟩
    rw [List.mem_append, ← hder, StoreGraph.KeptBy, List.mem_filter, SortedSet.mem_toList, hmem,
      Database.isValidPath_iff]
    simp only [Bool.and_eq_true] at hk
    simp [hk.1]
  · refine ⟨_, by rw [keptByPaths, if_neg hk]; rfl, fun q => ?_⟩
    rw [List.nil_append, ← hder, StoreGraph.KeptBy]
    refine ⟨Or.inr, ?_⟩
    rintro (⟨hkd, hq, -⟩ | hq)
    · exact absurd (by simp [hkd, Database.isDerivation_of_derives h hq]) hk
    · exact hq

/-- The state of the loop: what is in `paths` or `todo` belongs to the component, and what the
members of `paths` need is in one of the two sets. -/
structure ClosingPaths (env : GCEnv) (db : Database) (path : Path) (todo paths : PathSet) : Prop where
  todo_subset : ∀ q ∈ todo, q ∈ db.graph.Component env.keep path
  paths_subset : ∀ q ∈ paths, q ∈ db.graph.Component env.keep path
  mem_start : path ∈ paths ∨ path ∈ todo
  closed : ∀ p ∈ paths, ∀ q, db.graph.KeptBy env.keep p q → q ∈ paths ∨ q ∈ todo

/-- A path that was closed already is dropped from the work list. -/
theorem ClosingPaths.skip {path p : Path} {todo paths : PathSet}
    (h : ClosingPaths env db path todo paths) (hp : p ∈ paths) :
    ClosingPaths env db path (todo.erase p) paths where
  todo_subset q hq := h.todo_subset q (SortedSet.mem_erase.mp hq).2
  paths_subset := h.paths_subset
  mem_start := by
    rcases h.mem_start with hpath | hpath
    · exact Or.inl hpath
    · by_cases hne : path = p
      · exact Or.inl (hne ▸ hp)
      · exact Or.inr (SortedSet.mem_erase.mpr ⟨hne, hpath⟩)
  closed x hx q hxq := by
    rcases h.closed x hx q hxq with hq | hq
    · exact Or.inl hq
    · by_cases hne : q = p
      · exact Or.inl (hne ▸ hp)
      · exact Or.inr (SortedSet.mem_erase.mpr ⟨hne, hq⟩)

/-- The referrers, and what the settings keep alive, of a path join the work list. -/
theorem ClosingPaths.add {path p : Path} {todo paths : PathSet}
    (h : ClosingPaths env db path todo paths) (hp : p ∈ todo) {more : List Path}
    (hmore : ∀ q, q ∈ more ↔ db.graph.KeptBy env.keep p q) :
    ClosingPaths env db path (more.foldl SortedSet.insert (todo.erase p)) (paths.insert p) where
  todo_subset q hq := by
    rcases SortedSet.mem_foldl_insert.mp hq with hq | hq
    · exact (h.todo_subset p hp).tail ((hmore q).mp hq)
    · exact h.todo_subset q (SortedSet.mem_erase.mp hq).2
  paths_subset q hq := by
    rcases SortedSet.mem_insert.mp hq with rfl | hq
    · exact h.todo_subset q hp
    · exact h.paths_subset q hq
  mem_start := by
    rcases h.mem_start with hpath | hpath
    · exact Or.inl (SortedSet.mem_insert.mpr (Or.inr hpath))
    · by_cases hne : path = p
      · exact Or.inl (SortedSet.mem_insert.mpr (Or.inl hne))
      · exact Or.inr (SortedSet.mem_foldl_insert.mpr
          (Or.inr (SortedSet.mem_erase.mpr ⟨hne, hpath⟩)))
  closed x hx q hxq := by
    rcases SortedSet.mem_insert.mp hx with rfl | hx
    · exact Or.inr (SortedSet.mem_foldl_insert.mpr (Or.inl ((hmore q).mpr hxq)))
    · rcases h.closed x hx q hxq with hq | hq
      · exact Or.inl (SortedSet.mem_insert.mpr (Or.inr hq))
      · by_cases hne : q = p
        · exact Or.inl (SortedSet.mem_insert.mpr (Or.inl hne))
        · exact Or.inr (SortedSet.mem_foldl_insert.mpr
            (Or.inr (SortedSet.mem_erase.mpr ⟨hne, hq⟩)))

/-- A set of valid paths is no larger than the table. -/
theorem length_le_of_subset_valid {s : PathSet} (h : ∀ q ∈ s, q ∈ db.graph.valid) :
    s.toList.length ≤ db.validPaths.length := by
  have hmem : ∀ q ∈ s, q ∈ db.validPaths.map ValidPathRow.path := fun q hq => by
    obtain ⟨r, hr, hrq⟩ := h q hq
    exact List.mem_map.mpr ⟨r, hr, hrq⟩
  simpa using SortedSet.length_le_of_subset hmem

/-- The loop ends: a round either removes a member of `todo` or makes `paths` larger, and both stay
inside the valid paths.  It returns the component unless a path is not a store path. -/
theorem closePaths_spec (h : db.WellFormed) {path : Path} (hpath : path ∈ db.graph.valid) :
    ∀ (n : ℕ) (todo paths : PathSet), ClosingPaths env db path todo paths →
      (db.validPaths.length - paths.toList.length) * (db.validPaths.length + 1) +
        todo.toList.length < n →
      (∃ res, closePaths env db n todo paths = .ok res ∧
        ∀ q, q ∈ res ↔ q ∈ db.graph.Component env.keep path) ∨
      ((∃ e, closePaths env db n todo paths = .error e) ∧ ¬ db.StorePathsOnly env.cfg) := by
  intro n
  induction n with
  | zero => exact fun _ _ _ hn => absurd hn (Nat.not_lt_zero _)
  | succ n ih =>
    intro todo paths hinv hn
    have hvalid : ∀ q ∈ db.graph.Component env.keep path, q ∈ db.graph.valid := fun q hq =>
      StoreGraph.mem_valid_of_mem_component hpath hq
    rw [closePaths]
    cases htodo : todo.toList with
    | nil =>
      have hempty : ∀ q, q ∉ todo := fun q hq => by
        rw [← SortedSet.mem_toList, htodo] at hq
        exact List.not_mem_nil hq
      refine Or.inl ⟨paths, rfl, fun q => ⟨hinv.paths_subset q, fun hq => ?_⟩⟩
      -- `paths` contains the start and is closed
      induction hq with
      | refl => exact hinv.mem_start.resolve_right (hempty _)
      | tail _ hxy ihx => exact (hinv.closed _ ihx _ hxy).resolve_right (hempty _)
    | cons p rest =>
      have hp : p ∈ todo := by
        rw [← SortedSet.mem_toList, htodo]
        exact List.mem_cons_self
      have hpV : p ∈ db.graph.valid := hvalid p (hinv.todo_subset p hp)
      dsimp only
      by_cases hstore : isStorePath env.cfg p = true
      swap
      · exact Or.inr ⟨⟨_, by rw [assertStorePath, if_neg hstore]; rfl⟩, fun hall => hstore (hall p hpV)⟩
      rw [assertStorePath, if_pos hstore, Outcome.ok_bind]
      by_cases hmem : p ∈ paths
      · rw [if_pos hmem]
        refine ih _ _ (hinv.skip hmem) ?_
        have := SortedSet.length_erase_lt hp
        omega
      · obtain ⟨more, hmore, hspec⟩ := keptByPaths_spec env h hpV
        rw [if_neg hmem, hmore, Outcome.ok_bind]
        have hinv' := hinv.add hp hspec
        refine ih _ _ hinv' ?_
        have htodo' := length_le_of_subset_valid fun q hq => hvalid q (hinv'.todo_subset q hq)
        have hpaths' := length_le_of_subset_valid fun q hq => hvalid q (hinv'.paths_subset q hq)
        have hgrow := SortedSet.length_lt_insert hmem
        -- the first factor gets smaller, which outweighs all of the new `todo`
        have hmul : (db.validPaths.length - (paths.insert p).toList.length + 1) *
            (db.validPaths.length + 1) ≤
            (db.validPaths.length - paths.toList.length) * (db.validPaths.length + 1) :=
          Nat.mul_le_mul_right _ (by omega)
        rw [Nat.add_mul, Nat.one_mul] at hmul
        omega

/-- What `tryToDelete` computes for a path: the component of a valid path, and just the path
otherwise. -/
def PathsOf (env : GCEnv) (g : StoreGraph) (path : Path) (paths : PathSet) : Prop :=
  (path ∈ g.valid ∧ ∀ q, q ∈ paths ↔ q ∈ g.Component env.keep path) ∨
    (path ∉ g.valid ∧ ∀ q, q ∈ paths ↔ q = path)

/-- `pathsOf` gives the closure, or fails, which takes a path outside the store. -/
theorem pathsOf_spec (env : GCEnv) (h : db.WellFormed) (path : Path) :
    (∃ paths, pathsOf env db path = .ok paths ∧ PathsOf env db.graph path paths) ∨
      ((∃ e, pathsOf env db path = .error e) ∧ ¬ db.StorePathsOnly env.cfg) := by
  by_cases hpath : path ∈ db.graph.valid
  · rw [pathsOf, if_pos (Database.isValidPath_iff.mpr hpath)]
    have hinit : ClosingPaths env db path (SortedSet.insert ∅ path) ∅ := by
      refine ⟨fun q hq => ?_, fun q hq => by simp at hq, Or.inr (by simp), fun p hp => by simp at hp⟩
      obtain rfl : q = path := by simpa using hq
      exact StoreGraph.mem_component_self
    have hone : (SortedSet.insert (∅ : PathSet) path).toList.length ≤ 1 :=
      SortedSet.length_le_of_subset (l := [path]) (by simp)
    have hfuel : (db.validPaths.length - (∅ : PathSet).toList.length) * (db.validPaths.length + 1) +
        (SortedSet.insert (∅ : PathSet) path).toList.length <
          (db.validPaths.length + 1) * (db.validPaths.length + 1) + 1 := by
      have : (∅ : PathSet).toList.length = 0 := rfl
      rw [this, Nat.sub_zero, Nat.add_mul (db.validPaths.length) 1, Nat.one_mul]
      omega
    rcases closePaths_spec h hpath _ _ _ hinit hfuel with ⟨paths, hok, hspec⟩ | herr
    · exact Or.inl ⟨paths, hok, Or.inl ⟨hpath, hspec⟩⟩
    · exact Or.inr herr
  · rw [pathsOf, if_neg fun hval => hpath (Database.isValidPath_iff.mp hval)]
    exact Or.inl ⟨_, rfl, Or.inr ⟨hpath, by simp⟩⟩

/-- The component of a valid path, computed. -/
theorem mem_component_iff_of_pathsOf (env : GCEnv) (h : db.WellFormed) {path : Path} {paths : PathSet}
    (hval : path ∈ db.graph.valid) (hok : pathsOf env db path = .ok paths) {q : Path} :
    q ∈ db.graph.Component env.keep path ↔ q ∈ paths := by
  rcases pathsOf_spec env h path with ⟨paths', hok', hspec⟩ | ⟨⟨e, he⟩, -⟩
  · obtain rfl := Outcome.ok.inj (hok.symm.trans hok')
    rcases hspec with ⟨-, hcomp⟩ | ⟨hinval, -⟩
    · exact (hcomp q).symm
    · exact absurd hval hinval
  · simp [hok] at he

/-! ### Deleting one path -/

/-- The entry of the path `i` has been deleted, or renamed if the path was valid. -/
def EntryGone (env : GCEnv) (i : Path) (s s' : GCState) : Prop :=
  (s'.disk = s.disk.erase i ∧ s'.invalidated = s.invalidated) ∨
    (i ∈ s.db.graph.valid ∧ ∃ entry, s'.disk = (s.disk.erase i).insert (tmpName env i) entry ∧
      s'.invalidated = s.invalidated.insert (tmpName env i))

/-- What the treatment of the path `i` can change, also when it ends in an exception. -/
structure DeleteStep (env : GCEnv) (i : Path) (s s' : GCState) : Prop where
  wellFormed : s'.db.WellFormed
  graph : s'.db.graph = s.db.graph ∨ s'.db.graph = s.db.graph.without {i}
  /-- An entry goes away only after its path has been invalidated. -/
  disk : (s'.disk = s.disk ∧ s'.invalidated = s.invalidated) ∨
    (i ∉ s'.db.graph.valid ∧ EntryGone env i s s')
  live : s'.live = s.live
  deleted : s'.deleted = s.deleted ∨ s'.deleted = s.deleted.insert i
  log : ∀ e ∈ s'.log, e ∈ s.log ∨ e.path = i

/-- What the treatment of the path `i` has done when it returns. -/
structure Deleted (env : GCEnv) (i : Path) (s s' : GCState) : Prop extends DeleteStep env i s s' where
  deleted_eq : s'.deleted = s.deleted.insert i
  removed : shouldDelete env.options.action = true →
    s'.db.graph = s.db.graph.without {i} ∧ i ∈ s.disk ∧ i ∉ s'.disk
  unchanged : shouldDelete env.options.action = false → s'.db = s.db ∧ s'.disk = s.disk

/-- The exceptions of the deletion loop: a database or system error, or the limit if there is one. -/
def Thrown (env : GCEnv) (e : GCStop) : Prop :=
  (∃ msg, e = .error msg) ∨ (e = .limitReached ∧ env.options.maxFreed ≠ 0xffffffffffffffff)

/-- What the collector throws is not the end of the model's fuel. -/
theorem Thrown.ne_outOfFuel {e : GCStop} (h : Thrown env e) : e ≠ .outOfFuel := by
  rcases h with ⟨msg, rfl⟩ | ⟨rfl, -⟩ <;> simp

variable {s : GCState} {i : Path}

/-- Invalidation comes to an end. -/
theorem invalidatePathChecked_ne_diverge (cfg : StoreConfig) (db : Database) (path : Path) :
    db.invalidatePathChecked cfg path ≠ .diverge := by
  rw [Database.invalidatePathChecked, assertStorePath]
  by_cases hstore : isStorePath cfg path = true
  · rw [if_pos hstore, Outcome.ok_bind]
    dsimp only
    split_ifs
    · simp
    · rw [Database.invalidatePath]
      split
      · simp
      · split_ifs <;> simp
    · simp
  · rw [if_neg hstore]
    simp

/-- `invalidate` takes one path out of the database. -/
theorem invalidate_spec (h : s.db.WellFormed) :
    Prog.Ends (invalidate env i) s
      (fun _ s' => ∃ db', db'.WellFormed ∧ db'.graph = s.db.graph.without {i} ∧
        s' = { s with db := db', log := s.log ++ [.invalidate i] })
      (fun e s' => (∃ msg, e = .error msg) ∧ s' = s) := by
  refine Prog.ends_get_bind ?_
  cases hok : s.db.invalidatePathChecked env.cfg i with
  | ok db' =>
    obtain ⟨hwf, hgraph⟩ := Database.invalidatePathChecked_spec h hok
    exact ⟨db', hwf, hgraph, rfl⟩
  | error e => exact ⟨⟨e, rfl⟩, rfl⟩
  | diverge => exact absurd hok (invalidatePathChecked_ne_diverge _ _ _)

/-- `deleteGarbage` takes one entry off the disk. -/
theorem deleteGarbage_spec :
    Prog.Ends (deleteGarbage i) s
      (fun _ s' => ∃ entry, s.disk.find? i = some entry ∧ s' = { s with
        disk := s.disk.erase i
        bytesFreed := s.bytesFreed + entry.size
        log := s.log ++ [.delete i] })
      (fun e s' => (∃ msg, e = .error msg) ∧ s' = s) := by
  refine Prog.ends_get_bind ?_
  cases hfind : s.disk.find? i with
  | none => exact ⟨⟨_, rfl⟩, rfl⟩
  | some entry => exact ⟨entry, rfl, rfl⟩

/-- `renameAway` moves one entry to its temporary name. -/
theorem renameAway_spec :
    Prog.Ends (renameAway env i) s
      (fun _ s' => ∃ entry, s.disk.find? i = some entry ∧ s' = { s with
        disk := (s.disk.erase i).insert (tmpName env i) entry
        invalidated := s.invalidated.insert (tmpName env i)
        log := s.log ++ [.rename i] })
      (fun e s' => (∃ msg, e = .error msg) ∧ s' = s) := by
  refine Prog.ends_get_bind ?_
  cases hfind : s.disk.find? i with
  | none => exact ⟨⟨_, rfl⟩, rfl⟩
  | some entry =>
    dsimp only
    split_ifs
    · exact ⟨⟨_, rfl⟩, rfl⟩
    · exact ⟨entry, rfl, rfl⟩

/-- The temporary name of a path is another path. -/
theorem tmpName_ne (env : GCEnv) (i : Path) : tmpName env i ≠ i := by
  intro h
  have hlen := congrArg List.length h
  rw [tmpName, List.length_append, List.length_append] at hlen
  have hpos : 0 < (str "-gc-").length := by decide
  omega

/-- Different paths have different temporary names. -/
theorem tmpName_injective (env : GCEnv) : Function.Injective (tmpName env) := by
  intro p q h
  simpa [tmpName] using h

/-- Without the path in the database, its entry has been deleted or renamed. -/
structure Removed (env : GCEnv) (i : Path) (s s' : GCState) : Prop where
  wellFormed : s'.db.WellFormed
  graph : s'.db.graph = s.db.graph.without {i}
  mem_disk : i ∈ s.disk
  disk : EntryGone env i s s'
  live : s'.live = s.live
  deleted : s'.deleted = s.deleted
  log : ∀ e ∈ s'.log, e ∈ s.log ∨ e.path = i

/-- The path `i` and its entry are gone, also if `i` has not been remembered as deleted yet. -/
structure Vanished (env : GCEnv) (i : Path) (s s' : GCState) : Prop where
  wellFormed : s'.db.WellFormed
  graph : s'.db.graph = s.db.graph.without {i}
  mem_disk : i ∈ s.disk
  disk : EntryGone env i s s'
  deleted : ∀ x ∈ s'.deleted, x = i ∨ x ∈ s.deleted

/-- What was removed has vanished. -/
theorem Removed.vanished {s' : GCState} (h : Removed env i s s') : Vanished env i s s' :=
  ⟨h.wellFormed, h.graph, h.mem_disk, h.disk, fun _ hx => Or.inr (h.deleted ▸ hx)⟩

/-- What was deleted has vanished, for an action that deletes. -/
theorem Deleted.vanished {s' : GCState} (h : Deleted env i s s')
    (hdelete : shouldDelete env.options.action = true) : Vanished env i s s' where
  wellFormed := h.wellFormed
  graph := (h.removed hdelete).1
  mem_disk := (h.removed hdelete).2.1
  disk := by
    obtain ⟨-, hion, hioff⟩ := h.removed hdelete
    rcases h.disk with ⟨hsame, -⟩ | ⟨-, hgone⟩
    · exact absurd (hsame ▸ hion) hioff
    · exact hgone
  deleted x hx := SortedSet.mem_insert.mp (h.deleted_eq ▸ hx)

/-- What was removed is not on disk. -/
theorem Removed.notMem_disk {s' : GCState} (h : Removed env i s s') : i ∉ s'.disk := by
  have herase : i ∉ s.disk.erase i := fun hi => (SortedMap.mem_erase.mp hi).1 rfl
  rcases h.disk with ⟨hd, -⟩ | ⟨-, entry, hd, -⟩
  · rwa [hd]
  · rw [hd, SortedMap.mem_insert]
    rintro (hi | hi)
    · exact tmpName_ne env i hi.symm
    · exact herase hi

/-- Removing a path is a step of the deletion. -/
theorem Removed.step {s' : GCState} (h : Removed env i s s') : DeleteStep env i s s' where
  wellFormed := h.wellFormed
  graph := Or.inr h.graph
  disk := Or.inr ⟨fun hi => by rw [h.graph] at hi; exact hi.2 rfl, h.disk⟩
  live := h.live
  deleted := Or.inl h.deleted
  log := h.log

/-- Nothing happening is a step of the deletion. -/
theorem DeleteStep.refl (h : s.db.WellFormed) : DeleteStep env i s s :=
  ⟨h, Or.inl rfl, Or.inl ⟨rfl, rfl⟩, rfl, Or.inl rfl, fun _ => Or.inl⟩

/-- What is looked up on disk is there. -/
theorem mem_disk_of_find? {disk : SortedMap Path StoreEntry} {entry : StoreEntry}
    (h : disk.find? i = some entry) : i ∈ disk := by
  rw [SortedMap.mem_iff_find?_ne_none, h]
  simp

/-- The part of a step that only invalidates. -/
theorem DeleteStep.of_invalidate {db' : Database} {bytes : UInt64} (hwf : db'.WellFormed)
    (hgraph : db'.graph = s.db.graph.without {i}) :
    DeleteStep env i s { s with
      db := db', bytesInvalidated := bytes, log := s.log ++ [.invalidate i] } :=
  ⟨hwf, Or.inr hgraph, Or.inl ⟨rfl, rfl⟩, rfl, Or.inl rfl,
    by simp +contextual [or_imp, GCEvent.path]⟩

/-- `removePath` removes the path, or stops after a part of the deletion. -/
theorem removePath_spec (h : s.db.WellFormed) (st : StoreEntry) :
    Prog.Ends (removePath env st i) s (fun _ s' => Removed env i s s')
      (fun e s' => (∃ msg, e = .error msg) ∧ DeleteStep env i s s') := by
  refine Prog.ends_get_bind ?_
  split_ifs with hval hdir
  · -- a directory is invalidated and renamed
    refine Prog.ends_modify_bind ?_
    refine Prog.Ends.bind (invalidate_spec ?_) ?_ ?_
    · exact h
    · rintro _ _ ⟨db', hwf, hgraph, rfl⟩
      refine renameAway_spec.mono ?_ ?_
      · rintro _ _ ⟨entry, hfind, rfl⟩
        exact ⟨hwf, hgraph, mem_disk_of_find? hfind,
          Or.inr ⟨Database.isValidPath_iff.mp hval, entry, rfl, rfl⟩, rfl, rfl,
          by simp +contextual [or_imp, GCEvent.path]⟩
      · rintro e _ ⟨he, rfl⟩
        exact ⟨he, .of_invalidate hwf hgraph⟩
    · rintro e _ ⟨he, rfl⟩
      exact ⟨he, ⟨h, Or.inl rfl, Or.inl ⟨rfl, rfl⟩, rfl, Or.inl rfl, fun _ => Or.inl⟩⟩
  · -- another valid path is invalidated and deleted
    refine (invalidate_spec h).bind ?_ ?_
    · rintro _ _ ⟨db', hwf, hgraph, rfl⟩
      refine deleteGarbage_spec.mono ?_ ?_
      · rintro _ _ ⟨entry, hfind, rfl⟩
        exact ⟨hwf, hgraph, mem_disk_of_find? hfind, Or.inl ⟨rfl, rfl⟩, rfl, rfl,
          by simp +contextual [or_imp, GCEvent.path]⟩
      · rintro e _ ⟨he, rfl⟩
        exact ⟨he, .of_invalidate hwf hgraph⟩
    · rintro e _ ⟨he, rfl⟩
      exact ⟨he, .refl h⟩
  · have hinv : i ∉ s.db.graph.valid := fun hi => hval (Database.isValidPath_iff.mpr hi)
    refine deleteGarbage_spec.mono ?_ ?_
    · rintro _ _ ⟨entry, hfind, rfl⟩
      exact ⟨h, (StoreGraph.without_singleton_of_notMem hinv).symm, mem_disk_of_find? hfind,
        Or.inl ⟨rfl, rfl⟩, rfl, rfl, by simp +contextual [or_imp, GCEvent.path]⟩
    · rintro e _ ⟨he, rfl⟩
      exact ⟨he, .refl h⟩

/-- `checkLimit` changes nothing, and stops only when a limit was given. -/
theorem checkLimit_spec :
    Prog.Ends (checkLimit env) s (fun _ s' => s' = s)
      fun e s' => (e = .limitReached ∧ env.options.maxFreed ≠ 0xffffffffffffffff) ∧ s' = s := by
  refine Prog.ends_get_bind ?_
  split_ifs with hlimit
  · refine ⟨⟨rfl, fun hmax => ?_⟩, rfl⟩
    rw [hmax, gt_iff_lt, UInt64.lt_iff_toNat_lt] at hlimit
    have hlt := UInt64.toNat_lt (s.bytesFreed + s.bytesInvalidated)
    have heq : (0xffffffffffffffff : UInt64).toNat = 2 ^ 64 - 1 := rfl
    omega
  · exact rfl

/-- The body of the deletion loop. -/
theorem deletePath_spec (h : s.db.WellFormed) (st : StoreEntry) :
    Prog.Ends (deletePath env st i) s (fun _ s' => Deleted env i s s')
      (fun e s' => Thrown env e ∧ DeleteStep env i s s') := by
  rw [deletePath]
  split_ifs with hdel
  · refine (removePath_spec h st).bind (fun _ s' hs' => ?_) fun _ _ he => ⟨Or.inl he.1, he.2⟩
    refine checkLimit_spec.bind ?_ ?_
    · rintro _ _ rfl
      refine Prog.ends_modify ⟨⟨hs'.wellFormed, hs'.step.graph, hs'.step.disk, hs'.live,
        Or.inr ?_, hs'.log⟩, ?_, fun _ => ⟨hs'.graph, hs'.mem_disk, hs'.notMem_disk⟩, ?_⟩
      · rw [markDeleted, hs'.deleted]
      · rw [markDeleted, hs'.deleted]
      · rw [hdel]
        exact fun hfalse => absurd hfalse (by simp)
    · rintro e _ ⟨he, rfl⟩
      exact ⟨Or.inr he, hs'.step⟩
  · exact Prog.ends_modify ⟨⟨h, Or.inl rfl, Or.inl ⟨rfl, rfl⟩, rfl, Or.inr rfl, fun _ => Or.inl⟩, rfl,
      fun htrue => absurd htrue hdel, fun _ => ⟨rfl, rfl⟩⟩

/-- Every other entry is left as it is, unless it has the name of the renaming. -/
theorem EntryGone.find?_eq {s' : GCState} (h : EntryGone env i s s') {p : Path} (hp : p ≠ i)
    (htmp : i ∈ s.db.graph.valid → p ≠ tmpName env i) : s'.disk.find? p = s.disk.find? p := by
  rcases h with ⟨hd, -⟩ | ⟨hi, entry, hd, -⟩
  · rw [hd, SortedMap.find?_erase, if_neg hp]
  · rw [hd, SortedMap.find?_insert, if_neg (htmp hi), SortedMap.find?_erase, if_neg hp]

/-- What is on disk after an entry is gone: other entries, or the path under its temporary name. -/
theorem EntryGone.mem_disk {s' : GCState} (h : EntryGone env i s s') {p : Path} (hp : p ∈ s'.disk) :
    p ≠ i ∧ p ∈ s.disk ∨ i ∈ s.db.graph.valid ∧ p = tmpName env i := by
  rcases h with ⟨hd, -⟩ | ⟨hi, entry, hd, -⟩
  · exact Or.inl (SortedMap.mem_erase.mp (hd ▸ hp))
  · rw [hd, SortedMap.mem_insert] at hp
    exact hp.elim (fun hp => Or.inr ⟨hi, hp⟩) fun hp => Or.inl (SortedMap.mem_erase.mp hp)

/-- The other entries stay on disk. -/
theorem EntryGone.mem_disk_of_ne {s' : GCState} (h : EntryGone env i s s') {p : Path} (hp : p ≠ i)
    (hmem : p ∈ s.disk) : p ∈ s'.disk := by
  have herase : p ∈ s.disk.erase i := SortedMap.mem_erase.mpr ⟨hp, hmem⟩
  rcases h with ⟨hd, -⟩ | ⟨-, entry, hd, -⟩
  · exact hd ▸ herase
  · rw [hd, SortedMap.mem_insert]
    exact Or.inr herase

/-- A path that is to be deleted later was so before, or is the new name of the directory. -/
theorem EntryGone.mem_invalidated {s' : GCState} (h : EntryGone env i s s') {x : Path}
    (hx : x ∈ s'.invalidated) :
    x ∈ s.invalidated ∨ i ∈ s.db.graph.valid ∧ x = tmpName env i ∧ x ∈ s'.disk := by
  rcases h with ⟨-, hinv⟩ | ⟨hi, entry, hd, hinv⟩
  · exact Or.inl (hinv ▸ hx)
  · rcases SortedSet.mem_insert.mp (hinv ▸ hx) with rfl | hx
    · exact Or.inr ⟨hi, rfl, by rw [hd]; exact SortedMap.mem_insert.mpr (Or.inl rfl)⟩
    · exact Or.inl hx

/-- A renamed path waits until the end of the run. -/
theorem EntryGone.invalidated_subset {s' : GCState} (h : EntryGone env i s s') {x : Path}
    (hx : x ∈ s.invalidated) : x ∈ s'.invalidated := by
  rcases h with ⟨-, hinv⟩ | ⟨-, entry, -, hinv⟩
  · exact hinv ▸ hx
  · exact hinv ▸ SortedSet.mem_insert.mpr (Or.inr hx)

/-- A new entry is one that is to be deleted later. -/
theorem EntryGone.mem_disk_or_invalidated {s' : GCState} (h : EntryGone env i s s') {x : Path}
    (hx : x ∈ s'.disk) : x ∈ s.disk ∨ x ∈ s'.invalidated := by
  rcases h with ⟨hd, -⟩ | ⟨-, entry, hd, hinv⟩
  · exact Or.inl (SortedMap.mem_erase.mp (hd ▸ hx)).2
  · rcases SortedMap.mem_insert.mp (hd ▸ hx) with rfl | hx
    · exact Or.inr (hinv ▸ SortedSet.mem_insert.mpr (Or.inl rfl))
    · exact Or.inl (SortedMap.mem_erase.mp hx).2

/-- After a step the disk has old entries and perhaps one temporary name. -/
theorem DeleteStep.mem_disk {s' : GCState} (h : DeleteStep env i s s') {p : Path}
    (hp : p ∈ s'.disk) : p ∈ s.disk ∨ p = tmpName env i := by
  rcases h.disk with ⟨hd, -⟩ | ⟨-, hgone⟩
  · exact Or.inl (hd ▸ hp)
  · exact (hgone.mem_disk hp).imp And.right And.right

/-- A path that stays valid stays on disk. -/
theorem DeleteStep.mem_disk_of_mem_valid {s' : GCState} (h : DeleteStep env i s s') {p : Path}
    (hval : p ∈ s'.db.graph.valid) (hp : p ∈ s.disk) : p ∈ s'.disk := by
  rcases h.disk with ⟨hd, -⟩ | ⟨hinvalid, hgone⟩
  · rwa [hd]
  · exact hgone.mem_disk_of_ne (fun hpi => hinvalid (hpi ▸ hval)) hp

/-- No path becomes valid. -/
theorem DeleteStep.mem_valid {s' : GCState} (h : DeleteStep env i s s') {p : Path}
    (hp : p ∈ s'.db.graph.valid) : p ∈ s.db.graph.valid := by
  rcases h.graph with hsame | hless
  · exact hsame ▸ hp
  · rw [hless] at hp
    exact hp.1

/-- When the removal of a path succeeds: the path is on disk, and if it is valid, no other path
refers to it and the name for its renaming is free. -/
structure Removable (env : GCEnv) (s : GCState) (i : Path) : Prop where
  onDisk : i ∈ s.disk
  storePath : i ∈ s.db.graph.valid → isStorePath env.cfg i = true
  noReferrers : ∀ u, s.db.graph.refers u i → u = i
  fresh : i ∈ s.db.graph.valid → tmpName env i ∉ s.disk

/-- Removing an entry that is there and has no referrers succeeds. -/
theorem removePath_isOk (h : s.db.WellFormed) (hi : Removable env s i) (st : StoreEntry) :
    Prog.Ends (removePath env st i) s (fun _ _ => True) fun _ _ => False := by
  obtain ⟨entry, hfind⟩ : ∃ entry, s.disk.find? i = some entry :=
    Option.ne_none_iff_exists'.mp (SortedMap.mem_iff_find?_ne_none.mp hi.onDisk)
  refine Prog.ends_get_bind ?_
  split_ifs with hval hdir
  · have hvalid := Database.isValidPath_iff.mp hval
    obtain ⟨db', hok⟩ :=
      Database.invalidatePathChecked_isOk h (hi.storePath hvalid) hi.noReferrers
    refine Prog.ends_modify_bind ?_
    refine Prog.Ends.bind (Q := fun _ s' => s'.disk = s.disk) (E := fun _ _ => False) ?_ ?_
      fun _ _ => id
    · refine Prog.ends_get_bind ?_
      rw [hok]
      exact rfl
    · intro _ s' hs'
      refine Prog.ends_get_bind ?_
      rw [hs', hfind]
      dsimp only
      rw [if_neg fun htmp => hi.fresh hvalid htmp.1]
      exact trivial
  · obtain ⟨db', hok⟩ := Database.invalidatePathChecked_isOk h
      (hi.storePath (Database.isValidPath_iff.mp hval)) hi.noReferrers
    refine Prog.Ends.bind (Q := fun _ s' => s'.disk = s.disk) (E := fun _ _ => False) ?_ ?_
      fun _ _ => id
    · refine Prog.ends_get_bind ?_
      rw [hok]
      exact rfl
    · intro _ s' hs'
      refine Prog.ends_get_bind ?_
      rw [hs', hfind]
      exact trivial
  · refine Prog.ends_get_bind ?_
    rw [hfind]
    exact trivial

/-- A run is stopped by the limit, if there is one. -/
def Limited (env : GCEnv) (e : GCStop) : Prop :=
  e = .limitReached ∧ env.options.maxFreed ≠ 0xffffffffffffffff

/-- The treatment of a removable path returns, or it is stopped by the limit when the path is gone. -/
theorem deletePath_ends (h : s.db.WellFormed) (hi : Removable env s i)
    (hdelete : shouldDelete env.options.action = true) (st : StoreEntry) :
    Prog.Ends (deletePath env st i) s (fun _ s' => Deleted env i s s')
      fun e s' => Limited env e ∧ Vanished env i s s' := by
  have hok : Prog.Ends (deletePath env st i) s (fun _ _ => True)
      fun e s' => Limited env e ∧ Vanished env i s s' := by
    rw [deletePath, if_pos hdelete]
    refine ((removePath_spec h st).and (removePath_isOk h hi st)).bind (fun _ s' hs' => ?_)
      fun _ _ he => he.2.elim
    refine checkLimit_spec.bind (fun _ _ _ => trivial) ?_
    rintro e _ ⟨he, rfl⟩
    exact ⟨he, hs'.1.vanished⟩
  exact ((deletePath_spec h st).and hok).mono (fun _ _ h => h.1) fun _ _ he => he.2

/-- The invariant of the deletion loop. -/
theorem ends_deletePaths {st : StoreEntry} {paths : PathSet} {I : List Path → GCState → Prop}
    {E : GCStop → GCState → Prop}
    (hsort : (∃ l, topoSortPaths s.db.references paths = .ok l) ∨
      ∀ e, e ≠ GCStop.limitReached → E e s)
    (hinit : I [] s)
    (hstep : ∀ l, (∀ x, x ∈ l ↔ x ∈ paths) → l.Nodup →
      ReferencesFollow s.db.references paths l → ∀ done i rest s', l = done ++ i :: rest →
      I done s' → Prog.Ends (deletePath env st i) s' (fun _ s'' => I (done ++ [i]) s'') E) :
    Prog.Ends (deletePaths env st paths) s (fun _ s' => ∃ l, (∀ x, x ∈ l ↔ x ∈ paths) ∧ I l s') E := by
  refine Prog.ends_get_bind ?_
  cases hl : topoSortPaths s.db.references paths with
  | ok l =>
    obtain ⟨hmem, hnd, hfollow⟩ := topoSortPaths_spec hl
    change Prog.Ends (Prog.each (deletePath env st) l) s _ E
    exact (Prog.Ends.each l (hstep l hmem hnd hfollow) hinit).mono
      (fun _ s' hs' => ⟨l, hmem, hs'⟩) fun _ _ => id
  | error e => exact hsort.resolve_left (fun ⟨l, hok⟩ => by simp [hl] at hok) _ (by simp)
  | diverge => exact hsort.resolve_left (fun ⟨l, hok⟩ => by simp [hl] at hok) _ (by simp)

/-- In a store without cycles the sort before the deletions succeeds. -/
theorem topoSortPaths_isOk (h : db.WellFormed) (hac : db.graph.Acyclic) (paths : PathSet) :
    ∃ l, topoSortPaths db.references paths = .ok l := by
  refine topoSortPaths_isOk_iff.mpr fun x _ hx => hac x (hx.lift id fun u v huv => ?_)
  exact ⟨(Database.mem_references_iff h).mp huv.1, huv.2.1⟩

/-- What the deletion loop does to the database. -/
theorem deletePaths_spec (h : s.db.WellFormed) (hac : s.db.graph.Acyclic) (st : StoreEntry)
    (paths : PathSet) :
    Prog.Ends (deletePaths env st paths) s
      (fun _ s' => s'.db.WellFormed ∧
        (shouldDelete env.options.action = true →
          s'.db.graph = s.db.graph.without {x | x ∈ paths}) ∧
        (shouldDelete env.options.action = false → s'.db = s.db))
      fun e _ => Thrown env e := by
  refine (ends_deletePaths (I := fun done s' => s'.db.WellFormed ∧
    (shouldDelete env.options.action = true → s'.db.graph = s.db.graph.without {x | x ∈ done}) ∧
    (shouldDelete env.options.action = false → s'.db = s.db))
    (Or.inl (topoSortPaths_isOk h hac paths)) ⟨h, fun _ => by simp, fun _ => rfl⟩ ?_).mono ?_
    fun _ _ => id
  · rintro l - - - done i rest s' - ⟨hwf, hdel, hsame⟩
    refine (deletePath_spec hwf st).mono (fun _ s'' hs'' => ?_) fun _ _ he => he.1
    refine ⟨hs''.wellFormed, fun htrue => ?_, fun hfalse => ?_⟩
    · have hset : {x | x ∈ done ++ [i]} = {x | x ∈ done} ∪ {i} := by
        ext x
        simp [or_comm]
      rw [(hs''.removed htrue).1, hdel htrue, StoreGraph.without_without, hset]
    · rw [(hs''.unchanged hfalse).1, hsame hfalse]
  · rintro _ s' ⟨l, hmem, hwf, hdel, hsame⟩
    exact ⟨hwf, fun htrue => by simpa only [hmem] using hdel htrue, hsame⟩

/-! ### The cases of a call -/

/-- The referrers of a set are the referrers of its elements. -/
theorem mem_referrersOf_iff (h : db.WellFormed) {paths : PathSet} {y : Path} :
    y ∈ referrersOf db paths ↔ ∃ x ∈ paths, db.graph.refers y x := by
  simp [referrersOf, Database.mem_queryReferrers_iff h]

/-- The path is in use by a build that has a temporary root. -/
def ActiveTempFile (env : GCEnv) (path : Path) : Prop :=
  isActiveTempFile env path (str ".lock") = true ∨ isActiveTempFile env path (str ".chroot") = true

instance (env : GCEnv) (path : Path) : Decidable (ActiveTempFile env path) :=
  inferInstanceAs (Decidable (_ ∨ _))

/-- How a call of `tryToDelete` ends, by what it finds out about the path. -/
theorem ends_tryToDelete (h : s.db.WellFormed) {n : ℕ} {path : Path} {Q : Bool → GCState → Prop}
    {E : GCStop → GCState → Prop}
    (hgone : path = linksDir env.cfg ∨ path ∉ s.disk ∨ path ∈ s.deleted → Q true s)
    (hlive : path ∈ s.disk → path ∈ s.live ∨ path ∉ s.db.graph.valid ∧ ActiveTempFile env path →
      Q false s)
    (herror : ¬ s.db.StorePathsOnly env.cfg → ∀ msg, E (.error msg) s)
    (hroot : ∀ paths, path ∈ s.disk → PathsOf env s.db.graph path paths →
      (∃ i ∈ paths, i ∈ env.roots) → Q false (markLive env paths s))
    (hrefs : ∀ st paths referrers, path ≠ linksDir env.cfg → s.disk.find? path = some st →
      path ∉ s.deleted → path ∉ s.live → (path ∉ s.db.graph.valid → ¬ ActiveTempFile env path) →
      PathsOf env s.db.graph path paths → (∀ i ∈ paths, i ∉ env.roots) →
      (∀ y, y ∈ referrers ↔ y ∉ paths ∧ ∃ x ∈ paths, s.db.graph.refers y x) →
      Prog.Ends (Prog.all (tryToDelete env n) referrers) s
        (fun b s' => if b then Prog.Ends (deletePaths env st paths) s' (fun _ => Q true) E
          else Q false (markLive env paths s')) E) :
    Prog.Ends (tryToDelete env (n + 1) path) s Q E := by
  rw [tryToDelete]
  refine Prog.ends_get_bind ?_
  by_cases hlinks : path = linksDir env.cfg
  · rw [if_pos hlinks]
    exact hgone (Or.inl hlinks)
  rw [if_neg hlinks]
  cases hdisk : s.disk.find? path with
  | none => exact hgone (Or.inr (Or.inl (SortedMap.find?_eq_none_iff.mp hdisk)))
  | some st =>
    dsimp only
    by_cases hdeleted : path ∈ s.deleted
    · rw [if_pos hdeleted]
      exact hgone (Or.inr (Or.inr hdeleted))
    rw [if_neg hdeleted]
    by_cases hcached : path ∈ s.live
    · rw [if_pos hcached]
      exact hlive (mem_disk_of_find? hdisk) (Or.inl hcached)
    rw [if_neg hcached]
    split_ifs with htemp
    · exact hlive (mem_disk_of_find? hdisk)
        (Or.inr ⟨Database.isValidPath_eq_false_iff.mp htemp.1, htemp.2⟩)
    rcases pathsOf_spec env h path with ⟨paths, hpaths, hspec⟩ | ⟨⟨e, hpaths⟩, hstore⟩
    · rw [hpaths]
      change Prog.Ends (ite _ _ _) s Q E
      split_ifs with hroots
      · exact hroot paths (mem_disk_of_find? hdisk) hspec hroots
      · refine (hrefs st paths _ hlinks hdisk hdeleted hcached
          (fun hinval hactive => htemp ⟨Database.isValidPath_eq_false_iff.mpr hinval, hactive⟩) hspec
          (fun i hi hr => hroots ⟨i, hi, hr⟩) fun y => ?_).bind (fun b s' hs' => ?_) fun _ _ => id
        · rw [List.mem_filter, SortedSet.mem_toList, mem_referrersOf_iff h, decide_eq_true_eq,
            and_comm]
        · cases b with
          | true => exact hs'.bind (fun _ _ hQ => hQ) fun _ _ => id
          | false => exact hs'
    · rw [hpaths]
      exact herror hstore e

section

variable {I : GCState → Prop} {E : GCStop → GCState → Prop}

/-- What the treatment of a single path preserves, a call of `tryToDelete` preserves. -/
theorem tryToDelete_preserves (env : GCEnv) (hwf : ∀ s, I s → s.db.WellFormed)
    (hlive : ∀ paths s, I s → I (markLive env paths s))
    (hdel : ∀ st i s, I s → Prog.Ends (deletePath env st i) s (fun _ => I) E)
    (hfuel : ∀ s, I s → E .outOfFuel s)
    (herror : ∀ s, I s → (s.db.StorePathsOnly env.cfg ∧
      ∀ paths, ∃ l, topoSortPaths s.db.references paths = .ok l) ∨
        ∀ e, e ≠ GCStop.limitReached → E e s) :
    ∀ (n : ℕ) (path : Path) (s : GCState), I s →
      Prog.Ends (tryToDelete env n path) s (fun _ => I) E := by
  intro n
  induction n with
  | zero => exact fun _ s hs => Prog.ends_throw (hfuel s hs)
  | succ n ih =>
    intro path s hs
    refine ends_tryToDelete (hwf s hs) (fun _ => hs) (fun _ _ => hs)
      (fun hbad _ => (herror s hs).resolve_left (fun h => hbad h.1) _ (by simp))
      (fun paths _ _ _ => hlive paths s hs) ?_
    intro st paths referrers _ _ _ _ _ _ _ _
    refine (Prog.Ends.all (I := fun _ => I) (F := fun _ => I) referrers
      (fun done y rest s' _ hs' => ?_) hs).mono (fun b s' hs' => ?_) fun _ _ => id
    · refine (ih y s' hs').mono (fun b s'' hs'' => ?_) fun _ _ => id
      split_ifs <;> exact hs''
    · cases b with
      | true =>
        refine (ends_deletePaths (I := fun _ => I) ((herror s' hs').imp_left fun h => h.2 paths)
          hs' fun _ _ _ _ _ i _ s'' _ hs'' => hdel st i s'' hs'').mono ?_ fun _ _ => id
        rintro _ s'' ⟨-, -, hs''⟩
        exact hs''
      | false =>
        obtain ⟨-, -, hs'⟩ := hs'
        exact hlive paths s' hs'

end

/-! ### The loops of `collectGarbage` -/

section

variable {fuel : ℕ} {I : GCState → Prop} {E : GCStop → GCState → Prop}

/-- What every `tryToDelete` keeps, the loop over the directory keeps. -/
theorem ends_readEntries
    (htry : ∀ p s, I s → Prog.Ends (tryToDelete env fuel p) s (fun _ => I) E) (dirents : List Path) :
    ∀ entries s, I s → Prog.Ends (readEntries env fuel dirents entries) s (fun _ => I) E := by
  induction dirents with
  | nil => exact fun _ _ hs => Prog.ends_pure hs
  | cons path rest ih =>
    intro entries s hs
    have hentry : Prog.Ends (readEntry env fuel path entries) s (fun _ => I) E := by
      refine Prog.ends_get_bind ?_
      split_ifs
      · exact hs
      · exact (htry path s hs).bind (fun _ _ hs' => hs') fun _ _ => id
    exact hentry.bind (fun entries' s' hs' => ih entries' s' hs') fun _ _ => id

/-- What every `tryToDelete` keeps, both passes over the directory keep. -/
theorem ends_deleteEntries
    (htry : ∀ p s, I s → Prog.Ends (tryToDelete env fuel p) s (fun _ => I) E) (dirents : List Path)
    (shuffle : List Path → List Path) (hs : I s) :
    Prog.Ends (deleteEntries env fuel dirents shuffle) s (fun _ => I) E := by
  refine (ends_readEntries htry dirents [] s hs).bind (fun entries s' hs' => ?_) fun _ _ => id
  refine Prog.Ends.each (I := fun _ => I) (shuffle entries) (fun _ i _ s'' _ hs'' => ?_) hs'
  exact (htry i s'' hs'').bind (fun _ _ h => h) fun _ _ => id

/-- What every `tryToDelete` keeps, the deletion of given paths keeps. -/
theorem ends_deleteSpecific
    (htry : ∀ p s, I s → Prog.Ends (tryToDelete env fuel p) s (fun _ => I) E)
    (herror : ∀ s msg, I s → E (.error msg) s) (hs : I s) :
    Prog.Ends (deleteSpecific env fuel) s (fun _ => I) E := by
  refine Prog.Ends.each (I := fun _ => I) _ (fun _ i _ s' _ hs' => ?_) hs
  rw [assertStorePath]
  split_ifs
  · refine (htry i s' hs').bind (fun b s'' hs'' => ?_) fun _ _ => id
    cases b with
    | true => exact hs''
    | false => exact herror s'' _ hs''
  · exact herror s' _ hs'

/-- What every call of `tryToDelete` preserves, a whole run preserves as long as it holds the lock. -/
theorem ends_collectUnderLock {settings : GCSettings} {options : GCOptions}
    {permRoots tempRoots : PathSet} (fuel : ℕ) (dirents : List Path)
    (shuffle : List Path → List Path)
    (htry : ∀ p s, I s →
      Prog.Ends (tryToDelete (gcEnv settings options permRoots tempRoots) fuel p) s (fun _ => I) E)
    (herror : ∀ s msg, I s → E (.error msg) s) (hs : I s) :
    Prog.Ends (collectUnderLock settings options permRoots tempRoots fuel dirents shuffle) s
      (fun _ s' => I s' ∨ E .limitReached s') E := by
  rw [collectUnderLock]
  split_ifs
  · exact (ends_deleteSpecific htry herror hs).mono (fun _ _ h => Or.inl h) fun _ _ => id
  · refine (Prog.Ends.catching (ends_deleteEntries htry dirents shuffle hs)).mono ?_
      fun _ _ => And.right
    rintro _ s' (hs' | ⟨e, rfl, hs'⟩)
    · exact Or.inl hs'
    · exact Or.inr hs'
  · exact Or.inl hs

end

/-- In a list without repetition an element does not come before itself. -/
theorem notMem_done {l done rest : List Path} {i : Path} (hnd : l.Nodup) (hl : l = done ++ i :: rest) :
    i ∉ done := fun hdone => by
  rw [hl] at hnd
  exact (List.nodup_append.mp hnd).2.2 i hdone i List.mem_cons_self rfl

/-- What a run has changed after it has deleted the renamed paths, too. -/
structure CleanedUp (s s' : GCState) : Prop where
  db : s'.db = s.db
  paths : s'.paths = s.paths
  find? : ∀ x, s'.disk.find? x = if x ∈ s.invalidated then none else s.disk.find? x

/-- The last loop of `collectGarbage` leaves what was not renamed. -/
theorem CleanedUp.mem_disk_iff {s' : GCState} (h : CleanedUp s s') {x : Path} :
    x ∈ s'.disk ↔ x ∈ s.disk ∧ x ∉ s.invalidated := by
  rw [SortedMap.mem_iff_find?_ne_none, SortedMap.mem_iff_find?_ne_none, h.find?]
  by_cases hx : x ∈ s.invalidated <;> simp [hx]

/-- The deletion of the renamed paths touches no other entry; it fails if one of them is missing. -/
theorem deleteInvalidated_spec :
    Prog.Ends deleteInvalidated s (fun _ s' => (∀ x ∈ s.invalidated, x ∈ s.disk) ∧ CleanedUp s s')
      (fun e s' => (∃ msg, e = .error msg) ∧ (∃ x ∈ s.invalidated, x ∉ s.disk) ∧ s'.db = s.db ∧
        ∀ x, x ∉ s.invalidated → s'.disk.find? x = s.disk.find? x) := by
  refine Prog.ends_get_bind ?_
  refine (Prog.Ends.each (I := fun done s' => (∀ x ∈ done, x ∈ s.disk) ∧ s'.db = s.db ∧
    s'.paths = s.paths ∧ ∀ x, s'.disk.find? x = if x ∈ done then none else s.disk.find? x)
    s.invalidated.toList ?_ ⟨by simp, rfl, rfl, by simp⟩).mono ?_ fun _ _ => id
  · rintro done i rest s' hl ⟨hdone, hdb, hpaths, hdisk⟩
    have hi : i ∉ done := notMem_done (SortedMap.keys_nodup _) hl
    have hmem : i ∈ s.invalidated := SortedSet.mem_toList.mp (by simp [hl])
    have hsame : ∀ x, x ∉ s.invalidated → s'.disk.find? x = s.disk.find? x := fun x hx => by
      rw [hdisk, if_neg fun h => hx (SortedSet.mem_toList.mp (hl ▸ List.mem_append_left _ h))]
    refine Prog.ends_get_bind ?_
    cases hfind : s'.disk.find? i with
    | none =>
      rw [hdisk, if_neg hi] at hfind
      exact ⟨⟨_, rfl⟩, ⟨i, hmem, SortedMap.find?_eq_none_iff.mp hfind⟩, hdb, hsame⟩
    | some entry =>
      refine Prog.ends_modify ⟨fun x hx => ?_, hdb, hpaths, fun x => ?_⟩
      · rcases List.mem_append.mp hx with hx | hx
        · exact hdone x hx
        · rw [List.mem_singleton.mp hx]
          rw [hdisk, if_neg hi] at hfind
          exact mem_disk_of_find? hfind
      · dsimp only
        rw [SortedMap.find?_erase, hdisk]
        by_cases hx : x = i
        · simp [hx]
        · simp [hx]
  · rintro _ s' ⟨hall, hdb, hpaths, hdisk⟩
    exact ⟨fun x hx => hall x (SortedSet.mem_toList.mpr hx), hdb, hpaths, fun x => by
      simpa only [SortedSet.mem_toList] using hdisk x⟩

/-- The part of a run over all entries under the lock: the limit is caught. -/
theorem ends_collectUnderLock_entries {settings : GCSettings} {options : GCOptions}
    {permRoots tempRoots : PathSet} {fuel : ℕ} {dirents : List Path} {shuffle : List Path → List Path}
    {Q : Unit → GCState → Prop} {E : GCStop → GCState → Prop}
    (hspecific : options.action ≠ .gcDeleteSpecific) (hfreed : options.maxFreed > 0)
    (h : Prog.Ends (deleteEntries (gcEnv settings options permRoots tempRoots) fuel dirents shuffle) s
      Q E) :
    Prog.Ends (collectUnderLock settings options permRoots tempRoots fuel dirents shuffle) s
      (fun _ s' => Q () s' ∨ E .limitReached s') E := by
  rw [collectUnderLock, if_neg hspecific, if_pos hfreed]
  refine h.catching.mono ?_ fun _ _ => And.right
  rintro _ s' (hs' | ⟨e, rfl, hs'⟩)
  · exact Or.inl hs'
  · exact Or.inr hs'

/-- What the loops over the entries lead to, a run that looks at them leads to, unless a renamed path is
missing when the run has come to its end or to the limit. -/
theorem ends_collectGarbage {settings : GCSettings} {options : GCOptions} {permRoots tempRoots : PathSet}
    {fuel : ℕ} {dirents : List Path} {shuffle : List Path → List Path} {Q : Unit → GCState → Prop}
    {E : GCStop → GCState → Prop} (hspecific : options.action ≠ .gcDeleteSpecific)
    (hfreed : options.maxFreed > 0)
    (h : Prog.Ends (deleteEntries (gcEnv settings options permRoots tempRoots) fuel dirents shuffle) s
      Q E)
    (hdisk : ∀ s', Q () s' ∨ E .limitReached s' → ∀ x ∈ s'.invalidated, x ∈ s'.disk) :
    Prog.Ends (collectGarbage settings options permRoots tempRoots fuel dirents shuffle) s
      (fun _ s' => ∃ s₁, (Q () s₁ ∨ E .limitReached s₁) ∧ CleanedUp s₁ s') E := by
  refine (ends_collectUnderLock_entries hspecific hfreed h).bind (fun _ s₁ hs₁ => ?_) fun _ _ => id
  refine deleteInvalidated_spec.mono (fun _ s' hs' => ⟨s₁, hs₁, hs'.2⟩) ?_
  rintro e s' ⟨-, ⟨x, hx, hgone⟩, -⟩
  exact absurd (hdisk s₁ hs₁ x hx) hgone

/-- A run that returns has found all renamed paths that it had to delete. -/
theorem collectGarbage_returns {settings : GCSettings} {options : GCOptions}
    {permRoots tempRoots : PathSet} {fuel : ℕ} {dirents : List Path} {shuffle : List Path → List Path}
    {Q : GCState → Prop} {E : GCStop → GCState → Prop}
    (h : Prog.Ends (collectUnderLock settings options permRoots tempRoots fuel dirents shuffle) s
      (fun _ => Q) E)
    (hok : (collectGarbage settings options permRoots tempRoots fuel dirents shuffle s).1 = .ok ()) :
    ∃ s₁, Q s₁ ∧ (∀ x ∈ s₁.invalidated, x ∈ s₁.disk) ∧
      CleanedUp s₁ (collectGarbage settings options permRoots tempRoots fuel dirents shuffle s).2 := by
  have hrun : Prog.Ends (collectGarbage settings options permRoots tempRoots fuel dirents shuffle) s
      (fun _ s' => ∃ s₁, Q s₁ ∧ (∀ x ∈ s₁.invalidated, x ∈ s₁.disk) ∧ CleanedUp s₁ s')
      fun _ _ => True := by
    refine h.bind (fun _ s₁ hs₁ => ?_) fun _ _ _ => trivial
    exact deleteInvalidated_spec.mono (fun _ s' hs' => ⟨s₁, hs₁, hs'⟩) fun _ _ _ => trivial
  exact hrun.of_ok (Prod.ext hok rfl)

end Nix
