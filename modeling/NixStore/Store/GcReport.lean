import NixStore.Store.GcStates

/-!
# What the garbage collector reports

`results.paths` is filled by the deletion loop of `tryToDelete`, after the check of `maxFreed`.  So a
run that deletes reports exactly what it has removed from the store, unless it is stopped by the limit:
then the path that was removed last is not reported.  `Traced` is the invariant, `Missed` what is true
when the limit stops a run.  Both need `FreshNames`, as a run can replace an entry when it renames a
directory.
-/

namespace Nix

variable {env : GCEnv} {g : StoreGraph} {disk : SortedMap Path StoreEntry} {s s' : GCState} {i : Path}

/-! ### The counters -/

/-- What the removal of `i` adds to the counters. -/
def counted (st : StoreEntry) (s : GCState) (i : Path) : UInt64 :=
  if s.db.isValidPath i = true ∧ st.isDir = true then narSizeOf s.db i
  else ((s.disk.find? i).map StoreEntry.size).getD 0

/-- What the removal of `i` does to the counters and the report. -/
structure Counted (st : StoreEntry) (i : Path) (s s' : GCState) : Prop where
  bytes : s'.bytesFreed + s'.bytesInvalidated = s.bytesFreed + s.bytesInvalidated + counted st s i
  narSize : ∀ x, x ≠ i → narSizeOf s'.db x = narSizeOf s.db x
  paths : s'.paths = s.paths

/-- Invalidating a path leaves the rows of the others. -/
theorem row?_of_invalidatePath {db db' : Database} (h : db.invalidatePath i = .ok db') {x : Path}
    (hx : x ≠ i) : db'.row? x = db.row? x := by
  rw [Database.invalidatePath] at h
  split at h
  · rw [Outcome.ok.inj h]
  · split_ifs at h
    obtain rfl := Outcome.ok.inj h
    rw [Database.row?, Database.row?, List.find?_filter]
    congr 1
    funext r
    by_cases hr : r.path = x <;> simp [hr, hx]

/-- Other rows of the database stay as they are. -/
theorem narSizeOf_of_invalidatePathChecked {db db' : Database} {cfg : StoreConfig}
    (h : db.invalidatePathChecked cfg i = .ok db') {x : Path} (hx : x ≠ i) :
    narSizeOf db' x = narSizeOf db x := by
  have hrow : db'.row? x = db.row? x := by
    rw [Database.invalidatePathChecked, assertStorePath] at h
    by_cases hstore : isStorePath cfg i = true
    · rw [if_pos hstore, Outcome.ok_bind] at h
      dsimp only at h
      split_ifs at h
      · exact row?_of_invalidatePath h hx
      · rw [← Outcome.ok.inj h]
    · rw [if_neg hstore] at h
      exact absurd h (by simp)
  rw [narSizeOf, narSizeOf, hrow]

/-- Invalidating a path leaves the sizes of the others. -/
theorem invalidate_counted :
    Prog.Ends (invalidate env i) s (fun _ s' => ∃ db', (∀ x, x ≠ i → narSizeOf db' x = narSizeOf s.db x) ∧
      s' = { s with db := db', log := s.log ++ [.invalidate i] }) fun _ _ => True := by
  refine Prog.ends_get_bind ?_
  cases hok : s.db.invalidatePathChecked env.cfg i with
  | ok db' => exact ⟨db', fun x hx => narSizeOf_of_invalidatePathChecked hok hx, rfl⟩
  | error e => trivial
  | diverge => trivial

/-- Removing a path counts its size. -/
theorem removePath_counted (st : StoreEntry) (i : Path) :
    Prog.Ends (removePath env st i) s (fun _ => Counted st i s) fun _ _ => True := by
  refine Prog.ends_get_bind ?_
  split_ifs with hval hdir
  · refine Prog.ends_modify_bind ?_
    refine invalidate_counted.bind ?_ fun _ _ => id
    rintro _ _ ⟨db', hnar, rfl⟩
    refine renameAway_spec.mono ?_ fun _ _ _ => trivial
    rintro _ _ ⟨entry, -, rfl⟩
    exact ⟨by simp [counted, hval, hdir, add_assoc], hnar, rfl⟩
  · refine invalidate_counted.bind ?_ fun _ _ => id
    rintro _ _ ⟨db', hnar, rfl⟩
    refine deleteGarbage_spec.mono ?_ fun _ _ _ => trivial
    rintro _ _ ⟨entry, hfind, rfl⟩
    exact ⟨by simp [counted, hdir, show s.disk.find? i = some entry from hfind, add_right_comm], hnar, rfl⟩
  · refine deleteGarbage_spec.mono ?_ fun _ _ _ => trivial
    rintro _ _ ⟨entry, hfind, rfl⟩
    exact ⟨by simp [counted, hval, hfind, add_right_comm], fun _ _ => rfl, rfl⟩

/-- The body of the deletion loop: what has been removed is reported if the limit has not been
reached. -/
theorem deletePath_removes (hdelete : shouldDelete env.options.action = true) (h : s.db.WellFormed)
    (st : StoreEntry) (i : Path) :
    Prog.Ends (deletePath env st i) s
      (fun _ s' => ∃ s₁, Removed env i s s₁ ∧ Counted st i s s₁ ∧ s' = markDeleted env i s₁ ∧
        s₁.bytesFreed + s₁.bytesInvalidated ≤ env.options.maxFreed)
      fun e s₁ => e = .limitReached → Removed env i s s₁ ∧ Counted st i s s₁ ∧
        s₁.bytesFreed + s₁.bytesInvalidated > env.options.maxFreed := by
  rw [deletePath, if_pos hdelete]
  refine ((removePath_spec h st).and (removePath_counted st i)).bind (fun _ s₁ hs₁ => ?_)
    fun e _ he hlimit => ?_
  · have hlimit : Prog.Ends (checkLimit env) s₁
        (fun _ s' => s' = s₁ ∧ s₁.bytesFreed + s₁.bytesInvalidated ≤ env.options.maxFreed)
        fun _ s' => s' = s₁ ∧ s₁.bytesFreed + s₁.bytesInvalidated > env.options.maxFreed := by
      refine Prog.ends_get_bind ?_
      split_ifs with hlimit
      · exact ⟨rfl, hlimit⟩
      · exact ⟨rfl, UInt64.not_lt.mp hlimit⟩
    refine hlimit.bind ?_ ?_
    · rintro _ _ ⟨rfl, hle⟩
      exact Prog.ends_modify ⟨_, hs₁.1, hs₁.2, rfl, hle⟩
    · rintro _ _ ⟨rfl, hgt⟩ -
      exact ⟨hs₁.1, hs₁.2, hgt⟩
  · obtain ⟨⟨⟨msg, hmsg⟩, -⟩, -⟩ := he
    exact absurd (hlimit ▸ hmsg) (by simp)

/-! ### The report -/

/-- What holds between two actions of a run that started with the graph `g` and the entries `disk`:
what has been removed from them is remembered and reported. -/
structure Traced (env : GCEnv) (g : StoreGraph) (disk : SortedMap Path StoreEntry) (s : GCState) :
    Prop where
  wellFormed : s.db.WellFormed
  valid : s.db.graph.valid ⊆ g.valid
  known : ∀ x ∈ s.disk, x ∈ disk ∨ x ∈ s.invalidated
  invalidated : ∀ x ∈ s.invalidated, ∃ p ∈ g.valid, p ∉ s.db.graph.valid ∧ x = tmpName env p
  deleted : ∀ x ∈ s.deleted, x ∉ s.disk ∧ x ∉ s.db.graph.valid ∧ (x ∈ disk ∨ x ∈ s.invalidated)
  goneEntry : ∀ x ∈ disk, x ∉ s.disk → x ∈ s.deleted
  gonePath : ∀ x ∈ g.valid, x ∉ s.db.graph.valid → x ∈ s.deleted
  reported : ∀ x, x ∈ s.paths ↔ x ∈ s.deleted

/-- An entry has been removed and is not reported. -/
structure Missed (env : GCEnv) (g : StoreGraph) (disk : SortedMap Path StoreEntry) (s : GCState) :
    Prop where
  invalidated : ∀ x ∈ s.invalidated, ∃ p ∈ g.valid, x = tmpName env p
  entry : ∃ x, x ∉ s.paths ∧ x ∉ s.disk ∧ (x ∈ disk ∨ x ∈ s.invalidated)

/-- The first state is traced. -/
theorem traced_init {db : Database} (hwf : db.WellFormed) :
    Traced env db.graph disk (GCState.init db disk) where
  wellFormed := hwf
  valid := subset_rfl
  known _ hx := Or.inl hx
  invalidated := by simp [GCState.init]
  deleted := by simp [GCState.init]
  goneEntry _ hx hnot := absurd hx hnot
  gonePath _ hx hnot := absurd hx hnot
  reported := by simp [GCState.init]

/-- An action that deletes is not the one that returns the live paths. -/
theorem ne_gcReturnLive (hdelete : shouldDelete env.options.action = true) :
    env.options.action ≠ .gcReturnLive := fun he => by simp [he, shouldDelete] at hdelete

namespace Traced

/-- Marking keeps a state traced. -/
theorem markLive (hdelete : shouldDelete env.options.action = true) (h : Traced env g disk s)
    (paths : PathSet) : Traced env g disk (markLive env paths s) :=
  { h with
    reported := fun x => by
      rw [Nix.markLive]
      simp only [if_neg (ne_gcReturnLive hdelete)]
      exact h.reported x }

/-- A path that goes away has not been reported before. -/
theorem notMem_paths (h : Traced env g disk s) (hi : i ∈ s.disk) : i ∉ s.paths := fun hp =>
  (h.deleted i ((h.reported i).mp hp)).1 hi

/-- A renamed path was valid and is no longer. -/
theorem invalidated_of_removed (h : Traced env g disk s) (hgo : Removed env i s s') :
    ∀ x ∈ s'.invalidated, ∃ p ∈ g.valid, p ∉ s'.db.graph.valid ∧ x = tmpName env p := by
  intro x hx
  rcases hgo.disk.mem_invalidated hx with hx | ⟨hi, hxi, -⟩
  · obtain ⟨p, hp, hpv, hxp⟩ := h.invalidated x hx
    refine ⟨p, hp, fun hval => hpv ?_, hxp⟩
    rw [hgo.graph] at hval
    exact hval.1
  · refine ⟨i, h.valid hi, fun hval => ?_, hxi⟩
    rw [hgo.graph] at hval
    exact hval.2 rfl

/-- The state when the limit stops a run. -/
theorem missed {st : StoreEntry} (h : Traced env g disk s) (hgo : Removed env i s s')
    (hcount : Counted st i s s') : Missed env g disk s' where
  invalidated x hx := by
    obtain ⟨p, hp, -, hxp⟩ := h.invalidated_of_removed hgo x hx
    exact ⟨p, hp, hxp⟩
  entry := ⟨i, hcount.paths ▸ h.notMem_paths hgo.mem_disk, hgo.notMem_disk,
    (h.known i hgo.mem_disk).imp id hgo.disk.invalidated_subset⟩

/-- One more path is removed and reported. -/
theorem step (hnames : FreshNames env.pid g disk) (hdelete : shouldDelete env.options.action = true)
    (h : Traced env g disk s) {s₁ : GCState} (hgo : Removed env i s s₁) (hpaths : s₁.paths = s.paths)
    (hs' : s' = markDeleted env i s₁) : Traced env g disk s' := by
  have hval : ∀ x, x ∈ s'.db.graph.valid ↔ x ∈ s.db.graph.valid ∧ x ≠ i := fun x => by
    rw [hs', markDeleted, hgo.graph]
    exact Iff.rfl
  have hdeleted : ∀ x, x ∈ s'.deleted ↔ x = i ∨ x ∈ s.deleted := fun x => by
    rw [hs', markDeleted, hgo.deleted, SortedSet.mem_insert]
  have hinv : s'.invalidated = s₁.invalidated := by rw [hs', markDeleted]
  have hdisk : s'.disk = s₁.disk := by rw [hs', markDeleted]
  refine ⟨?_, fun x hx => h.valid ((hval x).mp hx).1, fun x hx => ?_, fun x hx => ?_, fun x hx => ?_,
    fun x hx hnot => ?_, fun x hx hnot => ?_, fun x => ?_⟩
  · rw [hs', markDeleted]
    exact hgo.wellFormed
  · rw [hinv]
    rcases hgo.disk.mem_disk_or_invalidated (hdisk ▸ hx) with hx | hx
    · exact (h.known x hx).imp id hgo.disk.invalidated_subset
    · exact Or.inr hx
  · rw [hinv] at hx
    obtain ⟨p, hp, hpv, hxp⟩ := h.invalidated_of_removed hgo x hx
    refine ⟨p, hp, fun hv => hpv ?_, hxp⟩
    rw [hgo.graph]
    exact (hval p).mp hv
  · rw [hdisk, hval, hinv]
    rcases (hdeleted x).mp hx with rfl | hx
    · exact ⟨hgo.notMem_disk, fun hv => hv.2 rfl,
        (h.known x hgo.mem_disk).imp id hgo.disk.invalidated_subset⟩
    · obtain ⟨hoff, hinvalid, hold⟩ := h.deleted x hx
      refine ⟨fun hx₁ => ?_, fun hv => hinvalid hv.1, hold.imp id hgo.disk.invalidated_subset⟩
      rcases hgo.disk.mem_disk hx₁ with ⟨-, hx₁⟩ | ⟨hi, rfl⟩
      · exact hoff hx₁
      · -- the name of the renaming was neither an entry nor the name of another renaming
        rcases hold with hold | hold
        · exact hnames.notMem_disk i (h.valid hi) hold
        · obtain ⟨p, -, hpv, heq⟩ := h.invalidated _ hold
          exact hpv (tmpName_injective env heq ▸ hi)
  · rw [hdeleted]
    by_cases hxi : x = i
    · exact Or.inl hxi
    · exact Or.inr (h.goneEntry x hx fun hxs => hnot (hdisk ▸ hgo.disk.mem_disk_of_ne hxi hxs))
  · rw [hdeleted]
    by_cases hxi : x = i
    · exact Or.inl hxi
    · exact Or.inr (h.gonePath x hx fun hxs => hnot ((hval x).mpr ⟨hxs, hxi⟩))
  · have hreport : x ∈ s'.paths ↔ x = i ∨ x ∈ s.paths := by
      rw [hs', markDeleted]
      simp only [if_pos (ne_gcReturnLive hdelete), SortedSet.mem_insert, hpaths]
    rw [hreport, hdeleted, h.reported]

end Traced

/-- Deleting a path keeps a state traced. -/
theorem deletePath_traced (hnames : FreshNames env.pid g disk)
    (hdelete : shouldDelete env.options.action = true) (h : Traced env g disk s) (st : StoreEntry)
    (i : Path) :
    Prog.Ends (deletePath env st i) s (fun _ => Traced env g disk)
      fun e s' => e = .limitReached → Missed env g disk s' := by
  refine (deletePath_removes hdelete h.wellFormed st i).mono ?_ fun e s₁ he hlimit => ?_
  · rintro _ s' ⟨s₁, hgo, hcount, hs', -⟩
    exact h.step hnames hdelete hgo hcount.paths hs'
  · obtain ⟨hgo, hcount, -⟩ := he hlimit
    exact h.missed hgo hcount

/-! ### Whole runs -/

/-- The path was an entry or a valid path of the store, and it is not any more. -/
def RemovedBy (db : Database) (disk : SortedMap Path StoreEntry) (final : GCState) (x : Path) : Prop :=
  x ∈ disk ∧ x ∉ final.disk ∨ x ∈ db.graph.valid ∧ x ∉ final.db.graph.valid

variable {db : Database}

/-- The calls of a run that deletes. -/
theorem tryToDelete_traced (hnames : FreshNames env.pid g disk)
    (hdelete : shouldDelete env.options.action = true) (n : ℕ) (path : Path) (s : GCState)
    (hs : Traced env g disk s) :
    Prog.Ends (tryToDelete env n path) s (fun _ => Traced env g disk)
      fun e s' => e = .limitReached → Missed env g disk s' :=
  tryToDelete_preserves env (fun _ h => h.wellFormed) (fun paths _ h => h.markLive hdelete paths)
    (fun st i _ h => deletePath_traced hnames hdelete h st i) (fun _ _ he => absurd he (by simp))
    (fun _ _ => Or.inr fun _ hne he => absurd he hne) n path s hs

/-- If nothing has been missed, a run that returns reports what it has removed from the store. -/
theorem Traced.mem_paths_iff {final : GCState} (hnames : FreshNames env.pid db.graph disk)
    (h : Traced env db.graph disk s) (hdisk : ∀ x ∈ s.invalidated, x ∈ s.disk)
    (hclean : CleanedUp s final) (x : Path) : x ∈ final.paths ↔ RemovedBy db disk final x := by
  rw [hclean.paths, h.reported, RemovedBy, hclean.db, hclean.mem_disk_iff]
  constructor
  · intro hx
    obtain ⟨hoff, -, hold⟩ := h.deleted x hx
    exact Or.inl ⟨hold.resolve_right fun hinv => hoff (hdisk x hinv), fun hx => hoff hx.1⟩
  · rintro (⟨hx, hnot⟩ | ⟨hx, hnot⟩)
    · refine h.goneEntry x hx fun hxs => hnot ⟨hxs, fun hinv => ?_⟩
      obtain ⟨p, hp, -, rfl⟩ := h.invalidated x hinv
      exact hnames.notMem_disk p hp hx
    · exact h.gonePath x hx hnot

/-- If something has been missed, a run that returns does not report it. -/
theorem Missed.exists_notMem_paths {final : GCState} (h : Missed env db.graph disk s)
    (hdisk : ∀ x ∈ s.invalidated, x ∈ s.disk) (hclean : CleanedUp s final) :
    ∃ x, x ∉ final.paths ∧ RemovedBy db disk final x := by
  obtain ⟨x, hx, hoff, hold⟩ := h.entry
  refine ⟨x, hclean.paths ▸ hx, Or.inl ⟨hold.resolve_right fun hinv => hoff (hdisk x hinv), ?_⟩⟩
  rw [hclean.mem_disk_iff]
  exact fun h => hoff h.1

end Nix
