import NixStore.Store.GcExactness
import NixStore.Store.GcOrder
import NixStore.Store.GcReport

/-!
# When the limit stops the garbage collector

A run is stopped by `maxFreed` in some order of the entries exactly if what it can count exceeds the
limit.  What it counts before it looks at valid paths are the sizes of other entries (`looseTotal`).
After that it enters components one after the other, each of them when no other path refers to it any
more; `Sweep` describes what such a sequence removes and counts, without the states of a run.  The
members of a component are counted by the type of the path from which it is entered, so that the order
matters.
-/

namespace Nix

/-- An entry that a run deletes before it looks at valid paths. -/
def Loose (env : GCEnv) (db : Database) (p : Path) : Prop :=
  p ∉ db.graph.valid ∧ p ≠ linksDir env.cfg ∧ p ∉ env.roots ∧ ¬ ActiveTempFile env p

instance (env : GCEnv) (db : Database) (p : Path) : Decidable (Loose env db p) :=
  inferInstanceAs (Decidable (_ ∧ _ ∧ _ ∧ _))

/-- The size of an entry, 0 for a missing one. -/
def sizeOf (disk : SortedMap Path StoreEntry) (p : Path) : UInt64 :=
  ((disk.find? p).map StoreEntry.size).getD 0

/-- What the deletion of an entry that is no valid path counts. -/
def looseSize (env : GCEnv) (db : Database) (disk : SortedMap Path StoreEntry) (p : Path) : ℕ :=
  if Loose env db p then (sizeOf disk p).toNat else 0

/-- What the deletion of all of them counts. -/
def looseTotal (env : GCEnv) (db : Database) (disk : SortedMap Path StoreEntry) : ℕ :=
  (disk.keys.map (looseSize env db disk)).sum

/-- What the removal of a valid path counts, by the type of the path from which its component is
entered. -/
def weight (db : Database) (disk : SortedMap Path StoreEntry) (st : StoreEntry) (x : Path) : ℕ :=
  (if st.isDir then narSizeOf db x else sizeOf disk x).toNat

/-- Components can be entered one after the other so that the paths in `gone` are removed and `n` bytes
are counted. -/
inductive Sweep (env : GCEnv) (db : Database) (disk : SortedMap Path StoreEntry) :
    Finset Path → ℕ → Prop
  | start : Sweep env db disk ∅ 0
  | enter {gone : Finset Path} {n : ℕ} {p : Path} {st : StoreEntry} {M : Finset Path} :
      Sweep env db disk gone n → p ∈ db.graph.valid → p ∉ gone → disk.find? p = some st →
      (∀ q, q ∈ M ↔ q ∈ db.graph.Component env.keep p ∧ q ∉ gone) → (∀ x ∈ M, x ∉ env.roots) →
      (∀ x ∈ M, ∀ y, db.graph.refers y x → y ∈ gone ∨ y ∈ M ∨ y ∉ disk ∨ y = linksDir env.cfg) →
      Sweep env db disk (gone ∪ M) (n + ∑ x ∈ M, weight db disk st x)

/-- The limit is never exceeded: the run deletes given paths, does nothing, has no limit, or whatever it
can count is within it. -/
def WithinLimit (env : GCEnv) (db : Database) (disk : SortedMap Path StoreEntry) : Prop :=
  env.options.action = .gcDeleteSpecific ∨ env.options.maxFreed = 0 ∨
    env.options.maxFreed = 0xffffffffffffffff ∨
    ∀ gone n, Sweep env db disk gone n → looseTotal env db disk + n ≤ env.options.maxFreed.toNat

variable {env : GCEnv} {db : Database} {disk : SortedMap Path StoreEntry} {s s' : GCState}

/-! ### Counting in the deletion loop -/

/-- What has been counted so far. -/
def GCState.counter (s : GCState) : UInt64 := s.bytesFreed + s.bytesInvalidated

/-- The rows of the valid paths are those of `db`. -/
def SameSizes (db : Database) (s : GCState) : Prop :=
  ∀ x ∈ s.db.graph.valid, narSizeOf s.db x = narSizeOf db x

/-- The state in the middle of the deletion loop, after the paths in `F`. -/
structure MidCount (env : GCEnv) (db : Database) (disk : SortedMap Path StoreEntry) (st : StoreEntry)
    (k : ℕ) (s : GCState) (done : List Path) (s' : GCState) : Prop where
  mid : MidDeletion env db.graph disk s done s'
  nodup : done.Nodup
  valid : ∀ x ∈ done, x ∈ s.db.graph.valid
  sizes : SameSizes db s'
  counter : s'.counter = UInt64.ofNat (k + ∑ x ∈ done.toFinset, weight db disk st x)
  within : s.counter ≤ env.options.maxFreed → s'.counter ≤ env.options.maxFreed

/-- The limit has been exceeded after the paths in `F`. -/
def Exceeded (env : GCEnv) (db : Database) (disk : SortedMap Path StoreEntry) (st : StoreEntry)
    (k : ℕ) (s : GCState) (paths : PathSet) (s' : GCState) : Prop :=
  ∃ F : Finset Path, F.Nonempty ∧ (∀ x ∈ F, x ∈ paths ∧ x ∈ s.db.graph.valid) ∧
    s'.counter = UInt64.ofNat (k + ∑ x ∈ F, weight db disk st x) ∧ s'.counter > env.options.maxFreed

/-- What is counted for a valid path is its weight. -/
theorem counted_eq {st : StoreEntry} {i : Path} (hs : LooseState env db.graph disk s)
    (hsizes : SameSizes db s) (hi : i ∈ s.db.graph.valid) :
    counted st s i = UInt64.ofNat (weight db disk st i) := by
  have hval : s.db.isValidPath i = true := Database.isValidPath_iff.mpr hi
  cases hdir : st.isDir with
  | true => simp [counted, weight, hval, hdir, hsizes i hi]
  | false => simp [counted, weight, hdir, sizeOf, hs.entries i hi]

/-- The counters after one more path. -/
theorem MidCount.counter_step {st : StoreEntry} {k : ℕ} {done : List Path} {i : Path} {s₁ : GCState}
    (h : MidCount env db disk st k s done s') (hi : i ∈ s'.db.graph.valid) (hdone : i ∉ done)
    (hcount : Counted st i s' s₁) :
    s₁.counter = UInt64.ofNat (k + ∑ x ∈ (done ++ [i]).toFinset, weight db disk st x) := by
  have hsum : ∑ x ∈ (done ++ [i]).toFinset, weight db disk st x =
      ∑ x ∈ done.toFinset, weight db disk st x + weight db disk st i := by
    have hset : (done ++ [i]).toFinset = insert i done.toFinset := by
      ext x
      simp
    rw [hset, Finset.sum_insert (by simpa using hdone), add_comm]
  have hbytes : s₁.counter = s'.counter + counted st s' i := hcount.bytes
  rw [hbytes, h.counter, counted_eq h.mid.state h.sizes hi, hsum, ← add_assoc,
    UInt64.ofNat_add (k + _)]

/-- The deletion loop, with what it counts. -/
theorem deletePaths_counted (hnames : FreshNames env.pid db.graph disk)
    (hdelete : shouldDelete env.options.action = true) (hs : ShrunkState env db.graph disk s)
    (hsizes : SameSizes db s) {k : ℕ} (hcounter : s.counter = UInt64.ofNat k) (st : StoreEntry)
    {paths : PathSet} (hpaths : ∀ x ∈ paths, x ∈ db.graph.valid) :
    Prog.Ends (deletePaths env st paths) s
      (fun _ s' => ∃ l, (∀ x, x ∈ l ↔ x ∈ paths) ∧ MidCount env db disk st k s l s')
      fun e s' => e = .limitReached → Exceeded env db disk st k s paths s' := by
  refine ends_deletePaths (I := fun done s' => MidCount env db disk st k s done s')
    (Or.inr fun _ hne he => absurd he hne)
    ⟨.init hs.toLooseState, List.nodup_nil, by simp, hsizes, by simpa using hcounter, id⟩ ?_
  rintro l hmem hnd - done i rest s₁ hl hs₁
  have hi : i ∈ paths := (hmem i).mp (by simp [hl])
  have hig := hpaths i hi
  have hdone := notMem_done hnd hl
  -- a path that goes away was valid, at the beginning of the loop, too
  have hvalid : ∀ {s₂}, Removed env i s₁ s₂ → i ∈ s₁.db.graph.valid ∧ i ∈ s.db.graph.valid :=
    fun hgo => by
      have hval := hs₁.mid.state.mem_valid hig hgo.mem_disk
      refine ⟨hval, (mem_removed_or_valid hig).resolve_left fun hr => ?_⟩
      exact (hs₁.mid.removed_eq ▸ Or.inl hr : i ∈ removed db.graph s₁).2 hval
  refine ((deletePath_spec hs₁.mid.state.wellFormed st).and
    (deletePath_removes hdelete hs₁.mid.state.wellFormed st i)).mono ?_ ?_
  · rintro _ s₂ ⟨hdel, s', hgo, hcount, rfl, hle⟩
    obtain ⟨hval, hvals⟩ := hvalid hgo
    have hcounter := hs₁.counter_step hval hdone hcount
    have hmid : MidDeletion env db.graph disk s (done ++ [i]) (markDeleted env i s') := by
      obtain ⟨-, hstate, hremoved⟩ := hs₁.mid.state.step hnames hig (hdel.vanished hdelete)
      refine ⟨hstate, ?_, hdel.live.trans hs₁.mid.live⟩
      ext x
      simp only [hremoved, hs₁.mid.removed_eq, Set.mem_union, Set.mem_ofPred_eq,
        Set.mem_singleton_iff, List.mem_append, List.mem_singleton, or_assoc]
    refine ⟨hmid, ?_, fun x hx => ?_, fun x hx => ?_, hcounter, fun _ => hle⟩
    · rw [hl] at hnd
      exact (List.nodup_append.mp (by simpa using hnd : ((done ++ [i]) ++ rest).Nodup)).1
    · rcases List.mem_append.mp hx with hx | hx
      · exact hs₁.valid x hx
      · rwa [List.mem_singleton.mp hx]
    · have hx' : x ∈ s₁.db.graph.valid ∧ x ≠ i := by
        rw [(hdel.removed hdelete).1] at hx
        exact hx
      exact (hcount.narSize x hx'.2).trans (hs₁.sizes x hx'.1)
  · rintro e s₂ ⟨-, he⟩ hlimit
    obtain ⟨hgo, hcount, hgt⟩ := he hlimit
    obtain ⟨hval, hvals⟩ := hvalid hgo
    refine ⟨(done ++ [i]).toFinset, ⟨i, by simp⟩, fun x hx => ?_, hs₁.counter_step hval hdone hcount,
      hgt⟩
    rcases List.mem_append.mp (List.mem_toFinset.mp hx) with hx | hx
    · exact ⟨(hmem x).mp (by simp [hl, hx]), hs₁.valid x hx⟩
    · rw [List.mem_singleton.mp hx]
      exact ⟨hi, hvals⟩

/-! ### Counting while the store directory is read -/

/-- The state after the entries `done` have been read. -/
structure ReadingState (env : GCEnv) (db : Database) (disk : SortedMap Path StoreEntry)
    (done : List Path) (s : GCState) : Prop where
  wellFormed : s.db.WellFormed
  graph : s.db.graph = db.graph
  sizes : SameSizes db s
  find? : ∀ x, s.disk.find? x = if x ∈ done ∧ Loose env db x then none else disk.find? x
  deleted : ∀ x ∈ s.deleted, x ∈ done ∧ x ∉ db.graph.valid
  live : ∀ x ∈ s.live, x ∈ done ∧ x ∉ db.graph.valid
  invalidated : ∀ p, p ∉ s.invalidated
  counter : s.counter = UInt64.ofNat (done.map (looseSize env db disk)).sum
  within : s.counter ≤ env.options.maxFreed

variable {done : List Path} {path : Path}

/-- At first nothing was read. -/
theorem readingState_init (hwf : db.WellFormed) :
    ReadingState env db disk [] (GCState.init db disk) where
  wellFormed := hwf
  graph := rfl
  sizes _ _ := rfl
  find? := by simp [GCState.init]
  deleted := by simp [GCState.init]
  live := by simp [GCState.init]
  invalidated := by simp [GCState.init]
  counter := by simp [GCState.init, GCState.counter]
  within := UInt64.le_iff_toNat_le.mpr (Nat.zero_le _)

/-- An entry that is left alone. -/
theorem ReadingState.skip (h : ReadingState env db disk done s) (hnot : ¬ Loose env db path) :
    ReadingState env db disk (done ++ [path]) s where
  wellFormed := h.wellFormed
  graph := h.graph
  sizes := h.sizes
  find? x := by
    rw [h.find?]
    by_cases hx : x = path
    · simp [hx, hnot]
    · simp [hx]
  deleted x hx := ⟨List.mem_append_left _ (h.deleted x hx).1, (h.deleted x hx).2⟩
  live x hx := ⟨List.mem_append_left _ (h.live x hx).1, (h.live x hx).2⟩
  invalidated := h.invalidated
  counter := by simp [h.counter, looseSize, hnot]
  within := h.within

/-- Marking entries that were read. -/
theorem ReadingState.markLive (h : ReadingState env db disk done s) {paths : PathSet}
    (hpaths : ∀ x ∈ paths, x ∈ done ∧ x ∉ db.graph.valid) :
    ReadingState env db disk done (markLive env paths s) :=
  { h with
    live := fun x hx => (SortedSet.mem_foldl_insert.mp hx).elim (hpaths x) (h.live x) }

/-- An entry that is deleted. -/
theorem ReadingState.delete {st : StoreEntry} {s₁ : GCState} (h : ReadingState env db disk done s)
    (hpath : path ∉ done) (hloose : Loose env db path) (hgo : Removed env path s s₁)
    (hcount : Counted st path s s₁) :
    s₁.counter = UInt64.ofNat ((done ++ [path]).map (looseSize env db disk)).sum ∧
      (s₁.counter ≤ env.options.maxFreed →
        ReadingState env db disk (done ++ [path]) (markDeleted env path s₁)) := by
  have hinval : path ∉ s.db.graph.valid := h.graph ▸ hloose.1
  have hgraph : s₁.db.graph = s.db.graph := by
    rw [hgo.graph, StoreGraph.without_singleton_of_notMem hinval]
  obtain ⟨hdisk, hinv⟩ := hgo.disk.resolve_right fun hval => hinval hval.1
  have hentry : s.disk.find? path = disk.find? path := by
    rw [h.find?, if_neg fun hx => hpath hx.1]
  have hcounter : s₁.counter =
      UInt64.ofNat ((done ++ [path]).map (looseSize env db disk)).sum := by
    have hbytes : s₁.counter = s.counter + counted st s path := hcount.bytes
    have hcounted : counted st s path = UInt64.ofNat (looseSize env db disk path) := by
      have hval : s.db.isValidPath path ≠ true := fun hval => hinval (Database.isValidPath_iff.mp hval)
      simp [counted, looseSize, sizeOf, hval, hloose, hentry]
    rw [hbytes, h.counter, hcounted, List.map_append, List.sum_append, List.map_singleton,
      List.sum_singleton, UInt64.ofNat_add]
  refine ⟨hcounter, fun hle => ⟨hgo.wellFormed, hgraph.trans h.graph, fun x hx => ?_, fun x => ?_,
    fun x hx => ?_, fun x hx => ?_, fun p hp => h.invalidated p (hinv ▸ hp), hcounter, hle⟩⟩
  · have hx' : x ∈ s.db.graph.valid := hgraph ▸ hx
    have hne : x ≠ path := by
      rintro rfl
      exact hinval hx'
    exact (hcount.narSize x hne).trans (h.sizes x hx')
  · change s₁.disk.find? x = _
    rw [hdisk, SortedMap.find?_erase, h.find?]
    by_cases hx : x = path
    · simp [hx, hloose]
    · simp [hx]
  · rw [markDeleted, hgo.deleted] at hx
    rcases SortedSet.mem_insert.mp hx with rfl | hx
    · exact ⟨by simp, hloose.1⟩
    · exact ⟨List.mem_append_left _ (h.deleted x hx).1, (h.deleted x hx).2⟩
  · have hx' := h.live x (hgo.live ▸ hx)
    exact ⟨List.mem_append_left _ hx'.1, hx'.2⟩

/-- A number above the limit. -/
theorem lt_of_counter_gt {k : ℕ} (hcounter : s.counter = UInt64.ofNat k)
    (hgt : s.counter > env.options.maxFreed) : env.options.maxFreed.toNat < k := by
  rw [hcounter, gt_iff_lt, UInt64.lt_iff_toNat_lt, UInt64.toNat_ofNat'] at hgt
  exact hgt.trans_le (Nat.mod_le _ _)

/-- A call on an entry that is no valid path. -/
theorem tryToDelete_counted (hdelete : shouldDelete env.options.action = true)
    (h : ReadingState env db disk done s) (hpath : path ∉ done) (hdisk : path ∈ disk)
    (hinval : path ∉ db.graph.valid) (n : ℕ) :
    Prog.Ends (tryToDelete env n path) s (fun _ => ReadingState env db disk (done ++ [path]))
      fun e _ => e = .limitReached →
        env.options.maxFreed.toNat < ((done ++ [path]).map (looseSize env db disk)).sum := by
  have hinval' : path ∉ s.db.graph.valid := h.graph ▸ hinval
  have hself : ∀ {paths}, PathsOf env s.db.graph path paths → ∀ q, q ∈ paths ↔ q = path := by
    rintro paths (⟨hval, -⟩ | ⟨-, hself⟩)
    · exact absurd hval hinval'
    · exact hself
  cases n with
  | zero => exact Prog.ends_throw (by simp)
  | succ n =>
    refine ends_tryToDelete h.wellFormed ?_ ?_ (fun _ _ he => absurd he (by simp)) ?_ ?_
    · rintro (hlinks | hgone | hdel)
      · exact h.skip fun hloose => hloose.2.1 hlinks
      · rw [SortedMap.mem_iff_find?_ne_none, h.find?, if_neg fun hx => hpath hx.1,
          ← SortedMap.mem_iff_find?_ne_none] at hgone
        exact absurd hdisk hgone
      · exact absurd (h.deleted path hdel).1 hpath
    · rintro - (hlive | ⟨-, hactive⟩)
      · exact absurd (h.live path hlive).1 hpath
      · exact h.skip fun hloose => hloose.2.2.2 hactive
    · rintro paths - hpaths ⟨i, hi, hr⟩
      obtain rfl := (hself hpaths i).mp hi
      refine (h.skip fun hloose => hloose.2.2.1 hr).markLive fun x hx => ?_
      obtain rfl := (hself hpaths x).mp hx
      exact ⟨by simp, hinval⟩
    · intro st paths referrers hlinks hfind _ _ hactive hpaths hnoroot hmem
      have hloose : Loose env db path :=
        ⟨hinval, hlinks, hnoroot path ((hself hpaths path).mpr rfl), hactive hinval'⟩
      have hnone : ∀ y, y ∉ referrers := fun y hy => by
        obtain ⟨-, x, hx, hyx⟩ := (hmem y).mp hy
        rw [(hself hpaths x).mp hx] at hyx
        exact hinval' (s.db.graph.mem_valid_of_refers hyx).2
      obtain rfl : referrers = [] := List.eq_nil_iff_forall_not_mem.mpr hnone
      refine (ends_deletePaths (I := fun del s' => (path ∉ del → s' = s) ∧
        (path ∈ del → ReadingState env db disk (done ++ [path]) s'))
        (Or.inr fun _ hne he => absurd he hne) ⟨fun _ => rfl, by simp⟩ ?_).mono (fun _ s' hs' => ?_)
        fun _ _ => id
      · rintro l hlmem hnd - del i rest s' hl ⟨hsame, -⟩
        obtain rfl : i = path := (hself hpaths i).mp ((hlmem i).mp (by simp [hl]))
        obtain rfl := hsame (notMem_done hnd hl)
        refine (deletePath_removes hdelete h.wellFormed st i).mono ?_ ?_
        · rintro _ _ ⟨s₁, hgo, hcount, rfl, hle⟩
          exact ⟨fun hnot => absurd (by simp) hnot, fun _ => (h.delete hpath hloose hgo hcount).2 hle⟩
        · intro e s₁ he hlimit
          obtain ⟨hgo, hcount, hgt⟩ := he hlimit
          exact lt_of_counter_gt (h.delete hpath hloose hgo hcount).1 hgt
      · obtain ⟨l, hlmem, -, hs'⟩ := hs'
        exact hs' ((hlmem path).mpr ((hself hpaths path).mpr rfl))

/-- What is counted while the store directory is read. -/
theorem readEntries_counted (hdelete : shouldDelete env.options.action = true) (fuel : ℕ)
    (dirents : List Path) :
    ∀ (done entries : List Path) (s : GCState), (done ++ dirents).Nodup →
      (∀ p ∈ dirents, p ∈ disk) → ReadingState env db disk done s →
      Prog.Ends (readEntries env fuel dirents entries) s
        (fun es s' => ReadingState env db disk (done ++ dirents) s' ∧
          ∀ p, p ∈ es ↔ p ∈ entries ∨ p ∈ dirents ∧ p ∈ db.graph.valid)
        fun e _ => e = .limitReached → env.options.maxFreed.toNat <
          ((done ++ dirents).map (looseSize env db disk)).sum := by
  induction dirents with
  | nil => exact fun done entries s _ _ hs => Prog.ends_pure ⟨by simpa using hs, by simp⟩
  | cons path rest ih =>
    intro done entries s hnd hdirents hs
    have hpath : path ∉ done := fun hdone =>
      (List.nodup_append.mp hnd).2.2 path hdone path List.mem_cons_self rfl
    have hrest : done ++ path :: rest = (done ++ [path]) ++ rest := by simp
    rw [hrest] at hnd ⊢
    have hmono : ((done ++ [path]).map (looseSize env db disk)).sum ≤
        ((done ++ [path] ++ rest).map (looseSize env db disk)).sum := by
      rw [List.map_append, List.sum_append, List.map_append, List.sum_append, List.map_append,
        List.sum_append]
      exact Nat.le_add_right _ _
    refine Prog.Ends.bind (Q := fun es s' => ReadingState env db disk (done ++ [path]) s' ∧
      ∀ p, p ∈ es ↔ p ∈ entries ∨ p = path ∧ p ∈ db.graph.valid)
      (E := fun e _ => e = .limitReached → env.options.maxFreed.toNat <
        ((done ++ [path] ++ rest).map (looseSize env db disk)).sum) ?_ ?_ fun _ _ => id
    · refine Prog.ends_get_bind ?_
      split_ifs with hval
      · have hval' : path ∈ db.graph.valid := hs.graph ▸ Database.isValidPath_iff.mp hval
        refine ⟨hs.skip fun hloose => hloose.1 hval', fun p => ?_⟩
        rw [List.mem_append, List.mem_singleton]
        exact or_congr_right ⟨fun h => ⟨h, h ▸ hval'⟩, fun h => h.1⟩
      · have hinval : path ∉ db.graph.valid := fun h =>
          hval (Database.isValidPath_iff.mpr (hs.graph ▸ h))
        refine (tryToDelete_counted hdelete hs hpath (hdirents path List.mem_cons_self) hinval
          fuel).bind (fun _ s' hs' => ?_) fun _ _ he hlimit => (he hlimit).trans_le hmono
        refine ⟨hs', fun p => ?_⟩
        rw [or_iff_left]
        rintro ⟨rfl, hp⟩
        exact hinval hp
    · rintro es s' ⟨hs', hes⟩
      refine (ih (done ++ [path]) es s' hnd (fun p hp => hdirents p (List.mem_cons_of_mem path hp))
        hs').mono ?_ fun _ _ => id
      rintro es' s'' ⟨hs'', hes'⟩
      refine ⟨hs'', fun p => ?_⟩
      rw [hes', hes, List.mem_cons]
      tauto

/-- After that, no valid path has been removed. -/
theorem ReadingState.shrunkState (h : ReadingState env db disk done s) :
    ShrunkState env db.graph disk s where
  wellFormed := h.wellFormed
  graph := by rw [removed_eq_empty h.graph, StoreGraph.without_empty, h.graph]
  offDisk := by simp [removed_eq_empty h.graph]
  entries x hx := by
    rw [h.find?, if_neg fun hloose => hloose.2.1 (h.graph ▸ hx)]
  known x hx := by
    rw [SortedMap.mem_iff_find?_ne_none, h.find?] at hx
    split_ifs at hx with hloose
    · exact absurd rfl hx
    · exact Or.inl (SortedMap.mem_iff_find?_ne_none.mpr hx)
  invalidated x hx := absurd hx (h.invalidated x)
  deleted x hx hxg := absurd hxg (h.deleted x hx).2
  keepClosed := by
    rw [removed_eq_empty h.graph]
    exact StoreGraph.keepClosed_empty

/-! ### Runs within the limit -/

/-- What holds between two calls on valid paths: the paths that have been removed are those of a sweep,
and not more has been counted. -/
structure Sweeping (env : GCEnv) (db : Database) (disk : SortedMap Path StoreEntry) (k : ℕ)
    (s : GCState) : Prop extends ShrunkState env db.graph disk s where
  sizes : SameSizes db s
  sweep : ∃ gone n m, Sweep env db disk gone n ∧ removed db.graph s = ↑gone ∧ m ≤ k + n ∧
    s.counter = UInt64.ofNat m

/-- Marking does not matter to a sweep. -/
theorem Sweeping.markLive {k : ℕ} (h : Sweeping env db disk k s) (paths : PathSet) :
    Sweeping env db disk k (markLive env paths s) :=
  ⟨h.toShrunkState.markLive paths, h.sizes, h.sweep⟩

/-- What is left of a component once some more paths have been removed is a step of the sweep. -/
theorem Sweep.enter_rest {gone : Finset Path} {n : ℕ} {st : StoreEntry} {paths : PathSet}
    (hsweep : Sweep env db disk gone n) (hgone : removed db.graph s' = ↑gone)
    (hless : removed db.graph s ⊆ removed db.graph s') (hpath : path ∈ db.graph.valid)
    (hnot : path ∉ gone) (hfind : disk.find? path = some st)
    (hspec : ∀ q, q ∈ paths ↔ q ∈ db.graph.Component env.keep path ∧ q ∉ removed db.graph s)
    (hnoroot : ∀ i ∈ paths, i ∉ env.roots)
    (hrefs : ∀ x ∈ paths, ∀ y, db.graph.refers y x →
      y ∈ gone ∨ y ∈ paths ∨ y ∉ disk ∨ y = linksDir env.cfg) :
    Sweep env db disk (gone ∪ paths.toList.toFinset.filter (· ∉ gone))
      (n + ∑ x ∈ paths.toList.toFinset.filter (· ∉ gone), weight db disk st x) := by
  have hmem : ∀ q, q ∈ paths.toList.toFinset.filter (· ∉ gone) ↔ q ∈ paths ∧ q ∉ gone := fun q => by
    simp
  have hgone' : ∀ q, q ∉ gone → q ∉ removed db.graph s := fun q hq hr => by
    have hr' := hless hr
    rw [hgone] at hr'
    exact hq (Finset.mem_coe.mp hr')
  refine .enter hsweep hpath hnot hfind (fun q => ?_) (fun x hx => hnoroot x ((hmem x).mp hx).1)
    fun x hx y hyx => ?_
  · rw [hmem, hspec]
    exact ⟨fun h => ⟨h.1.1, h.2⟩, fun h => ⟨⟨h.1, hgone' q h.2⟩, h.2⟩⟩
  · rw [hmem]
    by_cases hy : y ∈ gone
    · exact Or.inl hy
    · rcases hrefs x ((hmem x).mp hx).1 y hyx with h | h | h
      · exact Or.inl h
      · exact Or.inr (Or.inl ⟨h, hy⟩)
      · exact Or.inr (Or.inr h)

/-- A counter within the limit does not stop the collector. -/
theorem counter_le {k : ℕ} (hcounter : s.counter = UInt64.ofNat k)
    (hle : k ≤ env.options.maxFreed.toNat) : ¬ s.counter > env.options.maxFreed := fun hgt =>
  absurd (lt_of_counter_gt hcounter hgt) (Nat.not_lt.mpr hle)

/-- If no sweep exceeds the limit, it never stops a call on a valid path. -/
theorem tryToDelete_sweeping (hnames : FreshNames env.pid db.graph disk)
    (hdelete : shouldDelete env.options.action = true) {k : ℕ}
    (hwithin : ∀ gone n, Sweep env db disk gone n → k + n ≤ env.options.maxFreed.toNat) :
    ∀ (n : ℕ) (path : Path) (s : GCState), path ∈ db.graph.valid → Sweeping env db disk k s →
      Prog.Ends (tryToDelete env n path) s
        (fun b s' => Sweeping env db disk k s' ∧ s'.db.graph.valid ⊆ s.db.graph.valid ∧
          (b = true → path ∈ removed db.graph s' ∨ path ∉ disk ∨ path = linksDir env.cfg))
        fun e _ => e ≠ .limitReached := by
  intro n
  induction n with
  | zero => exact fun _ _ _ _ => Prog.ends_throw (by simp)
  | succ n ih =>
    intro path s hpath hs
    refine ends_tryToDelete hs.wellFormed ?_ (fun _ _ => ⟨hs, subset_rfl, by simp⟩)
      (fun _ _ => by simp) (fun paths _ _ _ => ⟨hs.markLive paths, subset_rfl, by simp⟩) ?_
    · rintro (hlinks | hoff | hdel)
      · exact ⟨hs, subset_rfl, fun _ => Or.inr (Or.inr hlinks)⟩
      · refine ⟨hs, subset_rfl, fun _ => (mem_removed_or_valid hpath).imp id fun hval => Or.inl ?_⟩
        exact fun hdisk => hoff (hs.mem_disk hval hdisk)
      · exact ⟨hs, subset_rfl, fun _ => Or.inl (hs.deleted path hdel hpath)⟩
    intro st paths referrers _ hfind _ _ _ hpaths hnoroot hmem
    have hval := hs.mem_valid hpath (mem_disk_of_find? hfind)
    have hspec : ∀ q, q ∈ paths ↔ q ∈ db.graph.Component env.keep path ∧ q ∉ removed db.graph s := by
      rcases hpaths with ⟨-, hcomp⟩ | ⟨hinval, -⟩
      · exact fun q => (hcomp q).trans (hs.mem_component_iff hval)
      · exact absurd hval hinval
    refine (Prog.Ends.all (I := fun done s' => Sweeping env db disk k s' ∧
      s'.db.graph.valid ⊆ s.db.graph.valid ∧
      ∀ y ∈ done, y ∈ removed db.graph s' ∨ y ∉ disk ∨ y = linksDir env.cfg)
      (F := fun _ s' => Sweeping env db disk k s' ∧ s'.db.graph.valid ⊆ s.db.graph.valid)
      referrers ?_ ⟨hs, subset_rfl, by simp⟩).mono ?_ fun _ _ => id
    · rintro done y rest s₁ hl ⟨hs₁, hless, hdone⟩
      obtain ⟨-, x, -, hyx⟩ := (hmem y).mp (by simp [hl])
      have hy := hs.mem_initial (s.db.graph.mem_valid_of_refers hyx).1
      refine (ih y s₁ hy hs₁).mono ?_ fun _ _ => id
      rintro b s₂ ⟨hs₂, hless₂, hb⟩
      cases b with
      | true =>
        refine ⟨hs₂, hless₂.trans hless, fun z hz => ?_⟩
        rcases List.mem_append.mp hz with hz | hz
        · exact (hdone z hz).imp (fun h => removed_mono hless₂ h) id
        · rw [List.mem_singleton.mp hz]
          exact hb rfl
      | false => exact ⟨hs₂, hless₂.trans hless⟩
    · intro b s₁ hs₁
      cases b with
      | false =>
        obtain ⟨_, -, hs₁, hless⟩ := hs₁
        exact ⟨hs₁.markLive paths, hless, by simp⟩
      | true =>
        obtain ⟨hs₁, hless, hdone⟩ := hs₁
        obtain ⟨gone, m, c, hsweep, hgone, hc, hcounter⟩ := hs₁.sweep
        have hrefs : ∀ x ∈ paths, ∀ y, db.graph.refers y x →
            y ∈ gone ∨ y ∈ paths ∨ y ∉ disk ∨ y = linksDir env.cfg := by
          intro x hx y hyx
          have hmemgone : ∀ {z}, z ∈ removed db.graph s₁ → z ∈ gone := fun {z} hz =>
            Finset.mem_coe.mp (hgone ▸ hz)
          by_cases hyp : y ∈ paths
          · exact Or.inr (Or.inl hyp)
          by_cases hyr : y ∈ removed db.graph s
          · exact Or.inl (hmemgone (removed_mono hless hyr))
          have hy : y ∈ referrers := by
            rw [hmem, hs.graph]
            exact ⟨hyp, x, hx, hyx, hyr, ((hspec x).mp hx).2⟩
          exact (hdone y hy).imp hmemgone Or.inr
        -- the component is entered from its first member that is still there
        have henter : ∀ {i}, i ∈ paths → i ∈ s₁.db.graph.valid →
            Sweep env db disk (gone ∪ paths.toList.toFinset.filter (· ∉ gone))
              (m + ∑ x ∈ paths.toList.toFinset.filter (· ∉ gone), weight db disk st x) := by
          intro i hi hival
          refine hsweep.enter_rest hgone (removed_mono hless) hpath (fun hpg => ?_)
            ((hs.entries path hval).symm.trans hfind) hspec hnoroot hrefs
          have hpr : path ∈ removed db.graph s₁ := hgone ▸ Finset.mem_coe.mpr hpg
          exact (hs₁.keepClosed.component_subset hpr ((hspec i).mp hi).1).2 hival
        have hpathsg : ∀ x ∈ paths, x ∈ db.graph.valid := fun x hx =>
          StoreGraph.mem_valid_of_mem_component hpath ((hspec x).mp hx).1
        refine (deletePaths_counted hnames hdelete hs₁.toShrunkState hs₁.sizes hcounter st hpathsg).mono
          ?_ ?_
        · rintro _ s₂ ⟨l, hlmem, hcount⟩
          have hunion := removed_union_component (removed_mono hless) hspec
          obtain ⟨hs₂, hremoved, -⟩ := hcount.mid.shrunkState hlmem
            (hunion ▸ hs₁.keepClosed.union_component)
          have hpathp : path ∈ paths :=
            (hspec path).mpr ⟨StoreGraph.mem_component_self, fun hr => hr.2 hval⟩
          have hnotgone : ∀ x ∈ paths, x ∉ gone := fun x hx hxg => by
            have hxr : x ∈ removed db.graph s₁ := hgone ▸ Finset.mem_coe.mpr hxg
            exact hxr.2 (hcount.valid x ((hlmem x).mpr hx))
          have hset : paths.toList.toFinset.filter (· ∉ gone) = l.toFinset := by
            ext x
            simp only [Finset.mem_filter, List.mem_toFinset, SortedSet.mem_toList, hlmem]
            exact ⟨And.left, fun hx => ⟨hx, hnotgone x hx⟩⟩
          have hnext := henter hpathp (hcount.valid path ((hlmem path).mpr hpathp))
          rw [hset] at hnext
          refine ⟨⟨hs₂, hcount.sizes, _, _, _, hnext, ?_, ?_, hcount.counter⟩, fun x hx => ?_,
            fun _ => Or.inl ?_⟩
          · rw [hremoved, hgone, Finset.coe_union]
            congr 1
            ext x
            simp [hlmem]
          · omega
          · refine hless ((mem_removed_or_valid (hs₂.mem_initial hx)).resolve_left fun hxr => ?_)
            exact (hremoved ▸ Or.inl hxr : x ∈ removed db.graph s₂).2 hx
          · rw [hremoved]
            exact Or.inr hpathp
        · rintro e s₂ he rfl
          obtain ⟨F, ⟨i, hi⟩, hF, hcountF, hgt⟩ := he rfl
          have hnext := hwithin _ _ (henter (hF i hi).1 (hF i hi).2)
          have hsub : F ⊆ paths.toList.toFinset.filter (· ∉ gone) := fun x hx => by
            rw [Finset.mem_filter, List.mem_toFinset, SortedSet.mem_toList]
            refine ⟨(hF x hx).1, fun hxg => ?_⟩
            have hxr : x ∈ removed db.graph s₁ := hgone ▸ Finset.mem_coe.mpr hxg
            exact hxr.2 (hF x hx).2
          have hsum := Finset.sum_le_sum_of_subset (f := weight db disk st) hsub
          exact counter_le hcountF (by omega) hgt

/-! ### The replay of a sweep -/

/-- What holds in a run that looks at the paths of a sweep one after the other. -/
structure Replaying (env : GCEnv) (db : Database) (disk : SortedMap Path StoreEntry) (k : ℕ)
    (gone : Finset Path) (n : ℕ) (s : GCState) : Prop extends ShrunkState env db.graph disk s where
  removed_eq : removed db.graph s = ↑gone
  sizes : SameSizes db s
  live : ∀ x ∈ s.live, x ∉ db.graph.valid
  counter : s.counter = UInt64.ofNat (k + n)
  within : s.counter ≤ env.options.maxFreed

/-- The next step of a sweep: the call removes the component, unless the limit stops it. -/
theorem Replaying.step (hrun : DeletingRun env db.graph disk) {k n : ℕ} {gone M : Finset Path}
    {st : StoreEntry} (h : Replaying env db disk k gone n s) (hpath : path ∈ db.graph.valid)
    (hnot : path ∉ gone) (hfind : disk.find? path = some st)
    (hM : ∀ q, q ∈ M ↔ q ∈ db.graph.Component env.keep path ∧ q ∉ gone)
    (hnoroot : ∀ x ∈ M, x ∉ env.roots)
    (hrefs : ∀ x ∈ M, ∀ y, db.graph.refers y x → y ∈ gone ∨ y ∈ M ∨ y ∉ disk ∨ y = linksDir env.cfg) :
    Prog.Ends (tryToDelete env 1 path) s
      (fun _ => Replaying env db disk k (gone ∪ M) (n + ∑ x ∈ M, weight db disk st x))
      fun e s' => e = .limitReached ∧ LooseState env db.graph disk s' := by
  have hmem : ∀ {paths : PathSet}, (∀ q, q ∈ paths ↔ q ∈ db.graph.Component env.keep path ∧
      q ∉ removed db.graph s) → ∀ q, q ∈ paths ↔ q ∈ M := fun hspec q => by
    rw [hspec, hM, h.removed_eq, Finset.mem_coe]
  refine ends_tryToDelete_valid hrun h.toShrunkState hpath (fun hr => ?_)
    (fun hlive => absurd hpath (h.live path hlive)) ?_ ?_
  · rw [h.removed_eq] at hr
    exact absurd (Finset.mem_coe.mp hr) hnot
  · rintro paths hspec ⟨i, hi, hr⟩
    exact absurd hr (hnoroot i ((hmem hspec i).mp hi))
  · intro st' paths referrers hval hfind' hspec _ hreferrers
    obtain rfl : st' = st := Option.some.inj (hfind'.symm.trans hfind)
    have hpaths := hmem hspec
    have hvalid : ∀ x ∈ paths, x ∈ s.db.graph.valid := fun x hx =>
      (mem_removed_or_valid (StoreGraph.mem_valid_of_mem_component hpath
        ((hspec x).mp hx).1)).resolve_left ((hspec x).mp hx).2
    have hgone : ∀ x ∈ M, ∀ y, db.graph.refers y x → y ∈ removed db.graph s ∨ y ∈ paths := by
      intro x hx y hyx
      have hy := (db.graph.mem_valid_of_refers hyx).1
      rw [h.removed_eq, hpaths]
      rcases hrefs x hx y hyx with hy' | hy' | hy' | rfl
      · exact Or.inl (Finset.mem_coe.mpr hy')
      · exact Or.inr hy'
      · exact absurd (hrun.onDisk y hy) hy'
      · exact absurd hy hrun.notLinks
    obtain rfl : referrers = [] := List.eq_nil_iff_forall_not_mem.mpr fun y hy => by
      obtain ⟨⟨hyr, hyp⟩, x, hx, hyx⟩ := (hreferrers y).mp hy
      exact (hgone x ((hpaths x).mp hx) y hyx).elim hyr hyp
    refine Prog.ends_pure ?_
    rw [if_pos rfl]
    have hclosed : db.graph.KeepClosed env.keep (removed db.graph s ∪ {x | x ∈ paths}) := by
      rw [removed_union_component subset_rfl hspec]
      exact h.keepClosed.union_component
    refine ((deletePaths_shrinks hrun h.toShrunkState paths hvalid (fun u x hx hux => ?_) hclosed
      st').and (deletePaths_counted hrun.names hrun.shouldDelete h.toShrunkState h.sizes h.counter st'
      fun x hx => h.mem_initial (hvalid x hx))).mono ?_ ?_
    · rw [h.graph] at hux
      exact (hgone x ((hpaths x).mp hx) u hux.1).resolve_left hux.2.1
    · rintro _ s' ⟨⟨hs', hremoved, hlive⟩, l, hl, hcount⟩
      have hset : l.toFinset = M := by
        ext x
        rw [List.mem_toFinset, hl, hpaths]
      refine ⟨hs', ?_, hcount.sizes, hlive ▸ h.live, ?_, hcount.within h.within⟩
      · rw [hremoved, h.removed_eq, Finset.coe_union]
        congr 1
        ext x
        exact hpaths x
      · rw [hcount.counter, hset, add_assoc]
    · rintro e s' ⟨⟨hlimit, hs'⟩, -⟩
      exact ⟨hlimit.1, hs'⟩

/-- A sweep can be replayed: calls on some paths remove its components one after the other. -/
theorem Sweep.exists_replay (hrun : DeletingRun env db.graph disk) {gone : Finset Path} {n : ℕ}
    (h : Sweep env db disk gone n) :
    ∃ l : List Path, l.Nodup ∧ (∀ p ∈ l, p ∈ gone) ∧ (∀ p ∈ l, p ∈ db.graph.valid) ∧
      ∀ k s, Replaying env db disk k ∅ 0 s →
        Prog.Ends (Prog.each (fun i => do let _ ← tryToDelete env 1 i; return ()) l) s
          (fun _ => Replaying env db disk k gone n)
          fun e s' => e = .limitReached ∧ LooseState env db.graph disk s' := by
  induction h with
  | start => exact ⟨[], List.nodup_nil, by simp, by simp, fun k s hs => Prog.ends_pure hs⟩
  | @enter gone n p st M _ hp hnot hfind hM hnoroot hrefs ih =>
    obtain ⟨l, hnd, hmem, hvalid, hreplay⟩ := ih
    have hpM : p ∈ M := (hM p).mpr ⟨StoreGraph.mem_component_self, hnot⟩
    refine ⟨l ++ [p], ?_, fun q hq => ?_, fun q hq => ?_, fun k s hs => ?_⟩
    · exact List.nodup_append.mpr ⟨hnd, List.nodup_singleton p, by
        rintro q hq _ hq' rfl
        exact hnot (List.mem_singleton.mp hq' ▸ hmem q hq)⟩
    · rcases List.mem_append.mp hq with hq | hq
      · exact Finset.mem_union_left M (hmem q hq)
      · exact Finset.mem_union_right gone (List.mem_singleton.mp hq ▸ hpM)
    · rcases List.mem_append.mp hq with hq | hq
      · exact hvalid q hq
      · exact List.mem_singleton.mp hq ▸ hp
    · refine (hreplay k s hs).each_append fun _ s' hs' => ?_
      refine Prog.Ends.bind (Q := fun _ => Replaying env db disk k (gone ∪ M)
        (n + ∑ x ∈ M, weight db disk st x)) ?_ (fun _ _ h => h) fun _ _ => id
      exact (hs'.step hrun hp hnot hfind hM hnoroot hrefs).bind (fun _ _ h => h) fun _ _ => id

/-! ### Whole runs -/

/-- Every run that returns reports exactly what it has removed from the store. -/
def ReportsExactly (settings : GCSettings) (options : GCOptions) (permRoots tempRoots : PathSet)
    (db : Database) (disk : SortedMap Path StoreEntry) : Prop :=
  ∀ (fuel : ℕ) (dirents : List Path) (shuffle : List Path → List Path), dirents.Perm disk.keys →
    (∀ l, (shuffle l).Perm l) →
    let run := collectGarbage settings options permRoots tempRoots fuel dirents shuffle
      (GCState.init db disk)
    run.1 = .ok () → ∀ x, x ∈ run.2.paths ↔ RemovedBy db disk run.2 x

variable {settings : GCSettings} {options : GCOptions} {permRoots tempRoots : PathSet} {fuel : ℕ}
  {dirents : List Path} {shuffle : List Path → List Path}

/-- The sizes of the loose entries do not depend on the order of the directory. -/
theorem looseTotal_of_perm (h : dirents.Perm disk.keys) :
    (dirents.map (looseSize env db disk)).sum = looseTotal env db disk :=
  (h.map _).sum_eq

/-- If no sweep exceeds the limit, it never stops the loops over the entries. -/
theorem deleteEntries_within (hwf : db.WellFormed) (hnames : FreshNames env.pid db.graph disk)
    (hdelete : shouldDelete env.options.action = true)
    (hwithin : ∀ gone n, Sweep env db disk gone n →
      looseTotal env db disk + n ≤ env.options.maxFreed.toNat)
    (hdirents : dirents.Perm disk.keys) (hshuffle : ∀ l, (shuffle l).Perm l) :
    Prog.Ends (deleteEntries env fuel dirents shuffle) (GCState.init db disk) (fun _ _ => True)
      fun e _ => e ≠ .limitReached := by
  have hnd : ([] ++ dirents).Nodup := hdirents.nodup_iff.mpr (SortedMap.keys_nodup disk)
  have hmem : ∀ p ∈ dirents, p ∈ disk := fun p => hdirents.mem_iff.mp
  have htotal : (([] ++ dirents).map (looseSize env db disk)).sum = looseTotal env db disk :=
    looseTotal_of_perm hdirents
  refine (readEntries_counted hdelete fuel dirents [] [] _ hnd hmem (readingState_init hwf)).bind ?_
    fun e _ he hlimit => ?_
  · rintro entries s ⟨hs, hentries⟩
    have hsweeping : Sweeping env db disk (looseTotal env db disk) s := by
      refine ⟨hs.shrunkState, hs.sizes, ∅, 0, _, .start, ?_, ?_, hs.counter⟩
      · rw [removed_eq_empty hs.graph, Finset.coe_empty]
      · rw [htotal, Nat.add_zero]
    refine (Prog.Ends.each (I := fun _ => Sweeping env db disk (looseTotal env db disk))
      (shuffle entries) (fun done p rest s' hl hs' => ?_) hsweeping).mono (fun _ _ _ => trivial)
      fun _ _ => id
    have hp : p ∈ entries := (hshuffle entries).mem_iff.mp (by simp [hl])
    have hval : p ∈ db.graph.valid := (((hentries p).mp hp).resolve_left List.not_mem_nil).2
    exact (tryToDelete_sweeping hnames hdelete hwithin fuel p s' hval hs').bind
      (fun _ _ h => h.1) fun _ _ => id
  · have hle := hwithin ∅ 0 .start
    have hlt := he hlimit
    rw [htotal] at hlt
    omega

/-- The state after a run under the lock, if whatever it can count is within the limit. -/
theorem collectUnderLock_within (hwf : db.WellFormed)
    (hnames : FreshNames settings.pid db.graph disk) (hdelete : shouldDelete options.action = true)
    (hwithin : WithinLimit (gcEnv settings options permRoots tempRoots) db disk)
    (hdirents : dirents.Perm disk.keys) (hshuffle : ∀ l, (shuffle l).Perm l) :
    Prog.Ends (collectUnderLock settings options permRoots tempRoots fuel dirents shuffle)
      (GCState.init db disk)
      (fun _ => Traced (gcEnv settings options permRoots tempRoots) db.graph disk)
      fun _ _ => True := by
  set env := gcEnv settings options permRoots tempRoots with henv
  have htry : ∀ p s, Traced env db.graph disk s → Prog.Ends (tryToDelete env fuel p) s
      (fun _ => Traced env db.graph disk) fun e s' => e = .limitReached → Missed env db.graph disk s' :=
    tryToDelete_traced hnames hdelete fuel
  by_cases hspecific : options.action = .gcDeleteSpecific
  · rw [collectUnderLock, if_pos hspecific]
    exact ends_deleteSpecific (fun p s hs => (htry p s hs).mono (fun _ _ => id) fun _ _ _ => trivial)
      (fun _ _ _ => trivial) (traced_init hwf)
  by_cases hfreed : options.maxFreed > 0
  swap
  · rw [collectUnderLock, if_neg hspecific, if_neg hfreed]
    exact traced_init hwf
  have hlimit : Prog.Ends (deleteEntries env fuel dirents shuffle) (GCState.init db disk)
      (fun _ _ => True) fun e _ => e ≠ .limitReached := by
    rcases hwithin with h | h | h | h
    · exact absurd h hspecific
    · exact absurd (h ▸ hfreed) (by decide)
    · exact (ends_deleteEntries (I := fun s => s.db.WellFormed)
        (fun p s hs => tryToDelete_unlimited env h fuel p s hs) dirents shuffle hwf).mono
        (fun _ _ _ => trivial) fun _ _ => id
    · exact deleteEntries_within hwf hnames hdelete h hdirents hshuffle
  refine (ends_collectUnderLock_entries hspecific hfreed
    ((ends_deleteEntries htry dirents shuffle (traced_init hwf)).and hlimit)).mono ?_
    fun _ _ _ => trivial
  rintro _ s (hs | hs)
  · exact hs.1
  · exact absurd rfl hs.2

/-- Within the limit, runs report what they have removed. -/
theorem WithinLimit.reportsExactly (hwf : db.WellFormed)
    (hnames : FreshNames settings.pid db.graph disk) (hdelete : shouldDelete options.action = true)
    (h : WithinLimit (gcEnv settings options permRoots tempRoots) db disk) :
    ReportsExactly settings options permRoots tempRoots db disk := by
  intro fuel dirents shuffle hdirents hshuffle run hok
  obtain ⟨s, hs, hdisk, hclean⟩ := collectGarbage_returns
    (collectUnderLock_within hwf hnames hdelete h hdirents hshuffle) hok
  exact hs.mem_paths_iff hnames hdisk hclean

/-- The order of a replay: the given paths come first. -/
def replayOrder (l entries : List Path) : List Path := l.foldr moveToFront entries

/-- Replaying an order is a permutation. -/
theorem replayOrder_perm (l entries : List Path) : (replayOrder l entries).Perm entries := by
  induction l with
  | nil => exact .refl entries
  | cons p l ih => exact (moveToFront_perm p _).trans ih

/-- Any order of some entries can be replayed. -/
theorem exists_replayOrder_eq {l entries : List Path} (hnd : l.Nodup) (hmem : ∀ p ∈ l, p ∈ entries) :
    ∃ rest, replayOrder l entries = l ++ rest := by
  induction l with
  | nil => exact ⟨entries, rfl⟩
  | cons p l ih =>
    obtain ⟨hp, hnd⟩ := List.nodup_cons.mp hnd
    obtain ⟨rest, hrest⟩ := ih hnd fun q hq => hmem q (List.mem_cons_of_mem p hq)
    have hin : p ∈ replayOrder l entries :=
      (replayOrder_perm l entries).mem_iff.mpr (hmem p List.mem_cons_self)
    refine ⟨rest.erase p, ?_⟩
    change moveToFront p (replayOrder l entries) = _
    rw [moveToFront, if_pos hin, hrest, List.erase_append_right _ hp, List.cons_append]

/-- The replay of a sweep that exceeds the limit is stopped by it. -/
theorem deleteEntries_exceeds (hwf : db.WellFormed) (hrun : DeletingRun env db.graph disk)
    {gone : Finset Path} {n : ℕ} (hsweep : Sweep env db disk gone n)
    (hbound : looseTotal env db disk + n < 2 ^ 64)
    (hexceeds : env.options.maxFreed.toNat < looseTotal env db disk + n) :
    ∃ shuffle : List Path → List Path, (∀ l, (shuffle l).Perm l) ∧
      Prog.Ends (deleteEntries env 1 disk.keys shuffle) (GCState.init db disk) (fun _ _ => False)
        fun e s => e = .limitReached ∧ LooseState env db.graph disk s := by
  obtain ⟨l, hnd, -, hvalid, hreplay⟩ := hsweep.exists_replay hrun
  refine ⟨replayOrder l, replayOrder_perm l, ?_⟩
  have hs₀ : ShrunkState env db.graph disk (GCState.init db disk) := shrunkState_init hwf
  refine ((readEntries_spec hrun 1 disk.keys [] _ hs₀ rfl (by simp [GCState.init])).and
    (readEntries_counted hrun.shouldDelete 1 disk.keys [] [] _
      (by simpa using SortedMap.keys_nodup disk) (fun _ => id)
      (readingState_init hwf))).bind ?_ fun e s he => ?_
  · rintro entries s ⟨⟨hs, hentries⟩, hread, -⟩
    have hstart : Replaying env db disk (looseTotal env db disk) ∅ 0 s := by
      refine ⟨hs.state, ?_, hread.sizes, fun x hx => (hread.live x hx).2, hread.counter, hread.within⟩
      rw [removed_eq_empty hread.graph, Finset.coe_empty]
    obtain ⟨rest, hrest⟩ := exists_replayOrder_eq hnd fun p hp =>
      (hentries p).mpr (Or.inr ⟨hrun.onDisk p (hvalid p hp), hvalid p hp⟩)
    rw [hrest]
    refine (hreplay _ s hstart).each_append fun _ s' hs' => ?_
    have hle := UInt64.le_iff_toNat_le.mp hs'.within
    rw [hs'.counter, UInt64.toNat_ofNat', Nat.mod_eq_of_lt hbound] at hle
    exact absurd hexceeds (Nat.not_lt.mpr hle)
  · obtain ⟨hfuel, -⟩ | hlimit := he.1
    · exact absurd hfuel (by simp)
    · exact ⟨hlimit.1.1, hlimit.2⟩

/-- If runs report what they have removed, whatever they can count is within the limit. -/
theorem ReportsExactly.withinLimit (hinput : GCInput settings db disk)
    (hdelete : shouldDelete options.action = true)
    (hbound : ∀ gone n, Sweep (gcEnv settings options permRoots tempRoots) db disk gone n →
      looseTotal (gcEnv settings options permRoots tempRoots) db disk + n < 2 ^ 64)
    (h : ReportsExactly settings options permRoots tempRoots db disk) :
    WithinLimit (gcEnv settings options permRoots tempRoots) db disk := by
  set env := gcEnv settings options permRoots tempRoots with henv
  by_cases hspecific : options.action = .gcDeleteSpecific
  · exact Or.inl hspecific
  by_cases hfreed : options.maxFreed > 0
  swap
  · exact Or.inr (Or.inl (UInt64.le_zero_iff.mp (UInt64.not_lt.mp hfreed)))
  refine Or.inr (Or.inr (Or.inr fun gone n hsweep => ?_))
  by_contra hexceeds
  have hrun := hinput.deletingRun options hdelete permRoots tempRoots
  obtain ⟨shuffle, hshuffle, hstop⟩ := deleteEntries_exceeds hinput.wellFormed hrun hsweep
    (hbound gone n hsweep) (Nat.not_le.mp hexceeds)
  have htraced : Prog.Ends (deleteEntries env 1 disk.keys shuffle) (GCState.init db disk)
      (fun _ => Traced env db.graph disk) fun e s => e = .limitReached → Missed env db.graph disk s :=
    ends_deleteEntries (fun p s hs => tryToDelete_traced hinput.freshNames hdelete 1 p s hs)
      disk.keys shuffle (traced_init hinput.wellFormed)
  have hlock : Prog.Ends (collectUnderLock settings options permRoots tempRoots 1 disk.keys shuffle)
      (GCState.init db disk) (fun _ s => Missed env db.graph disk s ∧ LooseState env db.graph disk s)
      fun _ _ => False := by
    rw [collectUnderLock, if_neg hspecific, if_pos hfreed]
    refine (htraced.and hstop).catching.mono ?_ fun e _ he => he.1 he.2.2.1
    rintro _ s (hs | ⟨e, rfl, hmissed, -, hs⟩)
    · exact hs.2.elim
    · exact ⟨hmissed rfl, hs⟩
  have hends : Prog.Ends (collectGarbage settings options permRoots tempRoots 1 disk.keys shuffle)
      (GCState.init db disk) (fun _ s' => ∃ x, x ∉ s'.paths ∧ RemovedBy db disk s' x)
      fun _ _ => False := by
    refine hlock.bind ?_ fun _ _ => id
    rintro _ s ⟨hmissed, hs⟩
    have hdisk : ∀ x ∈ s.invalidated, x ∈ s.disk := fun x hx => (hs.invalidated x hx).1
    refine deleteInvalidated_spec.mono (fun _ s' hs' => hmissed.exists_notMem_paths hdisk hs'.2) ?_
    rintro e s' ⟨-, ⟨x, hx, hgone⟩, -⟩
    exact hgone (hdisk x hx)
  obtain ⟨_, s, hs, x, hx, hremoved⟩ := hends.exists_ok
  have hreport := h 1 disk.keys shuffle (.refl _) hshuffle
  dsimp only at hreport
  rw [hs] at hreport
  exact hx ((hreport rfl x).mpr hremoved)

/-- The valid path of the sample. -/
theorem mem_valid_unbuiltStore {p : Path} :
    p ∈ unbuiltStore.graph.valid ↔ p = str "/nix/store/a.drv" := by
  constructor
  · rintro ⟨r, hr, rfl⟩
    rw [List.mem_singleton.mp hr]
  · rintro rfl
    exact ⟨_, List.mem_singleton_self _, rfl⟩

/-- The sample is an input of the collector. -/
theorem gcInput_unbuiltStore : GCInput defaultGCSettings unbuiltStore unbuiltDisk := by
  refine ⟨wellFormed_unbuiltStore, acyclic_of_no_refs rfl, fun p hp => ?_, onDisk_unbuiltStore,
    fun hlinks => ?_, fun p hp => ?_⟩
  · rw [mem_valid_unbuiltStore.mp hp]
    decide
  · exact absurd (mem_valid_unbuiltStore.mp hlinks) (by decide)
  · rw [mem_valid_unbuiltStore.mp hp]
    decide

/-- All that can be counted in this store are the 512 bytes of the derivation. -/
theorem sweep_unbuiltStore {gone : Finset Path} {n : ℕ} (h : Sweep env unbuiltStore unbuiltDisk gone n) :
    gone = ∅ ∧ n = 0 ∨ str "/nix/store/a.drv" ∈ gone ∧ n = 512 := by
  induction h with
  | start => exact Or.inl ⟨rfl, rfl⟩
  | @enter gone n p st M _ hp hnot hfind hM _ _ ih =>
    obtain rfl := mem_valid_unbuiltStore.mp hp
    obtain ⟨rfl, rfl⟩ := ih.resolve_right fun h => hnot h.1
    have hset : M = {str "/nix/store/a.drv"} := by
      ext q
      rw [hM, Finset.mem_singleton]
      constructor
      · exact fun hq => mem_valid_unbuiltStore.mp (StoreGraph.mem_valid_of_mem_component hp hq.1)
      · rintro rfl
        exact ⟨StoreGraph.mem_component_self, hnot⟩
    obtain rfl : st = ⟨false, 512⟩ := by
      have hentry : unbuiltDisk.find? (str "/nix/store/a.drv") = some ⟨false, 512⟩ := by decide
      exact Option.some.inj (hfind.symm.trans hentry)
    have hweight : weight unbuiltStore unbuiltDisk ⟨false, 512⟩ (str "/nix/store/a.drv") = 512 := by
      decide
    exact Or.inr ⟨by simp [hset], by simp [hset, hweight]⟩

/-- The sample has no loose entries. -/
theorem looseTotal_unbuiltStore : looseTotal env unbuiltStore unbuiltDisk = 0 := by
  have hkeys : unbuiltDisk.keys = [str "/nix/store/a.drv"] := by decide
  simp [looseTotal, hkeys, looseSize, Loose, mem_valid_unbuiltStore]

/-- A sweep that removes the derivation, if it is no root. -/
theorem exists_sweep_unbuiltStore (env : GCEnv) (hroot : str "/nix/store/a.drv" ∉ env.roots) :
    ∃ gone n, Sweep env unbuiltStore unbuiltDisk gone n ∧ n ≠ 0 := by
  have hval : str "/nix/store/a.drv" ∈ unbuiltStore.graph.valid := mem_valid_unbuiltStore.mpr rfl
  have hweight : weight unbuiltStore unbuiltDisk ⟨false, 512⟩ (str "/nix/store/a.drv") = 512 := by
    decide
  have hentry : unbuiltDisk.find? (str "/nix/store/a.drv") = some ⟨false, 512⟩ := by decide
  refine ⟨_, _, .enter (M := {str "/nix/store/a.drv"}) .start hval (by simp) hentry (fun q => ?_)
    ?_ ?_, ?_⟩
  · rw [Finset.mem_singleton]
    constructor
    · rintro rfl
      exact ⟨StoreGraph.mem_component_self, by simp⟩
    · exact fun hq => mem_valid_unbuiltStore.mp (StoreGraph.mem_valid_of_mem_component hval hq.1)
  · simpa using hroot
  · rintro x - y hyx
    exact absurd hyx.choose_spec.2.choose_spec.2.2.2 List.not_mem_nil
  · simp [hweight]

end Nix
