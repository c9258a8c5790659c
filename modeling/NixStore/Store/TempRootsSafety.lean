import NixStore.Store.GcSafety
import NixStore.Store.TempRoots

/-!
# Temporary roots protect paths

A process that has written a path into its file of temporary roots keeps the file: it has its name,
the process has a lock on it, and its contents are the paths so far.  A collector that deletes paths
has read every such file and keeps it locked, so that no path can be added.  This holds in every run
in which no process with a file of temporary roots collects garbage itself, and no collector dies
between the removal of a stale file and its mark.
-/

set_option linter.unusedSectionVars false

namespace Nix

variable {π : Type} [DecidableEq π]

/-! ### The contents of the files -/

/-- The roots in a file are those up to a NUL and those behind it. -/
theorem splitRoots_append (path a b : Str) :
    splitRoots path (a ++ 0 :: b) = splitRoots path (a ++ [0]) ++ splitRoots [] b := by
  induction a generalizing path with
  | nil => simp [splitRoots]
  | cons c a ih =>
    simp only [List.cons_append, splitRoots]
    split_ifs with hc
    · rw [ih, List.cons_append]
    · exact ih _

/-- A text without NUL, ended by one, is one root. -/
theorem splitRoots_of_nulFree {a : Str} (path : Str) (h : a.NulFree) :
    splitRoots path (a ++ [0]) = [path ++ a] := by
  induction a generalizing path with
  | nil => simp [splitRoots]
  | cons c a ih =>
    have hc : c ≠ 0 := fun hc => h (by simp [hc])
    have ha : Str.NulFree a := fun ha => h (List.mem_cons_of_mem _ ha)
    rw [List.cons_append, splitRoots, if_neg hc, ih _ ha, List.append_assoc, List.singleton_append]

/-- A path without NUL is found again, whatever the other paths are. -/
theorem mem_splitRoots_encodeRoots {paths : List Path} {x : Path} (hx : x ∈ paths)
    (hnul : x.NulFree) : x ∈ splitRoots [] (encodeRoots paths) := by
  induction paths with
  | nil => cases hx
  | cons y paths ih =>
    have hsplit : splitRoots [] (encodeRoots (y :: paths)) =
        splitRoots [] (y ++ [0]) ++ splitRoots [] (encodeRoots paths) := by
      rw [encodeRoots, List.flatMap_cons, List.append_assoc, List.singleton_append,
        splitRoots_append, encodeRoots]
    rw [hsplit, List.mem_append]
    rcases List.mem_cons.mp hx with rfl | hx
    · exact Or.inl (by simp [splitRoots_of_nulFree [] hnul])
    · exact Or.inr (ih hx)

/-- Writing one more root appends its text and a NUL. -/
theorem encodeRoots_append (paths : List Path) (x : Path) :
    encodeRoots (paths ++ [x]) = encodeRoots paths ++ (x ++ [0]) := by
  simp [encodeRoots]

namespace FileSystem

/-- A write at the end. -/
theorem overwrite_length (contents data : Str) :
    overwrite contents contents.length data = contents ++ data := by
  simp [overwrite, List.drop_eq_nil_of_le]

/-- Writing something leaves the file nonempty, which is what the check of the size looks at. -/
theorem overwrite_ne_nil {contents data : Str} (offset : ℕ) (h : data ≠ []) :
    overwrite contents offset data ≠ [] := by
  simp [overwrite, h]

end FileSystem

/-! ### Views of a process -/

namespace RootsProcess

/-- The file of temporary roots, when the process has found it to be in place. -/
def checked (pr : RootsProcess π) : Option OpenFile :=
  match pr.call with
  | .idle => pr.fdTempRoots
  | .addTempRoot _ .writeLock => pr.fdTempRoots
  | .addTempRoot _ .write => pr.fdTempRoots
  | .addTempRoot _ .downgrade => pr.fdTempRoots
  | _ => none

/-- The file of temporary roots that was created and that a collector can still take for stale. -/
def fresh (pr : RootsProcess π) : Option OpenFile :=
  match pr.call with
  | .addTempRoot _ .unlockGC => pr.fdTempRoots
  | .addTempRoot _ .readLock => pr.fdTempRoots
  | .addTempRoot _ .stat => pr.fdTempRoots
  | _ => none

/-- The paths in the file. -/
def written (pr : RootsProcess π) : List Path :=
  match pr.call with
  | .addTempRoot path .downgrade => pr.added ++ [path]
  | _ => pr.added

/-- The temporary roots that a collector with the global lock has read. -/
def collecting (pr : RootsProcess π) : Option PathSet :=
  match pr.call with
  | .collectGarbage _ _ _ .lockGC => none
  | .collectGarbage _ _ _ .unlockGC => none
  | .collectGarbage _ _ _ (.closing _) => none
  | .collectGarbage _ tempRoots _ _ => some tempRoots
  | _ => none

/-- The collector has not dealt with the file of a process. -/
def Pending (pr : RootsProcess π) (q : π) : Prop :=
  match pr.call with
  | .collectGarbage _ _ _ place =>
    match place with
    | .findRoots => True
    | .readDirectory => True
    | .nextFile todo => q ∈ todo
    | .tryLock q' _ todo => q = q' ∨ q ∈ todo
    | .unlinkStale q' _ todo => q = q' ∨ q ∈ todo
    | .markStale _ todo => q ∈ todo
    | .closeStale _ todo => q ∈ todo
    | .readLock q' _ todo => q = q' ∨ q ∈ todo
    | .read q' _ todo => q = q' ∨ q ∈ todo
    | _ => False
  | _ => False

/-- The file that a collector looks at, with the name under which it was opened. -/
def current (pr : RootsProcess π) : Option (π × OpenFile) :=
  match pr.call with
  | .collectGarbage _ _ _ (.tryLock q f _) => some (q, f)
  | .collectGarbage _ _ _ (.unlinkStale q f _) => some (q, f)
  | .collectGarbage _ _ _ (.readLock q f _) => some (q, f)
  | .collectGarbage _ _ _ (.read q f _) => some (q, f)
  | _ => none

/-- The file that a collector has removed and not closed yet. -/
def stale (pr : RootsProcess π) : Option OpenFile :=
  match pr.call with
  | .collectGarbage _ _ _ (.markStale f _) => some f
  | .collectGarbage _ _ _ (.closeStale f _) => some f
  | _ => none

/-- The file that a collector has removed and not marked yet. -/
def marking (pr : RootsProcess π) : Option OpenFile :=
  match pr.call with
  | .collectGarbage _ _ _ (.markStale f _) => some f
  | _ => none

/-- The process is in `collectGarbage`. -/
def IsCollector (pr : RootsProcess π) : Prop :=
  match pr.call with
  | .collectGarbage _ _ _ _ => True
  | _ => False

/-- Only a collector has roots it is collecting. -/
theorem collecting_eq_none {pr : RootsProcess π} (h : ¬ pr.IsCollector) : pr.collecting = none := by
  unfold IsCollector at h
  unfold collecting
  split <;> simp_all

/-- Only a collector has a file it is marking. -/
theorem marking_eq_none {pr : RootsProcess π} (h : ¬ pr.IsCollector) : pr.marking = none := by
  unfold IsCollector at h
  unfold marking
  split <;> simp_all

/-- A collector is not between the check of its own file and the end of `addTempRoot`. -/
theorem checked_eq_none {pr : RootsProcess π} (h : pr.IsCollector) : pr.checked = none := by
  unfold IsCollector at h
  unfold checked
  split <;> simp_all

/-- A collector has no file of its own that it has just created. -/
theorem fresh_eq_none {pr : RootsProcess π} (h : pr.IsCollector) : pr.fresh = none := by
  unfold IsCollector at h
  unfold fresh
  split <;> simp_all

/-- A process with collected roots is a collector. -/
theorem isCollector_of_collecting {pr : RootsProcess π} {roots : PathSet}
    (h : pr.collecting = some roots) : pr.IsCollector := by
  by_contra hno
  rw [collecting_eq_none hno] at h
  cases h

/-- A process that reads the file of another one is a collector. -/
theorem isCollector_of_current {pr : RootsProcess π} {e : π × OpenFile}
    (h : pr.current = some e) : pr.IsCollector := by
  unfold current at h
  unfold IsCollector
  split at h <;> simp_all

/-- A process that removes a stale file is a collector. -/
theorem isCollector_of_stale {pr : RootsProcess π} {f : OpenFile}
    (h : pr.stale = some f) : pr.IsCollector := by
  unfold stale at h
  unfold IsCollector
  split at h <;> simp_all

/-- A file that was just created is the one the process keeps open. -/
theorem fdTempRoots_of_fresh {pr : RootsProcess π} {f : OpenFile} (h : pr.fresh = some f) :
    pr.fdTempRoots = some f := by
  unfold fresh at h
  split at h <;> simp_all

/-- A file that was checked is the one the process keeps open. -/
theorem fdTempRoots_of_checked {pr : RootsProcess π} {f : OpenFile} (h : pr.checked = some f) :
    pr.fdTempRoots = some f := by
  unfold checked at h
  split at h <;> simp_all

/-- While a file is read, there are collected roots to add its contents to. -/
theorem exists_collecting_of_current {pr : RootsProcess π} {e : π × OpenFile}
    (h : pr.current = some e) : ∃ roots, pr.collecting = some roots := by
  unfold current at h
  unfold collecting
  split at h <;> simp_all

end RootsProcess

namespace RootsState

open RootsProcess

/-! ### The invariant -/

/-- What a process knows about its own file. -/
structure Owner (s : RootsState π) (p : π) : Prop where
  locked : ∀ f, (s.procs p).checked = some f → ∃ mode, (p, mode) ∈ s.dir.locks f.inode
  named : ∀ f, (s.procs p).checked = some f → s.dir.names p = some f.inode
  data : ∀ f, (s.procs p).checked = some f →
    s.dir.data f.inode = encodeRoots (s.procs p).written ∧ f.offset = (s.dir.data f.inode).length
  write : ∀ path f, (s.procs p).call = .addTempRoot path .write →
    (s.procs p).fdTempRoots = some f → (p, .exclusive) ∈ s.dir.locks f.inode
  stat : ∀ path f, (s.procs p).call = .addTempRoot path .stat →
    (s.procs p).fdTempRoots = some f → ∃ mode, (p, mode) ∈ s.dir.locks f.inode
  gc : ∀ path place, (s.procs p).call = .addTempRoot path place →
    place = .removeStale ∨ place = .create ∨ place = .unlockGC → ∃ mode, (p, mode) ∈ s.gcLock
  create : ∀ path, (s.procs p).call = .addTempRoot path .create → s.dir.names p = none
  lt : ∀ f, (s.procs p).fdTempRoots = some f → f.inode < s.dir.next
  offset : ∀ f, (s.procs p).fresh = some f → f.offset = 0
  unchecked : (s.procs p).checked = none → (s.procs p).added = []
  observed : ∀ x ∈ (s.procs p).observed, x ∈ (s.procs p).added ∧ x ∈ s.valid

/-- A collector has opened a file under a name. -/
structure Opened (s : RootsState π) (q : π) (f : OpenFile) : Prop where
  lt : f.inode < s.dir.next
  same : ∀ i, s.dir.names q = some i → i = f.inode
  name : ∀ r, s.dir.names r = some f.inode → r = q

/-- What a collector knows about the files that it looks at. -/
structure Collector (s : RootsState π) (p : π) : Prop where
  noFile : (s.procs p).IsCollector → (s.procs p).fdTempRoots = none
  gc : ∀ roots, (s.procs p).collecting = some roots → (p, .exclusive) ∈ s.gcLock
  current : ∀ q f, (s.procs p).current = some (q, f) → s.Opened q f
  stale : ∀ f, (s.procs p).stale = some f → f.inode < s.dir.next ∧ ∀ r, s.dir.names r ≠ some f.inode
  removing : ∀ permRoots tempRoots fds q f todo,
    (s.procs p).call = .collectGarbage permRoots tempRoots fds (.unlinkStale q f todo) →
    (p, .exclusive) ∈ s.dir.locks f.inode
  marking : ∀ f, (s.procs p).marking = some f → (p, .exclusive) ∈ s.dir.locks f.inode
  read : ∀ permRoots tempRoots fds q f todo,
    (s.procs p).call = .collectGarbage permRoots tempRoots fds (.read q f todo) →
    (p, .shared) ∈ s.dir.locks f.inode

/-- The file of a process is in use. -/
def LiveFile (s : RootsState π) (p : π) (f : OpenFile) : Prop :=
  (s.procs p).checked = some f ∨
    ((s.procs p).fresh = some f ∧ s.dir.data f.inode = [] ∧ s.dir.names p = some f.inode)

/-- The collector has read the file, and keeps the process from adding to it. -/
def Passed (s : RootsState π) (c p : π) (f : OpenFile) (roots : PathSet) : Prop :=
  (c, .shared) ∈ s.dir.locks f.inode ∧ ∀ x ∈ (s.procs p).written, Str.NulFree x → x ∈ roots

/-- What holds between two steps. -/
structure Invariant (s : RootsState π) : Prop where
  locks : ∀ i, (s.dir.locks i).Sound
  gcLock : s.gcLock.Sound
  injective : ∀ p q i, s.dir.names p = some i → s.dir.names q = some i → p = q
  named_lt : ∀ p i, s.dir.names p = some i → i < s.dir.next
  nulFree : ∀ path ∈ s.valid, Str.NulFree path
  owner : ∀ p, s.Owner p
  collector : ∀ p, s.Collector p
  /-- A new file that has lost its name is marked, or a collector is about to mark it. -/
  fresh : ∀ p f, (s.procs p).fresh = some f → s.dir.data f.inode = [] →
    s.dir.names p = some f.inode ∨ ∃ c f', (s.procs c).marking = some f' ∧ f'.inode = f.inode
  covered : ∀ c p f roots, (s.procs c).collecting = some roots → s.LiveFile p f →
    (s.procs c).Pending p ∨ s.Passed c p f roots

/-- What a step of a process leaves alone. -/
structure Quiet (s s' : RootsState π) (p : π) : Prop where
  procs : ∀ q, q ≠ p → s'.procs q = s.procs q
  locks : ∀ q, q ≠ p → ∀ i mode, (q, mode) ∈ s'.dir.locks i ↔ (q, mode) ∈ s.dir.locks i
  gcLock : ∀ q, q ≠ p → ∀ mode, (q, mode) ∈ s'.gcLock ↔ (q, mode) ∈ s.gcLock
  next : s.dir.next ≤ s'.dir.next
  names : ∀ r i, i < s.dir.next → s'.dir.names r = some i → s.dir.names r = some i
  /-- No file is created while another process collects garbage. -/
  fewer : ∀ c roots, c ≠ p → (s.procs c).collecting = some roots →
    ∀ r i, s'.dir.names r = some i → s.dir.names r = some i
  noName : ∀ q, q ≠ p → s.dir.names q = none → s'.dir.names q = none
  empty : ∀ i, i < s.dir.next → s'.dir.data i = [] → s.dir.data i = []
  kept : ∀ q, q ≠ p → ∀ f, (s.procs q).checked = some f →
    s'.dir.names q = s.dir.names q ∧ s'.dir.data f.inode = s.dir.data f.inode
  valid : ∀ q, q ≠ p → ∀ x ∈ (s.procs q).observed, x ∈ s.valid → x ∈ s'.valid

variable {s s' : RootsState π} {p q c : π}

/-- A step of another process does not change who owns its file. -/
theorem Owner.quiet (h : s.Owner q) (hs : Quiet s s' p) (hq : q ≠ p) : s'.Owner q := by
  have hproc := hs.procs q hq
  constructor
  · intro f hf
    rw [hproc] at hf
    obtain ⟨mode, hmode⟩ := h.locked f hf
    exact ⟨mode, (hs.locks q hq _ _).mpr hmode⟩
  · intro f hf
    rw [hproc] at hf
    rw [(hs.kept q hq f hf).1]
    exact h.named f hf
  · intro f hf
    rw [hproc] at hf ⊢
    rw [(hs.kept q hq f hf).2]
    exact h.data f hf
  · intro path f hcall hf
    rw [hproc] at hcall hf
    exact (hs.locks q hq _ _).mpr (h.write path f hcall hf)
  · intro path f hcall hf
    rw [hproc] at hcall hf
    obtain ⟨mode, hmode⟩ := h.stat path f hcall hf
    exact ⟨mode, (hs.locks q hq _ _).mpr hmode⟩
  · intro path place hcall hplace
    rw [hproc] at hcall
    obtain ⟨mode, hmode⟩ := h.gc path place hcall hplace
    exact ⟨mode, (hs.gcLock q hq _).mpr hmode⟩
  · intro path hcall
    rw [hproc] at hcall
    exact hs.noName q hq (h.create path hcall)
  · intro f hf
    rw [hproc] at hf
    exact (h.lt f hf).trans_le hs.next
  · intro f hf
    rw [hproc] at hf
    exact h.offset f hf
  · rw [hproc]
    exact h.unchecked
  · intro x hx
    rw [hproc] at hx ⊢
    have hold := h.observed x hx
    exact ⟨hold.1, hs.valid q hq x hx hold.2⟩

/-- A step of another process does not stop a collector. -/
theorem Collector.quiet (h : s.Collector q) (hs : Quiet s s' p) (hq : q ≠ p) : s'.Collector q := by
  have hproc := hs.procs q hq
  constructor
  · rw [hproc]
    exact h.noFile
  · intro roots hroots
    rw [hproc] at hroots
    exact (hs.gcLock q hq _).mpr (h.gc roots hroots)
  · intro q₁ f hf
    rw [hproc] at hf
    have hold := h.current q₁ f hf
    obtain ⟨roots, hroots⟩ := exists_collecting_of_current hf
    exact ⟨hold.lt.trans_le hs.next, fun i hi => hold.same i (hs.fewer q roots hq hroots q₁ i hi),
      fun r hr => hold.name r (hs.names r _ hold.lt hr)⟩
  · intro f hf
    rw [hproc] at hf
    obtain ⟨hlt, hno⟩ := h.stale f hf
    exact ⟨hlt.trans_le hs.next, fun r hr => hno r (hs.names r _ hlt hr)⟩
  · intro permRoots tempRoots fds q₁ f todo hcall
    rw [hproc] at hcall
    exact (hs.locks q hq _ _).mpr (h.removing permRoots tempRoots fds q₁ f todo hcall)
  · intro f hf
    rw [hproc] at hf
    exact (hs.locks q hq _ _).mpr (h.marking f hf)
  · intro permRoots tempRoots fds q₁ f todo hcall
    rw [hproc] at hcall
    exact (hs.locks q hq _ _).mpr (h.read permRoots tempRoots fds q₁ f todo hcall)

/-- A live file after a step of another process was live before it, when the inode is not a new one. -/
theorem LiveFile.of_quiet {f : OpenFile} (h : s'.LiveFile q f) (hs : Quiet s s' p) (hq : q ≠ p)
    (hlt : ∀ f, (s.procs q).fdTempRoots = some f → f.inode < s.dir.next) : s.LiveFile q f := by
  unfold LiveFile at h ⊢
  rw [hs.procs q hq] at h
  refine h.imp id fun ⟨hfresh, hdata, hname⟩ => ?_
  have hfd := hlt f (fdTempRoots_of_fresh hfresh)
  exact ⟨hfresh, hs.empty _ hfd hdata, hs.names _ _ hfd hname⟩

/-- What a collector has passed it had passed before a step of another process that writes nothing. -/
theorem Passed.of_quiet {f : OpenFile} {roots : PathSet} (h : s.Passed c q f roots)
    (hs : Quiet s s' p) (hc : c ≠ p) (hq : (s'.procs q).written = (s.procs q).written) :
    s'.Passed c q f roots := by
  refine ⟨(hs.locks c hc _ _).mpr h.1, ?_⟩
  rw [hq]
  exact h.2

/-- A process that collects garbage has no file of temporary roots. -/
theorem not_liveFile_of_isCollector {f : OpenFile} (h : (s.procs p).IsCollector) :
    ¬ s.LiveFile p f := by
  unfold LiveFile
  rw [checked_eq_none h, fresh_eq_none h]
  simp

/-- The parts of the invariant that depend on the process that takes the step. -/
theorem Invariant.of_quiet (h : s.Invariant) (hs : Quiet s s' p)
    (hlocks : ∀ i, (s'.dir.locks i).Sound) (hgc : s'.gcLock.Sound)
    (hinj : ∀ p q i, s'.dir.names p = some i → s'.dir.names q = some i → p = q)
    (hlt : ∀ p i, s'.dir.names p = some i → i < s'.dir.next)
    (hnul : ∀ path ∈ s'.valid, Str.NulFree path) (howner : s'.Owner p) (hcoll : s'.Collector p)
    (hfresh : ∀ f, (s'.procs p).fresh = some f → s'.dir.data f.inode = [] →
      s'.dir.names p = some f.inode ∨ ∃ c f', (s'.procs c).marking = some f' ∧ f'.inode = f.inode)
    (hlost : ∀ q f, q ≠ p → (s.procs q).fresh = some f → s.dir.names q = some f.inode →
      s'.dir.names q = some f.inode ∨ ∃ f', (s'.procs p).marking = some f' ∧ f'.inode = f.inode)
    (hmark : ∀ f, (s.procs p).marking = some f → s'.dir.data f.inode ≠ [])
    (hown : ∀ c f roots, c ≠ p → (s.procs c).collecting = some roots → s'.LiveFile p f →
      (s.procs c).Pending p ∨ s'.Passed c p f roots)
    (hcov : ∀ q f roots, q ≠ p → (s'.procs p).collecting = some roots → s.LiveFile q f →
      s'.LiveFile q f → (s'.procs p).Pending q ∨ s'.Passed p q f roots) : s'.Invariant where
  locks := hlocks
  gcLock := hgc
  injective := hinj
  named_lt := hlt
  nulFree := hnul
  owner q := by
    by_cases hq : q = p
    · exact hq ▸ howner
    · exact (h.owner q).quiet hs hq
  collector q := by
    by_cases hq : q = p
    · exact hq ▸ hcoll
    · exact (h.collector q).quiet hs hq
  fresh q f hf hdata := by
    by_cases hq : q = p
    · subst hq
      exact hfresh f hf hdata
    · rw [hs.procs q hq] at hf
      have hinode := (h.owner q).lt f (fdTempRoots_of_fresh hf)
      rcases h.fresh q f hf (hs.empty _ hinode hdata) with hname | ⟨c, f', hc, hi⟩
      · rcases hlost q f hq hf hname with hname | ⟨f', hf', hi⟩
        · exact Or.inl hname
        · exact Or.inr ⟨p, f', hf', hi⟩
      · have hcp : c ≠ p := by
          rintro rfl
          exact hmark f' hc (hi ▸ hdata)
        exact Or.inr ⟨c, f', by rw [hs.procs c hcp, hc], hi⟩
  covered c q f roots hc hf := by
    by_cases hcp : c = p
    · subst hcp
      by_cases hq : q = c
      · subst hq
        exact absurd hf (not_liveFile_of_isCollector (isCollector_of_collecting hc))
      · exact hcov q f roots hq hc (hf.of_quiet hs hq (h.owner q).lt) hf
    · rw [hs.procs c hcp] at hc ⊢
      by_cases hq : q = p
      · subst hq
        exact hown c f roots hcp hc hf
      · rcases h.covered c q f roots hc (hf.of_quiet hs hq (h.owner q).lt) with hpend | hpass
        · exact Or.inl hpend
        · exact Or.inr (hpass.of_quiet hs hcp (by rw [hs.procs q hq]))

/-- A process that is not in `collectGarbage` knows nothing about other files. -/
theorem Collector.of_not_isCollector (h : ¬ (s.procs p).IsCollector) : s.Collector p where
  noFile hc := absurd hc h
  gc roots hc := absurd (isCollector_of_collecting hc) h
  current q f hf := absurd (isCollector_of_current hf) h
  stale f hf := absurd (isCollector_of_stale hf) h
  removing permRoots tempRoots fds q f todo hcall := by
    simp [IsCollector, hcall] at h
  marking f hf := by
    rw [marking_eq_none h] at hf
    cases hf
  read permRoots tempRoots fds q f todo hcall := by
    simp [IsCollector, hcall] at h

/-- A step of `addTempRoot` that changes no contents and makes no new name. -/
theorem Invariant.ownerStep (h : s.Invariant) (hs : Quiet s s' p)
    (hlocks : ∀ i, (s'.dir.locks i).Sound) (hgc : s'.gcLock.Sound)
    (hnames : ∀ q i, s'.dir.names q = some i → s.dir.names q = some i)
    (hothers : ∀ q, q ≠ p → s'.dir.names q = s.dir.names q) (hdata : s'.dir.data = s.dir.data)
    (hnext : s'.dir.next = s.dir.next) (hvalid : s'.valid = s.valid)
    (hpr : ¬ (s.procs p).IsCollector) (hpr' : ¬ (s'.procs p).IsCollector) (howner : s'.Owner p)
    (hfresh : ∀ f, (s'.procs p).fresh = some f → (s.procs p).fresh = some f ∧
      s'.dir.names p = s.dir.names p)
    (hlive : ∀ f, s'.LiveFile p f → s.LiveFile p f ∧ (s'.procs p).written = (s.procs p).written) :
    s'.Invariant := by
  have hno := marking_eq_none hpr
  refine h.of_quiet hs hlocks hgc
    (fun q r i hq hr => h.injective q r i (hnames q i hq) (hnames r i hr))
    (fun q i hq => hnext ▸ h.named_lt q i (hnames q i hq)) (fun x hx => h.nulFree x (hvalid ▸ hx))
    howner (.of_not_isCollector hpr') (fun f hf hempty => ?_)
    (fun q f hq hf hname => Or.inl (by rw [hothers q hq, hname])) (fun f hf => ?_)
    (fun c f roots hc hroots hf => ?_) fun q f roots hq hroots => ?_
  · obtain ⟨hf, hname⟩ := hfresh f hf
    rw [hdata] at hempty
    rcases h.fresh p f hf hempty with hold | ⟨c, f', hc, hi⟩
    · exact Or.inl (hname.trans hold)
    · have hcp : c ≠ p := by
        rintro rfl
        rw [hno] at hc
        cases hc
      exact Or.inr ⟨c, f', by rw [hs.procs c hcp, hc], hi⟩
  · rw [hno] at hf
    cases hf
  · obtain ⟨hold, hwritten⟩ := hlive f hf
    exact (h.covered c p f roots hroots hold).imp id fun hpass => hpass.of_quiet hs hc hwritten
  · exact absurd (isCollector_of_collecting hroots) hpr'

/-- What there is to say about the own file of a process that does not use it. -/
theorem Owner.of_unused (hchecked : (s.procs p).checked = none)
    (hcall : ∀ path place, (s.procs p).call ≠ .addTempRoot path place)
    (hlt : ∀ f, (s.procs p).fdTempRoots = some f → f.inode < s.dir.next)
    (hadded : (s.procs p).added = []) (hobserved : (s.procs p).observed = []) : s.Owner p := by
  have hfresh : (s.procs p).fresh = none := by
    unfold RootsProcess.fresh
    split <;> simp_all
  refine ⟨?_, ?_, ?_, ?_, ?_, ?_, ?_, hlt, ?_, fun _ => hadded, ?_⟩
  · simp [hchecked]
  · simp [hchecked]
  · simp [hchecked]
  · exact fun path f heq => absurd heq (hcall _ _)
  · exact fun path f heq => absurd heq (hcall _ _)
  · exact fun path place heq => absurd heq (hcall _ _)
  · exact fun path heq => absurd heq (hcall _ _)
  · simp [hfresh]
  · simp [hobserved]

/-- A step of `collectGarbage`. -/
theorem Invariant.collectorStep (h : s.Invariant) (hs : Quiet s s' p)
    (hlocks : ∀ i, (s'.dir.locks i).Sound) (hgc : s'.gcLock.Sound)
    (hnames : ∀ q i, s'.dir.names q = some i → s.dir.names q = some i)
    (hnext : s'.dir.next = s.dir.next) (hvalid : ∀ x ∈ s'.valid, x ∈ s.valid)
    (hfd : (s'.procs p).fdTempRoots = none)
    (hcall : ∀ path place, (s'.procs p).call ≠ .addTempRoot path place)
    (hadded : (s'.procs p).added = []) (hobserved : (s'.procs p).observed = [])
    (hcoll : s'.Collector p)
    (hlost : ∀ q f, q ≠ p → (s.procs q).fresh = some f → s.dir.names q = some f.inode →
      s'.dir.names q = some f.inode ∨ ∃ f', (s'.procs p).marking = some f' ∧ f'.inode = f.inode)
    (hmark : ∀ f, (s.procs p).marking = some f → s'.dir.data f.inode ≠ [])
    (hcov : ∀ q f roots, q ≠ p → (s'.procs p).collecting = some roots → s.LiveFile q f →
      s'.LiveFile q f → (s'.procs p).Pending q ∨ s'.Passed p q f roots) : s'.Invariant := by
  have hfresh : (s'.procs p).fresh = none := by
    unfold RootsProcess.fresh
    split <;> simp_all
  have hchecked : (s'.procs p).checked = none := by
    unfold RootsProcess.checked
    split <;> simp_all
  have howner : s'.Owner p := .of_unused hchecked hcall (by simp [hfd]) hadded hobserved
  refine h.of_quiet hs hlocks hgc
    (fun q r i hq hr => h.injective q r i (hnames q i hq) (hnames r i hr))
    (fun q i hq => hnext ▸ h.named_lt q i (hnames q i hq)) (fun x hx => h.nulFree x (hvalid x hx))
    howner hcoll ?_ hlost hmark (fun c f roots _ _ hf => ?_) hcov
  · simp [hfresh]
  · simp [LiveFile, hchecked, hfresh] at hf

/-! ### Steps of `addTempRoot` -/

variable {path : Path} {place : AddPlace} {f : OpenFile}

/-- The places where a new file is about to be created. -/
theorem Owner.of_opening (path : Path) (place : AddPlace)
    (hcall : (s.procs p).call = .addTempRoot path place)
    (hplace : place = .lockGC ∨ place = .removeStale ∨ place = .create)
    (hgc : place ≠ .lockGC → ∃ mode, (p, mode) ∈ s.gcLock)
    (hcreate : place = .create → s.dir.names p = none)
    (hlt : ∀ f, (s.procs p).fdTempRoots = some f → f.inode < s.dir.next)
    (hadded : (s.procs p).added = []) (hobserved : (s.procs p).observed = []) : s.Owner p := by
  have hchecked : (s.procs p).checked = none := by
    rcases hplace with rfl | rfl | rfl <;> simp [RootsProcess.checked, hcall]
  have hfresh : (s.procs p).fresh = none := by
    rcases hplace with rfl | rfl | rfl <;> simp [RootsProcess.fresh, hcall]
  refine ⟨?_, ?_, ?_, ?_, ?_, ?_, ?_, hlt, ?_, fun _ => hadded, ?_⟩
  · simp [hchecked]
  · simp [hchecked]
  · simp [hchecked]
  · intro path' f heq
    rw [hcall] at heq
    cases heq
    simp at hplace
  · intro path' f heq
    rw [hcall] at heq
    cases heq
    simp at hplace
  · intro path' place' heq hplace'
    rw [hcall] at heq
    cases heq
    refine hgc ?_
    rintro rfl
    simp at hplace'
  · intro path' heq
    rw [hcall] at heq
    cases heq
    exact hcreate rfl
  · simp [hfresh]
  · simp [hobserved]

/-- The places between the creation of a file and the check. -/
theorem Owner.of_fresh (path : Path) (place : AddPlace)
    (hcall : (s.procs p).call = .addTempRoot path place)
    (hplace : place = .unlockGC ∨ place = .readLock ∨ place = .stat)
    (hgc : place = .unlockGC → ∃ mode, (p, mode) ∈ s.gcLock)
    (hstat : place = .stat → ∀ f, (s.procs p).fdTempRoots = some f →
      ∃ mode, (p, mode) ∈ s.dir.locks f.inode)
    (hfd : ∀ f, (s.procs p).fdTempRoots = some f → f.inode < s.dir.next ∧ f.offset = 0)
    (hadded : (s.procs p).added = []) (hobserved : (s.procs p).observed = []) : s.Owner p := by
  have hchecked : (s.procs p).checked = none := by
    rcases hplace with rfl | rfl | rfl <;> simp [RootsProcess.checked, hcall]
  refine ⟨?_, ?_, ?_, ?_, ?_, ?_, ?_, fun f hf => (hfd f hf).1, ?_, fun _ => hadded, ?_⟩
  · simp [hchecked]
  · simp [hchecked]
  · simp [hchecked]
  · intro path' f heq
    rw [hcall] at heq
    cases heq
    simp at hplace
  · intro path' f heq hf
    rw [hcall] at heq
    cases heq
    exact hstat rfl f hf
  · intro path' place' heq hplace'
    rw [hcall] at heq
    cases heq
    refine hgc ?_
    rcases hplace with rfl | rfl | rfl <;> simp_all
  · intro path' heq
    rw [hcall] at heq
    cases heq
    simp at hplace
  · exact fun f hf => (hfd f (fdTempRoots_of_fresh hf)).2
  · simp [hobserved]

/-- The places after the check. -/
theorem Owner.of_checked
    (hcall : (s.procs p).call = .idle ∨ ∃ path, (s.procs p).call = .addTempRoot path .writeLock ∨
      (s.procs p).call = .addTempRoot path .write ∨ (s.procs p).call = .addTempRoot path .downgrade)
    (hfd : (s.procs p).fdTempRoots = some f) (hlocked : ∃ mode, (p, mode) ∈ s.dir.locks f.inode)
    (hnamed : s.dir.names p = some f.inode)
    (hdata : s.dir.data f.inode = encodeRoots (s.procs p).written ∧
      f.offset = (s.dir.data f.inode).length)
    (hwrite : ∀ path, (s.procs p).call = .addTempRoot path .write →
      (p, .exclusive) ∈ s.dir.locks f.inode)
    (hlt : f.inode < s.dir.next)
    (hobserved : ∀ x ∈ (s.procs p).observed, x ∈ (s.procs p).added ∧ x ∈ s.valid) : s.Owner p := by
  have hchecked : (s.procs p).checked = some f := by
    rcases hcall with hcall | ⟨path, hcall | hcall | hcall⟩ <;>
      simp [RootsProcess.checked, hcall, hfd]
  have hfresh : (s.procs p).fresh = none := by
    rcases hcall with hcall | ⟨path, hcall | hcall | hcall⟩ <;> simp [RootsProcess.fresh, hcall]
  have hself : ∀ f', some f = some f' → f' = f := fun f' h => (Option.some.inj h).symm
  rw [← hfd] at hself
  refine ⟨?_, ?_, ?_, ?_, ?_, ?_, ?_, ?_, ?_, ?_, hobserved⟩
  · intro f' hf'
    rw [hself f' (fdTempRoots_of_checked hf')]
    exact hlocked
  · intro f' hf'
    rw [hself f' (fdTempRoots_of_checked hf')]
    exact hnamed
  · intro f' hf'
    rw [hself f' (fdTempRoots_of_checked hf')]
    exact hdata
  · intro path f' heq hf'
    rw [hself f' hf']
    exact hwrite path heq
  · intro path f' heq
    rw [heq] at hcall
    simp at hcall
  · intro path place' heq hplace
    rw [heq] at hcall
    rcases hcall with hcall | ⟨path', hcall | hcall | hcall⟩ <;> simp_all
  · intro path heq
    rw [heq] at hcall
    simp at hcall
  · intro f' hf'
    rw [hself f' hf']
    exact hlt
  · simp [hfresh]
  · intro hnone
    rw [hchecked] at hnone
    cases hnone

/-- A step that changes locks only. -/
theorem Quiet.of_locks (hprocs : ∀ q, q ≠ p → s'.procs q = s.procs q)
    (hnames : s'.dir.names = s.dir.names) (hdata : s'.dir.data = s.dir.data)
    (hnext : s'.dir.next = s.dir.next)
    (hlocks : ∀ q, q ≠ p → ∀ i mode, (q, mode) ∈ s'.dir.locks i ↔ (q, mode) ∈ s.dir.locks i)
    (hgc : ∀ q, q ≠ p → ∀ mode, (q, mode) ∈ s'.gcLock ↔ (q, mode) ∈ s.gcLock)
    (hvalid : s'.valid = s.valid) : Quiet s s' p where
  procs := hprocs
  locks := hlocks
  gcLock := hgc
  next := hnext.ge
  names r i _ hr := hnames ▸ hr
  fewer c roots _ _ r i hr := hnames ▸ hr
  noName q _ hnone := by rw [hnames, hnone]
  empty i _ hempty := hdata ▸ hempty
  kept q _ f _ := by rw [hnames, hdata]; exact ⟨rfl, rfl⟩
  valid q _ x _ hx := hvalid ▸ hx

end RootsState

namespace RootsDir

variable {d d' : RootsDir π} {p q : π} {f : OpenFile} {mode mode' : LockMode} {i : ℕ}

/-- The effect of a lock. -/
structure Granted (d d' : RootsDir π) (p : π) (i : ℕ) (mode : LockMode) : Prop where
  names : d'.names = d.names
  data : d'.data = d.data
  next : d'.next = d.next
  others : ∀ q, q ≠ p → ∀ j mode', (q, mode') ∈ d'.locks j ↔ (q, mode') ∈ d.locks j
  elsewhere : ∀ j mode', j ≠ i → ((p, mode') ∈ d'.locks j ↔ (p, mode') ∈ d.locks j)
  self : (p, mode) ∈ d'.locks i
  sound : (∀ j, (d.locks j).Sound) → ∀ j, (d'.locks j).Sound

/-- A lock that `lockFile` gives was free, and nothing but the lock table changes. -/
theorem granted_of_lockFile (h : d.lockFile p f mode = some d') : Granted d d' p f.inode mode := by
  unfold lockFile at h
  split_ifs at h with hblocked
  cases h
  refine ⟨rfl, rfl, rfl, fun q hq j mode' => ?_, fun j mode' hj => ?_, ?_, fun hsound j => ?_⟩
  · by_cases hj : j = f.inode
    · subst hj
      simp [LockTable.mem_grant, hq]
    · simp [hj]
  · simp [hj]
  · simp [LockTable.mem_grant]
  · by_cases hj : j = f.inode
    · subst hj
      simpa using (hsound f.inode).grant (by simpa using hblocked)
    · simpa [hj] using hsound j

/-- Closing a file gives up all the locks of the process on it, as `fcntl` does, and no others. -/
theorem mem_locks_close :
    (q, mode) ∈ (d.close p f).locks i ↔ (i = f.inode → q ≠ p) ∧ (q, mode) ∈ d.locks i := by
  unfold close
  by_cases hi : i = f.inode
  · subst hi
    simp [and_comm]
  · simp [hi]

/-- Closing keeps the lock tables sound. -/
theorem sound_close (h : ∀ i, (d.locks i).Sound) (i : ℕ) : ((d.close p f).locks i).Sound :=
  (h i).of_sub fun _ _ hq => (mem_locks_close.mp hq).2

/-- Unlinking keeps the contents, since an open file survives its name. -/
@[simp] theorem data_unlink : (d.unlink q).data = d.data := rfl

@[simp] theorem next_unlink : (d.unlink q).next = d.next := rfl

@[simp] theorem locks_unlink : (d.unlink q).locks = d.locks := rfl

/-- The unlinked name is gone. -/
@[simp] theorem names_unlink_self : (d.unlink q).names q = none := by simp [unlink]

/-- The other names stay. -/
theorem names_unlink_of_ne (h : p ≠ q) : (d.unlink q).names p = d.names p := by simp [unlink, h]

/-- A name that is there after an unlink was there before. -/
theorem names_of_unlink (h : (d.unlink q).names p = some i) : d.names p = some i := by
  by_cases hp : p = q
  · rw [hp, names_unlink_self] at h
    cases h
  · rwa [names_unlink_of_ne hp] at h

/-- Unlinking a name that is not there does nothing. -/
theorem unlink_of_names (h : d.names q = none) : d.unlink q = d := by
  have hnames : Function.update d.names q none = d.names := Function.update_eq_self_iff.mpr h.symm
  rw [unlink, hnames]

end RootsDir

namespace RootsState

open RootsProcess

variable {s s' : RootsState π} {p q c : π} {path : Path} {place : AddPlace} {f : OpenFile}
  {pr : RootsProcess π}

@[simp] theorem procs_setProc_self : (s.setProc p pr).procs p = pr := by simp [setProc]

theorem procs_setProc_of_ne (h : q ≠ p) : (s.setProc p pr).procs q = s.procs q := by
  simp [setProc, h]

@[simp] theorem dir_setProc : (s.setProc p pr).dir = s.dir := rfl

@[simp] theorem gcLock_setProc : (s.setProc p pr).gcLock = s.gcLock := rfl

@[simp] theorem valid_setProc : (s.setProc p pr).valid = s.valid := rfl

theorem call_goto {call : RootsCall π} : ((s.goto p call).procs p).call = call := by simp [goto]

/-- Nothing is protected before there is a file. -/
theorem Owner.added_eq_nil (h : s.Owner p) (hchecked : (s.procs p).checked = none) :
    (s.procs p).added = [] ∧ (s.procs p).observed = [] := by
  refine ⟨h.unchecked hchecked, List.eq_nil_iff_forall_not_mem.mpr fun x hx => ?_⟩
  have hadded := (h.observed x hx).1
  rw [h.unchecked hchecked] at hadded
  cases hadded

/-- A step of `addTempRoot` that changes locks only. -/
theorem Invariant.locksStep (h : s.Invariant) {dir : RootsDir π} {gcLock : LockTable π}
    (hnames : dir.names = s.dir.names) (hdata : dir.data = s.dir.data)
    (hnext : dir.next = s.dir.next)
    (hlocks : ∀ q, q ≠ p → ∀ i mode, (q, mode) ∈ dir.locks i ↔ (q, mode) ∈ s.dir.locks i)
    (hsound : ∀ i, (dir.locks i).Sound)
    (hgc : ∀ q, q ≠ p → ∀ mode, (q, mode) ∈ gcLock ↔ (q, mode) ∈ s.gcLock) (hgcSound : gcLock.Sound)
    (hpr : ¬ (s.procs p).IsCollector) (hpr' : ¬ pr.IsCollector)
    (howner : ({ s with dir, gcLock }.setProc p pr).Owner p)
    (hfresh : ∀ f, pr.fresh = some f → (s.procs p).fresh = some f)
    (hchecked : ∀ f, pr.checked = some f → s.LiveFile p f)
    (hwritten : pr.written = (s.procs p).written) :
    ({ s with dir, gcLock }.setProc p pr).Invariant := by
  refine h.ownerStep (p := p)
    (.of_locks (fun q hq => procs_setProc_of_ne hq) hnames hdata hnext hlocks hgc rfl) hsound hgcSound
    (fun q i hq => hnames ▸ hq) (fun q _ => congrFun hnames q) hdata hnext rfl hpr
    (by rwa [procs_setProc_self]) howner (fun f hf => ?_) fun f hf => ?_
  · rw [procs_setProc_self] at hf
    exact ⟨hfresh f hf, congrFun hnames p⟩
  · unfold LiveFile at hf
    rw [procs_setProc_self] at hf ⊢
    refine ⟨?_, hwritten⟩
    rcases hf with hf | ⟨hf, hempty, hname⟩
    · exact hchecked f hf
    · exact Or.inr ⟨hfresh f hf, by rw [← hempty, ← hdata]; rfl, by rw [← hname, ← hnames]; rfl⟩

/-- A step of `addTempRoot` that changes no file and no lock. -/
theorem Invariant.idleStep (h : s.Invariant) (hpr : ¬ (s.procs p).IsCollector)
    (hpr' : ¬ pr.IsCollector) (howner : (s.setProc p pr).Owner p)
    (hfresh : ∀ f, pr.fresh = some f → (s.procs p).fresh = some f)
    (hchecked : ∀ f, pr.checked = some f → s.LiveFile p f)
    (hwritten : pr.written = (s.procs p).written) : (s.setProc p pr).Invariant :=
  h.locksStep rfl rfl rfl (fun _ _ _ _ => Iff.rfl) h.locks (fun _ _ _ => Iff.rfl) h.gcLock hpr hpr'
    howner hfresh hchecked hwritten

/-- A step of `addTempRoot` that locks the file. -/
theorem Invariant.lockStep (h : s.Invariant) {dir : RootsDir π} {mode : LockMode} {i : ℕ}
    (hdir : RootsDir.Granted s.dir dir p i mode) (hpr : ¬ (s.procs p).IsCollector)
    (hpr' : ¬ pr.IsCollector) (howner : ({ s with dir }.setProc p pr).Owner p)
    (hfresh : ∀ f, pr.fresh = some f → (s.procs p).fresh = some f)
    (hchecked : ∀ f, pr.checked = some f → s.LiveFile p f)
    (hwritten : pr.written = (s.procs p).written) : ({ s with dir }.setProc p pr).Invariant :=
  h.locksStep hdir.names hdir.data hdir.next hdir.others (hdir.sound h.locks)
    (fun _ _ _ => Iff.rfl) h.gcLock hpr hpr' howner hfresh hchecked hwritten

/-- Step of `addTempRoot`: the shared global lock. -/
theorem Invariant.addLockGC (h : s.Invariant)
    (hcall : (s.procs p).call = .addTempRoot path .lockGC)
    (hfree : s.gcLock.blocked p .shared = false) :
    ({ s with gcLock := s.gcLock.grant p .shared }.goto p
      (.addTempRoot path .removeStale)).Invariant := by
  obtain ⟨hadded, hobserved⟩ := (h.owner p).added_eq_nil (by simp [RootsProcess.checked, hcall])
  refine h.locksStep rfl rfl rfl (fun _ _ _ _ => Iff.rfl) h.locks
    (fun q hq mode => by simp [LockTable.mem_grant, hq]) (h.gcLock.grant hfree)
    (by simp [IsCollector, hcall]) (by simp [IsCollector]) ?_ ?_ ?_ ?_
  · refine .of_opening path .removeStale (by rw [procs_setProc_self]) (Or.inr (Or.inl rfl))
      (fun _ => ⟨.shared, ?_⟩) (fun hplace => by cases hplace) (fun f hf => ?_) ?_ ?_
    · simp [LockTable.mem_grant]
    · rw [procs_setProc_self] at hf
      exact (h.owner p).lt f hf
    · rw [procs_setProc_self]
      exact hadded
    · rw [procs_setProc_self]
      exact hobserved
  · simp [RootsProcess.fresh]
  · simp [RootsProcess.checked]
  · simp [written, hcall]

/-- Step of `addTempRoot`: the global lock is given up. -/
theorem Invariant.addUnlockGC (h : s.Invariant)
    (hcall : (s.procs p).call = .addTempRoot path .unlockGC) :
    ({ s with gcLock := s.gcLock.release p }.goto p (.addTempRoot path .readLock)).Invariant := by
  obtain ⟨hadded, hobserved⟩ := (h.owner p).added_eq_nil (by simp [RootsProcess.checked, hcall])
  refine h.locksStep rfl rfl rfl (fun _ _ _ _ => Iff.rfl) h.locks
    (fun q hq mode => by simp [hq]) h.gcLock.release
    (by simp [IsCollector, hcall]) (by simp [IsCollector]) ?_ ?_ ?_ ?_
  · refine .of_fresh path .readLock (by rw [procs_setProc_self]) (Or.inr (Or.inl rfl))
      (fun hplace => by cases hplace) (fun hplace => by cases hplace) (fun f hf => ?_) ?_ ?_
    · rw [procs_setProc_self] at hf
      exact ⟨(h.owner p).lt f hf, (h.owner p).offset f (by simpa [RootsProcess.fresh, hcall] using hf)⟩
    · rw [procs_setProc_self]
      exact hadded
    · rw [procs_setProc_self]
      exact hobserved
  · simp [RootsProcess.fresh, hcall]
  · simp [RootsProcess.checked]
  · simp [written, hcall]

/-- Step of `addTempRoot`: the shared lock on the new file. -/
theorem Invariant.addReadLock (h : s.Invariant) {dir : RootsDir π}
    (hcall : (s.procs p).call = .addTempRoot path .readLock)
    (hfd : (s.procs p).fdTempRoots = some f)
    (hdir : RootsDir.Granted s.dir dir p f.inode .shared) :
    ({ s with dir }.goto p (.addTempRoot path .stat)).Invariant := by
  obtain ⟨hadded, hobserved⟩ := (h.owner p).added_eq_nil (by simp [RootsProcess.checked, hcall])
  refine h.lockStep hdir (by simp [IsCollector, hcall]) (by simp [IsCollector]) ?_ ?_ ?_ ?_
  · refine .of_fresh path .stat (by rw [procs_setProc_self]) (Or.inr (Or.inr rfl))
      (fun hplace => by cases hplace) (fun _ f' hf' => ?_) (fun f' hf' => ?_) ?_ ?_
    · rw [procs_setProc_self] at hf'
      change (s.procs p).fdTempRoots = some f' at hf'
      rw [hfd] at hf'
      cases hf'
      exact ⟨.shared, hdir.self⟩
    · rw [procs_setProc_self] at hf'
      refine ⟨?_, (h.owner p).offset f' (by simpa [RootsProcess.fresh, hcall] using hf')⟩
      rw [dir_setProc, hdir.next]
      exact (h.owner p).lt f' hf'
    · rw [procs_setProc_self]
      exact hadded
    · rw [procs_setProc_self]
      exact hobserved
  · simp [RootsProcess.fresh, hcall]
  · simp [RootsProcess.checked]
  · simp [written, hcall]

/-- An empty file that is locked has its name: the collector that removed it would have an exclusive
lock. -/
theorem Invariant.named_of_stat (h : s.Invariant)
    (hcall : (s.procs p).call = .addTempRoot path .stat)
    (hfd : (s.procs p).fdTempRoots = some f) (hempty : s.dir.data f.inode = []) :
    s.dir.names p = some f.inode := by
  have hfresh : (s.procs p).fresh = some f := by simp [RootsProcess.fresh, hcall, hfd]
  rcases h.fresh p f hfresh hempty with hname | ⟨c, f', hc, hi⟩
  · exact hname
  · obtain ⟨mode, hmode⟩ := (h.owner p).stat path f hcall hfd
    have hlock := (h.collector c).marking f' hc
    rw [hi] at hlock
    obtain rfl := (h.locks f.inode).eq_of_exclusive hlock hmode
    simp [RootsProcess.marking, hcall] at hc

/-- Step of `addTempRoot`: the file is still empty, so no collector has marked it. -/
theorem Invariant.addStat (h : s.Invariant)
    (hcall : (s.procs p).call = .addTempRoot path .stat)
    (hfd : (s.procs p).fdTempRoots = some f) (hempty : s.dir.data f.inode = []) :
    (s.goto p (.addTempRoot path .writeLock)).Invariant := by
  obtain ⟨hadded, hobserved⟩ := (h.owner p).added_eq_nil (by simp [RootsProcess.checked, hcall])
  have hfresh : (s.procs p).fresh = some f := by simp [RootsProcess.fresh, hcall, hfd]
  have hname := h.named_of_stat hcall hfd hempty
  refine h.idleStep (by simp [IsCollector, hcall]) (by simp [IsCollector]) ?_ ?_ ?_ ?_
  · refine Owner.of_checked (f := f) (Or.inr ⟨path, Or.inl (by rw [procs_setProc_self])⟩) ?_
      ((h.owner p).stat path f hcall hfd) hname ⟨?_, ?_⟩ (fun path' heq => ?_)
      ((h.owner p).lt f hfd) ?_
    · rw [procs_setProc_self]
      exact hfd
    · simpa [written, hadded, encodeRoots] using hempty
    · rw [dir_setProc, hempty]
      exact (h.owner p).offset f hfresh
    · rw [procs_setProc_self] at heq
      cases heq
    · rw [procs_setProc_self]
      simp [hobserved]
  · simp [RootsProcess.fresh]
  · intro f' hf'
    have hf' : (s.procs p).fdTempRoots = some f' := hf'
    rw [hfd] at hf'
    cases hf'
    exact Or.inr ⟨hfresh, hempty, hname⟩
  · simp [written, hcall]

/-- Step of `addTempRoot`: a collector has marked the file as stale, and it is opened again. -/
theorem Invariant.addRetry (h : s.Invariant)
    (hcall : (s.procs p).call = .addTempRoot path .stat) :
    (s.goto p (.addTempRoot path .lockGC)).Invariant := by
  obtain ⟨hadded, hobserved⟩ := (h.owner p).added_eq_nil (by simp [RootsProcess.checked, hcall])
  refine h.idleStep (by simp [IsCollector, hcall]) (by simp [IsCollector]) ?_ ?_ ?_ ?_
  · refine .of_opening path .lockGC (by rw [procs_setProc_self]) (Or.inl rfl)
      (fun hplace => absurd rfl hplace) (fun hplace => by cases hplace) (fun f hf => ?_) ?_ ?_
    · rw [procs_setProc_self] at hf
      exact (h.owner p).lt f hf
    · rw [procs_setProc_self]
      exact hadded
    · rw [procs_setProc_self]
      exact hobserved
  · simp [RootsProcess.fresh]
  · simp [RootsProcess.checked]
  · simp [written, hcall]

/-- A process that has checked its file goes on, with a lock on the file. -/
theorem Invariant.checkedStep (h : s.Invariant) {dir : RootsDir π} {mode : LockMode}
    {call : RootsCall π} {added : List Path} (hfd : (s.procs p).fdTempRoots = some f)
    (hchecked : (s.procs p).checked = some f)
    (hdir : RootsDir.Granted s.dir dir p f.inode mode)
    (hcall : call = .idle ∨ ∃ path, call = .addTempRoot path .writeLock ∨
      call = .addTempRoot path .write ∨ call = .addTempRoot path .downgrade)
    (hwritten : (RootsProcess.mk (some f) call added (s.procs p).observed).written =
      (s.procs p).written)
    (hmode : ∀ path, call = .addTempRoot path .write → mode = .exclusive)
    (hadded : ∀ x ∈ (s.procs p).added, x ∈ added) :
    ({ s with dir }.setProc p { s.procs p with call, added }).Invariant := by
  have hpr : ({ s.procs p with call, added } : RootsProcess π) =
      ⟨some f, call, added, (s.procs p).observed⟩ := by rw [← hfd]
  have hcollector : ¬ (s.procs p).IsCollector := by
    intro hc
    rw [checked_eq_none hc] at hchecked
    cases hchecked
  have hdata := (h.owner p).data f hchecked
  rw [hpr]
  refine h.lockStep hdir hcollector ?_ ?_ ?_ ?_ hwritten
  · rcases hcall with rfl | ⟨path, rfl | rfl | rfl⟩ <;> simp [IsCollector]
  · refine Owner.of_checked (f := f) (by rwa [procs_setProc_self]) (by rw [procs_setProc_self])
      ⟨mode, hdir.self⟩ ?_ ?_ (fun path heq => ?_) ?_ ?_
    · rw [dir_setProc, hdir.names]
      exact (h.owner p).named f hchecked
    · rw [procs_setProc_self, hwritten, dir_setProc, hdir.data]
      exact hdata
    · rw [procs_setProc_self] at heq
      rw [← hmode path heq]
      exact hdir.self
    · rw [dir_setProc, hdir.next]
      exact (h.owner p).lt f hfd
    · rw [procs_setProc_self]
      intro x hx
      have hold := (h.owner p).observed x hx
      exact ⟨hadded x hold.1, hold.2⟩
  · rcases hcall with rfl | ⟨path, rfl | rfl | rfl⟩ <;> simp [RootsProcess.fresh]
  · intro f' hf'
    have hfd' := fdTempRoots_of_checked hf'
    cases hfd'
    exact Or.inl hchecked

/-- A step that removes a name that no checked file has. -/
theorem Quiet.of_unlink {n : π}
    (hkept : ∀ q f, q ≠ p → (s.procs q).checked = some f → q ≠ n) :
    Quiet s ({ s with dir := s.dir.unlink n }.setProc p pr) p where
  procs q hq := procs_setProc_of_ne hq
  locks _ _ _ _ := Iff.rfl
  gcLock _ _ _ := Iff.rfl
  next := le_rfl
  names _ _ _ := RootsDir.names_of_unlink
  fewer _ _ _ _ _ _ := RootsDir.names_of_unlink
  noName q _ hnone := by
    refine Option.eq_none_iff_forall_ne_some.mpr fun i hi => ?_
    rw [RootsDir.names_of_unlink hi] at hnone
    cases hnone
  empty _ _ := id
  kept q hq f hf := ⟨RootsDir.names_unlink_of_ne (hkept q f hq hf), rfl⟩
  valid _ _ _ _ := id

/-- Step of `addTempRoot`: a file that a dead process left under the name is removed. -/
theorem Invariant.addRemoveStale (h : s.Invariant)
    (hcall : (s.procs p).call = .addTempRoot path .removeStale) :
    ({ s with dir := s.dir.unlink p }.goto p (.addTempRoot path .create)).Invariant := by
  obtain ⟨hadded, hobserved⟩ := (h.owner p).added_eq_nil (by simp [RootsProcess.checked, hcall])
  refine h.ownerStep (.of_unlink fun q f hq _ => hq) h.locks h.gcLock
    (fun q i => RootsDir.names_of_unlink) (fun q hq => RootsDir.names_unlink_of_ne hq) rfl rfl rfl
    (by simp [IsCollector, hcall]) (by simp [IsCollector, goto]) ?_ (fun f hf => ?_) fun f hf => ?_
  · refine .of_opening path .create (by simp [goto]) (Or.inr (Or.inr rfl)) (fun _ => ?_)
      (fun _ => RootsDir.names_unlink_self) (fun f hf => ?_) ?_ ?_
    · exact (h.owner p).gc path .removeStale hcall (Or.inl rfl)
    · exact (h.owner p).lt f (by simpa [goto] using hf)
    · simpa [goto] using hadded
    · simpa [goto] using hobserved
  · simp [goto, RootsProcess.fresh] at hf
  · simp [goto, LiveFile, RootsProcess.fresh, RootsProcess.checked] at hf

/-- No process collects garbage while another one has the global lock. -/
theorem Invariant.not_collecting (h : s.Invariant) {mode : LockMode} {roots : PathSet}
    (hp : (p, mode) ∈ s.gcLock) (hc : c ≠ p) : (s.procs c).collecting ≠ some roots := by
  intro hroots
  exact hc (h.gcLock.eq_of_exclusive ((h.collector c).gc roots hroots) hp).symm

/-- The directory after a file is created, and the file of the round before is closed. -/
structure Created (d d' : RootsDir π) (p : π) : Prop where
  names : d'.names = Function.update d.names p (some d.next)
  data : d'.data = Function.update d.data d.next []
  next : d'.next = d.next + 1
  others : ∀ q, q ≠ p → ∀ i mode, (q, mode) ∈ d'.locks i ↔ (q, mode) ∈ d.locks i
  sound : (∀ i, (d.locks i).Sound) → ∀ i, (d'.locks i).Sound

/-- When no file has the name, `open` creates one with a new inode and closes the old one. -/
theorem created_of_names {d : RootsDir π} (h : d.names p = none) (old : Option OpenFile) :
    Created d (match old with
      | some old => (d.openOrCreate p).1.close p old
      | none => (d.openOrCreate p).1) p ∧ (d.openOrCreate p).2 = ⟨d.next, 0⟩ := by
  have hopen : d.openOrCreate p = ({ d with
      names := Function.update d.names p (some d.next)
      data := Function.update d.data d.next []
      next := d.next + 1 }, ⟨d.next, 0⟩) := by simp [RootsDir.openOrCreate, h]
  rw [hopen]
  refine ⟨?_, rfl⟩
  cases old with
  | none => exact ⟨rfl, rfl, rfl, fun _ _ _ _ => Iff.rfl, id⟩
  | some old =>
    refine ⟨rfl, rfl, rfl, fun q hq i mode => ?_, RootsDir.sound_close⟩
    simp [RootsDir.mem_locks_close, hq]

/-- Step of `addTempRoot`: the file is created, under the shared global lock. -/
theorem Invariant.addCreate (h : s.Invariant) {dir : RootsDir π}
    (hcall : (s.procs p).call = .addTempRoot path .create) (hdir : Created s.dir dir p) :
    ({ s with dir }.setProc p { s.procs p with
      fdTempRoots := some ⟨s.dir.next, 0⟩, call := .addTempRoot path .unlockGC }).Invariant := by
  obtain ⟨hadded, hobserved⟩ := (h.owner p).added_eq_nil (by simp [RootsProcess.checked, hcall])
  obtain ⟨mode, hmode⟩ := (h.owner p).gc path .create hcall (Or.inr (Or.inl rfl))
  have hself : dir.names p = some s.dir.next := by simp [hdir.names]
  have hothers : ∀ q, q ≠ p → dir.names q = s.dir.names q := fun q hq => by simp [hdir.names, hq]
  have hdata : ∀ i, i < s.dir.next → dir.data i = s.dir.data i := fun i hi => by
    simp [hdir.data, Function.update_of_ne hi.ne]
  refine h.of_quiet (p := p) ⟨fun q hq => procs_setProc_of_ne hq, hdir.others, fun _ _ _ => Iff.rfl,
      by simp [hdir.next], fun r i hi hr => ?_, fun c roots hc hroots => ?_, fun q hq hnone => ?_,
      fun i hi hempty => ?_, fun q hq f hf => ?_, fun _ _ _ _ => id⟩ (hdir.sound h.locks) h.gcLock
    (fun q r i hq hr => ?_) (fun q i hq => ?_) h.nulFree ?_
    (.of_not_isCollector (by simp [IsCollector])) (fun f hf _ => ?_) (fun q f hq _ hname => ?_)
    (fun f hf => ?_) (fun c f roots hc hroots => ?_) fun q f roots _ hroots => ?_
  · have hrp : r ≠ p := by
      rintro rfl
      rw [dir_setProc, hself] at hr
      cases hr
      exact absurd hi (lt_irrefl _)
    rw [← hothers r hrp, ← hr]
    rfl
  · exact absurd hroots (h.not_collecting hmode hc)
  · rw [dir_setProc, hothers q hq, hnone]
  · rw [← hdata i hi, ← hempty]
    rfl
  · exact ⟨hothers q hq, hdata _ ((h.owner q).lt f (fdTempRoots_of_checked hf))⟩
  · rw [dir_setProc] at hq hr
    by_cases hqp : q = p
    · by_cases hrp : r = p
      · rw [hqp, hrp]
      · rw [hqp, hself] at hq
        cases hq
        rw [hothers r hrp] at hr
        exact absurd (h.named_lt r _ hr) (lt_irrefl _)
    · rw [hothers q hqp] at hq
      by_cases hrp : r = p
      · rw [hrp, hself] at hr
        cases hr
        exact absurd (h.named_lt q _ hq) (lt_irrefl _)
      · rw [hothers r hrp] at hr
        exact h.injective q r i hq hr
  · rw [dir_setProc] at hq ⊢
    rw [hdir.next]
    by_cases hqp : q = p
    · rw [hqp, hself] at hq
      cases hq
      exact Nat.lt_succ_self _
    · rw [hothers q hqp] at hq
      exact (h.named_lt q i hq).trans (Nat.lt_succ_self _)
  · refine .of_fresh path .unlockGC (by rw [procs_setProc_self]) (Or.inl rfl) (fun _ => ⟨mode, hmode⟩)
      (fun hplace => by cases hplace) (fun f hf => ?_) ?_ ?_
    · rw [procs_setProc_self] at hf
      cases hf
      rw [dir_setProc, hdir.next]
      exact ⟨Nat.lt_succ_self _, rfl⟩
    · rw [procs_setProc_self]
      exact hadded
    · rw [procs_setProc_self]
      exact hobserved
  · have hfd := fdTempRoots_of_fresh hf
    rw [procs_setProc_self] at hfd
    cases hfd
    exact Or.inl hself
  · exact Or.inl (by rw [dir_setProc, hothers q hq, hname])
  · simp [RootsProcess.marking, hcall] at hf
  · exact absurd hroots (h.not_collecting hmode hc)
  · simp [RootsProcess.collecting] at hroots

/-- Step of `addTempRoot`: the path is written under the exclusive lock on the file. -/
theorem Invariant.addWrite (h : s.Invariant) {dir : RootsDir π} {f' : OpenFile}
    (hcall : (s.procs p).call = .addTempRoot path .write)
    (hfd : (s.procs p).fdTempRoots = some f) (hdir : s.dir.write f (path ++ [0]) = (dir, f')) :
    ({ s with dir }.setProc p { s.procs p with
      fdTempRoots := some f', call := .addTempRoot path .downgrade }).Invariant := by
  have hchecked : (s.procs p).checked = some f := by simp [RootsProcess.checked, hcall, hfd]
  have hlock := (h.owner p).write path f hcall hfd
  have hname := (h.owner p).named f hchecked
  obtain ⟨hdata, hoffset⟩ := (h.owner p).data f hchecked
  cases hdir
  have hself : Function.update s.dir.data f.inode
      (FileSystem.overwrite (s.dir.data f.inode) f.offset (path ++ [0])) f.inode =
      s.dir.data f.inode ++ (path ++ [0]) := by
    rw [Function.update_self, hoffset, FileSystem.overwrite_length]
  refine h.of_quiet (p := p) ⟨fun q hq => procs_setProc_of_ne hq, fun _ _ _ _ => Iff.rfl,
      fun _ _ _ => Iff.rfl, le_rfl, fun _ _ _ => id, fun _ _ _ _ _ _ => id, fun _ _ => id,
      fun i hi hempty => ?_, fun q hq g hg => ⟨rfl, ?_⟩, fun _ _ _ _ => id⟩ h.locks h.gcLock h.injective
    h.named_lt h.nulFree ?_ (.of_not_isCollector (by simp [IsCollector])) (fun g hg => ?_)
    (fun q g _ _ => Or.inl) (fun g hg => ?_) (fun c g roots hc hroots hg => ?_)
    fun q g roots _ hroots => ?_
  · by_cases hi : i = f.inode
    · subst hi
      have hempty : _ = [] := hself.symm.trans hempty
      simp at hempty
    · rw [← hempty]
      exact (Function.update_of_ne hi _ _).symm
  · refine Function.update_of_ne (fun hi => hq ?_) _ _
    exact h.injective q p f.inode (hi ▸ (h.owner q).named g hg) hname
  · refine Owner.of_checked (f := ⟨f.inode, f.offset + (path ++ [0]).length⟩)
      (Or.inr ⟨path, Or.inr (Or.inr (by rw [procs_setProc_self]))⟩) (by rw [procs_setProc_self])
      ⟨.exclusive, hlock⟩ hname ⟨?_, ?_⟩ (fun path' heq => ?_) ((h.owner p).lt f hfd) ?_
    · rw [procs_setProc_self]
      refine hself.trans ?_
      rw [hdata]
      simp [written, hcall, encodeRoots_append]
    · refine Eq.trans ?_ (congrArg List.length hself).symm
      simp only [List.length_append, hoffset]
    · rw [procs_setProc_self] at heq
      cases heq
    · rw [procs_setProc_self]
      exact (h.owner p).observed
  · simp [RootsProcess.fresh] at hg
  · simp [RootsProcess.marking, hcall] at hg
  · rcases h.covered c p f roots hroots (Or.inl hchecked) with hpend | hpass
    · exact Or.inl hpend
    · exact absurd ((h.locks f.inode).eq_of_exclusive hlock hpass.1) hc
  · simp [RootsProcess.collecting] at hroots

/-! ### Steps of `collectGarbage` -/

variable {permRoots tempRoots : PathSet} {fds : List OpenFile} {todo : List π}

/-- A collector has added nothing. -/
theorem Invariant.nothing_added (h : s.Invariant) {place : CollectPlace π}
    (hcall : (s.procs p).call = .collectGarbage permRoots tempRoots fds place) :
    (s.procs p).fdTempRoots = none ∧ (s.procs p).added = [] ∧ (s.procs p).observed = [] := by
  have hp : (s.procs p).IsCollector := by simp [IsCollector, hcall]
  exact ⟨(h.collector p).noFile hp, (h.owner p).added_eq_nil (checked_eq_none hp)⟩

/-- The places where the collector does not look at a file. -/
theorem Collector.of_place (hfd : (s.procs p).fdTempRoots = none)
    (hcurrent : (s.procs p).current = none) (hstale : (s.procs p).stale = none)
    (hgc : ∀ roots, (s.procs p).collecting = some roots → (p, .exclusive) ∈ s.gcLock) :
    s.Collector p := by
  refine ⟨fun _ => hfd, hgc, ?_, ?_, ?_, ?_, ?_⟩
  · simp [hcurrent]
  · simp [hstale]
  · intro permRoots' tempRoots' fds' q f todo heq
    simp [RootsProcess.current, heq] at hcurrent
  · intro f hf
    unfold RootsProcess.marking at hf
    split at hf
    · rename_i heq
      simp [RootsProcess.stale, heq] at hstale
    · cases hf
  · intro permRoots' tempRoots' fds' q f todo heq
    simp [RootsProcess.current, heq] at hcurrent

/-- The places where the collector looks at a file. -/
theorem Collector.of_current (place : CollectPlace π)
    (hcall : (s.procs p).call = .collectGarbage permRoots tempRoots fds place)
    (hplace : place = .tryLock q f todo ∨ place = .unlinkStale q f todo ∨
      place = .readLock q f todo ∨ place = .read q f todo)
    (hfd : (s.procs p).fdTempRoots = none) (hgc : (p, .exclusive) ∈ s.gcLock)
    (hopened : s.Opened q f)
    (hremoving : place = .unlinkStale q f todo → (p, .exclusive) ∈ s.dir.locks f.inode)
    (hread : place = .read q f todo → (p, .shared) ∈ s.dir.locks f.inode) : s.Collector p := by
  have hcurrent : (s.procs p).current = some (q, f) := by
    rcases hplace with rfl | rfl | rfl | rfl <;> simp [RootsProcess.current, hcall]
  refine ⟨fun _ => hfd, fun _ _ => hgc, ?_, ?_, ?_, ?_, ?_⟩
  · intro q' f' hf'
    rw [hcurrent] at hf'
    cases hf'
    exact hopened
  · rcases hplace with rfl | rfl | rfl | rfl <;> simp [RootsProcess.stale, hcall]
  · intro permRoots' tempRoots' fds' q' f' todo' heq
    rw [hcall] at heq
    rcases hplace with rfl | rfl | rfl | rfl <;> cases heq
    exact hremoving rfl
  · rcases hplace with rfl | rfl | rfl | rfl <;> simp [RootsProcess.marking, hcall]
  · intro permRoots' tempRoots' fds' q' f' todo' heq
    rw [hcall] at heq
    rcases hplace with rfl | rfl | rfl | rfl <;> cases heq
    exact hread rfl

/-- The places after the removal of a file. -/
theorem Collector.of_stale (place : CollectPlace π)
    (hcall : (s.procs p).call = .collectGarbage permRoots tempRoots fds place)
    (hplace : place = .markStale f todo ∨ place = .closeStale f todo)
    (hfd : (s.procs p).fdTempRoots = none) (hgc : (p, .exclusive) ∈ s.gcLock)
    (hlt : f.inode < s.dir.next) (hno : ∀ r, s.dir.names r ≠ some f.inode)
    (hmark : place = .markStale f todo → (p, .exclusive) ∈ s.dir.locks f.inode) :
    s.Collector p := by
  have hstale : (s.procs p).stale = some f := by
    rcases hplace with rfl | rfl <;> simp [RootsProcess.stale, hcall]
  refine ⟨fun _ => hfd, fun _ _ => hgc, ?_, ?_, ?_, ?_, ?_⟩
  · rcases hplace with rfl | rfl <;> simp [RootsProcess.current, hcall]
  · intro f' hf'
    rw [hstale] at hf'
    cases hf'
    exact ⟨hlt, hno⟩
  · intro permRoots' tempRoots' fds' q' f' todo' heq
    rw [hcall] at heq
    rcases hplace with rfl | rfl <;> cases heq
  · intro f' hf'
    rcases hplace with rfl | rfl
    · simp only [RootsProcess.marking, hcall, Option.some.injEq] at hf'
      subst hf'
      exact hmark rfl
    · simp [RootsProcess.marking, hcall] at hf'
  · intro permRoots' tempRoots' fds' q' f' todo' heq
    rw [hcall] at heq
    rcases hplace with rfl | rfl <;> cases heq

/-- A step of `collectGarbage` that changes locks only. -/
theorem Invariant.collectLocks (h : s.Invariant) {dir : RootsDir π} {gcLock : LockTable π}
    {call : RootsCall π} (hfd : (s.procs p).fdTempRoots = none) (hadded : (s.procs p).added = [])
    (hobserved : (s.procs p).observed = []) (hnames : dir.names = s.dir.names)
    (hdata : dir.data = s.dir.data) (hnext : dir.next = s.dir.next)
    (hlocks : ∀ q, q ≠ p → ∀ i mode, (q, mode) ∈ dir.locks i ↔ (q, mode) ∈ s.dir.locks i)
    (hsound : ∀ i, (dir.locks i).Sound)
    (hgc : ∀ q, q ≠ p → ∀ mode, (q, mode) ∈ gcLock ↔ (q, mode) ∈ s.gcLock) (hgcSound : gcLock.Sound)
    (hcall : ∀ path place, call ≠ .addTempRoot path place)
    (hcoll : ({ s with dir, gcLock }.goto p call).Collector p) (hmark : (s.procs p).marking = none)
    (hcov : ∀ q f roots, q ≠ p → (({ s with dir, gcLock }.goto p call).procs p).collecting =
      some roots → s.LiveFile q f → (({ s with dir, gcLock }.goto p call).procs p).Pending q ∨
        ({ s with dir, gcLock }.goto p call).Passed p q f roots) :
    ({ s with dir, gcLock }.goto p call).Invariant := by
  refine h.collectorStep
    (.of_locks (fun q hq => procs_setProc_of_ne hq) hnames hdata hnext hlocks hgc rfl) hsound hgcSound
    (fun q i hq => hnames ▸ hq) hnext (fun _ => id) ?_ ?_ ?_ ?_ hcoll (fun q f _ _ hname => ?_)
    (fun f hf => ?_) fun q f roots hq hroots hf _ => hcov q f roots hq hroots hf
  · simpa [goto] using hfd
  · simpa [goto] using hcall
  · simpa [goto] using hadded
  · simpa [goto] using hobserved
  · left
    rw [← hname, ← hnames]
    rfl
  · rw [hmark] at hf
    cases hf

/-- A step of `collectGarbage` that changes no file and no lock. -/
theorem Invariant.collectGoto (h : s.Invariant) {call : RootsCall π}
    (hfd : (s.procs p).fdTempRoots = none) (hadded : (s.procs p).added = [])
    (hobserved : (s.procs p).observed = []) (hcall : ∀ path place, call ≠ .addTempRoot path place)
    (hcoll : (s.goto p call).Collector p) (hmark : (s.procs p).marking = none)
    (hcov : ∀ q f roots, q ≠ p → ((s.goto p call).procs p).collecting = some roots →
      s.LiveFile q f → ((s.goto p call).procs p).Pending q ∨ (s.goto p call).Passed p q f roots) :
    (s.goto p call).Invariant :=
  h.collectLocks hfd hadded hobserved rfl rfl rfl (fun _ _ _ _ => Iff.rfl) h.locks
    (fun _ _ _ => Iff.rfl) h.gcLock hcall hcoll hmark hcov

/-- A step of `p` that keeps its shared lock on a file keeps what it has passed. -/
theorem Passed.goto {roots : PathSet} {call : RootsCall π} {d : RootsDir π} {g : LockTable π}
    (h : s.Passed p q f roots) (hq : q ≠ p) (hlock : (p, .shared) ∈ d.locks f.inode) :
    ({ s with dir := d, gcLock := g }.goto p call).Passed p q f roots := by
  refine ⟨hlock, ?_⟩
  rw [RootsState.goto, procs_setProc_of_ne hq]
  exact h.2

/-- A file in use has its name. -/
theorem Invariant.named_of_liveFile (h : s.Invariant) (hf : s.LiveFile q f) :
    s.dir.names q = some f.inode := by
  rcases hf with hf | ⟨-, -, hname⟩
  · exact (h.owner q).named f hf
  · exact hname

/-- Step of `collectGarbage`: it starts, in a process without a file of its own. -/
theorem Invariant.collectStart (h : s.Invariant) (hcall : (s.procs p).call = .idle)
    (hfd : (s.procs p).fdTempRoots = none) :
    (s.goto p (.collectGarbage ∅ ∅ [] .lockGC)).Invariant := by
  obtain ⟨hadded, hobserved⟩ :=
    (h.owner p).added_eq_nil (by simp [RootsProcess.checked, hcall, hfd])
  refine h.collectGoto hfd hadded hobserved (fun _ _ => nofun) (.of_place ?_ ?_ ?_ ?_) ?_ ?_
  · simpa [goto] using hfd
  · simp [goto, RootsProcess.current]
  · simp [goto, RootsProcess.stale]
  · simp [goto, RootsProcess.collecting]
  · simp [RootsProcess.marking, hcall]
  · simp [goto, RootsProcess.collecting]

/-- Step of `collectGarbage`: the exclusive global lock. -/
theorem Invariant.collectLockGC (h : s.Invariant)
    (hcall : (s.procs p).call = .collectGarbage permRoots tempRoots fds .lockGC)
    (hfree : s.gcLock.blocked p .exclusive = false) :
    ({ s with gcLock := s.gcLock.grant p .exclusive }.goto p
      (.collectGarbage permRoots tempRoots fds .findRoots)).Invariant := by
  obtain ⟨hfd, hadded, hobserved⟩ := h.nothing_added hcall
  refine h.collectLocks hfd hadded hobserved rfl rfl rfl (fun _ _ _ _ => Iff.rfl) h.locks
    (fun q hq mode => by simp [LockTable.mem_grant, hq]) (h.gcLock.grant hfree) (fun _ _ => nofun)
    (.of_place ?_ ?_ ?_ fun _ _ => ?_) ?_ fun q f roots _ _ _ => Or.inl ?_
  · simpa [goto] using hfd
  · simp [goto, RootsProcess.current]
  · simp [goto, RootsProcess.stale]
  · simp [goto, LockTable.mem_grant]
  · simp [RootsProcess.marking, hcall]
  · simp [goto, RootsProcess.Pending]

/-- A step between two places where the collector has the global lock and looks at no file. -/
theorem Invariant.collectMove (h : s.Invariant) {place' : CollectPlace π} {permRoots' : PathSet}
    (place : CollectPlace π)
    (hcall : (s.procs p).call = .collectGarbage permRoots tempRoots fds place)
    (hcollecting : (s.procs p).collecting = some tempRoots)
    (hmark : (s.procs p).marking = none)
    (hcurrent : ((s.goto p (.collectGarbage permRoots' tempRoots fds place')).procs p).current = none)
    (hstale : ((s.goto p (.collectGarbage permRoots' tempRoots fds place')).procs p).stale = none)
    (hroots : ∀ roots,
      ((s.goto p (.collectGarbage permRoots' tempRoots fds place')).procs p).collecting = some roots →
      roots = tempRoots)
    (hpending : ∀ q f, s.LiveFile q f → (s.procs p).Pending q →
      ((s.goto p (.collectGarbage permRoots' tempRoots fds place')).procs p).Pending q) :
    (s.goto p (.collectGarbage permRoots' tempRoots fds place')).Invariant := by
  obtain ⟨hfd, hadded, hobserved⟩ := h.nothing_added hcall
  refine h.collectGoto hfd hadded hobserved (fun _ _ => nofun)
    (.of_place (by simpa [goto] using hfd) hcurrent hstale
      fun _ _ => (h.collector p).gc tempRoots hcollecting) hmark fun q f roots hq hr hf => ?_
  rw [hroots roots hr]
  exact (h.covered p q f tempRoots hcollecting hf).imp (hpending q f hf)
    fun hpass => hpass.goto hq hpass.1

/-- Step of `collectGarbage`: the permanent roots. -/
theorem Invariant.collectFindRoots (h : s.Invariant) (permRoots' : PathSet)
    (hcall : (s.procs p).call = .collectGarbage permRoots tempRoots fds .findRoots) :
    (s.goto p (.collectGarbage permRoots' tempRoots fds .readDirectory)).Invariant := by
  refine h.collectMove .findRoots hcall ?_ ?_ ?_ ?_ ?_ fun q f _ _ => ?_
  · simp [RootsProcess.collecting, hcall]
  · simp [RootsProcess.marking, hcall]
  · simp [goto, RootsProcess.current]
  · simp [goto, RootsProcess.stale]
  · simp [goto, RootsProcess.collecting]
  · simp [goto, RootsProcess.Pending]

/-- Step of `collectGarbage`: the directory lists every name there is. -/
theorem Invariant.collectReadDirectory (h : s.Invariant) {entries : List π}
    (hcall : (s.procs p).call = .collectGarbage permRoots tempRoots fds .readDirectory)
    (hentries : ∀ q, s.dir.names q ≠ none → q ∈ entries) :
    (s.goto p (.collectGarbage permRoots tempRoots fds (.nextFile entries))).Invariant := by
  refine h.collectMove .readDirectory hcall ?_ ?_ ?_ ?_ ?_ fun q f hf _ => ?_
  · simp [RootsProcess.collecting, hcall]
  · simp [RootsProcess.marking, hcall]
  · simp [goto, RootsProcess.current]
  · simp [goto, RootsProcess.stale]
  · simp [goto, RootsProcess.collecting]
  · have hq := hentries q (by simp [h.named_of_liveFile hf])
    simpa [goto, RootsProcess.Pending] using hq

/-- Step of `collectGarbage`: no file is left, and the deleting begins. -/
theorem Invariant.collectFilesDone (h : s.Invariant)
    (hcall : (s.procs p).call = .collectGarbage permRoots tempRoots fds (.nextFile [])) :
    (s.goto p (.collectGarbage permRoots tempRoots fds .deleting)).Invariant := by
  refine h.collectMove (.nextFile []) hcall ?_ ?_ ?_ ?_ ?_ fun q f _ hpend => ?_
  · simp [RootsProcess.collecting, hcall]
  · simp [RootsProcess.marking, hcall]
  · simp [goto, RootsProcess.current]
  · simp [goto, RootsProcess.stale]
  · simp [goto, RootsProcess.collecting]
  · simp [RootsProcess.Pending, hcall] at hpend

/-- Step of `collectGarbage`: the file was removed since the directory was read. -/
theorem Invariant.collectGone (h : s.Invariant)
    (hcall : (s.procs p).call = .collectGarbage permRoots tempRoots fds (.nextFile (q :: todo)))
    (hnone : s.dir.names q = none) :
    (s.goto p (.collectGarbage permRoots tempRoots fds (.nextFile todo))).Invariant := by
  refine h.collectMove (.nextFile (q :: todo)) hcall ?_ ?_ ?_ ?_ ?_ fun r f hf hpend => ?_
  · simp [RootsProcess.collecting, hcall]
  · simp [RootsProcess.marking, hcall]
  · simp [goto, RootsProcess.current]
  · simp [goto, RootsProcess.stale]
  · simp [goto, RootsProcess.collecting]
  · have hr : r ≠ q := by
      rintro rfl
      rw [h.named_of_liveFile hf] at hnone
      cases hnone
    simp only [RootsProcess.Pending, hcall, List.mem_cons] at hpend
    simpa [goto, RootsProcess.Pending] using hpend.resolve_left hr

/-- A step to a place where the collector looks at a file. -/
theorem Invariant.collectLook (h : s.Invariant) {dir : RootsDir π} {place' : CollectPlace π}
    (place : CollectPlace π)
    (hcall : (s.procs p).call = .collectGarbage permRoots tempRoots fds place)
    (hcollecting : (s.procs p).collecting = some tempRoots) (hmark : (s.procs p).marking = none)
    (hplace : place' = .tryLock q f todo ∨ place' = .unlinkStale q f todo ∨
      place' = .readLock q f todo ∨ place' = .read q f todo)
    (hpending : ∀ r, (s.procs p).Pending r → r = q ∨ r ∈ todo) (hopened : s.Opened q f)
    (hnames : dir.names = s.dir.names) (hdata : dir.data = s.dir.data)
    (hnext : dir.next = s.dir.next)
    (hothers : ∀ q, q ≠ p → ∀ i mode, (q, mode) ∈ dir.locks i ↔ (q, mode) ∈ s.dir.locks i)
    (helsewhere : ∀ i mode, i ≠ f.inode → ((p, mode) ∈ dir.locks i ↔ (p, mode) ∈ s.dir.locks i))
    (hsound : ∀ i, (dir.locks i).Sound)
    (hremoving : place' = .unlinkStale q f todo → (p, .exclusive) ∈ dir.locks f.inode)
    (hread : place' = .read q f todo → (p, .shared) ∈ dir.locks f.inode) :
    ({ s with dir }.goto p (.collectGarbage permRoots tempRoots fds place')).Invariant := by
  obtain ⟨hfd, hadded, hobserved⟩ := h.nothing_added hcall
  have hgc := (h.collector p).gc tempRoots hcollecting
  have hopened' : ({ s with dir }.goto p
      (.collectGarbage permRoots tempRoots fds place')).Opened q f := by
    refine ⟨?_, fun i hi => hopened.same i (hnames ▸ hi), fun r hr => hopened.name r (hnames ▸ hr)⟩
    exact hopened.lt.trans_eq hnext.symm
  refine h.collectLocks hfd hadded hobserved hnames hdata hnext hothers hsound
    (fun _ _ _ => Iff.rfl) h.gcLock (fun _ _ => nofun)
    (.of_current place' call_goto hplace (by simpa [goto] using hfd) hgc hopened' hremoving
      hread) hmark fun r g roots hr hroots hg => ?_
  have hroots : roots = tempRoots := by
    rcases hplace with rfl | rfl | rfl | rfl <;>
      simpa [goto, RootsProcess.collecting, eq_comm] using hroots
  have hpend : r = q ∨ r ∈ todo → (({ s with dir }.goto p
      (.collectGarbage permRoots tempRoots fds place')).procs p).Pending r := by
    rcases hplace with rfl | rfl | rfl | rfl <;> simp [goto, RootsProcess.Pending]
  subst hroots
  rcases h.covered p r g roots hcollecting hg with hold | hpass
  · exact Or.inl (hpend (hpending r hold))
  · -- the lock on another file that was read is not touched
    by_cases hi : g.inode = f.inode
    · exact Or.inl (hpend (Or.inl (hopened.name r (hi ▸ h.named_of_liveFile hg))))
    · exact Or.inr (hpass.goto hr ((helsewhere _ _ hi).mpr hpass.1))

/-- Step of `collectGarbage`: the next file is opened. -/
theorem Invariant.collectOpen (h : s.Invariant) {i : ℕ}
    (hcall : (s.procs p).call = .collectGarbage permRoots tempRoots fds (.nextFile (q :: todo)))
    (hname : s.dir.names q = some i) :
    (s.goto p (.collectGarbage permRoots tempRoots fds (.tryLock q ⟨i, 0⟩ todo))).Invariant := by
  refine h.collectLook (q := q) (f := ⟨i, 0⟩) (.nextFile (q :: todo)) hcall ?_ ?_ (Or.inl rfl)
    (fun r hr => ?_) ⟨h.named_lt q i hname, fun j hj => ?_, fun r hr => h.injective r q i hr hname⟩
    rfl rfl rfl (fun _ _ _ _ => Iff.rfl) (fun _ _ _ => Iff.rfl) h.locks nofun nofun
  · simp [RootsProcess.collecting, hcall]
  · simp [RootsProcess.marking, hcall]
  · simpa [RootsProcess.Pending, hcall] using hr
  · rw [hname] at hj
    exact (Option.some.inj hj).symm

/-- The file that the collector looks at, and the files that are still to be looked at. -/
theorem Invariant.looking (h : s.Invariant) {place : CollectPlace π}
    (hcall : (s.procs p).call = .collectGarbage permRoots tempRoots fds place)
    (hplace : place = .tryLock q f todo ∨ place = .unlinkStale q f todo ∨
      place = .readLock q f todo ∨ place = .read q f todo) :
    (s.procs p).collecting = some tempRoots ∧ (s.procs p).marking = none ∧ s.Opened q f ∧
      ∀ r, (s.procs p).Pending r → r = q ∨ r ∈ todo := by
  have hcurrent : (s.procs p).current = some (q, f) := by
    rcases hplace with rfl | rfl | rfl | rfl <;> simp [RootsProcess.current, hcall]
  refine ⟨?_, ?_, (h.collector p).current q f hcurrent, fun r hr => ?_⟩
  · rcases hplace with rfl | rfl | rfl | rfl <;> simp [RootsProcess.collecting, hcall]
  · rcases hplace with rfl | rfl | rfl | rfl <;> simp [RootsProcess.marking, hcall]
  · rcases hplace with rfl | rfl | rfl | rfl <;> simpa [RootsProcess.Pending, hcall] using hr

/-- Step of `collectGarbage`: the exclusive lock was free, so the owner is dead. -/
theorem Invariant.collectTryLock (h : s.Invariant) {dir : RootsDir π}
    (hcall : (s.procs p).call = .collectGarbage permRoots tempRoots fds (.tryLock q f todo))
    (hdir : RootsDir.Granted s.dir dir p f.inode .exclusive) :
    ({ s with dir }.goto p
      (.collectGarbage permRoots tempRoots fds (.unlinkStale q f todo))).Invariant := by
  obtain ⟨hcollecting, hmark, hopened, hpending⟩ := h.looking hcall (Or.inl rfl)
  exact h.collectLook (.tryLock q f todo) hcall hcollecting hmark (Or.inr (Or.inl rfl)) hpending
    hopened hdir.names hdir.data hdir.next hdir.others hdir.elsewhere (hdir.sound h.locks)
    (fun _ => hdir.self) nofun

/-- Step of `collectGarbage`: the owner is alive and holds its lock. -/
theorem Invariant.collectTryLockFailed (h : s.Invariant)
    (hcall : (s.procs p).call = .collectGarbage permRoots tempRoots fds (.tryLock q f todo)) :
    (s.goto p (.collectGarbage permRoots tempRoots fds (.readLock q f todo))).Invariant := by
  obtain ⟨hcollecting, hmark, hopened, hpending⟩ := h.looking hcall (Or.inl rfl)
  exact h.collectLook (.tryLock q f todo) hcall hcollecting hmark (Or.inr (Or.inr (Or.inl rfl)))
    hpending hopened rfl rfl rfl (fun _ _ _ _ => Iff.rfl) (fun _ _ _ => Iff.rfl) h.locks nofun nofun

/-- Step of `collectGarbage`: the shared lock, which waits for an owner that is writing. -/
theorem Invariant.collectReadLock (h : s.Invariant) {dir : RootsDir π}
    (hcall : (s.procs p).call = .collectGarbage permRoots tempRoots fds (.readLock q f todo))
    (hdir : RootsDir.Granted s.dir dir p f.inode .shared) :
    ({ s with dir }.goto p
      (.collectGarbage permRoots tempRoots fds (.read q f todo))).Invariant := by
  obtain ⟨hcollecting, hmark, hopened, hpending⟩ := h.looking hcall (Or.inr (Or.inr (Or.inl rfl)))
  exact h.collectLook (.readLock q f todo) hcall hcollecting hmark (Or.inr (Or.inr (Or.inr rfl)))
    hpending hopened hdir.names hdir.data hdir.next hdir.others hdir.elsewhere (hdir.sound h.locks)
    nofun (fun _ => hdir.self)

/-- Step of `collectGarbage`: the file of a dead owner is unlinked. -/
theorem Invariant.collectUnlink (h : s.Invariant)
    (hcall : (s.procs p).call = .collectGarbage permRoots tempRoots fds (.unlinkStale q f todo)) :
    ({ s with dir := s.dir.unlink q }.goto p
      (.collectGarbage permRoots tempRoots fds (.markStale f todo))).Invariant := by
  obtain ⟨hfd, hadded, hobserved⟩ := h.nothing_added hcall
  obtain ⟨hcollecting, hmark, hopened, hpending⟩ := h.looking hcall (Or.inr (Or.inl rfl))
  have hlock := (h.collector p).removing _ _ _ q f todo hcall
  have hgc := (h.collector p).gc tempRoots hcollecting
  -- the process of a checked file has a lock on it
  have hunchecked : ∀ r g, r ≠ p → (s.procs r).checked = some g → r ≠ q := by
    rintro r g hr hg rfl
    obtain ⟨mode, hmode⟩ := (h.owner r).locked g hg
    rw [hopened.same g.inode ((h.owner r).named g hg)] at hmode
    exact hr ((h.locks f.inode).eq_of_exclusive hlock hmode)
  refine h.collectorStep (.of_unlink hunchecked) h.locks h.gcLock
    (fun r i => RootsDir.names_of_unlink) rfl (fun _ => id) (by simpa [goto] using hfd)
    (fun _ _ => by simp [goto]) (by simpa [goto] using hadded) (by simpa [goto] using hobserved)
    (.of_stale (.markStale f todo) call_goto (Or.inl rfl) (by simpa [goto] using hfd) hgc hopened.lt
      (fun r hr => ?_) fun _ => hlock) (fun r g hr hg hname => ?_) (fun g hg => ?_)
    fun r g roots hr hroots hg hg' => ?_
  · have hold := RootsDir.names_of_unlink hr
    obtain rfl := hopened.name r hold
    have hnone : (s.dir.unlink r).names r = some f.inode := hr
    rw [RootsDir.names_unlink_self] at hnone
    cases hnone
  · by_cases hrq : r = q
    · subst hrq
      exact Or.inr ⟨f, by simp [goto, RootsProcess.marking], (hopened.same g.inode hname).symm⟩
    · exact Or.inl ((RootsDir.names_unlink_of_ne hrq).trans hname)
  · rw [hmark] at hg
    cases hg
  · have hroots : tempRoots = roots := by simpa [goto, RootsProcess.collecting] using hroots
    subst hroots
    rcases h.covered p r g tempRoots hcollecting hg with hold | hpass
    · rcases hpending r hold with rfl | hr
      · -- the file is not in use any more
        rcases hg' with hchecked | ⟨-, -, hname⟩
        · rw [goto, procs_setProc_of_ne hr] at hchecked
          exact absurd rfl (hunchecked r g hr hchecked)
        · have hnone : (s.dir.unlink r).names r = some g.inode := hname
          rw [RootsDir.names_unlink_self] at hnone
          cases hnone
      · exact Or.inl (by simpa [goto, RootsProcess.Pending] using hr)
    · exact Or.inr (hpass.goto hr hpass.1)

/-- Step of `collectGarbage`: the file of a dead owner is marked with `d`. -/
theorem Invariant.collectMark (h : s.Invariant) {dir : RootsDir π} {f' : OpenFile}
    (hcall : (s.procs p).call = .collectGarbage permRoots tempRoots fds (.markStale f todo))
    (hdir : s.dir.write f (str "d") = (dir, f')) :
    ({ s with dir }.goto p
      (.collectGarbage permRoots tempRoots fds (.closeStale f' todo))).Invariant := by
  obtain ⟨hfd, hadded, hobserved⟩ := h.nothing_added hcall
  have hcollecting : (s.procs p).collecting = some tempRoots := by
    simp [RootsProcess.collecting, hcall]
  have hgc := (h.collector p).gc tempRoots hcollecting
  obtain ⟨hlt, hno⟩ := (h.collector p).stale f (by simp [RootsProcess.stale, hcall])
  cases hdir
  have hmarked : Function.update s.dir.data f.inode
      (FileSystem.overwrite (s.dir.data f.inode) f.offset (str "d")) f.inode ≠ [] := by
    rw [Function.update_self]
    exact FileSystem.overwrite_ne_nil _ (by decide)
  refine h.collectorStep (p := p) ⟨fun q hq => procs_setProc_of_ne hq, fun _ _ _ _ => Iff.rfl,
      fun _ _ _ => Iff.rfl, le_rfl, fun _ _ _ => id, fun _ _ _ _ _ _ => id, fun _ _ => id,
      fun i hi hempty => ?_, fun q hq g hg => ⟨rfl, ?_⟩, fun _ _ _ _ => id⟩ h.locks h.gcLock
    (fun _ _ => id) rfl (fun _ => id) (by simpa [goto] using hfd) (fun _ _ => by simp [goto])
    (by simpa [goto] using hadded) (by simpa [goto] using hobserved)
    (.of_stale (.closeStale _ todo) call_goto (Or.inr rfl) (by simpa [goto] using hfd) hgc hlt hno
      nofun) (fun q g _ _ => Or.inl) (fun g hg => ?_) fun q g roots hq hroots hg _ => ?_
  · by_cases hi : i = f.inode
    · subst hi
      exact absurd hempty hmarked
    · rw [← hempty]
      exact (Function.update_of_ne hi _ _).symm
  · refine Function.update_of_ne (fun hi => ?_) _ _
    exact hno q (hi ▸ (h.owner q).named g hg)
  · simp only [RootsProcess.marking, hcall, Option.some.injEq] at hg
    subst hg
    exact hmarked
  · have hroots : tempRoots = roots := by simpa [goto, RootsProcess.collecting] using hroots
    subst hroots
    refine (h.covered p q g tempRoots hcollecting hg).imp (fun hold => ?_)
      fun hpass => hpass.goto hq hpass.1
    simp only [RootsProcess.Pending, hcall] at hold
    simpa [goto, RootsProcess.Pending] using hold

/-- Step of `collectGarbage`: the file of a dead owner is closed. -/
theorem Invariant.collectCloseStale (h : s.Invariant)
    (hcall : (s.procs p).call = .collectGarbage permRoots tempRoots fds (.closeStale f todo)) :
    ({ s with dir := s.dir.close p f }.goto p
      (.collectGarbage permRoots tempRoots fds (.nextFile todo))).Invariant := by
  obtain ⟨hfd, hadded, hobserved⟩ := h.nothing_added hcall
  have hcollecting : (s.procs p).collecting = some tempRoots := by
    simp [RootsProcess.collecting, hcall]
  have hgc := (h.collector p).gc tempRoots hcollecting
  obtain ⟨-, hno⟩ := (h.collector p).stale f (by simp [RootsProcess.stale, hcall])
  refine h.collectLocks hfd hadded hobserved rfl rfl rfl
    (fun q hq i mode => by simp [RootsDir.mem_locks_close, hq]) (RootsDir.sound_close h.locks)
    (fun _ _ _ => Iff.rfl) h.gcLock (fun _ _ => nofun) (.of_place ?_ ?_ ?_ fun _ _ => hgc) ?_
    fun q g roots hq hroots hg => ?_
  · simpa [goto] using hfd
  · simp [goto, RootsProcess.current]
  · simp [goto, RootsProcess.stale]
  · simp [RootsProcess.marking, hcall]
  · have hroots : tempRoots = roots := by simpa [goto, RootsProcess.collecting] using hroots
    subst hroots
    refine (h.covered p q g tempRoots hcollecting hg).imp (fun hold => ?_) fun hpass => ?_
    · simp only [RootsProcess.Pending, hcall] at hold
      simpa [goto, RootsProcess.Pending] using hold
    · -- a file that was read has its name, and the file that is closed has none
      refine hpass.goto hq (RootsDir.mem_locks_close.mpr ⟨fun hi => ?_, hpass.1⟩)
      exact absurd (hi ▸ h.named_of_liveFile hg) (hno q)

/-- The collector finds the paths of a file that is in use. -/
theorem Invariant.mem_of_read (h : s.Invariant) {g : OpenFile} {x : Path} (hg : s.LiveFile q g)
    (hx : x ∈ (s.procs q).written) (hnul : x.NulFree) : x ∈ splitRoots [] (s.dir.data g.inode) := by
  rcases hg with hg | ⟨hg, -, -⟩
  · rw [((h.owner q).data g hg).1]
    exact mem_splitRoots_encodeRoots hx hnul
  · exfalso
    have hadded : (s.procs q).added = [] := by
      refine (h.owner q).unchecked ?_
      unfold RootsProcess.fresh at hg
      unfold RootsProcess.checked
      split at hg <;> simp_all
    unfold RootsProcess.fresh at hg
    unfold RootsProcess.written at hx
    split at hg <;> simp_all

/-- Step of `collectGarbage`: the roots of a live owner are read, and the file stays locked. -/
theorem Invariant.collectRead (h : s.Invariant)
    (hcall : (s.procs p).call = .collectGarbage permRoots tempRoots fds (.read q f todo)) :
    (s.goto p (.collectGarbage permRoots
      ((splitRoots [] (s.dir.data f.inode)).foldl SortedSet.insert tempRoots) (fds ++ [f])
      (.nextFile todo))).Invariant := by
  obtain ⟨hfd, hadded, hobserved⟩ := h.nothing_added hcall
  obtain ⟨hcollecting, hmark, hopened, hpending⟩ := h.looking hcall (Or.inr (Or.inr (Or.inr rfl)))
  have hgc := (h.collector p).gc tempRoots hcollecting
  have hlock := (h.collector p).read _ _ _ q f todo hcall
  refine h.collectGoto hfd hadded hobserved (fun _ _ => nofun) (.of_place ?_ ?_ ?_ fun _ _ => hgc)
    hmark fun r g roots hr hroots hg => ?_
  · simpa [goto] using hfd
  · simp [goto, RootsProcess.current]
  · simp [goto, RootsProcess.stale]
  · have hroots : (splitRoots [] (s.dir.data f.inode)).foldl SortedSet.insert tempRoots = roots := by
      simpa [goto, RootsProcess.collecting] using hroots
    subst hroots
    rcases h.covered p r g tempRoots hcollecting hg with hold | hpass
    · rcases hpending r hold with rfl | hr'
      · have hi : g.inode = f.inode := hopened.same g.inode (h.named_of_liveFile hg)
        refine Or.inr ⟨hi ▸ hlock, fun x hx hnul => ?_⟩
        rw [goto, procs_setProc_of_ne hr] at hx
        rw [SortedSet.mem_foldl_insert, ← hi]
        exact Or.inl (h.mem_of_read hg hx hnul)
      · exact Or.inl (by simpa [goto, RootsProcess.Pending] using hr')
    · refine Or.inr ⟨hpass.1, fun x hx hnul => ?_⟩
      rw [goto, procs_setProc_of_ne hr] at hx
      rw [SortedSet.mem_foldl_insert]
      exact Or.inr (hpass.2 x hx hnul)

/-- A step to a place after the deletions. -/
theorem Invariant.collectLeave (h : s.Invariant) {dir : RootsDir π} {gcLock : LockTable π}
    {call : RootsCall π} {place : CollectPlace π}
    (hcall : (s.procs p).call = .collectGarbage permRoots tempRoots fds place)
    (hmark : (s.procs p).marking = none) (hnames : dir.names = s.dir.names)
    (hdata : dir.data = s.dir.data) (hnext : dir.next = s.dir.next)
    (hlocks : ∀ q, q ≠ p → ∀ i mode, (q, mode) ∈ dir.locks i ↔ (q, mode) ∈ s.dir.locks i)
    (hsound : ∀ i, (dir.locks i).Sound)
    (hgc : ∀ q, q ≠ p → ∀ mode, (q, mode) ∈ gcLock ↔ (q, mode) ∈ s.gcLock) (hgcSound : gcLock.Sound)
    (hcall' : call = .idle ∨ ∃ fds', call = .collectGarbage permRoots tempRoots fds' .unlockGC ∨
      ∃ unlock, call = .collectGarbage permRoots tempRoots fds' (.closing unlock)) :
    ({ s with dir, gcLock }.goto p call).Invariant := by
  obtain ⟨hfd, hadded, hobserved⟩ := h.nothing_added hcall
  refine h.collectLocks hfd hadded hobserved hnames hdata hnext hlocks hsound hgc hgcSound ?_
    (.of_place ?_ ?_ ?_ ?_) hmark ?_
  · rcases hcall' with rfl | ⟨fds', rfl | ⟨unlock, rfl⟩⟩ <;> exact fun _ _ => nofun
  · simpa [goto] using hfd
  · rcases hcall' with rfl | ⟨fds', rfl | ⟨unlock, rfl⟩⟩ <;> simp [goto, RootsProcess.current]
  · rcases hcall' with rfl | ⟨fds', rfl | ⟨unlock, rfl⟩⟩ <;> simp [goto, RootsProcess.stale]
  · rcases hcall' with rfl | ⟨fds', rfl | ⟨unlock, rfl⟩⟩ <;> simp [goto, RootsProcess.collecting]
  · rcases hcall' with rfl | ⟨fds', rfl | ⟨unlock, rfl⟩⟩ <;> simp [goto, RootsProcess.collecting]

variable {cfg : StoreConfig} {placeC : CollectPlace π}

/-- Every step of a collector keeps the invariant. -/
theorem Invariant.nextCollect (h : s.Invariant)
    (hcall : (s.procs p).call = .collectGarbage permRoots tempRoots fds placeC)
    (hs : s.nextCollect cfg p permRoots tempRoots fds placeC = some s') : s'.Invariant := by
  cases placeC with
  | lockGC =>
    simp only [RootsState.nextCollect] at hs
    split_ifs at hs with hfree
    cases hs
    exact h.collectLockGC hcall (by simpa using hfree)
  | findRoots => cases hs
  | readDirectory => cases hs
  | nextFile todo =>
    cases todo with
    | nil =>
      cases hs
      exact h.collectFilesDone hcall
    | cons q todo =>
      simp only [RootsState.nextCollect] at hs
      split at hs
      · rename_i i hname
        cases hs
        exact h.collectOpen hcall hname
      · rename_i hnone
        cases hs
        exact h.collectGone hcall hnone
  | tryLock q f todo =>
    simp only [RootsState.nextCollect] at hs
    split at hs
    · rename_i dir hdir
      cases hs
      exact h.collectTryLock hcall (RootsDir.granted_of_lockFile hdir)
    · cases hs
      exact h.collectTryLockFailed hcall
  | unlinkStale q f todo =>
    cases hs
    exact h.collectUnlink hcall
  | markStale f todo =>
    cases hs
    exact h.collectMark hcall rfl
  | closeStale f todo =>
    cases hs
    exact h.collectCloseStale hcall
  | readLock q f todo =>
    obtain ⟨dir, hdir, hs⟩ := Option.bind_eq_some_iff.mp hs
    cases hs
    exact h.collectReadLock hcall (RootsDir.granted_of_lockFile hdir)
  | read q f todo =>
    simp only [RootsState.nextCollect] at hs
    split_ifs at hs
    · cases hs
      exact h.collectRead hcall
    · cases hs
      exact h.collectLeave hcall (by simp [RootsProcess.marking, hcall]) rfl rfl rfl
        (fun _ _ _ _ => Iff.rfl) h.locks (fun _ _ _ => Iff.rfl) h.gcLock
        (Or.inr ⟨f :: fds, Or.inr ⟨true, rfl⟩⟩)
  | deleting => cases hs
  | unlockGC =>
    cases hs
    exact h.collectLeave hcall (by simp [RootsProcess.marking, hcall]) rfl rfl rfl
      (fun _ _ _ _ => Iff.rfl) h.locks (fun q hq mode => by simp [hq]) h.gcLock.release
      (Or.inr ⟨fds, Or.inr ⟨false, rfl⟩⟩)
  | closing unlock =>
    have hmark : (s.procs p).marking = none := by simp [RootsProcess.marking, hcall]
    cases fds with
    | nil =>
      cases hs
      refine h.collectLeave hcall hmark rfl rfl rfl (fun _ _ _ _ => Iff.rfl) h.locks
        (fun q hq mode => ?_) ?_ (Or.inl rfl)
      · cases unlock <;> simp [hq]
      · cases unlock
        · exact h.gcLock
        · exact h.gcLock.release
    | cons f fds =>
      cases hs
      exact h.collectLeave hcall hmark rfl rfl rfl
        (fun q hq i mode => by simp [RootsDir.mem_locks_close, hq]) (RootsDir.sound_close h.locks)
        (fun _ _ _ => Iff.rfl) h.gcLock (Or.inr ⟨fds, Or.inr ⟨unlock, rfl⟩⟩)

/-- Every step of `addTempRoot` keeps the invariant. -/
theorem Invariant.nextAdd (h : s.Invariant) (hcall : (s.procs p).call = .addTempRoot path place)
    (hs : s.nextAdd p path place = some s') : s'.Invariant := by
  cases place with
  | lockGC =>
    simp only [RootsState.nextAdd] at hs
    split_ifs at hs with hfree
    cases hs
    exact h.addLockGC hcall (by simpa using hfree)
  | removeStale =>
    have hdir : (if (s.dir.names p).isSome then s.dir.unlink p else s.dir) = s.dir.unlink p := by
      split_ifs with hsome
      · rfl
      · exact (RootsDir.unlink_of_names (by simpa using hsome)).symm
    simp only [RootsState.nextAdd, hdir] at hs
    cases hs
    exact h.addRemoveStale hcall
  | create =>
    obtain ⟨hdir, hfile⟩ :=
      created_of_names ((h.owner p).create path hcall) (s.procs p).fdTempRoots
    simp only [RootsState.nextAdd] at hs
    cases hs
    rw [hfile]
    exact h.addCreate hcall hdir
  | unlockGC =>
    cases hs
    exact h.addUnlockGC hcall
  | readLock =>
    obtain ⟨f, hfd, hs⟩ := Option.bind_eq_some_iff.mp hs
    obtain ⟨dir, hdir, hs⟩ := Option.bind_eq_some_iff.mp hs
    cases hs
    exact h.addReadLock hcall hfd (RootsDir.granted_of_lockFile hdir)
  | stat =>
    obtain ⟨f, hfd, hs⟩ := Option.bind_eq_some_iff.mp hs
    split_ifs at hs with hempty
    · cases hs
      exact h.addStat hcall hfd hempty
    · cases hs
      exact h.addRetry hcall
  | writeLock =>
    obtain ⟨f, hfd, hs⟩ := Option.bind_eq_some_iff.mp hs
    obtain ⟨dir, hdir, hs⟩ := Option.bind_eq_some_iff.mp hs
    cases hs
    refine h.checkedStep hfd (by simp [RootsProcess.checked, hcall, hfd])
      (RootsDir.granted_of_lockFile hdir) (Or.inr ⟨path, Or.inr (Or.inl rfl)⟩) ?_ (fun _ _ => rfl)
      fun _ => id
    simp [written, hcall]
  | write =>
    obtain ⟨f, hfd, hs⟩ := Option.bind_eq_some_iff.mp hs
    cases hs
    exact h.addWrite hcall hfd rfl
  | downgrade =>
    obtain ⟨f, hfd, hs⟩ := Option.bind_eq_some_iff.mp hs
    obtain ⟨dir, hdir, hs⟩ := Option.bind_eq_some_iff.mp hs
    cases hs
    refine h.checkedStep hfd (by simp [RootsProcess.checked, hcall, hfd])
      (RootsDir.granted_of_lockFile hdir) (Or.inl rfl) ?_ (fun _ heq => by cases heq)
      fun x hx => List.mem_append_left _ hx
    simp [written, hcall]

/-! ### The other steps -/

/-- A step between calls of a process that has checked its file, or has none. -/
theorem Invariant.addStart (h : s.Invariant) (hcall : (s.procs p).call = .idle) (path : Path) :
    (s.goto p (.addTempRoot path
      (if (s.procs p).fdTempRoots = none then .lockGC else .writeLock))).Invariant := by
  have hpr : ¬ (s.procs p).IsCollector := by simp [IsCollector, hcall]
  cases hfd : (s.procs p).fdTempRoots with
  | none =>
    obtain ⟨hadded, hobserved⟩ :=
      (h.owner p).added_eq_nil (by simp [RootsProcess.checked, hcall, hfd])
    rw [if_pos rfl]
    refine h.idleStep hpr (by simp [IsCollector]) (.of_opening path .lockGC
      (by rw [procs_setProc_self]) (Or.inl rfl) (fun hplace => absurd rfl hplace)
      (fun hplace => by cases hplace) ?_ ?_ ?_) ?_ ?_ ?_
    · simp [hfd]
    · simpa using hadded
    · simpa using hobserved
    · simp [RootsProcess.fresh]
    · simp [RootsProcess.checked]
    · simp [written, hcall]
  | some f =>
    have hchecked : (s.procs p).checked = some f := by simp [RootsProcess.checked, hcall, hfd]
    have howner := h.owner p
    rw [if_neg (by simp)]
    refine h.idleStep hpr (by simp [IsCollector]) (Owner.of_checked (f := f)
      (Or.inr ⟨path, Or.inl (by rw [procs_setProc_self])⟩) (by simpa using hfd)
      (howner.locked f hchecked) (howner.named f hchecked) ?_ ?_ (howner.lt f hfd) ?_) ?_ ?_ ?_
    · have hdata := howner.data f hchecked
      simp only [written, hcall] at hdata
      simpa [written] using hdata
    · simp
    · simpa using howner.observed
    · simp [RootsProcess.fresh]
    · intro f' hf'
      refine Or.inl ?_
      simpa [RootsProcess.checked, hcall] using hf'
    · simp [written, hcall]

/-- A process may take note of a valid path that it has added as a root. -/
theorem Invariant.observe (h : s.Invariant) (hcall : (s.procs p).call = .idle)
    (hvalid : path ∈ s.valid) (hadded : path ∈ (s.procs p).added) :
    (s.setProc p { s.procs p with observed := path :: (s.procs p).observed }).Invariant := by
  have howner := h.owner p
  cases hchecked : (s.procs p).checked with
  | none =>
    rw [howner.unchecked hchecked] at hadded
    cases hadded
  | some f =>
    have hfd := fdTempRoots_of_checked hchecked
    refine h.idleStep (by simp [IsCollector, hcall]) (by simp [IsCollector, hcall])
      (Owner.of_checked (f := f) (Or.inl (by simpa using hcall)) (by simpa using hfd)
        (howner.locked f hchecked) (howner.named f hchecked) ?_ ?_ (howner.lt f hfd) ?_) ?_ ?_ ?_
    · have hdata := howner.data f hchecked
      simp only [written, hcall] at hdata
      simpa [written, hcall] using hdata
    · simp [hcall]
    · rw [procs_setProc_self]
      intro x hx
      rcases List.mem_cons.mp hx with rfl | hx
      · exact ⟨hadded, hvalid⟩
      · exact howner.observed x hx
    · simp [RootsProcess.fresh, hcall]
    · intro f' hf'
      refine Or.inl ?_
      simpa [RootsProcess.checked, hcall] using hf'
    · simp [written, hcall]

/-- A process may leave, with `removeTempRoots` or without. -/
theorem Invariant.exit (h : s.Invariant) (hcall : (s.procs p).call = .idle)
    (hpr : pr = ⟨(s.procs p).fdTempRoots, .removeTempRoots .close, [], []⟩ ∨ pr = .new) :
    (s.setProc p pr).Invariant := by
  have hno : ¬ pr.IsCollector ∧ pr.checked = none ∧ pr.fresh = none ∧ pr.added = [] ∧
      pr.observed = [] ∧ (∀ path place, pr.call ≠ .addTempRoot path place) ∧
      ∀ f, pr.fdTempRoots = some f → (s.procs p).fdTempRoots = some f := by
    rcases hpr with rfl | rfl <;>
      simp [IsCollector, RootsProcess.checked, RootsProcess.fresh, RootsProcess.new]
  obtain ⟨hcoll, hchecked, hfresh, hadded, hobserved, hcall', hfd⟩ := hno
  refine h.ownerStep
    (.of_locks (fun q hq => procs_setProc_of_ne hq) rfl rfl rfl (fun _ _ _ _ => Iff.rfl)
      (fun _ _ _ => Iff.rfl) rfl) h.locks h.gcLock (fun _ _ => id) (fun _ _ => rfl) rfl rfl rfl
    (by simp [IsCollector, hcall]) (by rwa [procs_setProc_self]) (.of_unused ?_ ?_ ?_ ?_ ?_) ?_ ?_
  · rwa [procs_setProc_self]
  · rwa [procs_setProc_self]
  · rw [procs_setProc_self]
    exact fun f hf => (h.owner p).lt f (hfd f hf)
  · rwa [procs_setProc_self]
  · rwa [procs_setProc_self]
  · simp [hfresh]
  · simp [LiveFile, hchecked, hfresh]

/-- Every step of `removeTempRoots` keeps the invariant. -/
theorem Invariant.nextRemove (h : s.Invariant) {place : RemovePlace}
    (hcall : (s.procs p).call = .removeTempRoots place)
    (hs : s.nextRemove p place = some s') : s'.Invariant := by
  have hpr : ¬ (s.procs p).IsCollector := by simp [IsCollector, hcall]
  obtain ⟨hadded, hobserved⟩ := (h.owner p).added_eq_nil (by simp [RootsProcess.checked, hcall])
  cases place with
  | close =>
    obtain ⟨f, hfd, hs⟩ := Option.bind_eq_some_iff.mp hs
    cases hs
    refine h.locksStep rfl rfl rfl (fun q hq i mode => by simp [RootsDir.mem_locks_close, hq])
      (RootsDir.sound_close h.locks) (fun _ _ _ => Iff.rfl) h.gcLock hpr (by simp [IsCollector])
      (.of_unused ?_ ?_ ?_ ?_ ?_) ?_ ?_ ?_
    · simp [RootsProcess.checked]
    · simp
    · simp
    · simpa using hadded
    · simpa using hobserved
    · simp [RootsProcess.fresh]
    · simp [RootsProcess.checked]
    · simp [written, hcall]
  | unlink =>
    cases hs
    refine h.ownerStep (.of_unlink fun q f hq _ => hq) h.locks h.gcLock
      (fun q i => RootsDir.names_of_unlink) (fun q hq => RootsDir.names_unlink_of_ne hq) rfl rfl rfl
      hpr (by simp [IsCollector, RootsProcess.new]) (.of_unused ?_ ?_ ?_ ?_ ?_) ?_ ?_
    · simp [RootsProcess.checked, RootsProcess.new]
    · simp [RootsProcess.new]
    · simp [RootsProcess.new]
    · simp [RootsProcess.new]
    · simp [RootsProcess.new]
    · simp [RootsProcess.fresh, RootsProcess.new]
    · simp [LiveFile, RootsProcess.checked, RootsProcess.fresh, RootsProcess.new]

/-- A process that is killed loses its locks; its file stays until a collector finds it. -/
theorem Invariant.kill (h : s.Invariant) (hmark : (s.procs p).marking = none) :
    ({ s with dir := s.dir.exit p, gcLock := s.gcLock.release p }.setProc p .new).Invariant := by
  have hlive : ∀ f, ¬ ({ s with dir := s.dir.exit p, gcLock := s.gcLock.release p }.setProc p
      .new).LiveFile p f := by
    simp [LiveFile, RootsProcess.checked, RootsProcess.fresh, RootsProcess.new]
  refine h.of_quiet (p := p)
    (.of_locks (fun q hq => procs_setProc_of_ne hq) rfl rfl rfl
      (fun q hq i mode => by simp [RootsDir.exit, hq]) (fun q hq mode => by simp [hq]) rfl)
    (fun i => (h.locks i).release) h.gcLock.release h.injective h.named_lt h.nulFree
    (.of_unused ?_ ?_ ?_ ?_ ?_) (.of_not_isCollector (by simp [IsCollector, RootsProcess.new]))
    ?_ (fun q f _ _ => Or.inl) ?_ (fun c f roots _ _ hf => absurd hf (hlive f)) ?_
  · simp [RootsProcess.checked, RootsProcess.new]
  · simp [RootsProcess.new]
  · simp [RootsProcess.new]
  · simp [RootsProcess.new]
  · simp [RootsProcess.new]
  · simp [RootsProcess.fresh, RootsProcess.new]
  · simp [hmark]
  · simp [RootsProcess.collecting, RootsProcess.new]

/-- The set of valid paths may change, as long as the paths that processes rely on stay valid. -/
theorem Invariant.setValid (h : s.Invariant) {valid : PathSet}
    (hnul : ∀ x ∈ valid, Str.NulFree x)
    (hobserved : ∀ q, ∀ x ∈ (s.procs q).observed, x ∈ valid) : { s with valid }.Invariant where
  locks := h.locks
  gcLock := h.gcLock
  injective := h.injective
  named_lt := h.named_lt
  nulFree := hnul
  owner q := { h.owner q with
    observed := fun x hx => ⟨((h.owner q).observed x hx).1, hobserved q x hx⟩ }
  collector q := ⟨(h.collector q).noFile, (h.collector q).gc,
    fun r f hf => ⟨((h.collector q).current r f hf).lt, ((h.collector q).current r f hf).same,
      ((h.collector q).current r f hf).name⟩,
    (h.collector q).stale, (h.collector q).removing, (h.collector q).marking, (h.collector q).read⟩
  fresh := h.fresh
  covered := h.covered

/-- A path that is protected is a root of every collector that deletes paths. -/
theorem Invariant.mem_tempRoots (h : s.Invariant) {x : Path}
    (hcall : (s.procs c).call = .collectGarbage permRoots tempRoots fds .deleting)
    (hx : x ∈ (s.procs p).observed) : x ∈ tempRoots := by
  obtain ⟨hadded, hvalid⟩ := (h.owner p).observed x hx
  cases hchecked : (s.procs p).checked with
  | none =>
    rw [(h.owner p).unchecked hchecked] at hadded
    cases hadded
  | some f =>
    have hcollecting : (s.procs c).collecting = some tempRoots := by
      simp [RootsProcess.collecting, hcall]
    rcases h.covered c p f tempRoots hcollecting (Or.inl hchecked) with hpend | hpass
    · simp [RootsProcess.Pending, hcall] at hpend
    · refine hpass.2 x ?_ (h.nulFree x hvalid)
      unfold written
      split
      · exact List.mem_append_left _ hadded
      · exact hadded

/-! ### Runs -/

/-- The steps under which temporary roots protect: a process that collects garbage has no file of
temporary roots, and no process dies between the removal of a stale file and its mark. -/
def Allowed (s : RootsState π) : RootsEvent π → Prop
  | .collectGarbage p => (s.procs p).fdTempRoots = none
  | .kill p => (s.procs p).marking = none
  | _ => True

instance (s : RootsState π) (e : RootsEvent π) : Decidable (s.Allowed e) := by
  unfold Allowed
  split <;> infer_instance

variable [Fintype π]

/-- Every allowed step of the system keeps the invariant. -/
theorem Invariant.step (h : s.Invariant) {e : RootsEvent π} (ha : s.Allowed e)
    (hs : s.step cfg e = some s') : s'.Invariant := by
  cases e with
  | addTempRoot p path =>
    simp only [RootsState.step] at hs
    split at hs
    · rename_i hcall
      cases hs
      exact h.addStart hcall path
    · cases hs
  | isValidPath p path =>
    simp only [RootsState.step] at hs
    split at hs
    · rename_i hcall
      split_ifs at hs with hseen
      · cases hs
        exact h.observe hcall hseen.1 hseen.2
      · cases hs
        exact h
    · cases hs
  | collectGarbage p =>
    simp only [RootsState.step] at hs
    split at hs
    · rename_i hcall
      cases hs
      exact h.collectStart hcall ha
    · cases hs
  | next p =>
    simp only [RootsState.step] at hs
    split at hs
    · cases hs
    · rename_i path place hcall
      exact h.nextAdd hcall hs
    · rename_i permRoots tempRoots fds place hcall
      exact h.nextCollect hcall hs
    · rename_i place hcall
      exact h.nextRemove hcall hs
  | findRoots p permRoots =>
    simp only [RootsState.step] at hs
    split at hs
    · rename_i hcall
      cases hs
      exact h.collectFindRoots permRoots hcall
    · cases hs
  | readDirectory p entries =>
    simp only [RootsState.step] at hs
    split at hs
    · rename_i hcall
      split_ifs at hs with hentries
      cases hs
      exact h.collectReadDirectory hcall hentries
    · cases hs
  | delete p event =>
    simp only [RootsState.step] at hs
    split at hs
    · rename_i hcall
      split_ifs at hs with hroot
      cases hs
      rw [not_or] at hroot
      have hsub : ∀ x ∈ apply s.valid event, x ∈ s.valid := by
        intro x hx
        cases event with
        | invalidate path => exact (SortedSet.mem_erase.mp hx).2
        | delete path => exact hx
        | rename path => exact hx
      refine h.setValid (fun x hx => h.nulFree x (hsub x hx)) fun q x hx => ?_
      have hvalid := ((h.owner q).observed x hx).2
      cases event with
      | invalidate path =>
        refine SortedSet.mem_erase.mpr ⟨?_, hvalid⟩
        rintro rfl
        exact hroot.2 (h.mem_tempRoots hcall hx)
      | delete path => exact hvalid
      | rename path => exact hvalid
    · cases hs
  | finish p =>
    simp only [RootsState.step] at hs
    split at hs
    · rename_i permRoots tempRoots fds hcall
      cases hs
      exact h.collectLeave hcall (by simp [RootsProcess.marking, hcall]) rfl rfl rfl
        (fun _ _ _ _ => Iff.rfl) h.locks (fun _ _ _ => Iff.rfl) h.gcLock
        (Or.inr ⟨fds, Or.inl rfl⟩)
    · cases hs
  | throw p =>
    simp only [RootsState.step] at hs
    split at hs
    · rename_i permRoots tempRoots fds hcall
      cases hs
      exact h.collectLeave hcall (by simp [RootsProcess.marking, hcall]) rfl rfl rfl
        (fun _ _ _ _ => Iff.rfl) h.locks (fun _ _ _ => Iff.rfl) h.gcLock
        (Or.inr ⟨fds, Or.inr ⟨true, rfl⟩⟩)
    · cases hs
  | exit p =>
    simp only [RootsState.step] at hs
    split at hs
    · rename_i hcall
      split at hs
      · rename_i f hfd
        cases hs
        exact h.exit hcall (Or.inl (by rw [hfd]))
      · cases hs
        exact h.exit hcall (Or.inr rfl)
    · cases hs
  | kill p =>
    cases hs
    exact h.kill ha
  | register path =>
    simp only [RootsState.step] at hs
    split_ifs at hs with hnul
    cases hs
    refine h.setValid (fun x hx => ?_) fun q x hx => ?_
    · rcases SortedSet.mem_insert.mp hx with rfl | hx
      · exact hnul
      · exact h.nulFree x hx
    · exact SortedSet.mem_insert.mpr (Or.inr ((h.owner q).observed x hx).2)

/-- The invariant holds at the start. -/
theorem Initial.invariant (h : s.Initial) : s.Invariant where
  locks i := by
    rw [h.unlocked i]
    exact fun _ _ _ _ hp => absurd hp List.not_mem_nil
  gcLock := by
    rw [h.gcUnlocked]
    exact fun _ _ _ _ hp => absurd hp List.not_mem_nil
  injective := h.injective
  named_lt := h.named_lt
  nulFree := h.nulFree
  owner p := by
    refine .of_unused ?_ ?_ ?_ ?_ ?_ <;> simp [h.procs p, RootsProcess.new, RootsProcess.checked]
  collector p := .of_not_isCollector (by simp [h.procs p, RootsProcess.new, IsCollector])
  fresh p := by simp [h.procs p, RootsProcess.new, RootsProcess.fresh]
  covered c := by simp [h.procs c, RootsProcess.new, RootsProcess.collecting]

/-- The states that are reached by steps that satisfy a condition. -/
def Reaches (cfg : StoreConfig) (ok : RootsState π → RootsEvent π → Prop) (s s' : RootsState π) :
    Prop :=
  Relation.ReflTransGen (fun s s' => ∃ e, ok s e ∧ s.step cfg e = some s') s s'

/-- The invariant holds in every state that a run reaches. -/
theorem Reaches.invariant (hinit : s.Initial) (hrun : Reaches cfg Allowed s s') : s'.Invariant := by
  induction hrun with
  | refl => exact hinit.invariant
  | tail _ hstep ih =>
    obtain ⟨e, ha, he⟩ := hstep
    exact ih.step ha he

/-- The state after a sequence of events, if they can happen one after the other and satisfy a
condition. -/
def run (cfg : StoreConfig) (ok : RootsState π → RootsEvent π → Prop) [∀ s e, Decidable (ok s e)]
    (s : RootsState π) (events : List (RootsEvent π)) : Option (RootsState π) :=
  events.foldlM (fun s e => if ok s e then s.step cfg e else none) s

/-- A run that is computed from a list of events is a run. -/
theorem Reaches.of_run {ok : RootsState π → RootsEvent π → Prop} [∀ s e, Decidable (ok s e)]
    {events : List (RootsEvent π)} (hrun : s.run cfg ok events = some s') :
    Reaches cfg ok s s' := by
  induction events generalizing s with
  | nil =>
    cases hrun
    exact .refl
  | cons e events ih =>
    obtain ⟨s₁, hs₁, hrest⟩ := Option.bind_eq_some_iff.mp hrun
    simp only at hs₁
    split_ifs at hs₁ with hok
    exact .head ⟨e, hok, hs₁⟩ (ih hrest)

/-- The collector can do what a run of `collectGarbage` with the same roots does under the lock. -/
theorem step_delete_of_collectGarbage (settings : GCSettings) (options : GCOptions)
    (fuel : ℕ) (dirents : List Path) (shuffle : List Path → List Path) {db : Database}
    {disk : SortedMap Path StoreEntry} (hwf : db.WellFormed)
    (hdisk : ∀ p ∈ db.graph.valid, p ∈ disk) (hlinks : linksDir settings.cfg ∉ db.graph.valid)
    (hcall : (s.procs p).call = .collectGarbage
      (if options.ignoreLiveness then ∅ else permRoots) tempRoots fds .deleting)
    {e : GCEvent} (he : e ∈ (Nix.collectUnderLock settings options permRoots tempRoots fuel dirents
      shuffle (GCState.init db disk)).2.log) :
    s.step cfg (.delete p e) = some { s with valid := apply s.valid e } := by
  have hsafe := (collectGarbage_safe settings options permRoots tempRoots fuel dirents shuffle db
    disk hwf hdisk hlinks).1 e he
  have hroot : e.path ∉ (gcEnv settings options permRoots tempRoots).roots :=
    fun hmem => hsafe (.root hmem)
  simp only [gcEnv, SortedSet.mem_foldl_insert, SortedSet.mem_toList, not_or] at hroot
  simp [step, hcall, hroot]

/-- If no process with a file of temporary roots collects garbage, and no process dies between the
removal of a stale file and its mark, then a path that a process has added to its temporary roots and
seen to be valid afterwards stays valid, and no collector does anything to it. -/
theorem tempRoots_protect (hinit : s.Initial) (hrun : Reaches cfg Allowed s s') (p : π) (x : Path)
    (hx : x ∈ (s'.procs p).observed) :
    x ∈ s'.valid ∧ ∀ c event, event.path = x → s'.step cfg (.delete c event) = none := by
  have h := hrun.invariant hinit
  refine ⟨((h.owner p).observed x hx).2, fun c event hevent => ?_⟩
  simp only [step]
  split
  · rename_i permRoots tempRoots fds hcall
    have hroot := h.mem_tempRoots hcall hx
    rw [if_pos (Or.inr (hevent ▸ hroot))]
  · rfl

end RootsState

/-- The path of the sample runs. -/
def sampleRoot : Path := str "/nix/store/app"

/-- A store with one valid path, and two processes. -/
def sampleRoots : RootsState Bool where
  dir := ⟨fun _ => none, fun _ => [], 0, fun _ => []⟩
  gcLock := []
  valid := .ofList [sampleRoot]
  procs := fun _ => .new

/-- The sample starts without processes at work. -/
theorem initial_sampleRoots : sampleRoots.Initial where
  injective _ _ _ hn := (Option.some_ne_none _ hn.symm).elim
  named_lt _ _ hn := (Option.some_ne_none _ hn.symm).elim
  unlocked _ := rfl
  gcUnlocked := rfl
  procs _ := rfl
  nulFree := by
    intro x hx
    rw [sampleRoots, SortedSet.mem_ofList, List.mem_singleton] at hx
    subst hx
    decide

/-- A process adds the path to its temporary roots and sees that it is valid; then a process collects
garbage up to the deletions. -/
def sampleCollect (p c : Bool) (files : ℕ) : List (RootsEvent Bool) :=
  [.addTempRoot p sampleRoot] ++ List.replicate 9 (.next p) ++
    [.isValidPath p sampleRoot, .collectGarbage c, .next c, .findRoots c ∅, .readDirectory c [p]] ++
    List.replicate files (.next c)

namespace RootsState

/-- The process collects garbage and has come to the deletion of paths. -/
def isDeleting (s : RootsState Bool) (p : Bool) : Bool :=
  match (s.procs p).call with
  | .collectGarbage _ _ _ .deleting => true
  | _ => false

/-- Another process collects garbage, and reads the temporary roots. -/
theorem tempRoots_protect_sample :
    ∃ s : RootsState Bool, Reaches defaultConfig Allowed sampleRoots s ∧
      sampleRoot ∈ (s.procs false).observed ∧
      (∃ permRoots tempRoots fds,
        (s.procs true).call = .collectGarbage permRoots tempRoots fds .deleting) ∧
      sampleRoot ∈ s.valid ∧
      s.step defaultConfig (.delete true (.invalidate sampleRoot)) = none := by
  have htest : (sampleRoots.run defaultConfig Allowed (sampleCollect false true 5)).any
      (fun s => decide (sampleRoot ∈ (s.procs false).observed) && s.isDeleting true) = true := by
    decide +kernel
  obtain ⟨s, hrun, hs⟩ := (Option.any_eq_true _ _).mp htest
  simp only [Bool.and_eq_true, decide_eq_true_eq] at hs
  have hreach := Reaches.of_run hrun
  have hsafe := tempRoots_protect initial_sampleRoots hreach false sampleRoot hs.1
  refine ⟨s, hreach, hs.1, ?_, hsafe.1, hsafe.2 true _ rfl⟩
  have hcall := hs.2
  unfold isDeleting at hcall
  split at hcall
  · rename_i permRoots tempRoots fds heq
    exact ⟨permRoots, tempRoots, fds, heq⟩
  · cases hcall

/-- A process that collects garbage itself gets the lock on its own file, removes the file as stale,
and deletes the path. -/
theorem collectGarbage_deletes_own_tempRoot :
    ¬ ∀ s : RootsState Bool, Reaches defaultConfig (fun _ _ => True) sampleRoots s →
      ∀ p x, x ∈ (s.procs p).observed → x ∈ s.valid := by
  intro h
  have htest : (sampleRoots.run defaultConfig (fun _ _ => True)
      (sampleCollect false false 6 ++ [.delete false (.invalidate sampleRoot)])).any
      (fun s => decide (sampleRoot ∈ (s.procs false).observed) && decide (sampleRoot ∉ s.valid)) =
      true := by decide +kernel
  obtain ⟨s, hrun, hs⟩ := (Option.any_eq_true _ _).mp htest
  simp only [Bool.and_eq_true, decide_eq_true_eq] at hs
  exact hs.2 (h s (Reaches.of_run hrun) false sampleRoot hs.1)

end RootsState

end Nix
