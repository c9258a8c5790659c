import NixStore.Store.PathLocks

/-!
# Path locks are exclusive

The invariant behind `lockPaths`: the lock file of a path that a process has locked still has its
name, is not marked, and is locked by the process; and an open lock file that has lost its name is
marked, unless the process that removed the name is about to mark it and still has the lock.  So a
process that gets a lock on a file without a name sees the mark and tries again.
-/

set_option linter.unusedSectionVars false

namespace Nix

variable {π : Type} [DecidableEq π]

namespace LockProcess

/-- The entries of an object that the process has locked and has not begun to release. -/
def held (pr : LockProcess) (o : ℕ) : List (ℕ × Path) :=
  match pr.call with
  | .unlock o' todo place _ =>
    if o = o' then
      match place with
      | .release => todo
      | _ => todo.tail
    else (pr.objects o).fds
  | _ => (pr.objects o).fds

/-- The descriptors of the lock file that `lockPaths` is about. -/
def LockPlace.fds : LockPlace → List ℕ
  | .check => []
  | .opening old => old.toList
  | .replacing fd old => [fd, old]
  | .tryLock fd => [fd]
  | .waitLock fd => [fd]
  | .stat fd => [fd]

/-- The lock file that `lockPaths` is about to lock or failed to lock, with its descriptors. -/
def wanted (pr : LockProcess) : List (ℕ × Path) :=
  match pr.call with
  | .lockPaths _ _ (path :: _) place => (LockPlace.fds place).map fun fd => (fd, lockPath path)
  | .unlock _ _ _ failed => failed.toList
  | _ => []

/-- The entry that `unlock` is about to close. -/
def leaving (pr : LockProcess) : List (ℕ × Path) :=
  match pr.call with
  | .unlock _ (e :: _) .mark _ => [e]
  | .unlock _ (e :: _) .close _ => [e]
  | _ => []

/-- The entry whose lock file has lost its name and is not marked yet. -/
def marked (pr : LockProcess) : Option (ℕ × Path) :=
  match pr.call with
  | .unlock _ (e :: _) .mark _ => some e
  | _ => none

/-- A lock file that is opened under a name has no other name. -/
def Opened (k : Kernel π Path) (p : π) (e : ℕ × Path) : Prop :=
  ∃ f, k.fds p e.1 = some f ∧ ∀ n, k.names n = some f.inode → n = e.2

/-- A lock file that the process has locked. -/
structure Owned (k : Kernel π Path) (p : π) (e : ℕ × Path) (f : OpenFile) : Prop where
  fd : k.fds p e.1 = some f
  locked : k.Locked p f.inode .exclusive
  named : k.names e.2 = some f.inode
  unmarked : k.data f.inode = []

/-- What is known about the descriptors and locks of a process. -/
structure Sound (k : Kernel π Path) (p : π) (pr : LockProcess) : Prop where
  held : ∀ o, ∀ e ∈ pr.held o, ∃ f, Owned k p e f
  listed : ∀ o, ∀ e ∈ pr.held o, e.2 ∈ pr.lockedPaths
  /-- No lock file is locked twice. -/
  once : ∀ o o' e e', e ∈ pr.held o → e' ∈ pr.held o' → e.2 = e'.2 → o = o' ∧ e = e'
  nodup : ∀ o, (pr.held o).Nodup
  wanted : ∀ e ∈ pr.wanted, Opened k p e ∧ e.2 ∉ pr.lockedPaths
  distinct : ((pr.wanted ++ pr.leaving).map Prod.fst).Nodup
  leaving : ∀ e ∈ pr.leaving, Opened k p e ∧ ∀ o, ∀ e' ∈ pr.held o, e'.2 ≠ e.2
  /-- Every open descriptor is one of these. -/
  accounted : ∀ fd f, k.fds p fd = some f →
    ∃ n, (fd, n) ∈ pr.wanted ∨ (fd, n) ∈ pr.leaving ∨ ∃ o, (fd, n) ∈ pr.held o
  /-- `fstat` is called with the lock. -/
  stat : ∀ o wait todo fd f, pr.call = .lockPaths o wait todo (.stat fd) → k.fds p fd = some f →
    k.Locked p f.inode .exclusive
  /-- The mark is made with the lock. -/
  marked : ∀ e, pr.marked = some e → ∃ f, k.fds p e.1 = some f ∧ k.Locked p f.inode .exclusive
  /-- A path is taken up when it is not locked by the process itself. -/
  free : ∀ o wait path todo place, pr.call = .lockPaths o wait (path :: todo) place →
    place ≠ .check → lockPath path ∉ pr.lockedPaths

variable {k k' : Kernel π Path} {p q : π} {pr pr' : LockProcess} {e e' : ℕ × Path} {o fd : ℕ}
  {f f' : OpenFile}

/-! ### One process -/

/-- An owner that gives up its locks is about to leave none. -/
theorem leaving_release {todo : List (ℕ × Path)} {failed : Option (ℕ × Path)}
    (hcall : pr.call = .unlock o todo .release failed) : pr.leaving = [] := by
  unfold leaving
  rw [hcall]
  cases todo <;> rfl

/-- An owner that gives up its locks has marked none. -/
theorem marked_release {todo : List (ℕ × Path)} {failed : Option (ℕ × Path)}
    (hcall : pr.call = .unlock o todo .release failed) : pr.marked = none := by
  unfold marked
  rw [hcall]
  cases todo <;> rfl

/-- What is wanted and what is held have different descriptors. -/
theorem Sound.wanted_ne_held (h : Sound k p pr) (he : e ∈ pr.wanted) (he' : e' ∈ pr.held o) :
    e'.1 ≠ e.1 := by
  intro hfd
  obtain ⟨⟨f, hf, hname⟩, hfree⟩ := h.wanted e he
  obtain ⟨f', hf'⟩ := h.held o e' he'
  have hsame : f' = f := by
    have hopen := hf'.fd
    rw [hfd, hf] at hopen
    exact (Option.some.inj hopen).symm
  have hn := hname e'.2 (hsame ▸ hf'.named)
  exact hfree (hn ▸ h.listed o e' he')

/-- What is about to be left and what is held have different descriptors. -/
theorem Sound.leaving_ne_held (h : Sound k p pr) (he : e ∈ pr.leaving) (he' : e' ∈ pr.held o) :
    e'.1 ≠ e.1 := by
  intro hfd
  obtain ⟨⟨f, hf, hname⟩, hother⟩ := h.leaving e he
  obtain ⟨f', hf'⟩ := h.held o e' he'
  have hsame : f' = f := by
    have hopen := hf'.fd
    rw [hfd, hf] at hopen
    exact (Option.some.inj hopen).symm
  exact hother o e' he' (hname e'.2 (hsame ▸ hf'.named))

/-- There is one descriptor of a lock file that is locked. -/
theorem Sound.eq_of_inode (h : Sound k p pr) (hk : k.NamesSound) (he : e ∈ pr.held o)
    (hf : Owned k p e f) (hfd : k.fds p fd = some f') (hi : f'.inode = f.inode) : fd = e.1 := by
  obtain ⟨n, hw | hl | ⟨o', hh⟩⟩ := h.accounted fd f' hfd
  · obtain ⟨⟨f'', hf'', hname⟩, hfree⟩ := h.wanted _ hw
    rw [hfd] at hf''
    cases hf''
    have hn := hname e.2 (hi ▸ hf.named)
    exact absurd (hn ▸ h.listed o e he) hfree
  · obtain ⟨⟨f'', hf'', hname⟩, hother⟩ := h.leaving _ hl
    rw [hfd] at hf''
    cases hf''
    exact absurd (hname e.2 (hi ▸ hf.named)) (hother o e he)
  · obtain ⟨f'', hf''⟩ := h.held o' _ hh
    have hsame := hf''.fd
    rw [hfd] at hsame
    cases hsame
    have hn : n = e.2 := hk.injective n e.2 f'.inode hf''.named (hi ▸ hf.named)
    exact congrArg Prod.fst (h.once o' o (fd, n) e hh he hn).2

/-- Closing another descriptor does not release the lock. -/
theorem Sound.owned_close (h : Sound k p pr) (hk : k.NamesSound) (he : e ∈ pr.held o)
    (hfd : e.1 ≠ fd) (hf : Owned k p e f) : Owned (k.close p fd) p e f where
  fd := by rw [Kernel.fds_close_of_ne (Or.inr hfd), hf.fd]
  locked := by
    cases hopen : k.fds p fd with
    | none =>
      rw [Kernel.close, hopen]
      exact hf.locked
    | some f' =>
      refine (Kernel.locked_close hopen).mpr ⟨fun hi _ => ?_, hf.locked⟩
      exact hfd (h.eq_of_inode hk he hf hopen hi.symm).symm
  named := by rw [Kernel.names_close, hf.named]
  unmarked := by rw [Kernel.data_close, hf.unmarked]

/-- Closing another descriptor keeps a file open. -/
theorem Opened.close (h : Opened k p e) (hfd : e.1 ≠ fd) : Opened (k.close p fd) p e := by
  obtain ⟨f, hf, hname⟩ := h
  refine ⟨f, by rw [Kernel.fds_close_of_ne (Or.inr hfd), hf], fun n hn => ?_⟩
  rw [Kernel.names_close] at hn
  exact hname n hn

/-- A step that is not about descriptors and locks. -/
theorem Sound.of_view (h : Sound k p pr) (hheld : ∀ o, pr'.held o = pr.held o)
    (hlocked : pr'.lockedPaths = pr.lockedPaths) (hwanted : pr'.wanted = pr.wanted)
    (hleaving : pr'.leaving = pr.leaving) (hmarked : pr'.marked = none)
    (hstat : ∀ o wait todo fd, pr'.call ≠ .lockPaths o wait todo (.stat fd))
    (hfree : ∀ o wait path todo place, pr'.call = .lockPaths o wait (path :: todo) place →
      place ≠ .check → lockPath path ∉ pr.lockedPaths) : Sound k p pr' where
  held o := by
    rw [hheld]
    exact h.held o
  listed o := by
    rw [hheld, hlocked]
    exact h.listed o
  once o o' e e' := by
    rw [hheld, hheld]
    exact h.once o o' e e'
  nodup o := by
    rw [hheld]
    exact h.nodup o
  wanted := by
    rw [hwanted, hlocked]
    exact h.wanted
  distinct := by
    rw [hwanted, hleaving]
    exact h.distinct
  leaving := by
    simp only [hheld, hleaving]
    exact h.leaving
  accounted fd f hf := by
    simp only [hheld, hwanted, hleaving]
    exact h.accounted fd f hf
  stat o wait todo fd _ hcall := absurd hcall (hstat o wait todo fd)
  marked e he := by
    rw [hmarked] at he
    cases he
  free o wait path todo place hcall hplace := by
    rw [hlocked]
    exact hfree o wait path todo place hcall hplace

/-- Closing a descriptor that is not that of a lock. -/
theorem Sound.of_close (h : Sound k p pr) (hk : k.NamesSound)
    (hnew : ∀ o, ∀ e ∈ pr.held o, e.1 ≠ fd) (hheld : ∀ o, pr'.held o = pr.held o)
    (hlocked : ∀ o, ∀ e ∈ pr.held o, e.2 ∈ pr'.lockedPaths)
    (hwanted : ∀ e ∈ pr'.wanted, e.1 ≠ fd ∧ e ∈ pr.wanted ∧ e.2 ∉ pr'.lockedPaths)
    (hdistinct : (pr'.wanted.map Prod.fst).Nodup) (hleaving : pr'.leaving = [])
    (haccounted : ∀ n, ∀ fd' ≠ fd, (fd', n) ∈ pr.wanted ∨ (fd', n) ∈ pr.leaving →
      (fd', n) ∈ pr'.wanted)
    (hmarked : pr'.marked = none)
    (hstat : ∀ o wait todo fd, pr'.call ≠ .lockPaths o wait todo (.stat fd))
    (hfree : ∀ o wait path todo place, pr'.call = .lockPaths o wait (path :: todo) place →
      place ≠ .check → lockPath path ∉ pr'.lockedPaths) : Sound (k.close p fd) p pr' where
  held o e he := by
    rw [hheld] at he
    obtain ⟨f, hf⟩ := h.held o e he
    exact ⟨f, h.owned_close hk he (hnew o e he) hf⟩
  listed o e he := by
    rw [hheld] at he
    exact hlocked o e he
  once o o' e e' := by
    rw [hheld, hheld]
    exact h.once o o' e e'
  nodup o := by
    rw [hheld]
    exact h.nodup o
  wanted e he := by
    obtain ⟨hne, hold, hnot⟩ := hwanted e he
    exact ⟨(h.wanted e hold).1.close hne, hnot⟩
  distinct := by
    rw [hleaving, List.append_nil]
    exact hdistinct
  leaving e he := by
    rw [hleaving] at he
    cases he
  accounted fd' f hf := by
    have hne : fd' ≠ fd := by
      rintro rfl
      rw [Kernel.fds_close_self] at hf
      cases hf
    rw [Kernel.fds_close_of_ne (Or.inr hne)] at hf
    obtain ⟨n, hw | hl | ⟨o, hh⟩⟩ := h.accounted fd' f hf
    · exact ⟨n, Or.inl (haccounted n fd' hne (Or.inl hw))⟩
    · exact ⟨n, Or.inl (haccounted n fd' hne (Or.inr hl))⟩
    · exact ⟨n, Or.inr (Or.inr ⟨o, (hheld o).symm ▸ hh⟩)⟩
  stat o wait todo fd _ hcall := absurd hcall (hstat o wait todo fd)
  marked e he := by
    rw [hmarked] at he
    cases he
  free := hfree

/-! ### The other processes -/

/-- A change of the files that a process does not notice. -/
structure Unnoticed (k k' : Kernel π Path) (q : π) : Prop where
  fds : k'.fds q = k.fds q
  locked : ∀ i, k.Locked q i .exclusive → k'.Locked q i .exclusive
  named : ∀ n i, k.names n = some i → k.Locked q i .exclusive → k'.names n = some i
  unnamed : ∀ n fd f, k.fds q fd = some f → k'.names n = some f.inode → k.names n = some f.inode
  data : ∀ fd f, k.fds q fd = some f → k.Locked q f.inode .exclusive →
    k'.data f.inode = k.data f.inode

/-- A file stays open in a step that the process does not notice. -/
theorem Opened.unnoticed (h : Opened k q e) (hu : Unnoticed k k' q) : Opened k' q e := by
  obtain ⟨f, hf, hname⟩ := h
  exact ⟨f, by rw [hu.fds, hf], fun n hn => hname n (hu.unnamed n e.1 f hf hn)⟩

/-- A process that does not notice a step stays sound. -/
theorem Sound.unnoticed (h : Sound k q pr) (hu : Unnoticed k k' q) : Sound k' q pr where
  held o e he := by
    obtain ⟨f, hf⟩ := h.held o e he
    exact ⟨f, by rw [hu.fds, hf.fd], hu.locked _ hf.locked, hu.named _ _ hf.named hf.locked,
      (hu.data _ _ hf.fd hf.locked).trans hf.unmarked⟩
  listed := h.listed
  once := h.once
  nodup := h.nodup
  wanted e he := ⟨(h.wanted e he).1.unnoticed hu, (h.wanted e he).2⟩
  distinct := h.distinct
  leaving e he := ⟨(h.leaving e he).1.unnoticed hu, (h.leaving e he).2⟩
  accounted fd f hf := h.accounted fd f (by rw [← hu.fds, hf])
  stat o wait todo fd f hcall hf :=
    hu.locked _ (h.stat o wait todo fd f hcall (by rw [← hu.fds, hf]))
  marked e he := by
    obtain ⟨f, hf, hlocked⟩ := h.marked e he
    exact ⟨f, by rw [hu.fds, hf], hu.locked _ hlocked⟩
  free := h.free

/-- Opening is not noticed by other processes. -/
theorem unnoticed_openOrCreate (hk : k.NamesSound) (hq : q ≠ p) {n : Path} :
    Unnoticed k (k.openOrCreate p fd n) q where
  fds := funext fun _ => Kernel.fds_openOrCreate_of_ne (Or.inl hq)
  locked _ h := Kernel.locked_openOrCreate.mpr h
  named _ _ hm _ := Kernel.names_openOrCreate_of_some hm
  unnamed _ _ _ hf hm := hk.names_of_opened hf hm
  data fd' f hf _ := Kernel.data_openOrCreate (hk.opened_lt q fd' f hf)

/-- Closing is not noticed by other processes. -/
theorem unnoticed_close (hq : q ≠ p) : Unnoticed k (k.close p fd) q where
  fds := funext fun _ => Kernel.fds_close_of_ne (Or.inl hq)
  locked i h := by
    cases hf : k.fds p fd with
    | none =>
      rw [Kernel.close, hf]
      exact h
    | some f => exact (Kernel.locked_close hf).mpr ⟨fun _ => hq, h⟩
  named n i hn _ := by rw [Kernel.names_close, hn]
  unnamed n _ f _ hn := by rwa [Kernel.names_close] at hn
  data _ _ _ _ := by rw [Kernel.data_close]

/-- An exit is not noticed by other processes. -/
theorem unnoticed_exit (hq : q ≠ p) : Unnoticed k (k.exit p) q where
  fds := Kernel.fds_exit_of_ne hq
  locked _ h := Kernel.locked_exit.mpr ⟨hq, h⟩
  named _ _ hn _ := hn
  unnamed _ _ _ _ hn := hn
  data _ _ _ _ := rfl

/-- Taking a lock is not noticed by other processes. -/
theorem unnoticed_grant (hq : q ≠ p) {i : ℕ} : Unnoticed k (k.grant p i .exclusive) q where
  fds := rfl
  locked _ h := Kernel.locked_grant.mpr (Or.inr ⟨fun _ => hq, h⟩)
  named _ _ hn _ := hn
  unnamed _ _ _ _ hn := hn
  data _ _ _ _ := rfl

/-- The name of a lock file is removed by the process that has locked it. -/
theorem unnoticed_unlink (hk : k.LocksSound) (hq : q ≠ p) {n : Path} {i : ℕ}
    (hn : k.names n = some i) (hlocked : k.Locked p i .exclusive) : Unnoticed k (k.unlink n) q where
  fds := rfl
  locked _ h := h
  named m j hm hj := by
    refine Kernel.names_unlink_eq_some.mpr ⟨?_, hm⟩
    rintro rfl
    rw [hn] at hm
    cases hm
    exact hq (hk.eq_of_exclusive hlocked hj)
  unnamed m _ f _ hm := (Kernel.names_unlink_eq_some.mp hm).2
  data _ _ _ _ := rfl

/-- A lock file is marked by the process that has locked it. -/
theorem unnoticed_write (hk : k.LocksSound) (hq : q ≠ p) {bytes : Str} (hf : k.fds p fd = some f)
    (hlocked : k.Locked p f.inode .exclusive) : Unnoticed k (k.write p fd bytes) q where
  fds := Kernel.fds_write_of_ne bytes hq
  locked _ h := (Kernel.locked_write bytes).mpr h
  named _ _ hn _ := by rw [Kernel.names_write, hn]
  unnamed _ _ _ _ hn := by rwa [Kernel.names_write] at hn
  data _ f' _ hf' := by
    refine Kernel.data_write_of_ne bytes hf fun hi => ?_
    rw [hi] at hf'
    exact hq (hk.eq_of_exclusive hlocked hf')

end LockProcess

/-! ### All processes -/

namespace LockState

open LockProcess

/-- An open lock file without a name is marked, or about to be marked. -/
def Stale (k : Kernel π Path) (procs : π → LockProcess) : Prop :=
  ∀ q fd f, k.fds q fd = some f → k.data f.inode = [] →
    (∃ n, k.names n = some f.inode) ∨
      ∃ r e f', (procs r).marked = some e ∧ k.fds r e.1 = some f' ∧ f'.inode = f.inode

/-- The invariant of the locking protocol. -/
structure Invariant (s : LockState π) : Prop where
  locks : s.kernel.LocksSound
  names : s.kernel.NamesSound
  procs : ∀ p, Sound s.kernel p (s.procs p)
  stale : Stale s.kernel s.procs

variable {s : LockState π} {k' : Kernel π Path} {p q : π} {pr' : LockProcess}

/-- A step of one process keeps the invariant when it is sound and the others do not notice. -/
theorem Invariant.update (h : s.Invariant) (hlocks : k'.LocksSound) (hnames : k'.NamesSound)
    (hp : Sound k' p pr') (hother : ∀ q ≠ p, Unnoticed s.kernel k' q)
    (hstale : Stale k' (Function.update s.procs p pr')) : (s.update p (k', pr')).Invariant where
  locks := hlocks
  names := hnames
  procs q := by
    change Sound k' q (Function.update s.procs p pr' q)
    by_cases hq : q = p
    · rw [hq, Function.update_self]
      exact hp
    · rw [Function.update_of_ne hq]
      exact (h.procs q).unnoticed (hother q hq)
  stale := hstale

/-- Nobody is about to mark a file that it was not about to mark before. -/
theorem Stale.of_sub {k : Kernel π Path} {procs : π → LockProcess} (h : Stale k procs)
    (hmarked : ∀ e, (procs p).marked = some e → pr'.marked = some e)
    (hfds : ∀ q fd f, k'.fds q fd = some f → k.fds q fd = some f)
    (hkeep : ∀ q e f, (procs q).marked = some e → k.fds q e.1 = some f → k'.fds q e.1 = some f)
    (hnames : ∀ n i, k.names n = some i → k'.names n = some i)
    (hdata : ∀ i, k'.data i = k.data i) : Stale k' (Function.update procs p pr') := by
  intro q fd f hf hempty
  rw [hdata] at hempty
  rcases h q fd f (hfds q fd f hf) hempty with ⟨n, hn⟩ | ⟨r, e, f', hr, hf', hi⟩
  · exact Or.inl ⟨n, hnames n _ hn⟩
  · refine Or.inr ⟨r, e, f', ?_, hkeep r e f' hr hf', hi⟩
    by_cases hrp : r = p
    · subst hrp
      rw [Function.update_self]
      exact hmarked e hr
    · rw [Function.update_of_ne hrp]
      exact hr

/-- A step in which the files do not change. -/
theorem Invariant.update_proc (h : s.Invariant) (hp : Sound s.kernel p pr')
    (hmarked : (s.procs p).marked = none) : (s.update p (s.kernel, pr')).Invariant := by
  refine h.update h.locks h.names hp (fun q _ => ⟨rfl, fun _ => id, fun _ _ hn _ => hn,
    fun _ _ _ _ hn => hn, fun _ _ _ _ => rfl⟩) (h.stale.of_sub (fun e he => ?_)
    (fun _ _ _ => id) (fun _ _ _ _ => id) (fun _ _ => id) fun _ => rfl)
  rw [hmarked] at he
  cases he

/-- A step that closes a descriptor. -/
theorem Invariant.update_close {fd : ℕ} (h : s.Invariant)
    (hp : Sound (s.kernel.close p fd) p pr') (hmarked : (s.procs p).marked = none) :
    (s.update p (s.kernel.close p fd, pr')).Invariant := by
  have hback : ∀ q fd' f, (s.kernel.close p fd).fds q fd' = some f → s.kernel.fds q fd' = some f := by
    intro q fd' f hf
    by_cases hq : q ≠ p ∨ fd' ≠ fd
    · rwa [Kernel.fds_close_of_ne hq] at hf
    · push Not at hq
      rw [hq.1, hq.2, Kernel.fds_close_self] at hf
      cases hf
  refine h.update (h.locks.of_locked fun _ _ _ => Kernel.locked_of_close)
    (h.names.of_sub Kernel.next_close (fun n i hn => by rwa [Kernel.names_close] at hn)
      fun q fd' f hf => ⟨f, hback q fd' f hf, rfl⟩)
    hp (fun q hq => unnoticed_close hq) (h.stale.of_sub (fun e he => ?_) hback
      (fun q e f he hf => ?_) (fun n i hn => by rwa [Kernel.names_close]) fun i => by
        rw [Kernel.data_close])
  · rw [hmarked] at he
    cases he
  · have hq : q ≠ p := by
      rintro rfl
      rw [hmarked] at he
      cases he
    rw [Kernel.fds_close_of_ne (Or.inl hq), hf]

/-! ### The steps of `lockPaths` -/

section

variable {o fd newFd : ℕ} {wait : Bool} {path : Path} {todo : List Path} {place place' : LockPlace}

/-- Moving on in the loop without touching a file. -/
theorem Invariant.goto (h : s.Invariant) (hcall : (s.procs p).call = .lockPaths o wait (path :: todo) place)
    (hfds : LockPlace.fds place' = LockPlace.fds place) (hstat : ∀ fd, place' ≠ .stat fd)
    (hfree : lockPath path ∉ (s.procs p).lockedPaths) :
    (s.update p (s.kernel,
      { s.procs p with call := .lockPaths o wait (path :: todo) place' })).Invariant := by
  refine h.update_proc ((h.procs p).of_view (fun o' => ?_) rfl ?_ ?_ rfl ?_ ?_) ?_
  · simp only [held, hcall]
  · simp only [wanted, hcall, hfds]
  · simp only [leaving, hcall]
  · intro o' wait' todo' fd heq
    cases heq
    exact hstat fd rfl
  · intro o' wait' path' todo' place₁ heq _
    cases heq
    exact hfree
  · simp only [marked, hcall]

/-- A lock file is opened. -/
theorem Invariant.opening {old : Option ℕ} (h : s.Invariant)
    (hcall : (s.procs p).call = .lockPaths o wait (path :: todo) (.opening old))
    (hnew : s.kernel.fds p newFd = none)
    (hfds : LockPlace.fds place' = newFd :: old.toList) (hstat : ∀ fd, place' ≠ .stat fd) :
    (s.update p (s.kernel.openOrCreate p newFd (lockPath path),
      { s.procs p with call := .lockPaths o wait (path :: todo) place' })).Invariant := by
  set pr' : LockProcess := { s.procs p with call := .lockPaths o wait (path :: todo) place' } with hpr'
  have hp := h.procs p
  have hfree := hp.free o wait path todo _ hcall (by simp)
  have hheld : ∀ o', pr'.held o' = (s.procs p).held o' := fun o' => by simp only [held, hcall, hpr']
  have hmarked : (s.procs p).marked = none := by simp only [marked, hcall]
  have hleaving : pr'.leaving = [] := rfl
  have hold : ∀ fd' f, s.kernel.fds p fd' = some f → fd' ≠ newFd := by
    rintro fd' f hf rfl
    rw [hnew] at hf
    cases hf
  have hkeep : ∀ fd' f, s.kernel.fds p fd' = some f →
      (s.kernel.openOrCreate p newFd (lockPath path)).fds p fd' = some f := by
    intro fd' f hf
    rw [Kernel.fds_openOrCreate_of_ne (Or.inr (hold fd' f hf)), hf]
  have hopened : ∀ e, Opened s.kernel p e →
      Opened (s.kernel.openOrCreate p newFd (lockPath path)) p e := by
    rintro e ⟨f, hf, hname⟩
    exact ⟨f, hkeep _ _ hf, fun n hn => hname n (h.names.names_of_opened hf hn)⟩
  refine h.update (h.locks.of_locked fun _ _ _ => Kernel.locked_openOrCreate.mp)
    h.names.openOrCreate ⟨?_, ?_, ?_, ?_, ?_, ?_, ?_, ?_, ?_, ?_, ?_⟩
    (fun q hq => unnoticed_openOrCreate h.names hq) ?_
  · intro o' e he
    rw [hheld] at he
    obtain ⟨f, hf⟩ := hp.held o' e he
    exact ⟨f, hkeep _ _ hf.fd, Kernel.locked_openOrCreate.mpr hf.locked,
      Kernel.names_openOrCreate_of_some hf.named, by
      rw [Kernel.data_openOrCreate (h.names.opened_lt p _ f hf.fd), hf.unmarked]⟩
  · intro o' e he
    rw [hheld] at he
    exact hp.listed o' e he
  · intro o₁ o₂ e e'
    rw [hheld, hheld]
    exact hp.once o₁ o₂ e e'
  · intro o'
    rw [hheld]
    exact hp.nodup o'
  · intro e he
    obtain ⟨fd', hfd', rfl⟩ := List.mem_map.mp he
    refine ⟨?_, hfree⟩
    rw [hfds] at hfd'
    rcases List.mem_cons.mp hfd' with rfl | hfd'
    · refine ⟨_, Kernel.fds_openOrCreate_self, fun n hn => ?_⟩
      exact h.names.openOrCreate.injective n (lockPath path) _ hn (by
        rw [Kernel.names_openOrCreate, Function.update_self])
    · refine hopened _ (hp.wanted _ ?_).1
      simp only [wanted, hcall]
      exact List.mem_map.mpr ⟨fd', hfd', rfl⟩
  · have hmap : (pr'.wanted ++ pr'.leaving).map Prod.fst = newFd :: old.toList := by
      simp [hpr', wanted, leaving, hfds, Function.comp_def]
    rw [hmap]
    refine List.nodup_cons.mpr ⟨fun hmem => ?_, by cases old <;> simp⟩
    have hopen : (newFd, lockPath path) ∈ (s.procs p).wanted := by
      simp only [wanted, hcall]
      exact List.mem_map.mpr ⟨newFd, hmem, rfl⟩
    obtain ⟨⟨f, hf, -⟩, -⟩ := hp.wanted _ hopen
    exact hold _ f hf rfl
  · intro e he
    rw [hleaving] at he
    cases he
  · intro fd' f hf
    by_cases hne : fd' = newFd
    · refine ⟨lockPath path, Or.inl (List.mem_map.mpr ⟨newFd, ?_, by rw [hne]⟩)⟩
      rw [hfds]
      exact List.mem_cons_self
    · rw [Kernel.fds_openOrCreate_of_ne (Or.inr hne)] at hf
      obtain ⟨n, hw | hl | ⟨o', hh⟩⟩ := hp.accounted fd' f hf
      · refine ⟨n, Or.inl ?_⟩
        simp only [wanted, hcall] at hw
        obtain ⟨fd₁, hfd₁, heq⟩ := List.mem_map.mp hw
        refine List.mem_map.mpr ⟨fd₁, ?_, heq⟩
        rw [hfds]
        exact List.mem_cons_of_mem _ hfd₁
      · simp only [leaving, hcall] at hl
        cases hl
      · exact ⟨n, Or.inr (Or.inr ⟨o', (hheld o').symm ▸ hh⟩)⟩
  · intro o' wait' todo' fd' f heq
    cases heq
    exact absurd rfl (hstat fd')
  · intro e he
    cases he
  · intro o' wait' path' todo' place₁ heq _
    cases heq
    exact hfree
  · intro q fd' f hf hempty
    by_cases hq : q ≠ p ∨ fd' ≠ newFd
    · rw [Kernel.fds_openOrCreate_of_ne hq] at hf
      rw [Kernel.data_openOrCreate (h.names.opened_lt q fd' f hf)] at hempty
      rcases h.stale q fd' f hf hempty with ⟨n, hn⟩ | ⟨r, e, f', hr, hf', hi⟩
      · exact Or.inl ⟨n, Kernel.names_openOrCreate_of_some hn⟩
      · have hrp : r ≠ p := by
          rintro rfl
          rw [hmarked] at hr
          cases hr
        refine Or.inr ⟨r, e, f', by rw [Function.update_of_ne hrp, hr], ?_, hi⟩
        rw [Kernel.fds_openOrCreate_of_ne (Or.inl hrp), hf']
    · push Not at hq
      rw [hq.1, hq.2, Kernel.fds_openOrCreate_self] at hf
      cases hf
      exact Or.inl ⟨lockPath path, by rw [Kernel.names_openOrCreate, Function.update_self]⟩

/-- A lock is granted. -/
theorem Invariant.locking {f : OpenFile} (h : s.Invariant)
    (hcall : (s.procs p).call = .lockPaths o wait (path :: todo) place)
    (hplace : place = .tryLock fd ∨ place = .waitLock fd) (hf : s.kernel.fds p fd = some f)
    (hgrant : (s.kernel.locks f.inode).blocked p .exclusive = false) :
    (s.update p (s.kernel.grant p f.inode .exclusive,
      { s.procs p with call := .lockPaths o wait (path :: todo) (.stat fd) })).Invariant := by
  set pr' : LockProcess :=
    { s.procs p with call := .lockPaths o wait (path :: todo) (.stat fd) } with hpr'
  have hp := h.procs p
  have hheld : ∀ o', pr'.held o' = (s.procs p).held o' := fun o' => by simp only [held, hcall, hpr']
  have hwanted : pr'.wanted = (s.procs p).wanted := by
    simp only [wanted, hcall, hpr']
    rcases hplace with rfl | rfl <;> rfl
  have hleaving : pr'.leaving = (s.procs p).leaving := by simp only [leaving, hcall, hpr']
  have hmarked : (s.procs p).marked = none := by simp only [marked, hcall]
  have hlocked : ∀ i, s.kernel.Locked p i .exclusive →
      (s.kernel.grant p f.inode .exclusive).Locked p i .exclusive := by
    intro i hi
    by_cases hif : i = f.inode
    · exact Kernel.locked_grant.mpr (Or.inl ⟨hif, rfl, rfl⟩)
    · exact Kernel.locked_grant.mpr (Or.inr ⟨fun heq => absurd heq hif, hi⟩)
  refine h.update (h.locks.grant hgrant) (h.names.of_sub rfl (fun _ _ => id)
    fun _ _ f hf => ⟨f, hf, rfl⟩) ⟨?_, ?_, ?_, ?_, ?_, ?_, ?_, ?_, ?_, ?_, ?_⟩
    (fun q hq => unnoticed_grant hq) (h.stale.of_sub (fun e he => ?_) (fun _ _ _ => id)
      (fun _ _ _ _ => id) (fun _ _ => id) fun _ => rfl)
  · intro o' e he
    rw [hheld] at he
    obtain ⟨f', hf'⟩ := hp.held o' e he
    exact ⟨f', hf'.fd, hlocked _ hf'.locked, hf'.named, hf'.unmarked⟩
  · intro o' e he
    rw [hheld] at he
    exact hp.listed o' e he
  · intro o₁ o₂ e e'
    rw [hheld, hheld]
    exact hp.once o₁ o₂ e e'
  · intro o'
    rw [hheld]
    exact hp.nodup o'
  · rw [hwanted]
    exact hp.wanted
  · rw [hwanted, hleaving]
    exact hp.distinct
  · simp only [hheld, hleaving]
    exact hp.leaving
  · intro fd' f' hf'
    simp only [hheld, hwanted, hleaving]
    exact hp.accounted fd' f' hf'
  · intro o' wait' todo' fd' f' heq hf'
    cases heq
    change s.kernel.fds p fd = some f' at hf'
    rw [hf] at hf'
    cases hf'
    exact Kernel.locked_grant.mpr (Or.inl ⟨rfl, rfl, rfl⟩)
  · intro e he
    cases he
  · intro o' wait' path' todo' place₁ heq _
    cases heq
    exact hp.free o wait path todo place hcall (by rcases hplace with rfl | rfl <;> simp)
  · rw [hmarked] at he
    cases he

/-- A process that has the lock on a lock file that is not marked has locked the path. -/
theorem Invariant.owned_of_stat {f : OpenFile} (h : s.Invariant)
    (hcall : (s.procs p).call = .lockPaths o wait (path :: todo) (.stat fd))
    (hf : s.kernel.fds p fd = some f) (hempty : s.kernel.data f.inode = []) :
    Owned s.kernel p (fd, lockPath path) f := by
  have hp := h.procs p
  have hlocked := hp.stat o wait _ fd f hcall hf
  refine ⟨hf, hlocked, ?_, hempty⟩
  rcases h.stale p fd f hf hempty with ⟨n, hn⟩ | ⟨r, e, f', hr, hf', hi⟩
  · have hmem : (fd, lockPath path) ∈ (s.procs p).wanted := by
      simp only [wanted, hcall]
      exact List.mem_singleton_self _
    obtain ⟨⟨f', hf', hname⟩, -⟩ := hp.wanted _ hmem
    rw [hf] at hf'
    cases hf'
    rw [← hname n hn, hn]
  · -- the process that is about to mark the file still has the lock
    obtain ⟨f'', hf'', hlocked'⟩ := (h.procs r).marked e hr
    rw [hf'] at hf''
    cases hf''
    have hrp : p = r := h.locks.eq_of_exclusive (hi ▸ hlocked') hlocked
    rw [← hrp] at hr
    simp only [marked, hcall] at hr
    cases hr

/-- A file that was locked and is empty is held. -/
theorem Invariant.acquire {f : OpenFile} (h : s.Invariant)
    (hcall : (s.procs p).call = .lockPaths o wait (path :: todo) (.stat fd))
    (hf : s.kernel.fds p fd = some f) (hempty : s.kernel.data f.inode = []) :
    (s.update p (s.kernel, (s.procs p).acquire o wait fd path todo)).Invariant := by
  set pr' := (s.procs p).acquire o wait fd path todo with hpr'
  have hp := h.procs p
  have howned := h.owned_of_stat hcall hf hempty
  have hfree := hp.free o wait path todo _ hcall (by simp)
  have hmarked : (s.procs p).marked = none := by simp only [marked, hcall]
  have hheld : ∀ o', (s.procs p).held o' = ((s.procs p).objects o').fds := fun o' => by
    simp only [held, hcall]
  have hheld' : ∀ o', pr'.held o' =
      if o' = o then (s.procs p).held o ++ [(fd, lockPath path)] else (s.procs p).held o' := by
    intro o'
    change (pr'.objects o').fds = _
    simp only [hpr', LockProcess.acquire, hheld]
    by_cases ho : o' = o
    · rw [if_pos ho, ho, Function.update_self]
    · rw [if_neg ho, Function.update_of_ne ho]
  have hmem : ∀ o' e, e ∈ pr'.held o' ↔
      e ∈ (s.procs p).held o' ∨ (o' = o ∧ e = (fd, lockPath path)) := by
    intro o' e
    rw [hheld']
    split_ifs with ho
    · simp [ho]
    · simp [ho]
  have hnil : pr'.wanted = [] := by cases todo <;> rfl
  have hnew : ∀ o', ∀ e ∈ (s.procs p).held o', e.2 ≠ lockPath path :=
    fun o' e he heq => hfree (heq ▸ hp.listed o' e he)
  refine h.update_proc ⟨?_, ?_, ?_, ?_, ?_, ?_, ?_, ?_, ?_, ?_, ?_⟩ hmarked
  · intro o' e he
    rcases (hmem o' e).mp he with hold | ⟨-, rfl⟩
    · exact hp.held o' e hold
    · exact ⟨f, howned⟩
  · intro o' e he
    rcases (hmem o' e).mp he with hold | ⟨-, rfl⟩
    · exact SortedSet.mem_insert.mpr (Or.inr (hp.listed o' e hold))
    · exact SortedSet.mem_insert.mpr (Or.inl rfl)
  · intro o₁ o₂ e e' he he' heq
    rcases (hmem o₁ e).mp he with hold | ⟨rfl, rfl⟩
    · rcases (hmem o₂ e').mp he' with hold' | ⟨rfl, rfl⟩
      · exact hp.once o₁ o₂ e e' hold hold' heq
      · exact absurd heq (hnew o₁ e hold)
    · rcases (hmem o₂ e').mp he' with hold' | ⟨rfl, rfl⟩
      · exact absurd heq.symm (hnew o₂ e' hold')
      · exact ⟨rfl, rfl⟩
  · intro o'
    rw [hheld']
    split_ifs with ho
    · refine List.nodup_append.mpr ⟨hp.nodup o, List.nodup_singleton _, ?_⟩
      rintro e he e' he' rfl
      rw [List.mem_singleton.mp he'] at he
      exact hnew o _ he rfl
    · exact hp.nodup o'
  · intro e he
    rw [hnil] at he
    cases he
  · rw [hnil]
    exact List.nodup_nil
  · intro e he
    cases he
  · intro fd' f' hf'
    obtain ⟨n, hw | hl | ⟨o', hh⟩⟩ := hp.accounted fd' f' hf'
    · simp only [wanted, hcall] at hw
      obtain ⟨fd₁, hfd₁, heq⟩ := List.mem_map.mp hw
      rw [List.mem_singleton.mp hfd₁] at heq
      exact ⟨n, Or.inr (Or.inr ⟨o, (hmem o _).mpr (Or.inr ⟨rfl, heq.symm⟩)⟩)⟩
    · simp only [leaving, hcall] at hl
      cases hl
    · exact ⟨n, Or.inr (Or.inr ⟨o', (hmem o' _).mpr (Or.inl hh)⟩)⟩
  · intro o' wait' todo' fd' f' heq
    cases heq
  · intro e he
    cases he
  · intro o' wait' path' todo' place₁ heq hplace
    cases heq
    exact absurd rfl hplace

/-- The descriptor of the round before is closed. -/
theorem Invariant.replacing {old : ℕ} (h : s.Invariant)
    (hcall : (s.procs p).call = .lockPaths o wait (path :: todo) (.replacing fd old)) :
    (s.update p (s.kernel.close p old,
      { s.procs p with call := .lockPaths o wait (path :: todo) (.tryLock fd) })).Invariant := by
  have hp := h.procs p
  have hwanted : (s.procs p).wanted = [(fd, lockPath path), (old, lockPath path)] := by
    simp only [wanted, hcall]
    rfl
  have hne : fd ≠ old := by
    rintro rfl
    have hnodup := hp.distinct
    rw [hwanted] at hnodup
    simp [leaving, hcall] at hnodup
  have hfree := hp.free o wait path todo _ hcall (by simp)
  refine h.update_close (hp.of_close h.names (fun o' e he => ?_) (fun o' => ?_) hp.listed
    (fun e he => ?_) (List.nodup_singleton _) rfl (fun n fd' hfd' hmem => ?_) rfl ?_ ?_) ?_
  · have hold : (old, lockPath path) ∈ (s.procs p).wanted := by
      rw [hwanted]
      simp
    exact hp.wanted_ne_held hold he
  · simp only [held, hcall]
  · rw [List.mem_singleton.mp he, hwanted]
    exact ⟨hne, by simp, hfree⟩
  · rcases hmem with hmem | hmem
    · rw [hwanted] at hmem
      rcases List.mem_cons.mp hmem with heq | hmem
      · rw [heq]
        exact List.mem_singleton_self _
      · exact absurd (congrArg Prod.fst (List.mem_singleton.mp hmem)) hfd'
    · simp only [leaving, hcall] at hmem
      cases hmem
  · intro o' wait' todo' fd' heq
    cases heq
  · intro o' wait' path' todo' place₁ heq _
    cases heq
    exact hfree
  · simp only [marked, hcall]

/-- An exception leaves `lockPaths`. -/
theorem Invariant.throw {k₁ : Kernel π Path} {pr₁ : LockProcess} (h : s.Invariant)
    (ht : (s.procs p).throw s.kernel p = some (k₁, pr₁)) : (s.update p (k₁, pr₁)).Invariant := by
  have hp := h.procs p
  unfold LockProcess.throw at ht
  split at ht
  · cases ht
  · rename_i o wait path todo place hplace hcall
    cases ht
    have hmarked : (s.procs p).marked = none := by simp only [marked, hcall]
    have hleaving : (s.procs p).leaving = [] := by simp only [leaving, hcall]
    have hheld : ∀ o', ({ s.procs p with call := .idle } : LockProcess).held o' =
        (s.procs p).held o' := fun o' => by simp only [held, hcall]
    have hfds : LockPlace.fds place = place.fd.toList := by
      cases place with
      | replacing fd old => exact absurd rfl (hplace fd old)
      | _ => rfl
    have hwanted : (s.procs p).wanted = place.fd.toList.map fun fd => (fd, lockPath path) := by
      simp only [wanted, hcall, hfds]
    cases hfd : place.fd with
    | none =>
      refine h.update_proc (hp.of_view hheld rfl ?_ hleaving.symm rfl ?_ ?_) hmarked
      · rw [hwanted, hfd]
        rfl
      · intro o' wait' todo' fd' heq
        cases heq
      · intro o' wait' path' todo' place₁ heq
        cases heq
    | some fd =>
      refine h.update_close (hp.of_close h.names (fun o' e he => ?_) hheld hp.listed
        (fun e he => ?_) List.nodup_nil rfl (fun n fd' hfd' hmem => ?_) rfl ?_ ?_) hmarked
      · have hmem : (fd, lockPath path) ∈ (s.procs p).wanted := by
          rw [hwanted, hfd]
          exact List.mem_singleton_self _
        exact hp.wanted_ne_held hmem he
      · cases he
      · rcases hmem with hmem | hmem
        · rw [hwanted, hfd] at hmem
          exact absurd (congrArg Prod.fst (List.mem_singleton.mp hmem)) hfd'
        · rw [hleaving] at hmem
          cases hmem
      · intro o' wait' todo' fd' heq
        cases heq
      · intro o' wait' path' todo' place₁ heq
        cases heq
  · cases ht

end

/-! ### The steps of `unlock` -/

section

variable {o fd : ℕ} {n : Path} {todo : List (ℕ × Path)} {failed : Option (ℕ × Path)}

/-- The entries that are left when the first one is taken up. -/
theorem held_unlock {pr : LockProcess} {place : UnlockPlace} (hplace : place ≠ .release)
    (hcall : pr.call = .unlock o ((fd, n) :: todo) place failed) (o' : ℕ) :
    pr.held o' = if o' = o then todo else (pr.objects o').fds := by
  cases place with
  | release => exact absurd rfl hplace
  | mark => simp only [held, hcall, List.tail_cons]
  | close => simp only [held, hcall, List.tail_cons]

/-- What is left of the facts about a process when the first entry is taken up.  The lock file of
the entry may lose its name. -/
theorem Sound.take {k k' : Kernel π Path} {pr : LockProcess} {place : UnlockPlace}
    (hp : Sound k p pr) (hk : k.NamesSound) (hplace : place ≠ .release)
    (hcall : pr.call = .unlock o ((fd, n) :: todo) .release failed) (hfds : k'.fds = k.fds)
    (hlocks : k'.locks = k.locks) (hdata : k'.data = k.data)
    (hnames : ∀ m ≠ n, k'.names m = k.names m)
    (hsub : ∀ m i, k'.names m = some i → k.names m = some i) :
    Sound k' p { pr with call := .unlock o ((fd, n) :: todo) place failed } := by
  set pr' : LockProcess := { pr with call := .unlock o ((fd, n) :: todo) place failed } with hpr'
  have hheld : ∀ o', pr.held o' = if o' = o then (fd, n) :: todo else (pr.objects o').fds :=
    fun o' => by simp only [held, hcall]
  have hheld' : ∀ o', pr'.held o' = if o' = o then todo else (pr.objects o').fds :=
    held_unlock hplace rfl
  have hfirst : (fd, n) ∈ pr.held o := by simp [hheld]
  have hmem : ∀ o' e, e ∈ pr'.held o' → e ∈ pr.held o' ∧ e.2 ≠ n := by
    intro o' e he
    rw [hheld'] at he
    have hold : e ∈ pr.held o' := by
      rw [hheld]
      split_ifs at he ⊢ with ho
      · exact List.mem_cons_of_mem _ he
      · exact he
    refine ⟨hold, fun heq => ?_⟩
    obtain ⟨ho, hsame⟩ := hp.once o' o e (fd, n) hold hfirst heq
    have hnodup := hp.nodup o
    simp only [hheld, if_true, List.nodup_cons] at hnodup
    rw [if_pos ho, hsame] at he
    exact hnodup.1 he
  have hopened : ∀ e, Opened k p e → Opened k' p e := by
    rintro e ⟨f, hf, hname⟩
    exact ⟨f, by rw [hfds, hf], fun m hm => hname m (hsub m _ hm)⟩
  have hwanted : pr'.wanted = pr.wanted := by simp only [wanted, hcall, hpr']
  have hleaving : pr'.leaving = [(fd, n)] := by
    cases place with
    | release => exact absurd rfl hplace
    | mark => rfl
    | close => rfl
  obtain ⟨f₀, hf₀⟩ := hp.held o (fd, n) hfirst
  have hlocked : ∀ i, k.Locked p i .exclusive → k'.Locked p i .exclusive := by
    intro i hi
    unfold Kernel.Locked at hi ⊢
    rwa [hlocks]
  refine ⟨?_, ?_, ?_, ?_, ?_, ?_, ?_, ?_, ?_, ?_, ?_⟩
  · intro o' e he
    obtain ⟨hold, hne⟩ := hmem o' e he
    obtain ⟨f, hf⟩ := hp.held o' e hold
    exact ⟨f, by rw [hfds, hf.fd], hlocked _ hf.locked, by rw [hnames _ hne, hf.named], by
      rw [hdata, hf.unmarked]⟩
  · intro o' e he
    exact hp.listed o' e (hmem o' e he).1
  · intro o₁ o₂ e e' he he'
    exact hp.once o₁ o₂ e e' (hmem o₁ e he).1 (hmem o₂ e' he').1
  · intro o'
    have hnodup := hp.nodup o'
    rw [hheld] at hnodup
    rw [hheld']
    split_ifs at hnodup ⊢ with ho
    · exact (List.nodup_cons.mp hnodup).2
    · exact hnodup
  · intro e he
    rw [hwanted] at he
    exact ⟨hopened e (hp.wanted e he).1, (hp.wanted e he).2⟩
  · have hdistinct := hp.distinct
    have hnone : pr.leaving = [] := by simp only [leaving, hcall]
    rw [hnone, List.append_nil] at hdistinct
    rw [hwanted, hleaving, List.map_append]
    refine List.nodup_append.mpr ⟨hdistinct, List.nodup_singleton _, ?_⟩
    rintro fd₁ hfd₁ fd₂ hfd₂ rfl
    obtain ⟨e, he, rfl⟩ := List.mem_map.mp hfd₁
    exact hp.wanted_ne_held he hfirst (List.mem_singleton.mp hfd₂).symm
  · intro e he
    rw [hleaving, List.mem_singleton] at he
    subst he
    refine ⟨⟨f₀, by rw [hfds, hf₀.fd], fun m hm => ?_⟩, fun o' e' he' => (hmem o' e' he').2⟩
    exact hk.injective m n _ (hsub m _ hm) hf₀.named
  · intro fd' f hf
    rw [hfds] at hf
    obtain ⟨m, hw | hl | ⟨o', hh⟩⟩ := hp.accounted fd' f hf
    · exact ⟨m, Or.inl (hwanted.symm ▸ hw)⟩
    · simp only [leaving, hcall] at hl
      cases hl
    · rw [hheld] at hh
      split_ifs at hh with ho
      · rcases List.mem_cons.mp hh with heq | hh
        · exact ⟨m, Or.inr (Or.inl (by rw [hleaving, heq]; exact List.mem_singleton_self _))⟩
        · exact ⟨m, Or.inr (Or.inr ⟨o', by rw [hheld', if_pos ho]; exact hh⟩)⟩
      · exact ⟨m, Or.inr (Or.inr ⟨o', by rw [hheld', if_neg ho]; exact hh⟩)⟩
  · intro o' wait' todo' fd' f heq
    cases heq
  · intro e he
    have heq : e = (fd, n) := by
      cases place with
      | release => exact absurd rfl hplace
      | mark => exact (Option.some.inj he).symm
      | close => cases he
    rw [heq]
    exact ⟨f₀, by rw [hfds, hf₀.fd], hlocked _ hf₀.locked⟩
  · intro o' wait' path' todo' place₁ heq
    cases heq

/-- The name of a lock file is removed. -/
theorem Invariant.unlink (h : s.Invariant)
    (hcall : (s.procs p).call = .unlock o ((fd, n) :: todo) .release failed) :
    (s.update p (s.kernel.unlink n,
      { s.procs p with call := .unlock o ((fd, n) :: todo) .mark failed })).Invariant := by
  have hp := h.procs p
  have hfirst : (fd, n) ∈ (s.procs p).held o := by simp [held, hcall]
  obtain ⟨f, hf⟩ := hp.held o (fd, n) hfirst
  have hsub : ∀ m i, (s.kernel.unlink n).names m = some i → s.kernel.names m = some i :=
    fun m i hm => (Kernel.names_unlink_eq_some.mp hm).2
  refine h.update h.locks (h.names.of_sub rfl hsub fun _ _ f hf => ⟨f, hf, rfl⟩)
    (Sound.take hp h.names (by simp) hcall rfl rfl rfl
      (fun m hm => Kernel.names_unlink_of_ne hm) hsub)
    (fun q hq => unnoticed_unlink h.locks hq hf.named hf.locked) ?_
  intro q fd' f' hf' hempty
  rcases h.stale q fd' f' hf' hempty with ⟨m, hm⟩ | ⟨r, e, f₁, hr, hf₁, hi⟩
  · by_cases hmn : m = n
    · -- this is the file that is about to be marked
      refine Or.inr ⟨p, (fd, n), f, by rw [Function.update_self]; rfl, hf.fd, ?_⟩
      rw [hmn, hf.named] at hm
      exact Option.some.inj hm
    · exact Or.inl ⟨m, Kernel.names_unlink_eq_some.mpr ⟨hmn, hm⟩⟩
  · have hrp : r ≠ p := by
      rintro rfl
      simp only [marked, hcall] at hr
      cases hr
    exact Or.inr ⟨r, e, f₁, by rw [Function.update_of_ne hrp, hr], hf₁, hi⟩

/-- The lock file is marked. -/
theorem Invariant.mark (h : s.Invariant)
    (hcall : (s.procs p).call = .unlock o ((fd, n) :: todo) .mark failed) :
    (s.update p (s.kernel.write p fd (str "d"),
      { s.procs p with call := .unlock o ((fd, n) :: todo) .close failed })).Invariant := by
  set pr' : LockProcess :=
    { s.procs p with call := .unlock o ((fd, n) :: todo) .close failed } with hpr'
  have hp := h.procs p
  have hmarked : (s.procs p).marked = some (fd, n) := by simp only [marked, hcall]
  obtain ⟨f, hf, hlocked⟩ := hp.marked _ hmarked
  change s.kernel.fds p fd = some f at hf
  have hheld : ∀ o', pr'.held o' = (s.procs p).held o' := fun o' => by
    rw [held_unlock (by simp) hcall, held_unlock (by simp) (rfl : pr'.call = _)]
  have hwanted : pr'.wanted = (s.procs p).wanted := by simp only [wanted, hcall, hpr']
  have hleaving : pr'.leaving = (s.procs p).leaving := by simp only [leaving, hcall, hpr']
  have hfirst : (fd, n) ∈ (s.procs p).leaving := by simp [leaving, hcall]
  have hopened : ∀ e, Opened s.kernel p e → Opened (s.kernel.write p fd (str "d")) p e := by
    rintro e ⟨f₁, hf₁, hname⟩
    obtain ⟨f₂, hf₂, hi⟩ := Kernel.exists_fds_write p fd (str "d") hf₁
    refine ⟨f₂, hf₂, fun m hm => hname m ?_⟩
    rw [Kernel.names_write, hi] at hm
    exact hm
  refine h.update (h.locks.of_locked fun _ _ _ => (Kernel.locked_write _).mp)
    (h.names.of_sub (Kernel.next_write _) (fun m i hm => by rwa [Kernel.names_write] at hm)
      fun _ _ _ hf => Kernel.exists_of_fds_write hf) ⟨?_, ?_, ?_, ?_, ?_, ?_, ?_, ?_, ?_, ?_, ?_⟩
    (fun q hq => unnoticed_write h.locks hq hf hlocked) ?_
  · intro o' e he
    rw [hheld] at he
    obtain ⟨f₁, hf₁⟩ := hp.held o' e he
    -- the file that is marked is not one that the process still has locked
    have hne : e.1 ≠ fd := hp.leaving_ne_held hfirst he
    have hi : f₁.inode ≠ f.inode := fun hi => hne (hp.eq_of_inode h.names he hf₁ hf hi.symm).symm
    obtain ⟨f₂, hf₂, hi₂⟩ := Kernel.exists_fds_write p fd (str "d") hf₁.fd
    refine ⟨f₂, hf₂, (Kernel.locked_write _).mpr (hi₂ ▸ hf₁.locked), ?_, ?_⟩
    · rw [Kernel.names_write, hf₁.named, hi₂]
    · rw [hi₂, Kernel.data_write_of_ne _ hf hi, hf₁.unmarked]
  · intro o' e he
    rw [hheld] at he
    exact hp.listed o' e he
  · intro o₁ o₂ e e'
    rw [hheld, hheld]
    exact hp.once o₁ o₂ e e'
  · intro o'
    rw [hheld]
    exact hp.nodup o'
  · intro e he
    rw [hwanted] at he
    exact ⟨hopened e (hp.wanted e he).1, (hp.wanted e he).2⟩
  · rw [hwanted, hleaving]
    exact hp.distinct
  · intro e he
    rw [hleaving] at he
    refine ⟨hopened e (hp.leaving e he).1, fun o' e' he' => ?_⟩
    rw [hheld] at he'
    exact (hp.leaving e he).2 o' e' he'
  · intro fd' f₁ hf₁
    obtain ⟨f₂, hf₂, -⟩ := Kernel.exists_of_fds_write hf₁
    simp only [hheld, hwanted, hleaving]
    exact hp.accounted fd' f₂ hf₂
  · intro o' wait' todo' fd' f₁ heq
    cases heq
  · intro e he
    cases he
  · intro o' wait' path' todo' place₁ heq
    cases heq
  · intro q fd' f₁ hf₁ hempty
    obtain ⟨f₂, hf₂, hi⟩ := Kernel.exists_of_fds_write hf₁
    rw [← hi] at hempty ⊢
    by_cases hif : f₂.inode = f.inode
    · rw [hif, Kernel.data_write_self _ hf] at hempty
      simp [FileSystem.overwrite, str] at hempty
    · rw [Kernel.data_write_of_ne _ hf hif] at hempty
      rcases h.stale q fd' f₂ hf₂ hempty with ⟨m, hm⟩ | ⟨r, e, f₃, hr, hf₃, hi₃⟩
      · exact Or.inl ⟨m, by rw [Kernel.names_write, hm]⟩
      · have hrp : r ≠ p := by
          rintro rfl
          rw [hmarked] at hr
          cases hr
          change s.kernel.fds r fd = some f₃ at hf₃
          rw [hf] at hf₃
          cases hf₃
          exact hif hi₃.symm
        refine Or.inr ⟨r, e, f₃, by rw [Function.update_of_ne hrp, hr], ?_, hi₃⟩
        rw [Kernel.fds_write_of_ne _ hrp, hf₃]

/-- The descriptor of the first entry is closed. -/
theorem Invariant.close (h : s.Invariant)
    (hcall : (s.procs p).call = .unlock o ((fd, n) :: todo) .close failed) :
    (s.update p (s.kernel.close p fd,
      { s.procs p with
        lockedPaths := (s.procs p).lockedPaths.erase n
        call := .unlock o todo .release failed })).Invariant := by
  have hp := h.procs p
  have hfirst : (fd, n) ∈ (s.procs p).leaving := by simp [leaving, hcall]
  obtain ⟨-, hother⟩ := hp.leaving _ hfirst
  have hwanted : (s.procs p).wanted = failed.toList := by simp only [wanted, hcall]
  refine h.update_close (hp.of_close h.names (fun o' e he => hp.leaving_ne_held hfirst he)
    (fun o' => ?_) (fun o' e he => ?_) (fun e he => ?_) ?_ ?_ (fun m fd' hfd' hmem => ?_) ?_
    ?_ ?_) ?_
  · rw [held_unlock (by simp) hcall]
    rfl
  · exact SortedSet.mem_erase.mpr ⟨hother o' e he, hp.listed o' e he⟩
  · have hold : e ∈ (s.procs p).wanted := by
      rw [hwanted]
      exact he
    refine ⟨fun heq => ?_, hold,
      fun hmem => (hp.wanted e hold).2 (SortedSet.mem_erase.mp hmem).2⟩
    have hdistinct := hp.distinct
    rw [List.map_append, List.nodup_append] at hdistinct
    exact hdistinct.2.2 e.1 (List.mem_map_of_mem hold) fd (List.mem_map_of_mem hfirst) heq
  · have hdistinct := hp.distinct
    rw [List.map_append, hwanted] at hdistinct
    exact (List.nodup_append.mp hdistinct).1
  · exact leaving_release rfl
  · rcases hmem with hmem | hmem
    · rw [hwanted] at hmem
      exact hmem
    · simp only [leaving, hcall, List.mem_singleton] at hmem
      exact absurd (congrArg Prod.fst hmem) hfd'
  · exact marked_release rfl
  · intro o' wait' todo' fd' heq
    cases heq
  · intro o' wait' path' todo' place₁ heq
    cases heq
  · simp only [marked, hcall]

/-- Forgetting the paths of an owner. -/
theorem held_clear {pr : LockProcess} {place : UnlockPlace} (hcall : pr.call = .unlock o [] place failed)
    (o' : ℕ) : (pr.clear o).held o' = pr.held o' := by
  change ((pr.clear o).objects o').fds = _
  simp only [held, hcall, LockProcess.clear]
  by_cases ho : o' = o
  · rw [if_pos ho, ho, Function.update_self]
    cases place <;> rfl
  · rw [if_neg ho, Function.update_of_ne ho]

/-- The end of `unlock`. -/
theorem Invariant.clear {place : UnlockPlace} (h : s.Invariant)
    (hcall : (s.procs p).call = .unlock o [] place none) :
    (s.update p (s.kernel, (s.procs p).clear o)).Invariant := by
  refine h.update_proc ((h.procs p).of_view (held_clear hcall) rfl ?_ ?_ rfl ?_ ?_) ?_
  · simp only [wanted, hcall, LockProcess.clear, Option.toList_none]
  · simp only [leaving, hcall, LockProcess.clear]
  · intro o' wait' todo' fd' heq
    cases heq
  · intro o' wait' path' todo' place₁ heq
    cases heq
  · simp only [marked, hcall]

/-- The end of `unlock` when it was called by `lockPaths`. -/
theorem Invariant.clear_failed {place : UnlockPlace} (h : s.Invariant)
    (hcall : (s.procs p).call = .unlock o [] place (some (fd, n))) :
    (s.update p (s.kernel.close p fd, (s.procs p).clear o)).Invariant := by
  have hp := h.procs p
  have hfirst : (fd, n) ∈ (s.procs p).wanted := by simp [wanted, hcall]
  refine h.update_close (hp.of_close h.names (fun o' e he => hp.wanted_ne_held hfirst he)
    (held_clear hcall) hp.listed (fun e he => ?_) List.nodup_nil rfl (fun m fd' hfd' hmem => ?_)
    rfl ?_ ?_) ?_
  · cases he
  · rcases hmem with hmem | hmem
    · simp only [wanted, hcall, Option.toList_some, List.mem_singleton] at hmem
      exact absurd (congrArg Prod.fst hmem) hfd'
    · simp only [leaving, hcall] at hmem
      cases hmem
  · intro o' wait' todo' fd' heq
    cases heq
  · intro o' wait' path' todo' place₁ heq
    cases heq
  · simp only [marked, hcall]

end

/-! ### Runs -/

section

variable {o newFd : ℕ} {wait : Bool} {path : Path} {todo : List Path} {place : LockPlace}
  {r : Kernel π Path × LockProcess}

/-- Every step of `lockPaths` keeps the invariant. -/
theorem Invariant.nextLock (h : s.Invariant)
    (hcall : (s.procs p).call = .lockPaths o wait (path :: todo) place)
    (hr : (s.procs p).nextLock s.kernel p newFd o wait path todo place = some r) :
    (s.update p r).Invariant := by
  have hp := h.procs p
  have hmarked : (s.procs p).marked = none := by simp only [marked, hcall]
  cases place with
  | check =>
    simp only [LockProcess.nextLock] at hr
    split_ifs at hr with hself
    · cases hr
      refine h.update_proc (hp.of_view (fun o' => ?_) rfl ?_ ?_ rfl ?_ ?_) hmarked
      · simp only [held, hcall]
      · simp only [wanted, hcall, LockPlace.fds, List.map_nil]
      · simp only [leaving, hcall]
      · intro o' wait' todo' fd' heq
        cases heq
      · intro o' wait' path' todo' place₁ heq
        cases heq
    · cases hr
      exact h.goto hcall rfl (fun fd => by simp) hself
  | opening old =>
    simp only [LockProcess.nextLock] at hr
    split_ifs at hr with hnew
    cases hr
    cases old with
    | none => exact h.opening hcall hnew rfl fun fd => by simp
    | some old => exact h.opening hcall hnew rfl fun fd => by simp
  | replacing fd old =>
    cases hr
    exact h.replacing hcall
  | tryLock fd =>
    have hfree := hp.free o wait path todo _ hcall (by simp)
    simp only [LockProcess.nextLock] at hr
    split at hr
    · rename_i k' hk'
      cases hr
      obtain ⟨f, hf, hgrant, rfl⟩ := Kernel.setLock_eq_some.mp hk'
      exact h.locking hcall (Or.inl rfl) hf hgrant
    · split_ifs at hr with hwait
      · cases hr
        exact h.goto hcall rfl (fun fd => by simp) hfree
      · cases hr
        refine h.update_proc (hp.of_view (fun o' => ?_) rfl ?_ ?_ ?_ ?_ ?_) hmarked
        · simp only [held, hcall]
          split_ifs with ho
          · rw [ho]
          · rfl
        · simp only [wanted, hcall]
          rfl
        · rw [leaving_release rfl]
          simp only [leaving, hcall]
        · exact marked_release rfl
        · intro o' wait' todo' fd' heq
          cases heq
        · intro o' wait' path' todo' place₁ heq
          cases heq
  | waitLock fd =>
    obtain ⟨k', hk', rfl⟩ := Option.map_eq_some_iff.mp hr
    obtain ⟨f, hf, hgrant, rfl⟩ := Kernel.setLock_eq_some.mp hk'
    exact h.locking hcall (Or.inr rfl) hf hgrant
  | stat fd =>
    simp only [LockProcess.nextLock] at hr
    split at hr
    · rename_i f hf
      split_ifs at hr with hempty
      · cases hr
        exact h.acquire hcall hf hempty
      · cases hr
        exact h.goto hcall rfl (fun fd => by simp) (hp.free o wait path todo _ hcall (by simp))
    · cases hr

/-- Every step of a process keeps the invariant. -/
theorem Invariant.next (h : s.Invariant) (hr : (s.procs p).next s.kernel p newFd = some r) :
    (s.update p r).Invariant := by
  have hp := h.procs p
  unfold LockProcess.next at hr
  split at hr
  · cases hr
  · rename_i o wait place hcall
    cases hr
    refine h.update_proc (hp.of_view (fun o' => ?_) rfl ?_ ?_ rfl ?_ ?_) ?_
    · simp only [held, hcall]
    · simp only [wanted, hcall]
    · simp only [leaving, hcall]
    · intro o' wait' todo' fd' heq
      cases heq
    · intro o' wait' path' todo' place₁ heq
      cases heq
    · simp only [marked, hcall]
  · rename_i o wait path todo place hcall
    exact h.nextLock hcall hr
  · rename_i o place hcall
    cases hr
    exact h.clear hcall
  · rename_i o place fd n hcall
    cases hr
    exact h.clear_failed hcall
  · rename_i o fd n todo place failed hcall
    cases place with
    | release =>
      simp only at hr
      split_ifs at hr with hdelete
      · cases hr
        exact h.unlink hcall
      · cases hr
        refine h.update_proc (Sound.take hp h.names (by simp) hcall rfl rfl rfl
          (fun _ _ => rfl) fun _ _ => id) ?_
        simp only [marked, hcall]
    | mark =>
      cases hr
      exact h.mark hcall
    | close =>
      cases hr
      exact h.close hcall

/-- The end of a process releases its locks, and does nothing to the files. -/
theorem Invariant.exit (h : s.Invariant) (hmarking : (s.procs p).marking = false) :
    (s.update p (s.kernel.exit p, .new)).Invariant := by
  have hmarked : ∀ e, (s.procs p).marked ≠ some e := by
    intro e he
    unfold LockProcess.marked at he
    unfold LockProcess.marking at hmarking
    split at he
    · rename_i hcall
      rw [hcall] at hmarking
      cases hmarking
    · cases he
  have hback : ∀ q fd f, (s.kernel.exit p).fds q fd = some f → q ≠ p ∧ s.kernel.fds q fd = some f := by
    intro q fd f hf
    by_cases hq : q = p
    · rw [hq, Kernel.fds_exit_self] at hf
      cases hf
    · rw [Kernel.fds_exit_of_ne hq] at hf
      exact ⟨hq, hf⟩
  refine h.update (h.locks.of_locked fun _ _ _ hl => (Kernel.locked_exit.mp hl).2)
    (h.names.of_sub rfl (fun _ _ => id) fun q fd f hf => ⟨f, (hback q fd f hf).2, rfl⟩)
    ⟨?_, ?_, ?_, ?_, ?_, ?_, ?_, ?_, ?_, ?_, ?_⟩ (fun q hq => unnoticed_exit hq)
    (h.stale.of_sub (fun e he => absurd he (hmarked e)) (fun q fd f hf => (hback q fd f hf).2)
      (fun q e f he hf => ?_) (fun _ _ => id) fun _ => rfl)
  · intro o e he
    cases he
  · intro o e he
    cases he
  · intro o o' e e' he
    cases he
  · intro o
    exact List.nodup_nil
  · intro e he
    cases he
  · exact List.nodup_nil
  · intro e he
    cases he
  · intro fd f hf
    exact absurd rfl (hback p fd f hf).1
  · intro o wait todo fd f heq
    cases heq
  · intro e he
    cases he
  · intro o wait path todo place heq
    cases heq
  · have hq : q ≠ p := by
      rintro rfl
      exact hmarked e he
    rw [Kernel.fds_exit_of_ne hq, hf]

/-- Every step of the system keeps the invariant. -/
theorem Invariant.step {s' : LockState π} {e : LockEvent π} (h : s.Invariant)
    (hs : s.step e = some s') : s'.Invariant := by
  cases e with
  | lockPaths p o paths wait =>
    simp only [LockState.step] at hs
    split at hs
    · rename_i hcall
      split_ifs at hs
      cases hs
      refine h.update_proc ((h.procs p).of_view (fun o' => ?_) rfl ?_ ?_ rfl ?_ ?_) ?_
      · simp only [held, hcall]
      · simp only [wanted, hcall]
        cases paths.toList <;> rfl
      · simp only [leaving, hcall]
      · intro o' wait' todo' fd' heq
        cases heq
      · intro o' wait' path' todo' place₁ heq hplace
        injection heq with _ _ _ hcheck
        exact absurd hcheck.symm hplace
      · simp only [marked, hcall]
    · cases hs
  | unlock p o =>
    simp only [LockState.step] at hs
    split at hs
    · rename_i hcall
      cases hs
      refine h.update_proc ((h.procs p).of_view (fun o' => ?_) rfl ?_ ?_ ?_ ?_ ?_) ?_
      · simp only [held, hcall]
        split_ifs with ho
        · rw [ho]
        · rfl
      · simp only [wanted, hcall, Option.toList_none]
      · rw [leaving_release rfl]
        simp only [leaving, hcall]
      · exact marked_release rfl
      · intro o' wait' todo' fd' heq
        cases heq
      · intro o' wait' path' todo' place₁ heq
        cases heq
      · simp only [marked, hcall]
    · cases hs
  | setDeletion p o deletePaths =>
    simp only [LockState.step] at hs
    split at hs
    · rename_i hcall
      cases hs
      refine h.update_proc ((h.procs p).of_view (fun o' => ?_) rfl ?_ ?_ ?_ ?_ ?_) ?_
      · simp only [held, hcall]
        by_cases ho : o' = o
        · rw [ho, Function.update_self]
        · rw [Function.update_of_ne ho]
      · simp only [wanted, hcall]
      · simp only [leaving, hcall]
      · simp only [marked, hcall]
      · intro o' wait' todo' fd' heq
        simp only [hcall] at heq
        cases heq
      · intro o' wait' path' todo' place₁ heq
        simp only [hcall] at heq
        cases heq
      · simp only [marked, hcall]
    · cases hs
  | next p newFd =>
    obtain ⟨r, hr, rfl⟩ := Option.map_eq_some_iff.mp hs
    exact h.next hr
  | throw p =>
    obtain ⟨r, hr, rfl⟩ := Option.map_eq_some_iff.mp hs
    exact h.throw hr
  | exit p =>
    simp only [LockState.step] at hs
    split_ifs at hs with hmarking
    cases hs
    exact h.exit (by simpa using hmarking)

end

/-- The invariant holds at the start. -/
theorem Initial.invariant (h : s.Initial) : s.Invariant where
  locks i p q mode mode' hp := by
    rw [h.unlocked] at hp
    cases hp
  names := h.named
  procs p := by
    rw [h.procs p]
    refine ⟨fun o e he => ?_, fun o e he => ?_, fun o o' e e' he => ?_, fun o => List.nodup_nil,
      fun e he => ?_, List.nodup_nil, fun e he => ?_, fun fd f hf => ?_,
      fun o wait todo fd f heq => ?_, fun e he => ?_, fun o wait path todo place heq => ?_⟩
    · cases he
    · cases he
    · cases he
    · cases he
    · cases he
    · rw [h.closed p fd] at hf
      cases hf
    · cases heq
    · cases he
    · cases heq
  stale q fd f hf := by
    rw [h.closed q fd] at hf
    cases hf

/-- The invariant holds in every reachable state. -/
theorem Reachable.invariant (h : s.Reachable) : s.Invariant := by
  obtain ⟨s₀, hinit, hrun⟩ := h
  induction hrun with
  | refl => exact hinit.invariant
  | tail _ hstep ih =>
    obtain ⟨e, he⟩ := hstep
    exact ih.step he

/-- A path that is locked has a lock file that the process has locked. -/
theorem Invariant.owned_of_holds {path : Path} (h : s.Invariant) (hp : s.Holds p path) :
    ∃ fd f, Owned s.kernel p (fd, lockPath path) f := by
  obtain ⟨o, fd, hmem, hcall⟩ := hp
  have hheld : (fd, lockPath path) ∈ (s.procs p).held o := by
    unfold LockProcess.held
    split
    · rename_i o' todo place failed heq
      rw [heq] at hcall
      rw [if_neg (Ne.symm hcall)]
      exact hmem
    · exact hmem
  obtain ⟨f, hf⟩ := (h.procs p).held o _ hheld
  exact ⟨fd, f, hf⟩

/-- A path is locked by one process at most, and a process that gets a lock on a lock file that has
lost its name tries again. -/
theorem lockPaths_exclusive (hs : s.Reachable) :
    (∀ p q path, s.Holds p path → s.Holds q path → p = q) ∧
    ∀ p o wait path todo fd f newFd,
      (s.procs p).call = .lockPaths o wait (path :: todo) (.stat fd) →
      s.kernel.fds p fd = some f → s.kernel.names (lockPath path) ≠ some f.inode →
      s.step (.next p newFd) = some (s.update p (s.kernel,
        { s.procs p with call := .lockPaths o wait (path :: todo) (.opening (some fd)) })) := by
  have h := hs.invariant
  constructor
  · intro p q path hp hq
    obtain ⟨fd, f, hf⟩ := h.owned_of_holds hp
    obtain ⟨fd', f', hf'⟩ := h.owned_of_holds hq
    have hi : f'.inode = f.inode := by
      have hname := hf'.named
      rw [hf.named] at hname
      exact (Option.some.inj hname).symm
    exact h.locks.eq_of_exclusive hf'.locked (hi.symm ▸ hf.locked)
  · intro p o wait path todo fd f newFd hcall hf hname
    have hmarked : s.kernel.data f.inode ≠ [] := fun hempty =>
      hname (h.owned_of_stat hcall hf hempty).named
    simp only [LockState.step, LockProcess.next, hcall, LockProcess.nextLock, hf, if_neg hmarked,
      Option.map_some]

/-- What a run reaches from a reachable state is reachable. -/
theorem Reachable.run {s' : LockState π} (h : s.Reachable) {events : List (LockEvent π)}
    (hs : s.run events = some s') : s'.Reachable := by
  induction events generalizing s with
  | nil =>
    cases hs
    exact h
  | cons e events ih =>
    obtain ⟨s₁, hs₁, hrest⟩ := Option.bind_eq_some_iff.mp hs
    obtain ⟨s₀, hinit, hrun⟩ := h
    exact ih ⟨s₀, hinit, hrun.tail ⟨e, hs₁⟩⟩ hrest

/-- No files and no processes. -/
def empty : LockState ℕ :=
  ⟨⟨fun _ => none, fun _ => [], 0, fun _ _ => none, fun _ => []⟩, fun _ => .new⟩

/-- The empty state is a start. -/
theorem initial_empty : Initial empty where
  named := ⟨fun _ _ _ hn => (Option.some_ne_none _ hn.symm).elim,
    fun _ _ hn => (Option.some_ne_none _ hn.symm).elim,
    fun _ _ _ hf => (Option.some_ne_none _ hf.symm).elim⟩
  procs _ := rfl
  closed _ _ := rfl
  unlocked _ := rfl

/-- The path of the sample run. -/
def samplePath : Path := str "/nix/store/app"

/-- Process 0 locks a path, process 1 waits for it, and process 0 removes the lock file when it
unlocks the path.  Process 2 locks the path with a new lock file, and process 1 gets the lock on the
old one. -/
def sampleEvents : List (LockEvent ℕ) :=
  [.setDeletion 0 0 true, .lockPaths 0 0 (.ofList [samplePath]) true, .next 0 3, .next 0 3,
    .next 0 3, .next 0 3, .next 0 3,
    .lockPaths 1 0 (.ofList [samplePath]) true, .next 1 3, .next 1 3, .next 1 3,
    .unlock 0 0, .next 0 3, .next 0 3, .next 0 3, .next 0 3,
    .lockPaths 2 0 (.ofList [samplePath]) true, .next 2 3, .next 2 3, .next 2 3, .next 2 3,
    .next 2 3, .next 1 3]

/-- A sample in which the second process holds the path and the first one waits for it. -/
theorem lockPaths_exclusive_sample :
    ∃ s : LockState ℕ, s.Reachable ∧ s.Holds 2 samplePath ∧
      (∀ q, s.Holds q samplePath → q = 2) ∧
      s.step (.next 1 4) = some (s.update 1 (s.kernel,
        { s.procs 1 with call := .lockPaths 0 true [samplePath] (.opening (some 3)) })) := by
  have htest : (empty.run sampleEvents).any (fun s =>
      decide ((s.procs 2).call = .idle) &&
      decide ((3, lockPath samplePath) ∈ ((s.procs 2).objects 0).fds) &&
      decide ((s.procs 1).call = .lockPaths 0 true [samplePath] (.stat 3)) &&
      decide (s.kernel.fds 1 3 = some ⟨0, 0⟩) &&
      decide (s.kernel.names (lockPath samplePath) ≠ some 0)) = true := by decide +kernel
  obtain ⟨s, hrun, hs⟩ := (Option.any_eq_true _ _).mp htest
  simp only [Bool.and_eq_true, decide_eq_true_eq] at hs
  obtain ⟨⟨⟨⟨hidle, hmem⟩, hcall⟩, hfd⟩, hname⟩ := hs
  have hr : s.Reachable := Reachable.run ⟨_, initial_empty, .refl⟩ hrun
  have hholds : s.Holds 2 samplePath := ⟨0, 3, hmem, by rw [hidle]; trivial⟩
  exact ⟨s, hr, hholds, fun q hq => (lockPaths_exclusive hr).1 q 2 samplePath hq hholds,
    (lockPaths_exclusive hr).2 1 0 true samplePath [] 3 ⟨0, 0⟩ 4 hcall hfd hname⟩

end LockState

end Nix
