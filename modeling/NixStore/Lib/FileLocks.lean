import NixStore.Lib.FileSystem

/-!
# Files that are shared between processes, and advisory locks on them

A model of the part of a POSIX kernel that a locking protocol rests on: names of files, inodes with
their contents, descriptors of processes, and the record locks of `fcntl`.  A lock is on an inode
and belongs to a process, not to a descriptor; it is advisory; and it is released as soon as the
process closes any descriptor of the inode.  An inode lives on when its name is removed, and its
number is not used again.

Processes `π` and names `ν` can be anything.
-/

set_option linter.unusedSectionVars false

namespace Nix

/-- The type of a lock. -/
inductive LockMode where
  | shared
  | exclusive
deriving DecidableEq

/-- The locks on a file, with the processes that have them. -/
abbrev LockTable (π : Type) := List (π × LockMode)

namespace LockTable

variable {π : Type} [DecidableEq π] {l l' : LockTable π} {p q : π} {mode mode' : LockMode}

/-- The locks of the other processes. -/
def release (l : LockTable π) (p : π) : LockTable π := l.filter fun e => e.1 ≠ p

/-- Another process has a lock that excludes this one. -/
def blocked (l : LockTable π) (p : π) (mode : LockMode) : Bool :=
  l.any fun e => decide (e.1 ≠ p) && decide (mode = .exclusive ∨ e.2 = .exclusive)

/-- Give a process a lock, in place of the one that it has. -/
def grant (l : LockTable π) (p : π) (mode : LockMode) : LockTable π := (p, mode) :: l.release p

/-- Giving up removes all the locks of one process, and no others. -/
@[simp] theorem mem_release : (q, mode) ∈ l.release p ↔ (q, mode) ∈ l ∧ q ≠ p := by
  simp [release]

/-- Taking a lock replaces the one that the process had. -/
theorem mem_grant :
    (q, mode') ∈ l.grant p mode ↔ (q = p ∧ mode' = mode) ∨ (q ≠ p ∧ (q, mode') ∈ l) := by
  simp only [grant, List.mem_cons, Prod.mk.injEq, mem_release]
  tauto

/-- A lock is free when every lock of another process is compatible with it. -/
theorem blocked_eq_false :
    l.blocked p mode = false ↔
      ∀ q mode', (q, mode') ∈ l → q ≠ p → mode = .shared ∧ mode' = .shared := by
  have hmode : ∀ m : LockMode, m ≠ .exclusive ↔ m = .shared := by
    intro m
    cases m <;> simp
  simp only [blocked, List.any_eq_false, Bool.and_eq_true, decide_eq_true_eq, not_and, not_or,
    Prod.forall, ← hmode]

/-- An exclusive lock is the only lock. -/
def Sound (l : LockTable π) : Prop :=
  ∀ p q mode mode', (p, mode) ∈ l → (q, mode') ∈ l → p ≠ q → mode = .shared ∧ mode' = .shared

/-- A part of a sound table is sound. -/
theorem Sound.of_sub (h : l.Sound) (hsub : ∀ q mode, (q, mode) ∈ l' → (q, mode) ∈ l) : l'.Sound :=
  fun p q mode mode' hp hq hne => h p q mode mode' (hsub p mode hp) (hsub q mode' hq) hne

/-- Who holds a sound table's exclusive lock is the only one in it. -/
theorem Sound.eq_of_exclusive (h : l.Sound) (hp : (p, .exclusive) ∈ l) (hq : (q, mode) ∈ l) :
    q = p := by
  by_contra hne
  exact absurd (h p q _ _ hp hq fun he => hne he.symm).1 (by simp)

/-- Giving up keeps a table sound. -/
theorem Sound.release (h : l.Sound) : (l.release p).Sound :=
  h.of_sub fun _ _ hq => (mem_release.mp hq).1

/-- Taking a free lock keeps a table sound. -/
theorem Sound.grant (h : l.Sound) (hfree : l.blocked p mode = false) : (l.grant p mode).Sound := by
  rw [blocked_eq_false] at hfree
  intro p₁ q₁ mode₁ mode₂ hp hq hne
  rcases mem_grant.mp hp with ⟨rfl, rfl⟩ | ⟨hp₁, hold⟩
  · rcases mem_grant.mp hq with ⟨rfl, -⟩ | ⟨hq₁, hold⟩
    · exact absurd rfl hne
    · exact hfree q₁ mode₂ hold hq₁
  · rcases mem_grant.mp hq with ⟨rfl, rfl⟩ | ⟨-, hold'⟩
    · exact (hfree p₁ mode₁ hold hp₁).symm
    · exact h p₁ q₁ mode₁ mode₂ hold hold' hne

end LockTable

/-- What a descriptor refers to. -/
structure OpenFile where
  inode : ℕ
  offset : ℕ
deriving DecidableEq

/-- Names, inodes, descriptors and locks. -/
structure Kernel (π ν : Type) where
  names : ν → Option ℕ
  data : ℕ → Str
  /-- The number of the next inode. -/
  next : ℕ
  fds : π → ℕ → Option OpenFile
  /-- The locks on an inode. -/
  locks : ℕ → LockTable π

namespace Kernel

variable {π ν : Type} [DecidableEq π] [DecidableEq ν]

/-! ### System calls -/

/-- The descriptor refers to the start of an inode. -/
def setFd (k : Kernel π ν) (p : π) (fd i : ℕ) : Kernel π ν :=
  { k with fds := Function.update k.fds p (Function.update (k.fds p) fd (some ⟨i, 0⟩)) }

/-- A new empty file. -/
def makeFile (k : Kernel π ν) (n : ν) : Kernel π ν :=
  { k with
    names := Function.update k.names n (some k.next)
    data := Function.update k.data k.next []
    next := k.next + 1 }

/-- `open` with `O_CREAT`. -/
def openOrCreate (k : Kernel π ν) (p : π) (fd : ℕ) (n : ν) : Kernel π ν :=
  match k.names n with
  | some i => k.setFd p fd i
  | none => (k.makeFile n).setFd p fd k.next

/-- `unlink` -/
def unlink (k : Kernel π ν) (n : ν) : Kernel π ν :=
  { k with names := Function.update k.names n none }

/-- `write`, at the offset of the descriptor. -/
def write (k : Kernel π ν) (p : π) (fd : ℕ) (bytes : Str) : Kernel π ν :=
  match k.fds p fd with
  | some f =>
    { k with
      data := Function.update k.data f.inode
        (FileSystem.overwrite (k.data f.inode) f.offset bytes)
      fds := Function.update k.fds p
        (Function.update (k.fds p) fd (some ⟨f.inode, f.offset + bytes.length⟩)) }
  | none => k

/-- Give a process a lock on an inode, in place of the one that it has. -/
def grant (k : Kernel π ν) (p : π) (i : ℕ) (mode : LockMode) : Kernel π ν :=
  { k with locks := Function.update k.locks i ((k.locks i).grant p mode) }

/-- `fcntl` with `F_SETLK`; `none` if the lock cannot be had now. -/
def setLock (k : Kernel π ν) (p : π) (fd : ℕ) (mode : LockMode) : Option (Kernel π ν) :=
  match k.fds p fd with
  | some f => if (k.locks f.inode).blocked p mode then none else some (k.grant p f.inode mode)
  | none => none

/-- `close` -/
def close (k : Kernel π ν) (p : π) (fd : ℕ) : Kernel π ν :=
  match k.fds p fd with
  | some f =>
    { k with
      fds := Function.update k.fds p (Function.update (k.fds p) fd none)
      locks := Function.update k.locks f.inode ((k.locks f.inode).release p) }
  | none => k

/-- The end of a process. -/
def exit (k : Kernel π ν) (p : π) : Kernel π ν :=
  { k with
    fds := Function.update k.fds p fun _ => none
    locks := fun i => (k.locks i).release p }

/-- The process has a lock on the inode. -/
def Locked (k : Kernel π ν) (p : π) (i : ℕ) (mode : LockMode) : Prop := (p, mode) ∈ k.locks i

instance (k : Kernel π ν) (p : π) (i : ℕ) (mode : LockMode) : Decidable (k.Locked p i mode) :=
  inferInstanceAs (Decidable (_ ∈ _))

variable {k k' : Kernel π ν} {p q : π} {n m : ν} {fd fd' i j : ℕ} {mode mode' : LockMode} {f : OpenFile}

/-! ### Descriptors -/

/-- A descriptor that was set is at the start of its file. -/
@[simp] theorem fds_setFd_self : (k.setFd p fd i).fds p fd = some ⟨i, 0⟩ := by simp [setFd]

/-- The other descriptors stay. -/
theorem fds_setFd_of_ne (h : q ≠ p ∨ fd' ≠ fd) : (k.setFd p fd i).fds q fd' = k.fds q fd' := by
  unfold setFd
  by_cases hq : q = p
  · subst hq
    have hfd : fd' ≠ fd := h.resolve_left fun hne => hne rfl
    simp [Function.update_of_ne hfd]
  · simp [Function.update_of_ne hq]

@[simp] theorem fds_makeFile : (k.makeFile n).fds = k.fds := rfl

@[simp] theorem fds_unlink : (k.unlink n).fds = k.fds := rfl

@[simp] theorem fds_grant : (k.grant p i mode).fds = k.fds := rfl

/-- Opening a file sets one descriptor. -/
theorem fds_openOrCreate_of_ne (h : q ≠ p ∨ fd' ≠ fd) :
    (k.openOrCreate p fd n).fds q fd' = k.fds q fd' := by
  unfold openOrCreate
  split <;> rw [fds_setFd_of_ne h]
  rfl

/-- A closed descriptor is gone. -/
theorem fds_close_self : (k.close p fd).fds p fd = none := by
  unfold close
  split
  · simp
  · assumption

/-- Closing leaves the other descriptors alone. -/
theorem fds_close_of_ne (h : q ≠ p ∨ fd' ≠ fd) : (k.close p fd).fds q fd' = k.fds q fd' := by
  unfold close
  split
  · by_cases hq : q = p
    · subst hq
      have hfd : fd' ≠ fd := h.resolve_left fun hne => hne rfl
      simp [Function.update_of_ne hfd]
    · simp [Function.update_of_ne hq]
  · rfl

/-- A process that exits has no descriptors. -/
theorem fds_exit_self : (k.exit p).fds p fd = none := by simp [exit]

/-- The exit of one process leaves the descriptors of the others alone. -/
theorem fds_exit_of_ne (h : q ≠ p) : (k.exit p).fds q = k.fds q := by
  simp [exit, Function.update_of_ne h]

/-- A write moves the offset of a descriptor and leaves its inode alone. -/
theorem inode_fds_write (k : Kernel π ν) (p q : π) (fd fd' : ℕ) (bytes : Str) :
    ((k.write p fd bytes).fds q fd').map OpenFile.inode = (k.fds q fd').map OpenFile.inode := by
  unfold write
  split
  · rename_i f hf
    by_cases hq : q = p
    · subst hq
      by_cases hfd : fd' = fd
      · subst hfd
        simp [hf]
      · simp [Function.update_of_ne hfd]
    · simp [Function.update_of_ne hq]
  · rfl

/-! ### What a call leaves alone -/

@[simp] theorem names_grant : (k.grant p i mode).names = k.names := rfl

@[simp] theorem data_grant : (k.grant p i mode).data = k.data := rfl

@[simp] theorem next_grant : (k.grant p i mode).next = k.next := rfl

/-- Closing keeps the names. -/
@[simp] theorem names_close : (k.close p fd).names = k.names := by
  unfold close
  split <;> rfl

/-- Closing keeps the contents. -/
@[simp] theorem data_close : (k.close p fd).data = k.data := by
  unfold close
  split <;> rfl

@[simp] theorem next_close : (k.close p fd).next = k.next := by
  unfold close
  split <;> rfl

@[simp] theorem names_exit : (k.exit p).names = k.names := rfl

@[simp] theorem data_exit : (k.exit p).data = k.data := rfl

@[simp] theorem next_exit : (k.exit p).next = k.next := rfl

@[simp] theorem data_unlink : (k.unlink n).data = k.data := rfl

@[simp] theorem next_unlink : (k.unlink n).next = k.next := rfl

/-- Unlinking leaves the other names alone. -/
theorem names_unlink_of_ne (h : m ≠ n) : (k.unlink n).names m = k.names m := by
  simp [unlink, Function.update_of_ne h]

/-- The names after an unlink are the other names before. -/
theorem names_unlink_eq_some : (k.unlink n).names m = some i ↔ m ≠ n ∧ k.names m = some i := by
  by_cases h : m = n
  · simp [unlink, h]
  · simp [names_unlink_of_ne h, h]

/-- Writing keeps the names. -/
@[simp] theorem names_write (bytes : Str) : (k.write p fd bytes).names = k.names := by
  unfold write
  split <;> rfl

/-- Writing makes no inode. -/
@[simp] theorem next_write (bytes : Str) : (k.write p fd bytes).next = k.next := by
  unfold write
  split <;> rfl

/-- Writing changes one file only. -/
theorem data_write_of_ne (bytes : Str) (hf : k.fds p fd = some f) (hi : i ≠ f.inode) :
    (k.write p fd bytes).data i = k.data i := by
  simp [write, hf, Function.update_of_ne hi]

/-- Writing overwrites the file at the offset of the descriptor. -/
theorem data_write_self (bytes : Str) (hf : k.fds p fd = some f) :
    (k.write p fd bytes).data f.inode =
      FileSystem.overwrite (k.data f.inode) f.offset bytes := by
  simp [write, hf]

/-- Writing moves no descriptor of another process. -/
theorem fds_write_of_ne (bytes : Str) (h : q ≠ p) : (k.write p fd bytes).fds q = k.fds q := by
  unfold write
  split
  · simp [Function.update_of_ne h]
  · rfl

/-- A descriptor that was open is open, on the same inode. -/
theorem exists_fds_write (p : π) (fd : ℕ) (bytes : Str) (hf : k.fds q fd' = some f) :
    ∃ f', (k.write p fd bytes).fds q fd' = some f' ∧ f'.inode = f.inode := by
  have h := inode_fds_write k p q fd fd' bytes
  rw [hf] at h
  exact Option.map_eq_some_iff.mp h

/-- A descriptor that is open was open, on the same inode. -/
theorem exists_of_fds_write {bytes : Str} (hf : (k.write p fd bytes).fds q fd' = some f) :
    ∃ f', k.fds q fd' = some f' ∧ f'.inode = f.inode := by
  have h := inode_fds_write k p q fd fd' bytes
  rw [hf] at h
  exact Option.map_eq_some_iff.mp h.symm

/-! ### Locks -/

/-- The locks after one is taken: that one, and what others and other files had. -/
theorem locked_grant :
    (k.grant p i mode).Locked q j mode' ↔
      (j = i ∧ q = p ∧ mode' = mode) ∨ ((j = i → q ≠ p) ∧ k.Locked q j mode') := by
  unfold Locked grant
  by_cases hj : j = i
  · subst hj
    simp [LockTable.mem_grant]
  · simp [hj]

/-- Closing a descriptor gives up every lock that the process has on that file, as `fcntl` does. -/
theorem locked_close (hf : k.fds p fd = some f) :
    (k.close p fd).Locked q j mode ↔ (j = f.inode → q ≠ p) ∧ k.Locked q j mode := by
  unfold Locked close
  simp only [hf]
  by_cases hj : j = f.inode
  · subst hj
    simp [and_comm]
  · simp [hj]

/-- Closing gives no lock. -/
theorem locked_of_close (h : (k.close p fd).Locked q j mode) : k.Locked q j mode := by
  cases hf : k.fds p fd with
  | none => simpa [close, hf] using h
  | some f => exact ((locked_close hf).mp h).2

/-- An exit gives up the locks of that process and no others. -/
theorem locked_exit : (k.exit p).Locked q j mode ↔ q ≠ p ∧ k.Locked q j mode := by
  simp [Locked, exit, and_comm]

/-- Opening touches no lock. -/
theorem locked_openOrCreate : (k.openOrCreate p fd n).Locked q j mode ↔ k.Locked q j mode := by
  unfold openOrCreate
  split <;> rfl

/-- Writing touches no lock. -/
theorem locked_write (bytes : Str) : (k.write p fd bytes).Locked q j mode ↔ k.Locked q j mode := by
  unfold write
  split <;> rfl

/-- `setLock` succeeds exactly when the descriptor is open and the lock is free. -/
theorem setLock_eq_some :
    k.setLock p fd mode = some k' ↔
      ∃ f, k.fds p fd = some f ∧ (k.locks f.inode).blocked p mode = false ∧
        k' = k.grant p f.inode mode := by
  unfold setLock
  cases hf : k.fds p fd with
  | none => simp
  | some f =>
    cases hb : (k.locks f.inode).blocked p mode with
    | true => simp [hb]
    | false =>
      simp only [Bool.false_eq_true, if_false, Option.some.injEq, exists_eq_left', hb, true_and]
      exact eq_comm

/-- An exclusive lock is the only lock on its inode. -/
def LocksSound (k : Kernel π ν) : Prop := ∀ i, (k.locks i).Sound

/-- With no more locks than before, the tables stay sound. -/
theorem LocksSound.of_locked (h : k.LocksSound)
    (hk : ∀ q j mode, k'.Locked q j mode → k.Locked q j mode) : k'.LocksSound :=
  fun i => (h i).of_sub fun q mode => hk q i mode

/-- An exclusive lock excludes every lock of another process. -/
theorem LocksSound.eq_of_exclusive (h : k.LocksSound) (hp : k.Locked p i .exclusive)
    (hq : k.Locked q i mode) : q = p :=
  (h i).eq_of_exclusive hp hq

/-- Taking a free lock keeps the tables sound. -/
theorem LocksSound.grant (h : k.LocksSound) (hfree : (k.locks i).blocked p mode = false) :
    (k.grant p i mode).LocksSound := by
  intro j
  unfold Kernel.grant
  by_cases hj : j = i
  · subst hj
    simpa using (h j).grant hfree
  · simpa [hj] using h j

/-! ### Names and inodes -/

/-- Every file has one name at most, and the numbers of inodes in use are below the next one. -/
structure NamesSound (k : Kernel π ν) : Prop where
  injective : ∀ n m i, k.names n = some i → k.names m = some i → n = m
  named_lt : ∀ n i, k.names n = some i → i < k.next
  opened_lt : ∀ p fd f, k.fds p fd = some f → f.inode < k.next

/-- The inode that `open` with `O_CREAT` gives. -/
def target (k : Kernel π ν) (n : ν) : ℕ := (k.names n).getD k.next

/-- The opened descriptor is at the start of the file that has the name. -/
@[simp] theorem fds_openOrCreate_self :
    (k.openOrCreate p fd n).fds p fd = some ⟨k.target n, 0⟩ := by
  unfold openOrCreate target
  split <;> simp_all

/-- After opening, the name leads to the opened file. -/
theorem names_openOrCreate :
    (k.openOrCreate p fd n).names = Function.update k.names n (some (k.target n)) := by
  unfold openOrCreate target
  cases hn : k.names n with
  | none => rfl
  | some i => exact (Function.update_eq_self_iff.mpr hn.symm).symm

/-- Opening changes no file that was there. -/
theorem data_openOrCreate (hi : i < k.next) : (k.openOrCreate p fd n).data i = k.data i := by
  unfold openOrCreate
  split
  · rfl
  · simp [setFd, makeFile, Function.update_of_ne hi.ne]

/-- Inodes are never used again. -/
theorem next_openOrCreate_le : k.next ≤ (k.openOrCreate p fd n).next := by
  unfold openOrCreate
  split
  · exact le_refl _
  · exact Nat.le_succ _

/-- The opened file has an inode that was given out. -/
theorem NamesSound.target_lt (h : k.NamesSound) :
    k.target n < (k.openOrCreate p fd n).next := by
  unfold target openOrCreate
  cases hn : k.names n with
  | none => exact Nat.lt_succ_self k.next
  | some i => exact h.named_lt n i hn

/-- No other name leads to the inode that is opened. -/
theorem NamesSound.eq_of_target (h : k.NamesSound) (hm : k.names m = some (k.target n)) : m = n := by
  unfold target at hm
  cases hn : k.names n with
  | none =>
    rw [hn] at hm
    exact absurd (h.named_lt m _ hm) (lt_irrefl _)
  | some i =>
    rw [hn] at hm
    exact h.injective m n i hm hn

/-- A name that leads to an inode keeps doing so. -/
theorem names_openOrCreate_of_some (hm : k.names m = some i) :
    (k.openOrCreate p fd n).names m = some i := by
  rw [names_openOrCreate]
  by_cases hmn : m = n
  · rw [hmn] at hm ⊢
    rw [Function.update_self, target, hm, Option.getD_some]
  · rw [Function.update_of_ne hmn, hm]

/-- An inode that is open gets no new name. -/
theorem NamesSound.names_of_opened (h : k.NamesSound) (hf : k.fds q fd' = some f)
    (hm : (k.openOrCreate p fd n).names m = some f.inode) : k.names m = some f.inode := by
  rw [names_openOrCreate] at hm
  by_cases hmn : m = n
  · rw [hmn, Function.update_self, target] at hm
    cases hn : k.names n with
    | none =>
      rw [hn, Option.getD_none] at hm
      exact absurd (h.opened_lt q fd' f hf) (by rw [← Option.some.inj hm]; exact lt_irrefl _)
    | some i =>
      rw [hn, Option.getD_some] at hm
      rw [hmn, hn, hm]
  · rwa [Function.update_of_ne hmn] at hm

/-- Opening keeps names sound: no two of them share an inode. -/
theorem NamesSound.openOrCreate (h : k.NamesSound) : (k.openOrCreate p fd n).NamesSound where
  injective m₁ m₂ i h₁ h₂ := by
    rw [names_openOrCreate] at h₁ h₂
    by_cases hm₁ : m₁ = n
    · by_cases hm₂ : m₂ = n
      · rw [hm₁, hm₂]
      · rw [hm₁, Function.update_self] at h₁
        rw [Function.update_of_ne hm₂, ← h₁] at h₂
        exact absurd (h.eq_of_target h₂) hm₂
    · rw [Function.update_of_ne hm₁] at h₁
      by_cases hm₂ : m₂ = n
      · rw [hm₂, Function.update_self] at h₂
        rw [← h₂] at h₁
        exact absurd (h.eq_of_target h₁) hm₁
      · rw [Function.update_of_ne hm₂] at h₂
        exact h.injective m₁ m₂ i h₁ h₂
  named_lt m i hm := by
    rw [names_openOrCreate] at hm
    by_cases hmn : m = n
    · rw [hmn, Function.update_self] at hm
      cases hm
      exact h.target_lt
    · rw [Function.update_of_ne hmn] at hm
      exact (h.named_lt m i hm).trans_le next_openOrCreate_le
  opened_lt q fd' f hf := by
    by_cases hq : q ≠ p ∨ fd' ≠ fd
    · rw [fds_openOrCreate_of_ne hq] at hf
      exact (h.opened_lt q fd' f hf).trans_le next_openOrCreate_le
    · push Not at hq
      obtain ⟨rfl, rfl⟩ := hq
      rw [fds_openOrCreate_self] at hf
      cases hf
      exact h.target_lt

/-- A change that opens nothing and makes no name. -/
theorem NamesSound.of_sub (h : k.NamesSound) (hnext : k'.next = k.next)
    (hnames : ∀ n i, k'.names n = some i → k.names n = some i)
    (hfds : ∀ q fd f, k'.fds q fd = some f → ∃ f', k.fds q fd = some f' ∧ f'.inode = f.inode) :
    k'.NamesSound where
  injective m₁ m₂ i h₁ h₂ := h.injective m₁ m₂ i (hnames m₁ i h₁) (hnames m₂ i h₂)
  named_lt m i hm := hnext ▸ h.named_lt m i (hnames m i hm)
  opened_lt q fd f hf := by
    obtain ⟨f', hf', hi⟩ := hfds q fd f hf
    rw [hnext, ← hi]
    exact h.opened_lt q fd f' hf'

end Kernel

end Nix
