import NixStore.Store.TempRootsSafety

/-!
# Phases of a collector

A step of the system with temporary roots, as far as the permanent roots are concerned: it is a step of
one process, and takes this process from one phase of `collectGarbage` to the next or out of it; and a
path becomes invalid only if a collector deletes it that has not found it to be a root.
-/

namespace Nix

/-- Where a process is in `collectGarbage`. -/
inductive CollectPhase where
  /-- Elsewhere, or the deletions are done. -/
  | out
  | waiting
  | scanning
  /-- After `findRoots`, with the permanent roots. -/
  | found (permRoots : PathSet)
deriving DecidableEq

/-- The phase of a process. -/
def RootsProcess.phase {π : Type} (pr : RootsProcess π) : CollectPhase :=
  match pr.call with
  | .collectGarbage _ _ _ .lockGC => .waiting
  | .collectGarbage _ _ _ .findRoots => .scanning
  | .collectGarbage _ _ _ .unlockGC => .out
  | .collectGarbage _ _ _ (.closing _) => .out
  | .collectGarbage permRoots _ _ _ => .found permRoots
  | _ => .out

/-- The process that takes the step. -/
def RootsEvent.actor {π : Type} : RootsEvent π → Option π
  | .addTempRoot p _ | .isValidPath p _ | .collectGarbage p | .next p | .findRoots p _
  | .readDirectory p _ | .delete p _ | .finish p | .throw p | .exit p | .kill p => some p
  | .register _ => none

namespace RootsState

variable {π : Type} [DecidableEq π] {cfg : StoreConfig} {s s' : RootsState π} {p q : π}
  {pr : RootsProcess π}

/-- How the phase of a process changes. -/
inductive PhaseStep (e : RootsEvent π) (p : π) : CollectPhase → CollectPhase → Prop
  | stays (phase : CollectPhase) : PhaseStep e p phase phase
  | leaves (phase : CollectPhase) : PhaseStep e p phase .out
  | starts (phase : CollectPhase) (event : e = .collectGarbage p) : PhaseStep e p phase .waiting
  | locks (event : e = .next p) : PhaseStep e p .waiting .scanning
  | finds (permRoots : PathSet) (event : e = .findRoots p permRoots) :
      PhaseStep e p .scanning (.found permRoots)

/-- What a step of a process does to itself and to the others. -/
structure StepBy (e : RootsEvent π) (p : π) (s s' : RootsState π) : Prop where
  others : ∀ q, q ≠ p → s'.procs q = s.procs q
  phase : PhaseStep e p (s.procs p).phase (s'.procs p).phase
  valid : s'.valid = s.valid

/-- A process that goes on to another phase takes a step of it. -/
theorem stepBy_goto {e : RootsEvent π} {s₁ : RootsState π} (hprocs : s₁.procs = s.procs)
    (hvalid : s₁.valid = s.valid) (hphase : PhaseStep e p (s.procs p).phase pr.phase) :
    StepBy e p s (s₁.setProc p pr) where
  others q hq := by rw [procs_setProc_of_ne hq, hprocs]
  phase := by
    rw [procs_setProc_self]
    exact hphase
  valid := hvalid

/-- A step of `addTempRoot` is a step of its phase. -/
theorem stepBy_nextAdd {path : Path} {place : AddPlace}
    (hs : s.nextAdd p path place = some s') : StepBy (.next p) p s s' := by
  have hout : ∀ {pr : RootsProcess π} {path : Path} {place : AddPlace},
      pr.call = .addTempRoot path place → PhaseStep (.next p) p (s.procs p).phase pr.phase := by
    intro pr path place hcall
    have hpr : pr.phase = .out := by simp [RootsProcess.phase, hcall]
    rw [hpr]
    exact .leaves _
  cases place with
  | lockGC =>
    simp only [nextAdd] at hs
    split_ifs at hs
    cases hs
    exact stepBy_goto rfl rfl (hout rfl)
  | removeStale =>
    simp only [nextAdd] at hs
    cases hs
    exact stepBy_goto rfl rfl (hout rfl)
  | create =>
    simp only [nextAdd] at hs
    cases hs
    exact stepBy_goto rfl rfl (hout rfl)
  | unlockGC =>
    simp only [nextAdd] at hs
    cases hs
    exact stepBy_goto rfl rfl (hout rfl)
  | readLock =>
    obtain ⟨f, -, hs⟩ := Option.bind_eq_some_iff.mp hs
    obtain ⟨dir, -, hs⟩ := Option.bind_eq_some_iff.mp hs
    cases hs
    exact stepBy_goto rfl rfl (hout rfl)
  | stat =>
    obtain ⟨f, -, hs⟩ := Option.bind_eq_some_iff.mp hs
    split_ifs at hs <;> cases hs <;> exact stepBy_goto rfl rfl (hout rfl)
  | writeLock =>
    obtain ⟨f, -, hs⟩ := Option.bind_eq_some_iff.mp hs
    obtain ⟨dir, -, hs⟩ := Option.bind_eq_some_iff.mp hs
    cases hs
    exact stepBy_goto rfl rfl (hout rfl)
  | write =>
    obtain ⟨f, -, hs⟩ := Option.bind_eq_some_iff.mp hs
    cases hs
    exact stepBy_goto rfl rfl (hout rfl)
  | downgrade =>
    obtain ⟨f, -, hs⟩ := Option.bind_eq_some_iff.mp hs
    obtain ⟨dir, -, hs⟩ := Option.bind_eq_some_iff.mp hs
    cases hs
    exact stepBy_goto rfl rfl (.leaves _)

/-- A step of `collectGarbage` is a step of its phase. -/
theorem stepBy_nextCollect {permRoots tempRoots : PathSet} {fds : List OpenFile}
    {place : CollectPlace π} (hcall : (s.procs p).call = .collectGarbage permRoots tempRoots fds place)
    (hs : s.nextCollect cfg p permRoots tempRoots fds place = some s') :
    StepBy (.next p) p s s' := by
  have hphase : (s.procs p).phase =
      ({ s.procs p with call := .collectGarbage permRoots tempRoots fds place } :
        RootsProcess π).phase := by
    rw [← hcall]
  cases place with
  | lockGC =>
    simp only [nextCollect] at hs
    split_ifs at hs
    cases hs
    refine stepBy_goto rfl rfl ?_
    rw [hphase]
    exact .locks rfl
  | findRoots => cases hs
  | readDirectory => cases hs
  | deleting => cases hs
  | nextFile todo =>
    cases todo with
    | nil =>
      cases hs
      refine stepBy_goto rfl rfl ?_
      rw [hphase]
      exact .stays _
    | cons q todo =>
      simp only [nextCollect] at hs
      split at hs <;> cases hs <;> refine stepBy_goto rfl rfl ?_ <;> rw [hphase] <;> exact .stays _
  | tryLock q f todo =>
    simp only [nextCollect] at hs
    split at hs <;> cases hs <;> refine stepBy_goto rfl rfl ?_ <;> rw [hphase] <;> exact .stays _
  | unlinkStale q f todo =>
    cases hs
    refine stepBy_goto rfl rfl ?_
    rw [hphase]
    exact .stays _
  | markStale f todo =>
    cases hs
    refine stepBy_goto rfl rfl ?_
    rw [hphase]
    exact .stays _
  | closeStale f todo =>
    cases hs
    refine stepBy_goto rfl rfl ?_
    rw [hphase]
    exact .stays _
  | readLock q f todo =>
    obtain ⟨dir, -, hs⟩ := Option.bind_eq_some_iff.mp hs
    cases hs
    refine stepBy_goto rfl rfl ?_
    rw [hphase]
    exact .stays _
  | read q f todo =>
    simp only [nextCollect] at hs
    split_ifs at hs
    · cases hs
      refine stepBy_goto rfl rfl ?_
      rw [hphase]
      exact .stays _
    · cases hs
      exact stepBy_goto rfl rfl (.leaves _)
  | unlockGC =>
    cases hs
    exact stepBy_goto rfl rfl (.leaves _)
  | closing unlock =>
    cases fds with
    | nil =>
      cases hs
      exact stepBy_goto rfl rfl (.leaves _)
    | cons f fds =>
      cases hs
      exact stepBy_goto rfl rfl (.leaves _)

/-- A step of `removeTempRoots` is a step of its phase. -/
theorem stepBy_nextRemove {place : RemovePlace} (hs : s.nextRemove p place = some s') :
    StepBy (.next p) p s s' := by
  cases place with
  | close =>
    obtain ⟨f, -, hs⟩ := Option.bind_eq_some_iff.mp hs
    cases hs
    exact stepBy_goto rfl rfl (.leaves _)
  | unlink =>
    cases hs
    exact stepBy_goto rfl rfl (.leaves _)

omit [DecidableEq π] in
/-- A collector that has found the roots and deletes paths holds the lock. -/
theorem Invariant.gcLock_of_phase (h : s.Invariant) {c : π}
    (hphase : (s.procs c).phase = .scanning ∨ ∃ permRoots, (s.procs c).phase = .found permRoots) :
    (c, .exclusive) ∈ s.gcLock := by
  cases hcollecting : (s.procs c).collecting with
  | some roots => exact (h.collector c).gc roots hcollecting
  | none =>
    unfold RootsProcess.phase at hphase
    unfold RootsProcess.collecting at hcollecting
    split at hcollecting <;> simp_all

section

variable [Fintype π] {e : RootsEvent π}

/-- A step is taken by one process, apart from the deletion and the registration of a path. -/
theorem step_cases (hs : s.step cfg e = some s') :
    (∃ p, e.actor = some p ∧ StepBy e p s s') ∨
    (∃ p event permRoots, e = .delete p event ∧ (s.procs p).phase = .found permRoots ∧
      event.path ∉ permRoots ∧ s' = { s with valid := apply s.valid event }) ∨
    ∃ path, e = .register path ∧ s' = { s with valid := s.valid.insert path } := by
  cases e with
  | addTempRoot p path =>
    simp only [step] at hs
    split at hs
    · cases hs
      exact Or.inl ⟨p, rfl, stepBy_goto rfl rfl (.leaves _)⟩
    · cases hs
  | isValidPath p path =>
    simp only [step] at hs
    split at hs
    · rename_i hcall
      refine Or.inl ⟨p, rfl, ?_⟩
      split_ifs at hs <;> cases hs
      · exact stepBy_goto rfl rfl (.stays _)
      · exact ⟨fun _ _ => rfl, .stays _, rfl⟩
    · cases hs
  | collectGarbage p =>
    simp only [step] at hs
    split at hs
    · cases hs
      exact Or.inl ⟨p, rfl, stepBy_goto rfl rfl (.starts _ rfl)⟩
    · cases hs
  | next p =>
    simp only [step] at hs
    refine Or.inl ⟨p, rfl, ?_⟩
    split at hs
    · cases hs
    · exact stepBy_nextAdd hs
    · rename_i hcall
      exact stepBy_nextCollect hcall hs
    · exact stepBy_nextRemove hs
  | findRoots p permRoots =>
    simp only [step] at hs
    split at hs
    · rename_i hcall
      cases hs
      refine Or.inl ⟨p, rfl, stepBy_goto rfl rfl ?_⟩
      have hphase : (s.procs p).phase = .scanning := by simp [RootsProcess.phase, hcall]
      rw [hphase]
      exact .finds permRoots rfl
    · cases hs
  | readDirectory p entries =>
    simp only [step] at hs
    split at hs
    · rename_i permRoots tempRoots fds hcall
      split_ifs at hs
      cases hs
      refine Or.inl ⟨p, rfl, stepBy_goto rfl rfl ?_⟩
      have hphase : (s.procs p).phase = .found permRoots := by simp [RootsProcess.phase, hcall]
      rw [hphase]
      exact .stays _
    · cases hs
  | delete p event =>
    simp only [step] at hs
    split at hs
    · rename_i permRoots tempRoots fds hcall
      split_ifs at hs with hroot
      cases hs
      rw [not_or] at hroot
      refine Or.inr (Or.inl ⟨p, event, permRoots, rfl, ?_, hroot.1, rfl⟩)
      simp [RootsProcess.phase, hcall]
    · cases hs
  | finish p =>
    simp only [step] at hs
    split at hs
    · cases hs
      exact Or.inl ⟨p, rfl, stepBy_goto rfl rfl (.leaves _)⟩
    · cases hs
  | throw p =>
    simp only [step] at hs
    split at hs
    · cases hs
      exact Or.inl ⟨p, rfl, stepBy_goto rfl rfl (.leaves _)⟩
    · cases hs
  | exit p =>
    simp only [step] at hs
    split at hs
    · split at hs <;> cases hs <;> exact Or.inl ⟨p, rfl, stepBy_goto rfl rfl (.leaves _)⟩
    · cases hs
  | kill p =>
    cases hs
    exact Or.inl ⟨p, rfl, stepBy_goto rfl rfl (.leaves _)⟩
  | register path =>
    simp only [step] at hs
    split_ifs at hs
    cases hs
    exact Or.inr (Or.inr ⟨path, rfl, rfl⟩)

/-- The phases after a step. -/
theorem phase_step (hs : s.step cfg e = some s') (c : π) :
    PhaseStep e c (s.procs c).phase (s'.procs c).phase := by
  rcases step_cases hs with ⟨p, -, hstep⟩ | ⟨p, event, permRoots, rfl, -, -, rfl⟩ | ⟨path, rfl, rfl⟩
  · by_cases hc : c = p
    · subst hc
      exact hstep.phase
    · rw [hstep.others c hc]
      exact .stays _
  · exact .stays _
  · exact .stays _

/-- A step leaves the other processes alone. -/
theorem procs_step_of_ne (hs : s.step cfg e = some s') (hq : e.actor ≠ some q) :
    s'.procs q = s.procs q := by
  rcases step_cases hs with ⟨p, hp, hstep⟩ | ⟨p, event, permRoots, rfl, -, -, rfl⟩ | ⟨path, rfl, rfl⟩
  · refine hstep.others q fun hqp => hq ?_
    rw [hp, hqp]
  · rfl
  · rfl

/-- A valid path stays valid unless a collector deletes it. -/
theorem mem_valid_step (hs : s.step cfg e = some s') {x : Path} (hx : x ∈ s.valid)
    (hfound : ∀ c permRoots, (s.procs c).phase = .found permRoots → x ∈ permRoots) :
    x ∈ s'.valid := by
  rcases step_cases hs with ⟨p, -, hstep⟩ | ⟨p, event, permRoots, rfl, hphase, hroot, rfl⟩ |
    ⟨path, rfl, rfl⟩
  · rw [hstep.valid]
    exact hx
  · cases event with
    | invalidate path =>
      refine SortedSet.mem_erase.mpr ⟨?_, hx⟩
      rintro rfl
      exact hroot (hfound p permRoots hphase)
    | delete path => exact hx
    | rename path => exact hx
  · exact SortedSet.mem_insert.mpr (Or.inr hx)

end

end RootsState

end Nix
