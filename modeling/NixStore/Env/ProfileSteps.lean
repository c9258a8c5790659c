import NixStore.Env.ProfileNames

/-!
# The steps of `nix-env`

What each step does to the directory of the profile, who has the lock, and the invariant behind the
numbers of new generations.  It is kept by careful steps: `--set`, which does not take the lock, has to
stay out of the way of the others.
-/

namespace Nix

/-! ### The steps of a process -/

namespace ProfileState

variable {P : Str} {p : ℕ} {s s' : ProfileState} {a : ProfileAction}

@[simp] theorem procs_goto_self (s : ProfileState) (p : ℕ) (φ : ProfilePhase) :
    (s.goto p φ).procs p = φ := Function.update_self ..

theorem procs_goto_of_ne (s : ProfileState) {p q : ℕ} (h : q ≠ p) (φ : ProfilePhase) :
    (s.goto p φ).procs q = s.procs q := Function.update_of_ne h ..

/-- Taking the lock. -/
inductive Acquires : ProfilePhase → ProfilePhase → Prop
  | update (basis : Basis) (outPath : Path) (cache : Option Path) :
      Acquires (.locking basis outPath cache) (.locked basis outPath cache)
  | switchGeneration (dstGen : ℤ) : Acquires (.switchLocking dstGen) (.switchLocked dstGen)
  | deleteGenerations (args : List DeleteArg) : Acquires (.deleteLocking args) (.deleteLocked args)

/-- Looking around with the lock, before the profile is switched or generations are deleted. -/
inductive Looks (P : Str) (s : ProfileState) : ProfilePhase → ProfileAction → ProfilePhase → Prop
  | switchList {dstGen : ℤ} {names : List Str} (perm : names.Perm s.links.keys) :
      Looks P s (.switchLocked dstGen) (.list names)
        (.switchListed dstGen (findGenerations P names))
  | choose {dstGen : ℤ} {gens : List Generation} {gen : Generation} (mem : gen ∈ gens) :
      Looks P s (.switchListed dstGen gens) .next (.switchStart .switchGeneration gen.name)
  | deleteList {args : List DeleteArg} {names : List Str} (perm : names.Perm s.links.keys) :
      Looks P s (.deleteLocked args) (.list names) (.deleteListed args (findGenerations P names))
  | chooseAll {args : List DeleteArg} {gens : List Generation} :
      Looks P s (.deleteListed args gens) .next
        (.deleting (numbersToDelete args (s.curGen P) gens))

/-- Reading the manifest for `--from-profile`. -/
inductive Sources (P : Str) (s : ProfileState) : ProfilePhase → ProfilePhase → Prop
  | before {cache : Option Path} :
      Sources P s (.updating cache) (.updating (s.evalManifest P cache))
  | building {b : Basis} {cache : Option Path} :
      Sources P s (.building b cache) (.building b (s.evalManifest P cache))

/-- What a process in a phase can do. -/
inductive StepCase (P : Str) (p : ℕ) (s : ProfileState) :
    ProfilePhase → ProfileAction → ProfileState → Prop
  | start (c : ProfileCommand) : StepCase P p s .idle (.start c) (s.goto p c.begin)
  | leave {φ : ProfilePhase} {a : ProfileAction}
      (done : a = .exit ∨ φ = .finishing ∨ φ = .deleting []) :
      StepCase P p s φ a ((s.unlock p).goto p .idle)
  | source {φ φ' : ProfilePhase} (phases : Sources P s φ φ') :
      StepCase P p s φ .source (s.goto p φ')
  | readToken {cache : Option Path} :
      StepCase P p s (.updating cache) .next (s.goto p (.tokenRead (s.token P) cache))
  | find {t : Str} {cache : Option Path} : StepCase P p s (.tokenRead t cache) (.look true)
      (s.goto p (.manifestFound t (s.userEnv P) cache))
  | miss {t : Str} {cache : Option Path} : StepCase P p s (.tokenRead t cache) (.look false)
      (s.goto p (.manifestMissing t (s.userEnv P) cache))
  | read {t : Str} {e cache : Option Path} {base : Path} (found : s.evalManifest P cache = some base) :
      StepCase P p s (.manifestFound t e cache) .next
        (s.goto p (.building ⟨t, e, some base⟩ (some base)))
  | readOld {t : Str} {e cache : Option Path} : StepCase P p s (.manifestMissing t e cache) .next
      (s.goto p (.building ⟨t, e, s.userEnv P⟩ cache))
  | build {b : Basis} {o : Path} {cache : Option Path} :
      StepCase P p s (.building b cache) (.build o) (s.goto p (.locking b o cache))
  | acquire {φ φ' : ProfilePhase} (phases : Acquires φ φ') (free : s.lock = none) :
      StepCase P p s φ .next ({ s with lock := some p }.goto p φ')
  | compare {b : Basis} {o : Path} {cache : Option Path} (same : s.token P = b.token) :
      StepCase P p s (.locked b o cache) .next (s.goto p (.listing (.update b) o))
  | restart {b : Basis} {o : Path} {cache : Option Path} :
      StepCase P p s (.locked b o cache) .next ((s.unlock p).goto p (.updating cache))
  | list {c : Cause} {o : Path} {names : List Str} (perm : names.Perm s.links.keys) :
      StepCase P p s (.listing c o) (.list names)
        (s.goto p (.linking c o (lastNumber (findGenerations P names))))
  | link {c : Cause} {o : Path} {num rand : ℕ}
      (absent : tempLink (makeName P (num + 1)) p rand ∉ s.links) :
      StepCase P p s (.linking c o num) (.link rand)
        ((s.setLinks (s.links.insert (tempLink (makeName P (num + 1)) p rand) o)).goto p
          (.linked c num (tempLink (makeName P (num + 1)) p rand)))
  | create {c : Cause} {num : ℕ} {temp : Str} {o : Path} (found : s.links.find? temp = some o) :
      StepCase P p s (.linked c num temp) .next
        ((s.setLinks ((s.links.erase temp).insert (makeName P (num + 1)) o)).goto p
          (.switchStart c (makeName P (num + 1))))
  | prepare {c : Cause} {target : Str} (absent : newLink P ∉ s.links) :
      StepCase P p s (.switchStart c target) .next
        ((s.setLinks (s.links.insert (newLink P) target)).goto p (.switching c target))
  | switch {c : Cause} {target t : Str} (found : s.links.find? (newLink P) = some t) :
      StepCase P p s (.switching c target) .next
        ((s.setLinks ((s.links.erase (newLink P)).insert P t)).goto p .finishing)
  | look {φ φ' : ProfilePhase} {a : ProfileAction} (phases : Looks P s φ a φ') :
      StepCase P p s φ a (s.goto p φ')
  | delete {num : ℕ} {nums : List ℕ} :
      StepCase P p s (.deleting (num :: nums)) .next
        ((s.setLinks (s.links.erase (makeName P num))).goto p (.deleting nums))

/-- What one step of a process does, by the phase it is in. -/
theorem step_cases (h : s.step P p a = some s') : StepCase P p s (s.procs p) a s' := by
  unfold step at h
  split at h
  case h_1 c hφ => rw [hφ, ← Option.some.inj h]; exact .start c
  case h_2 => cases h
  case h_3 => rw [← Option.some.inj h]; exact .leave (.inl rfl)
  case h_4 hφ => rw [hφ, ← Option.some.inj h]; exact .source .before
  case h_5 hφ => rw [hφ, ← Option.some.inj h]; exact .readToken
  case h_6 hφ =>
    split_ifs at h
    rw [hφ, ← Option.some.inj h]
    exact .find
  case h_7 hφ => rw [hφ, ← Option.some.inj h]; exact .miss
  case h_8 hφ =>
    simp only [Option.bind_eq_bind, Option.bind_eq_some_iff] at h
    obtain ⟨base, hbase, h⟩ := h
    rw [hφ, ← Option.some.inj h]
    exact .read hbase
  case h_9 hφ => rw [hφ, ← Option.some.inj h]; exact .readOld
  case h_10 hφ => rw [hφ, ← Option.some.inj h]; exact .source .building
  case h_11 hφ => rw [hφ, ← Option.some.inj h]; exact .build
  case h_12 b o cache hφ =>
    rw [acquire] at h
    split_ifs at h with hlock
    rw [hφ, ← Option.some.inj h]
    exact .acquire (.update b o cache) hlock
  case h_13 hφ =>
    split_ifs at h with htoken
    · rw [hφ, ← Option.some.inj h]
      exact .compare htoken
    · rw [hφ, ← Option.some.inj h]
      exact .restart
  case h_14 hφ =>
    split_ifs at h with hperm
    rw [hφ, ← Option.some.inj h]
    exact .list hperm
  case h_15 hφ =>
    dsimp only at h
    split_ifs at h with habsent
    rw [hφ, ← Option.some.inj h]
    exact .link habsent
  case h_16 hφ =>
    simp only [renameLink, Option.bind_eq_bind, Option.bind_eq_some_iff] at h
    obtain ⟨links, hlinks, h⟩ := h
    split at hlinks
    next target hfind =>
      cases hlinks
      rw [hφ, ← Option.some.inj h]
      exact .create hfind
    next => cases hlinks
  case h_17 hφ =>
    split_ifs at h with habsent
    rw [hφ, ← Option.some.inj h]
    exact .prepare habsent
  case h_18 hφ =>
    simp only [renameLink, Option.bind_eq_bind, Option.bind_eq_some_iff] at h
    obtain ⟨links, hlinks, h⟩ := h
    split at hlinks
    next target hfind =>
      cases hlinks
      rw [hφ, ← Option.some.inj h]
      exact .switch hfind
    next => cases hlinks
  case h_19 hφ => rw [hφ, ← Option.some.inj h]; exact .leave (.inr (.inl rfl))
  case h_20 d hφ =>
    rw [acquire] at h
    split_ifs at h with hlock
    rw [hφ, ← Option.some.inj h]
    exact .acquire (.switchGeneration d) hlock
  case h_21 hφ =>
    split_ifs at h with hperm
    rw [hφ, ← Option.some.inj h]
    exact .look (.switchList hperm)
  case h_22 hφ =>
    split at h
    next hgen =>
      rw [hφ, ← Option.some.inj h]
      have hmem := List.mem_of_find?_eq_some hgen
      exact .look (.choose (List.mem_reverse.mp hmem))
    next => cases h
  case h_23 args hφ =>
    rw [acquire] at h
    split_ifs at h with hlock
    rw [hφ, ← Option.some.inj h]
    exact .acquire (.deleteGenerations args) hlock
  case h_24 hφ =>
    split_ifs at h with hperm
    rw [hφ, ← Option.some.inj h]
    exact .look (.deleteList hperm)
  case h_25 hφ => rw [hφ, ← Option.some.inj h]; exact .look .chooseAll
  case h_26 hφ =>
    dsimp only at h
    split_ifs at h with hmem
    rw [hφ, ← Option.some.inj h]
    exact .delete
  case h_27 hφ => rw [hφ, ← Option.some.inj h]; exact .leave (.inr (.inr rfl))
  case h_28 => cases h

/-- A process does not change where another one is. -/
theorem procs_step {q : ℕ} (hstep : s.step P p a = some s') (hq : q ≠ p) :
    s'.procs q = s.procs q := by
  have hcase := step_cases hstep
  generalize s.procs p = φ at hcase
  cases hcase <;> exact procs_goto_of_ne _ hq _

end ProfileState

/-! ### Who has the lock -/

/-- Whether a command takes the lock. -/
def Cause.holdsLock : Cause → Bool
  | set => false
  | update _ | switchGeneration => true

/-- The phases in which a process has the lock. -/
def ProfilePhase.holdsLock : ProfilePhase → Bool
  | locked _ _ _ | switchLocked _ | switchListed _ _ | deleteLocked _ | deleteListed _ _ => true
  | deleting _ => true
  | listing c _ | linking c _ _ | linked c _ _ | switchStart c _ | switching c _ => c.holdsLock
  | _ => false

namespace ProfileState

variable {P : Str} {p q : ℕ} {s s' : ProfileState} {a : ProfileAction}

/-- A process in such a phase has the lock. -/
def LockSound (s : ProfileState) : Prop :=
  ∀ q, (s.procs q).holdsLock = true → s.lock = some q

/-- Two processes do not hold the lock together. -/
theorem LockSound.eq (h : s.LockSound) (hp : (s.procs p).holdsLock = true)
    (hq : (s.procs q).holdsLock = true) : p = q := by
  have heq := (h p hp).symm.trans (h q hq)
  exact Option.some.inj heq

/-- A process that keeps the lock, or does without it. -/
theorem LockSound.goto (h : s.LockSound) {φ : ProfilePhase}
    (hφ : φ.holdsLock = true → (s.procs p).holdsLock = true) : (s.goto p φ).LockSound := by
  intro q hq
  by_cases hqp : q = p
  · subst hqp
    rw [procs_goto_self] at hq
    exact h q (hφ hq)
  · rw [procs_goto_of_ne s hqp] at hq
    exact h q hq

/-- A process that does not need the lock any more. -/
theorem LockSound.unlock (h : s.LockSound) {φ : ProfilePhase} (hφ : φ.holdsLock = false) :
    ((s.unlock p).goto p φ).LockSound := by
  intro q hq
  by_cases hqp : q = p
  · subst hqp
    rw [procs_goto_self, hφ] at hq
    cases hq
  · rw [procs_goto_of_ne _ hqp] at hq
    have hlock := h q hq
    have hne : s.lock ≠ some p := by
      rw [hlock, ne_eq, Option.some.injEq]
      exact hqp
    exact (if_neg hne).trans hlock

/-- Only one process can have taken the lock. -/
theorem LockSound.acquire (h : s.LockSound) (hfree : s.lock = none) (φ : ProfilePhase) :
    ({ s with lock := some p }.goto p φ).LockSound := by
  intro q hq
  by_cases hqp : q = p
  · rw [hqp]
    rfl
  · rw [procs_goto_of_ne _ hqp] at hq
    have hlock := h q hq
    rw [hfree] at hlock
    cases hlock

/-- Every step keeps the lock sound. -/
theorem LockSound.step (h : s.LockSound) (hstep : s.step P p a = some s') : s'.LockSound := by
  have hcase := step_cases hstep
  generalize hφ : s.procs p = φ at hcase
  have hkeep : ∀ {φ' : ProfilePhase} {links : SortedMap Str Path},
      (φ'.holdsLock = true → φ.holdsLock = true) → ((s.setLinks links).goto p φ').LockSound := by
    intro φ' links hφ'
    rw [← hφ] at hφ'
    exact LockSound.goto (s := s.setLinks links) h hφ'
  cases hcase with
  | start c => exact hkeep fun hc => by cases c <;> cases hc
  | leave done => exact h.unlock rfl
  | source phases => exact hkeep fun hc => by cases phases <;> cases hc
  | readToken => exact hkeep fun hc => by cases hc
  | find => exact hkeep fun hc => by cases hc
  | miss => exact hkeep fun hc => by cases hc
  | read found => exact hkeep fun hc => by cases hc
  | readOld => exact hkeep fun hc => by cases hc
  | build => exact hkeep fun hc => by cases hc
  | acquire phases free => exact h.acquire free _
  | compare same => exact hkeep fun _ => rfl
  | restart => exact h.unlock rfl
  | list perm => exact hkeep id
  | link absent => exact hkeep id
  | create found => exact hkeep id
  | prepare absent => exact hkeep id
  | switch found => exact hkeep fun hc => by cases hc
  | look phases => exact hkeep fun _ => by cases phases <;> rfl
  | delete => exact hkeep fun _ => rfl

end ProfileState

/-! ### Numbers of new generations -/

/-- What an update knows, after its token has been compared. -/
def ProfilePhase.checked : ProfilePhase → Option Basis
  | listing (.update b) _ | linking (.update b) _ _ | linked (.update b) _ _ => some b
  | switchStart (.update b) _ | switching (.update b) _ => some b
  | _ => none

/-- The token of an update. -/
def ProfilePhase.token : ProfilePhase → Option Str
  | tokenRead t _ | manifestFound t _ _ | manifestMissing t _ _ => some t
  | building b _ | locking b _ _ | locked b _ _ => some b.token
  | φ => φ.checked.map (·.token)

/-- The user environments that an update has taken for what is behind the profile. -/
def ProfilePhase.reads : ProfilePhase → List (Option Path)
  | manifestFound _ e _ | manifestMissing _ e _ => [e]
  | building b _ | locking b _ _ | locked b _ _ => [b.seen, b.base]
  | φ => φ.checked.elim [] fun b => [b.seen, b.base]

/-- The names of the links that a step of a process changes. -/
def ProfileState.changed (P : Str) (p : ℕ) (a : ProfileAction) (s : ProfileState) : List Str :=
  match a, s.procs p with
  | .link rand, .linking _ _ num => [tempLink (makeName P (num + 1)) p rand]
  | .next, .linked _ num temp => [temp, makeName P (num + 1)]
  | .next, .switchStart _ _ => [newLink P]
  | .next, .switching _ _ => [newLink P, P]
  | .next, .deleting (num :: _) => [makeName P num]
  | _, _ => []

/-- The steps that keep generations from being lost. -/
structure ProfileState.Careful (P : Str) (p : ℕ) (a : ProfileAction) (s : ProfileState) :
    Prop where
  /-- `--set` and another command do not both look for a number at the same time. -/
  listing : ∀ {c o names q c' o' num}, s.procs p = .listing c o → a = .list names → q ≠ p →
    s.procs q = .linking c' o' num → c ≠ .set ∧ c' ≠ .set
  /-- There is a larger number. -/
  number : ∀ {c o names}, s.procs p = .listing c o → a = .list names →
    ∀ name ∈ s.links, ∀ n, parseName P name = some n → n + 1 < 2 ^ 31
  /-- `--set` does not switch the profile while an update creates its generation. -/
  switch : ∀ {target}, s.procs p = .switching .set target → a = .next →
    ∀ q, (s.procs q).checked = none
  /-- The profile comes back to the token of another update only when that has read the manifest of
  the generation. -/
  token : ∀ {c target q}, s.procs p = .switching c target → a = .next → q ≠ p →
    (s.procs q).token = some target → ∀ e ∈ (s.procs q).reads, e = s.links.find? target
  /-- The current generation stays as it is while it is the token of an update that has read its
  manifest. -/
  generation : ∀ {q}, (s.procs q).token = some (s.token P) → (s.procs q).reads ≠ [] →
    s.token P ∉ s.changed P p a
  /-- The manifest that an update with the current token finds in the cache is the current one. -/
  cached : ∀ {t e env}, s.procs p = .manifestFound t e (some env) → a = .next → s.token P = t →
    s.userEnv P = some env

/-- A temporary link that becomes a generation. -/
structure TempSound (P : Str) (links : SortedMap Str Path) (num : ℕ) (temp : Str) : Prop where
  number : num + 1 < 2 ^ 31
  name : ∃ pid rand, temp = tempLink (makeName P (num + 1)) pid rand
  there : temp ∈ links
  fresh : ∀ name ∈ links, name ≠ temp → parseName P name ≠ some (num + 1)

/-- The temporary name of a new generation has the number of the generation. -/
theorem TempSound.parseName_eq {P : Str} {links : SortedMap Str Path} {num : ℕ} {temp : Str}
    (h : TempSound P links num temp) : parseName P temp = some (num + 1) := by
  obtain ⟨pid, rand, hname⟩ := h.name
  rw [hname]
  exact parseName_tempLink h.number pid rand

/-- What holds of a process in a phase. -/
def PhaseSound (P : Str) (links : SortedMap Str Path) : ProfilePhase → Prop
  | .linking _ _ num =>
    num + 1 < 2 ^ 31 ∧ ∀ name ∈ links, ∀ n, parseName P name = some n → n ≤ num
  | .linked _ num temp => TempSound P links num temp
  | .switching _ target => links.find? (newLink P) = some target
  | _ => True

/-- Two processes that are not in each other's way. -/
def Apart : ProfilePhase → ProfilePhase → Prop
  | .linking _ _ _, .linking _ _ _ => False
  | .linked _ _ temp, .linked _ _ temp' => temp ≠ temp'
  | .switching _ _, .switching _ _ => False
  | _, _ => True

/-- Phases in which a process is in nobody's way. -/
def ProfilePhase.quiet : ProfilePhase → Bool
  | linking _ _ _ | linked _ _ _ | switching _ _ => false
  | _ => true

/-- A phase without obligations is sound. -/
theorem phaseSound_of_quiet {P : Str} {links : SortedMap Str Path} {φ : ProfilePhase}
    (h : φ.quiet = true) : PhaseSound P links φ := by
  cases φ <;> first | exact trivial | cases h

/-- A phase without obligations is apart from every other. -/
theorem apart_of_quiet {φ φ' : ProfilePhase} (h : φ.quiet = true) : Apart φ φ' := by
  cases φ <;> first | exact trivial | cases h

/-- Being apart is symmetric. -/
theorem Apart.symm {φ φ' : ProfilePhase} (h : Apart φ φ') : Apart φ' φ := by
  cases φ <;> cases φ' <;> first | exact h | exact Ne.symm h

namespace ProfileState

variable {P : Str} {p : ℕ} {s s' : ProfileState} {a : ProfileAction}

/-- The processes that create generations have different numbers. -/
structure NumbersSound (P : Str) (s : ProfileState) : Prop where
  phase : ∀ q, PhaseSound P s.links (s.procs q)
  apart : ∀ q q', q ≠ q' → Apart (s.procs q) (s.procs q')

/-- A process goes on, and the others are still where they were. -/
theorem NumbersSound.update (h : NumbersSound P s) {links : SortedMap Str Path} {lock : Option ℕ}
    {φ : ProfilePhase} (hself : PhaseSound P links φ)
    (hothers : ∀ q, q ≠ p → PhaseSound P links (s.procs q))
    (hapart : ∀ q, q ≠ p → Apart φ (s.procs q)) :
    NumbersSound P ⟨links, lock, Function.update s.procs p φ⟩ where
  phase q := by
    by_cases hq : q = p
    · subst hq
      simpa using hself
    · simpa [Function.update_of_ne hq] using hothers q hq
  apart q q' hne := by
    by_cases hq : q = p
    · subst hq
      simpa [Function.update_of_ne (Ne.symm hne)] using hapart q' (Ne.symm hne)
    · by_cases hq' : q' = p
      · subst hq'
        simpa [Function.update_of_ne hq] using (hapart q hq).symm
      · simpa [Function.update_of_ne hq, Function.update_of_ne hq'] using h.apart q q' hne

/-- A process goes on to a phase in which it is in nobody's way. -/
theorem NumbersSound.goto (h : NumbersSound P s) {φ : ProfilePhase} (hlinks : s'.links = s.links)
    (hprocs : s'.procs = Function.update s.procs p φ) (hφ : φ.quiet = true) : NumbersSound P s' := by
  obtain ⟨links, lock, procs⟩ := s'
  cases hlinks
  cases hprocs
  exact h.update (phaseSound_of_quiet hφ) (fun q _ => h.phase q) fun q _ => apart_of_quiet hφ

end ProfileState

/-- The numbers that other generations may get. -/
def ProfilePhase.Allows (n : ℕ) : ProfilePhase → Prop
  | linking _ _ num => n ≤ num
  | linked _ num _ => n ≠ num + 1
  | _ => True

section

variable {P name : Str} {links : SortedMap Str Path} {target : Path} {φ : ProfilePhase}

/-- The numbers that are there already. -/
theorem PhaseSound.allows (h : PhaseSound P links φ) {n : ℕ} (hmem : name ∈ links)
    (hn : parseName P name = some n) (htemp : ∀ c num, φ ≠ .linked c num name) : φ.Allows n := by
  cases φ with
  | linking c o num => exact h.2 name hmem n hn
  | linked c num temp =>
    intro heq
    refine h.fresh name hmem (fun hname => htemp c num (by rw [hname])) ?_
    rw [hn, heq]
  | _ => exact trivial

/-- A new link keeps a phase sound when it is neither the new link nor out of place. -/
theorem PhaseSound.insert (h : PhaseSound P links φ)
    (hnew : ∀ c t, φ = .switching c t → name ≠ newLink P)
    (hallows : ∀ n, parseName P name = some n → φ.Allows n) :
    PhaseSound P (links.insert name target) φ := by
  cases φ with
  | linking c o num =>
    refine ⟨h.1, fun name' hname' n hn => ?_⟩
    rcases SortedMap.mem_insert.mp hname' with rfl | hmem
    · exact hallows n hn
    · exact h.2 name' hmem n hn
  | linked c num temp =>
    refine ⟨h.number, h.name, SortedMap.mem_insert.mpr (.inr h.there), fun name' hname' hne => ?_⟩
    rcases SortedMap.mem_insert.mp hname' with rfl | hmem
    · exact fun hn => hallows _ hn rfl
    · exact h.fresh name' hmem hne
  | switching c target' =>
    change (links.insert name target).find? (newLink P) = some target'
    rw [SortedMap.find?_insert, if_neg (Ne.symm (hnew c target' rfl))]
    exact h
  | _ => exact h

/-- Removing a link keeps a phase sound when it is neither the new nor the temporary link. -/
theorem PhaseSound.erase (h : PhaseSound P links φ)
    (hnew : ∀ c t, φ = .switching c t → name ≠ newLink P)
    (htemp : ∀ c num, φ ≠ .linked c num name) : PhaseSound P (links.erase name) φ := by
  cases φ with
  | linking c o num =>
    refine ⟨h.1, fun name' hname' n hn => h.2 name' ?_ n hn⟩
    exact (SortedMap.mem_erase.mp hname').2
  | linked c num temp =>
    have hne : temp ≠ name := fun heq => htemp c num (by rw [heq])
    refine ⟨h.number, h.name, SortedMap.mem_erase.mpr ⟨hne, h.there⟩, fun name' hname' => ?_⟩
    exact h.fresh name' (SortedMap.mem_erase.mp hname').2
  | switching c target' =>
    change (links.erase name).find? (newLink P) = some target'
    rw [SortedMap.find?_erase, if_neg (Ne.symm (hnew c target' rfl))]
    exact h
  | _ => exact h

end

/-- A generation is not the new link of a profile. -/
theorem makeName_ne_newLink (P : Str) (n : ℕ) : makeName P n ≠ newLink P := by
  intro heq
  -- there are two more dashes on the left
  have hcount := congrArg (List.count '-'.toUInt8) heq
  simp only [makeName, newLink, List.count_append] at hcount
  have hnew : (str ".new_").count '-'.toUInt8 = 0 := by decide
  have hdash : (str "-").count '-'.toUInt8 = 1 := by decide
  omega

/-- A generation is not the temporary link of one. -/
theorem makeName_ne_tempLink (P : Str) (n m pid rand : ℕ) :
    makeName P n ≠ tempLink (makeName P m) pid rand := by
  intro heq
  -- the last character is a letter on the left and a digit on the right
  obtain ⟨hne, hall, -⟩ := decimal_spec rand
  have hleft : (makeName P n).getLast? = some 'k'.toUInt8 := by
    have hk : (str "-link").getLast? = some 'k'.toUInt8 := by decide
    rw [makeName, List.getLast?_append, hk, Option.some_or]
  have hright : (tempLink (makeName P m) pid rand).getLast? =
      some ((decimal rand).getLast hne) := by
    rw [tempLink, List.getLast?_append, List.getLast?_eq_some_getLast hne, Option.some_or]
  have hdigit := List.all_eq_true.mp hall _ (List.getLast_mem hne)
  rw [heq, hright, Option.some.injEq] at hleft
  rw [hleft] at hdigit
  exact absurd hdigit (by decide)

/-- The generations are the links whose names have a number. -/
theorem mem_findGenerations {P : Str} {names : List Str} {g : Generation} :
    g ∈ findGenerations P names ↔ g.name ∈ names ∧ parseName P g.name = some g.number := by
  unfold findGenerations
  rw [(List.perm_insertionSort numberLE _).mem_iff, List.mem_filterMap]
  constructor
  · rintro ⟨name, hname, heq⟩
    obtain ⟨n, hn, rfl⟩ := Option.map_eq_some_iff.mp heq
    exact ⟨hname, hn⟩
  · rintro ⟨hname, hn⟩
    exact ⟨g.name, hname, by rw [hn]; rfl⟩

/-- No generation has a larger number than the last one. -/
theorem le_lastNumber {P : Str} {names : List Str} {name : Str} {n : ℕ} (hname : name ∈ names)
    (hn : parseName P name = some n) : n ≤ lastNumber (findGenerations P names) := by
  have hmem : ⟨n, name⟩ ∈ findGenerations P names := mem_findGenerations.mpr ⟨hname, hn⟩
  have hne := List.ne_nil_of_mem hmem
  have hsorted : (findGenerations P names).Pairwise numberLE := by
    have : Std.Total numberLE := ⟨fun a b => Nat.le_total a.number b.number⟩
    have : IsTrans Generation numberLE := ⟨fun a b c => Nat.le_trans⟩
    exact List.pairwise_insertionSort _ _
  rw [lastNumber, List.getLast?_eq_some_getLast hne]
  rw [← List.dropLast_append_getLast hne, List.pairwise_append] at hsorted
  rw [← List.dropLast_append_getLast hne, List.mem_append, List.mem_singleton] at hmem
  rcases hmem with hmem | heq
  · exact hsorted.2.2 _ hmem _ (List.mem_singleton_self _)
  · rw [← heq]

/-- The last number is zero, or that of a link. -/
theorem lastNumber_spec (P : Str) (names : List Str) :
    lastNumber (findGenerations P names) = 0 ∨ ∃ name ∈ names,
      parseName P name = some (lastNumber (findGenerations P names)) := by
  unfold lastNumber
  split
  next g hg =>
    obtain ⟨hname, hn⟩ := mem_findGenerations.mp (List.mem_of_getLast? hg)
    exact .inr ⟨g.name, hname, hn⟩
  next => exact .inl rfl

namespace ProfileState

variable {P : Str} {p : ℕ} {s s' : ProfileState} {a : ProfileAction}

/-- Careful steps keep the numbers sound. -/
theorem NumbersSound.step (h : NumbersSound P s) (hlock : s.LockSound)
    (hstep : s.step P p a = some s') (hcareful : s.Careful P p a) : NumbersSound P s' := by
  have hcase := step_cases hstep
  generalize hφ : s.procs p = φ at hcase
  have hself := h.phase p
  have hapart := h.apart p
  rw [hφ] at hself hapart
  cases hcase with
  | start c => exact h.goto rfl rfl (by cases c <;> rfl)
  | leave done => exact h.goto rfl rfl rfl
  | source phases => exact h.goto rfl rfl (by cases phases <;> rfl)
  | readToken => exact h.goto rfl rfl rfl
  | find => exact h.goto rfl rfl rfl
  | miss => exact h.goto rfl rfl rfl
  | read found => exact h.goto rfl rfl rfl
  | readOld => exact h.goto rfl rfl rfl
  | build => exact h.goto rfl rfl rfl
  | acquire phases free => exact h.goto rfl rfl (by cases phases <;> rfl)
  | compare same => exact h.goto rfl rfl rfl
  | restart => exact h.goto rfl rfl rfl
  | @list c o names perm =>
    refine h.update ⟨?_, fun name hname n hn => ?_⟩ (fun q _ => h.phase q) fun q hq => ?_
    · rcases lastNumber_spec P _ with hzero | ⟨name, hname, hn⟩
      · rw [hzero]
        decide
      · exact hcareful.number hφ rfl name (perm.mem_iff.mp hname) _ hn
    · exact le_lastNumber (perm.mem_iff.mpr hname) hn
    · -- the other process would have the lock as well
      cases hφ' : s.procs q with
      | linking c' o' num =>
        obtain ⟨hc, hc'⟩ := hcareful.listing hφ rfl hq hφ'
        refine hq (hlock.eq ?_ ?_)
        · rw [hφ']
          cases c' <;> first | rfl | exact absurd rfl hc'
        · rw [hφ]
          cases c <;> first | rfl | exact absurd rfl hc
      | _ => exact trivial
  | @link c o num rand absent =>
    have hparse := parseName_tempLink (P := P) hself.1 p rand
    have hnew : tempLink (makeName P (num + 1)) p rand ≠ newLink P := by
      intro heq
      rw [heq, parseName_newLink] at hparse
      cases hparse
    refine h.update ⟨hself.1, ⟨p, rand, rfl⟩, SortedMap.mem_insert.mpr (.inl rfl),
      fun name hname hne => ?_⟩ (fun q hq => ?_)
      fun q hq => ?_
    · rcases SortedMap.mem_insert.mp hname with rfl | hmem
      · exact absurd rfl hne
      · intro hn
        exact absurd (hself.2 name hmem _ hn) (by omega)
    · refine (h.phase q).insert (fun _ _ _ => hnew) fun n hn => ?_
      rw [hparse, Option.some.injEq] at hn
      have hq' := hapart q (Ne.symm hq)
      have hphase := h.phase q
      cases hφ' : s.procs q with
      | linking c' o' num' =>
        rw [hφ'] at hq'
        exact hq'.elim
      | linked c' num' temp' =>
        rw [hφ'] at hphase
        have hle := hself.2 temp' hphase.there _ hphase.parseName_eq
        change n ≠ num' + 1
        omega
      | _ => exact trivial
    · have hphase := h.phase q
      cases hφ' : s.procs q with
      | linked c' num' temp' =>
        rw [hφ'] at hphase
        rintro rfl
        exact absent hphase.there
      | _ => exact trivial
  | @create c num temp o found =>
    have hmem : temp ∈ s.links := hself.there
    have hdistinct : ∀ q, q ≠ p → ∀ c' num', s.procs q ≠ .linked c' num' temp := by
      intro q hq c' num' hφ'
      have hq' := hapart q (Ne.symm hq)
      rw [hφ'] at hq'
      exact hq' rfl
    refine h.update trivial (fun q hq => ?_) fun q hq => trivial
    have hnew : temp ≠ newLink P := by
      intro heq
      have hparse := hself.parseName_eq
      rw [heq, parseName_newLink] at hparse
      cases hparse
    refine ((h.phase q).erase (fun _ _ _ => hnew) (hdistinct q hq)).insert
      (fun _ _ _ => makeName_ne_newLink P _) fun n hn => ?_
    rw [parseName_makeName hself.number, Option.some.injEq] at hn
    subst hn
    exact (h.phase q).allows hmem hself.parseName_eq (hdistinct q hq)
  | @prepare c target absent =>
    have hothers : ∀ q c' t', s.procs q ≠ .switching c' t' := by
      intro q c' t' hφ'
      have hphase := h.phase q
      rw [hφ'] at hphase
      have hfind : s.links.find? (newLink P) = some t' := hphase
      exact absent (SortedMap.mem_iff_find?_ne_none.mpr (by simp [hfind]))
    refine h.update ?_ (fun q _ => ?_) fun q _ => ?_
    · change (s.links.insert (newLink P) target).find? (newLink P) = some target
      rw [SortedMap.find?_insert, if_pos rfl]
    · refine (h.phase q).insert (fun c' t' hφ' => absurd hφ' (hothers q c' t')) fun n hn => ?_
      rw [parseName_newLink] at hn
      cases hn
    · cases hφ' : s.procs q with
      | switching c' t' => exact absurd hφ' (hothers q c' t')
      | _ => exact trivial
  | @switch c target t found =>
    have hothers : ∀ q, q ≠ p → ∀ c' t', s.procs q ≠ .switching c' t' := by
      intro q hq c' t' hφ'
      have hq' := hapart q (Ne.symm hq)
      rw [hφ'] at hq'
      exact hq'
    refine h.update trivial (fun q hq => ?_) fun q hq => trivial
    have herase : PhaseSound P (s.links.erase (newLink P)) (s.procs q) := by
      refine (h.phase q).erase (fun c' t' hφ' => absurd hφ' (hothers q hq c' t')) ?_
      intro c' num' hφ'
      have hphase := h.phase q
      rw [hφ'] at hphase
      have hparse := hphase.parseName_eq
      rw [parseName_newLink] at hparse
      cases hparse
    refine herase.insert (fun c' t' hφ' => absurd hφ' (hothers q hq c' t')) fun n hn => ?_
    rw [parseName_self] at hn
    cases hn
  | look phases => exact h.goto rfl rfl (by cases phases <;> rfl)
  | @delete num nums =>
    refine h.update trivial (fun q hq => ?_) fun q hq => trivial
    refine (h.phase q).erase (fun _ _ _ => makeName_ne_newLink P num) fun c' num' hφ' => ?_
    have hphase := h.phase q
    rw [hφ'] at hphase
    obtain ⟨pid, rand, hname⟩ := hphase.name
    exact makeName_ne_tempLink _ _ _ _ _ hname

end ProfileState

end Nix
