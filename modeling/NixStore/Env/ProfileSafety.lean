import NixStore.Env.ProfileSteps

/-!
# Generations are not lost

A command that creates a generation gives it a new number and does not replace a link, and an update is
based on what is installed when it switches the profile, in every run whose steps are careful: `--set`,
which does not take the lock, stays out of the way of the others, and the profile does not come back
to a target that an update has as its token.
-/

namespace Nix

/-! ### Links that a step does not change -/

namespace ProfileState

variable {P : Str} {p : ℕ} {s s' : ProfileState} {a : ProfileAction}

/-- A step changes links only where it says. -/
theorem find?_step {name : Str} (hstep : s.step P p a = some s') (hname : name ∉ s.changed P p a) :
    s'.links.find? name = s.links.find? name := by
  have hcase := step_cases hstep
  unfold changed at hname
  generalize s.procs p = φ at hcase hname
  cases hcase with
  | link absent =>
    have hne : name ≠ _ := List.ne_of_not_mem_cons hname
    exact (SortedMap.find?_insert ..).trans (if_neg hne)
  | create found =>
    obtain ⟨htemp, hmake⟩ : name ≠ _ ∧ name ≠ _ := by simpa using hname
    refine (SortedMap.find?_insert ..).trans ((if_neg hmake).trans ?_)
    exact (SortedMap.find?_erase ..).trans (if_neg htemp)
  | prepare absent =>
    have hne : name ≠ _ := List.ne_of_not_mem_cons hname
    exact (SortedMap.find?_insert ..).trans (if_neg hne)
  | switch found =>
    obtain ⟨hnew, hself⟩ : name ≠ _ ∧ name ≠ _ := by simpa using hname
    refine (SortedMap.find?_insert ..).trans ((if_neg hself).trans ?_)
    exact (SortedMap.find?_erase ..).trans (if_neg hnew)
  | delete =>
    have hne : name ≠ _ := List.ne_of_not_mem_cons hname
    exact (SortedMap.find?_erase ..).trans (if_neg hne)
  | _ => rfl

end ProfileState

/-! ### Targets of the profile -/

/-- The names that a process may make the target of the profile. -/
def ProfilePhase.targets : ProfilePhase → List Str
  | switchListed _ gens => gens.map (·.name)
  | switchStart _ target | switching _ target => [target]
  | _ => []

namespace ProfileState

variable {P : Str} {p : ℕ} {s s' : ProfileState} {a : ProfileAction}

/-- The targets are generations. -/
def TargetsSound (P : Str) (s : ProfileState) : Prop :=
  ∀ q, ∀ target ∈ (s.procs q).targets, ∃ n, parseName P target = some n

/-- A process may go on to a phase whose targets are names of generations. -/
theorem TargetsSound.goto (h : TargetsSound P s) {φ : ProfilePhase}
    (hprocs : s'.procs = Function.update s.procs p φ)
    (hφ : ∀ target ∈ φ.targets, ∃ n, parseName P target = some n) : TargetsSound P s' := by
  intro q target hmem
  rw [hprocs] at hmem
  by_cases hq : q = p
  · subst hq
    rw [Function.update_self] at hmem
    exact hφ target hmem
  · rw [Function.update_of_ne hq] at hmem
    exact h q target hmem

/-- Every step keeps the targets of the links proper. -/
theorem TargetsSound.step (h : TargetsSound P s) (hnumbers : NumbersSound P s)
    (hstep : s.step P p a = some s') : TargetsSound P s' := by
  have hcase := step_cases hstep
  have hself := h p
  have hnumber := hnumbers.phase p
  generalize s.procs p = φ at hcase hself hnumber
  have hnone : ∀ target ∈ ([] : List Str), ∃ n, parseName P target = some n := by simp
  cases hcase with
  | start c => exact h.goto rfl (by cases c <;> exact hnone)
  | acquire phases free => exact h.goto rfl (by cases phases <;> exact hnone)
  | @create c num temp o found =>
    refine h.goto rfl fun target hmem => ⟨num + 1, ?_⟩
    rw [List.mem_singleton.mp hmem]
    exact parseName_makeName hnumber.number
  | prepare absent => exact h.goto rfl hself
  | source phases => exact h.goto rfl (by cases phases <;> exact hnone)
  | look phases =>
    refine h.goto rfl ?_
    cases phases with
    | switchList perm =>
      intro target hmem
      obtain ⟨g, hg, rfl⟩ := List.mem_map.mp hmem
      exact ⟨g.number, (mem_findGenerations.mp hg).2⟩
    | choose mem =>
      intro target hmem
      rw [List.mem_singleton.mp hmem]
      exact hself _ (List.mem_map_of_mem mem)
    | deleteList perm => exact hnone
    | chooseAll => exact hnone
  | _ => exact h.goto rfl hnone

end ProfileState

/-! ### What updates are based on -/

/-- Who has checked the token holds the lock. -/
theorem ProfilePhase.holdsLock_of_checked {φ : ProfilePhase} {b : Basis} (h : φ.checked = some b) :
    φ.holdsLock = true := by
  unfold checked at h
  split at h <;> first | rfl | cases h

/-- The next phase of the same update. -/
structure ProfilePhase.Inherits (φ φ' : ProfilePhase) : Prop where
  checked : φ'.checked = φ.checked
  token : φ'.token = φ.token
  reads : φ'.reads = φ.reads

namespace ProfileState

variable {P : Str} {p : ℕ} {s s' : ProfileState} {a : ProfileAction}

/-- The tokens of updates stand for what they have read. -/
structure TokensSound (P : Str) (s : ProfileState) : Prop where
  /-- The profile does not change after the token has been compared. -/
  checked : ∀ q b, (s.procs q).checked = some b → s.token P = b.token
  reads : ∀ q, (s.procs q).token = some (s.token P) → ∀ e ∈ (s.procs q).reads, e = s.userEnv P

/-- A process goes on while the profile stays. -/
theorem TokensSound.goto (h : TokensSound P s) {φ : ProfilePhase}
    (hprocs : s'.procs = Function.update s.procs p φ) (htoken : s'.token P = s.token P)
    (henv : ∀ q, (s.procs q).token = some (s.token P) → (s.procs q).reads ≠ [] →
      s'.userEnv P = s.userEnv P)
    (hchecked : ∀ b, φ.checked = some b → s.token P = b.token)
    (hreads : φ.token = some (s.token P) → ∀ e ∈ φ.reads, e = s'.userEnv P) :
    TokensSound P s' where
  checked q b hb := by
    rw [hprocs] at hb
    rw [htoken]
    by_cases hq : q = p
    · subst hq
      rw [Function.update_self] at hb
      exact hchecked b hb
    · rw [Function.update_of_ne hq] at hb
      exact h.checked q b hb
  reads q ht e he := by
    rw [hprocs] at ht he
    rw [htoken] at ht
    by_cases hq : q = p
    · subst hq
      rw [Function.update_self] at ht he
      exact hreads ht e he
    · rw [Function.update_of_ne hq] at ht he
      rw [henv q ht (List.ne_nil_of_mem he)]
      exact h.reads q ht e he

/-- A process that is not, or no longer, an update. -/
theorem TokensSound.quit (h : TokensSound P s) {φ : ProfilePhase}
    (hprocs : s'.procs = Function.update s.procs p φ) (htoken : s'.token P = s.token P)
    (henv : ∀ q, (s.procs q).token = some (s.token P) → (s.procs q).reads ≠ [] →
      s'.userEnv P = s.userEnv P)
    (hφ : φ.checked = none ∧ φ.reads = []) : TokensSound P s' := by
  refine h.goto hprocs htoken henv (fun b hb => ?_) fun _ e he => ?_
  · rw [hφ.1] at hb
    cases hb
  · rw [hφ.2] at he
    cases he

/-- A process that goes on with its update. -/
theorem TokensSound.inherit (h : TokensSound P s) {φ : ProfilePhase}
    (hprocs : s'.procs = Function.update s.procs p φ) (htoken : s'.token P = s.token P)
    (henv : ∀ q, (s.procs q).token = some (s.token P) → (s.procs q).reads ≠ [] →
      s'.userEnv P = s.userEnv P)
    (hφ : (s.procs p).Inherits φ) : TokensSound P s' := by
  refine h.goto hprocs htoken henv (fun b hb => ?_) fun ht e he => ?_
  · rw [hφ.checked] at hb
    exact h.checked p b hb
  · rw [hφ.token] at ht
    rw [hφ.reads] at he
    rw [henv p ht (List.ne_nil_of_mem he)]
    exact h.reads p ht e he

/-- The profile stays when a step does not change its link. -/
theorem token_step (hstep : s.step P p a = some s') (hP : P ∉ s.changed P p a) :
    s'.token P = s.token P := by
  rw [token, token, find?_step hstep hP]

/-- What is behind the profile stays when the generation stays. -/
theorem userEnv_step (hstep : s.step P p a = some s') (hP : P ∉ s.changed P p a)
    (htoken : s.token P ∉ s.changed P p a) : s'.userEnv P = s.userEnv P := by
  rw [userEnv, userEnv, find?_step hstep hP]
  cases hfind : s.links.find? P with
  | none => rfl
  | some target =>
    have heq : s.token P = target := by rw [token, hfind]; rfl
    rw [heq] at htoken
    exact find?_step hstep htoken

/-- The only step that changes the link of the profile is the switch. -/
theorem notMem_changed (h : NumbersSound P s) (hφ : ∀ c target, s.procs p ≠ .switching c target) :
    P ∉ s.changed P p a := by
  have hphase := h.phase p
  have hself : ∀ {name : Str} {n : ℕ}, parseName P name = some n → P ≠ name := by
    rintro name n hn rfl
    rw [parseName_self] at hn
    cases hn
  unfold changed
  split
  next heq =>
    rw [heq] at hphase
    exact List.not_mem_cons_of_ne_of_not_mem (hself (parseName_tempLink hphase.1 _ _)) (by simp)
  next heq =>
    rw [heq] at hphase
    refine List.not_mem_cons_of_ne_of_not_mem (hself hphase.parseName_eq) ?_
    exact List.not_mem_cons_of_ne_of_not_mem (hself (parseName_makeName hphase.number)) (by simp)
  next => exact List.not_mem_cons_of_ne_of_not_mem newLink_ne_self.symm (by simp)
  next heq => exact absurd heq (hφ _ _)
  next => exact List.not_mem_cons_of_ne_of_not_mem (makeName_ne_self _).symm (by simp)
  next => simp

/-- After the switch, the profile leads where the new target leads. -/
theorem userEnv_switch {c : Cause} {target : Str} (htargets : TargetsSound P s)
    (hφ : s.procs p = .switching c target) (hfind : s'.links.find? P = some target)
    (hstep : s.step P p a = some s') : s'.userEnv P = s.links.find? target := by
  obtain ⟨n, hn⟩ := htargets p target (by rw [hφ]; exact List.mem_singleton_self _)
  have hname : target ∉ s.changed P p a := by
    unfold changed
    rw [hφ]
    split
    case h_4 =>
      refine List.not_mem_cons_of_ne_of_not_mem ?_ (List.not_mem_cons_of_ne_of_not_mem ?_ (by simp))
      · rintro rfl
        rw [parseName_newLink] at hn
        cases hn
      · rintro rfl
        rw [parseName_self] at hn
        cases hn
    case h_6 => simp
    all_goals simp_all
  rw [userEnv, hfind]
  exact find?_step hstep hname

/-- A careful switch of the profile keeps the tokens sound. -/
theorem tokensSound_switch {c : Cause} {target : Str} (hlock : s.LockSound)
    (htargets : TargetsSound P s) (hcareful : s.Careful P p .next)
    (hφ : s.procs p = .switching c target) (hprocs : s'.procs = Function.update s.procs p .finishing)
    (hfind : s'.links.find? P = some target) (hstep : s.step P p .next = some s') :
    TokensSound P s' := by
  have htoken : s'.token P = target := by rw [token, hfind]; rfl
  have hnone : ∀ q, q ≠ p → (s.procs q).checked = none := by
    intro q hq
    cases c with
    | set => exact hcareful.switch hφ rfl q
    | _ =>
      -- the other process would have the lock as well
      by_contra hne
      obtain ⟨b, hb⟩ := Option.ne_none_iff_exists'.mp hne
      exact hq (hlock.eq (ProfilePhase.holdsLock_of_checked hb) (by rw [hφ]; rfl))
  constructor
  · intro q b hb
    rw [hprocs] at hb
    by_cases hq : q = p
    · rw [hq, Function.update_self] at hb
      cases hb
    · rw [Function.update_of_ne hq, hnone q hq] at hb
      cases hb
  · intro q ht e he
    rw [hprocs] at ht he
    by_cases hq : q = p
    · rw [hq, Function.update_self] at ht
      cases ht
    · rw [Function.update_of_ne hq] at ht he
      rw [htoken] at ht
      rw [userEnv_switch htargets hφ hfind hstep]
      exact hcareful.token hφ rfl hq ht e he

/-- Careful steps keep the tokens sound. -/
theorem TokensSound.step (h : TokensSound P s) (hlock : s.LockSound) (hnumbers : NumbersSound P s)
    (htargets : TargetsSound P s) (hstep : s.step P p a = some s') (hcareful : s.Careful P p a) :
    TokensSound P s' := by
  have hcase := step_cases hstep
  generalize hφ : s.procs p = φ at hcase
  have hkeep : (∀ c target, φ ≠ .switching c target) → s'.token P = s.token P ∧
      ∀ q, (s.procs q).token = some (s.token P) → (s.procs q).reads ≠ [] →
        s'.userEnv P = s.userEnv P := by
    intro hne
    rw [← hφ] at hne
    have hP : P ∉ s.changed P p a := notMem_changed hnumbers hne
    exact ⟨token_step hstep hP, fun q ht hr => userEnv_step hstep hP (hcareful.generation ht hr)⟩
  have hsame : ∀ q, (s.procs q).token = some (s.token P) → (s.procs q).reads ≠ [] →
      s.userEnv P = s.userEnv P := fun _ _ _ => rfl
  have hinherit : ∀ {φ'}, s'.procs = Function.update s.procs p φ' →
      (∀ c target, φ ≠ .switching c target) → φ.Inherits φ' → TokensSound P s' := by
    intro φ' hprocs hne hφ'
    obtain ⟨htoken, henv⟩ := hkeep hne
    rw [← hφ] at hφ'
    exact h.inherit hprocs htoken henv hφ'
  cases hcase with
  | start c => exact h.quit rfl rfl hsame (by cases c <;> exact ⟨rfl, rfl⟩)
  | leave done => exact h.quit rfl rfl hsame ⟨rfl, rfl⟩
  | source phases =>
    cases phases with
    | before => exact h.quit rfl rfl hsame ⟨rfl, rfl⟩
    | building => exact hinherit rfl (by simp) ⟨rfl, rfl, rfl⟩
  | readToken => exact h.quit rfl rfl hsame ⟨rfl, rfl⟩
  | find =>
    refine h.goto rfl rfl hsame (fun b hb => by cases hb) fun _ e he => ?_
    exact List.mem_singleton.mp he
  | miss =>
    refine h.goto rfl rfl hsame (fun b hb => by cases hb) fun _ e he => ?_
    exact List.mem_singleton.mp he
  | @read t e₀ cache base found =>
    refine h.goto rfl rfl hsame (fun b hb => by cases hb) fun ht e he => ?_
    rcases List.mem_cons.mp he with rfl | he
    · exact h.reads p (by rw [hφ]; exact ht) e (by rw [hφ]; exact List.mem_singleton_self _)
    · rw [List.mem_singleton.mp he]
      cases cache with
      | none => exact found.symm
      | some e' =>
        cases found
        exact (hcareful.cached hφ rfl (Option.some.inj ht).symm).symm
  | @readOld t e₀ =>
    refine h.goto rfl rfl hsame (fun b hb => by cases hb) fun ht e he => ?_
    rcases List.mem_cons.mp he with rfl | he
    · exact h.reads p (by rw [hφ]; exact ht) e (by rw [hφ]; exact List.mem_singleton_self _)
    · exact List.mem_singleton.mp he
  | build => exact hinherit rfl (by simp) ⟨rfl, rfl, rfl⟩
  | acquire phases free =>
    cases phases with
    | update => exact hinherit rfl (by simp) ⟨rfl, rfl, rfl⟩
    | _ => exact h.quit rfl rfl hsame ⟨rfl, rfl⟩
  | @compare b o _ same =>
    refine h.goto rfl rfl hsame (fun b' hb' => ?_) fun ht e he => ?_
    · cases hb'
      exact same
    · exact h.reads p (by rw [hφ]; exact ht) e (by rw [hφ]; exact he)
  | restart => exact h.quit rfl rfl hsame ⟨rfl, rfl⟩
  | @list c => exact hinherit rfl (by simp) (by cases c <;> exact ⟨rfl, rfl, rfl⟩)
  | @link c => exact hinherit rfl (by simp) (by cases c <;> exact ⟨rfl, rfl, rfl⟩)
  | @create c => exact hinherit rfl (by simp) (by cases c <;> exact ⟨rfl, rfl, rfl⟩)
  | @prepare c => exact hinherit rfl (by simp) (by cases c <;> exact ⟨rfl, rfl, rfl⟩)
  | @switch c target t found =>
    have hphase := hnumbers.phase p
    rw [hφ] at hphase
    have heq : some t = some target := found.symm.trans hphase
    cases heq
    exact tokensSound_switch hlock htargets hcareful hφ rfl
      ((SortedMap.find?_insert ..).trans (if_pos rfl)) hstep
  | look phases => exact h.quit rfl rfl hsame (by cases phases <;> exact ⟨rfl, rfl⟩)
  | delete =>
    obtain ⟨htoken, henv⟩ := hkeep (by simp)
    exact h.quit rfl htoken henv ⟨rfl, rfl⟩

/-! ### Runs -/

/-- What holds in every state that careful steps reach. -/
structure Invariant (P : Str) (s : ProfileState) : Prop where
  lock : s.LockSound
  numbers : NumbersSound P s
  targets : TargetsSound P s
  tokens : TokensSound P s

/-- Careful steps keep the invariant. -/
theorem Invariant.step (h : Invariant P s) (hcareful : s.Careful P p a)
    (hstep : s.step P p a = some s') : Invariant P s' where
  lock := h.lock.step hstep
  numbers := h.numbers.step h.lock hstep hcareful
  targets := h.targets.step h.numbers hstep
  tokens := h.tokens.step h.lock h.numbers h.targets hstep hcareful

/-- The invariant holds at the start. -/
theorem invariant_initial (links : SortedMap Str Path) : Invariant P (initial links) where
  lock q hq := by cases hq
  numbers := ⟨fun _ => trivial, fun _ _ _ => trivial⟩
  targets q target hmem := by cases hmem
  tokens := ⟨by rintro q b ⟨⟩, by rintro q ⟨⟩⟩

/-- The states that careful steps reach. -/
inductive Reaches (P : Str) (links : SortedMap Str Path) : ProfileState → Prop
  | initial : Reaches P links (initial links)
  | step {s s' : ProfileState} {p : ℕ} {a : ProfileAction} (reaches : Reaches P links s)
      (careful : s.Careful P p a) (step : s.step P p a = some s') : Reaches P links s'

/-- The invariant holds in every state that careful steps reach. -/
theorem Reaches.invariant {links : SortedMap Str Path} (h : Reaches P links s) : Invariant P s := by
  induction h with
  | initial => exact invariant_initial links
  | step reaches careful step ih => exact ih.step careful step

/-- A step that loses no generation and no update. -/
structure StepKeeps (P : Str) (p : ℕ) (a : ProfileAction) (s s' : ProfileState) : Prop where
  /-- A new generation has a number that no other one has. -/
  fresh : ∀ {c num temp}, s.procs p = .linked c num temp → a = .next →
    ∀ name ∈ s'.links, name ≠ makeName P (num + 1) → parseName P name ≠ some (num + 1)
  /-- There was no link with its name. -/
  unused : ∀ {c num temp}, s.procs p = .linked c num temp → a = .next →
    makeName P (num + 1) ∉ s.links
  /-- The other links stay. -/
  kept : ∀ {c num temp}, s.procs p = .linked c num temp → a = .next →
    ∀ name ∈ s.links, name ≠ temp → s'.links.find? name = s.links.find? name
  /-- An update is based on the manifest of the current generation. -/
  based : ∀ {b target}, s.procs p = .switching (.update b) target → a = .next →
    s.token P = b.token ∧ b.seen = s.userEnv P ∧ b.base = s.userEnv P
  /-- The profile is switched to the new generation. -/
  switched : ∀ {c target}, s.procs p = .switching c target → a = .next →
    s'.links.find? P = some target

/-- The new generation has no link yet. -/
theorem TempSound.notMem {links : SortedMap Str Path} {num : ℕ} {temp : Str}
    (h : TempSound P links num temp) : makeName P (num + 1) ∉ links := by
  intro hmem
  obtain ⟨pid, rand, hname⟩ := h.name
  have hne : makeName P (num + 1) ≠ temp := by
    rw [hname]
    exact makeName_ne_tempLink P _ _ _ _
  exact h.fresh _ hmem hne (parseName_makeName h.number)

/-- The links after the step that creates a generation. -/
theorem links_create {c : Cause} {num : ℕ} {temp : Str} (hφ : s.procs p = .linked c num temp)
    (hstep : s.step P p .next = some s') :
    ∃ o, s'.links = (s.links.erase temp).insert (makeName P (num + 1)) o := by
  have hcase := step_cases hstep
  rw [hφ] at hcase
  cases hcase with
  | leave done => simp at done
  | acquire phases free => cases phases
  | @create _ _ _ o found => exact ⟨o, rfl⟩
  | look phases => cases phases

/-- The links after the step that switches the profile. -/
theorem find?_switch {c : Cause} {target : Str} (hφ : s.procs p = .switching c target)
    (hfind : s.links.find? (newLink P) = some target) (hstep : s.step P p .next = some s') :
    s'.links.find? P = some target := by
  have hcase := step_cases hstep
  rw [hφ] at hcase
  cases hcase with
  | leave done => simp at done
  | acquire phases free => cases phases
  | @switch _ _ t found =>
    rw [← hfind, found]
    exact (SortedMap.find?_insert ..).trans (if_pos rfl)
  | look phases => cases phases

/-- Every step of a careful run keeps what it should. -/
theorem stepKeeps_of_reaches {links : SortedMap Str Path} (h : Reaches P links s)
    (hstep : s.step P p a = some s') : StepKeeps P p a s s' := by
  have hinv := h.invariant
  have hphase := hinv.numbers.phase p
  constructor
  · rintro c num temp hφ rfl name hname hne
    rw [hφ] at hphase
    obtain ⟨o, hlinks⟩ := links_create hφ hstep
    rw [hlinks, SortedMap.mem_insert, SortedMap.mem_erase] at hname
    rcases hname with heq | ⟨htemp, hmem⟩
    · exact absurd heq hne
    · exact TempSound.fresh hphase name hmem htemp
  · rintro c num temp hφ rfl
    rw [hφ] at hphase
    exact TempSound.notMem hphase
  · rintro c num temp hφ rfl name hname hne
    rw [hφ] at hphase
    refine find?_step hstep ?_
    unfold changed
    rw [hφ]
    refine List.not_mem_cons_of_ne_of_not_mem hne (List.not_mem_cons_of_ne_of_not_mem ?_ (by simp))
    rintro rfl
    exact TempSound.notMem hphase hname
  · rintro b target hφ rfl
    have htoken := hinv.tokens.checked p b (by rw [hφ]; rfl)
    have hreads := hinv.tokens.reads p (by rw [hφ, htoken]; rfl)
    rw [hφ] at hreads
    have hmem : b.base ∈ [b.seen, b.base] := by simp
    exact ⟨htoken, hreads _ (List.mem_cons_self ..), hreads _ hmem⟩
  · rintro c target hφ rfl
    rw [hφ] at hphase
    exact find?_switch hφ hphase hstep

/-- What a process that runs alone has to watch. -/
def carefulAlone (P : Str) (p : ℕ) (a : ProfileAction) (s : ProfileState) : Bool :=
  (s.links.keys.all fun name => (parseName P name).all fun n => n + 1 < 2 ^ 31) &&
    decide (s.token P ∉ s.changed P p a) &&
    match s.procs p with
    | .manifestFound _ _ (some env) => decide (s.userEnv P = some env)
    | _ => true

/-- Where the other processes are idle, the test for being careful is enough. -/
theorem careful_of_alone (halone : ∀ q, q ≠ p → s.procs q = .idle)
    (h : s.carefulAlone P p a = true) : s.Careful P p a := by
  rw [carefulAlone, Bool.and_eq_true, Bool.and_eq_true, decide_eq_true_eq, List.all_eq_true] at h
  obtain ⟨h, hcached⟩ := h
  refine ⟨?_, ?_, ?_, ?_, ?_, ?_⟩
  · intro c o names q c' o' num _ _ hq hφ'
    rw [halone q hq] at hφ'
    cases hφ'
  · intro c o names _ _ name hname n hn
    have hbound := h.1 name hname
    rw [hn] at hbound
    exact of_decide_eq_true hbound
  · intro target hφ _ q
    by_cases hq : q = p
    · rw [hq, hφ]
      rfl
    · rw [halone q hq]
      rfl
  · intro c target q _ _ hq ht
    rw [halone q hq] at ht
    cases ht
  · intro q _ _
    exact h.2
  · intro t e env hφ _ _
    rw [hφ] at hcached
    exact of_decide_eq_true hcached

/-- A process runs alone. -/
def runAlone (P : Str) (p : ℕ) : List ProfileAction → ProfileState → Option ProfileState
  | [], s => some s
  | a :: rest, s => if s.carefulAlone P p a then (s.step P p a).bind (runAlone P p rest) else none

/-- A run of one process while the others are idle is reached. -/
theorem reaches_runAlone {links : SortedMap Str Path} (h : Reaches P links s)
    (halone : ∀ q, q ≠ p → s.procs q = .idle) {actions : List ProfileAction}
    (hrun : s.runAlone P p actions = some s') : Reaches P links s' := by
  induction actions generalizing s with
  | nil => exact Option.some.inj hrun ▸ h
  | cons a rest ih =>
    rw [runAlone] at hrun
    split_ifs at hrun with hcareful
    obtain ⟨t, hstep, hrun⟩ := Option.bind_eq_some_iff.mp hrun
    refine ih (h.step (careful_of_alone halone hcareful) hstep) (fun q hq => ?_) hrun
    rw [procs_step hstep hq]
    exact halone q hq

/-- A profile with one generation. -/
def sampleLinks : SortedMap Str Path :=
  ((∅ : SortedMap Str Path).insert (str "p-1-link") (str "/e1")).insert (str "p") (str "p-1-link")

/-- What an update does before it looks for a number. -/
def sampleUpdate (outPath : Path) (found : Bool) : List ProfileAction :=
  [.start .update, .next, .look found, .next, .build outPath, .next, .next]

/-- What creates a generation with the lock, and switches the profile to it. -/
def sampleSwitch (names : List Str) (rand : ℕ) : List ProfileAction :=
  [.list names, .link rand, .next, .next, .next, .next]

/-- The basis of an update of that profile. -/
def sampleBasis : Basis := ⟨str "p-1-link", some (str "/e1"), some (str "/e1")⟩

/-- A sample step that switches the profile. -/
theorem stepKeeps_of_reaches_sample : ∃ s s', Reaches (str "p") sampleLinks s ∧
    s.procs 0 = .switching (.update sampleBasis) (str "p-2-link") ∧
    s.step (str "p") 0 .next = some s' ∧ StepKeeps (str "p") 0 .next s s' := by
  have hrun : ((initial sampleLinks).runAlone (str "p") 0
      (sampleUpdate (str "/e2") true ++ [.list [str "p", str "p-1-link"], .link 7, .next, .next])).any
      (fun s => decide (s.procs 0 = .switching (.update sampleBasis) (str "p-2-link")) &&
        (s.step (str "p") 0 .next).isSome) = true := by decide
  obtain ⟨s, hs, hrest⟩ := (Option.any_eq_true _ _).mp hrun
  rw [Bool.and_eq_true, decide_eq_true_eq, Option.isSome_iff_exists] at hrest
  obtain ⟨hφ, s', hstep⟩ := hrest
  have hreaches := reaches_runAlone .initial (fun _ _ => rfl) hs
  exact ⟨s, s', hreaches, hφ, hstep, stepKeeps_of_reaches hreaches hstep⟩

/-- Two updates.  The first one has read the manifest when the second one switches the profile, and
starts again. -/
def restartActions : List (ℕ × ProfileAction) :=
  ((sampleUpdate (str "/e2") true).take 5).map (0, ·) ++
    (sampleUpdate (str "/e3") true ++ sampleSwitch [str "p", str "p-1-link"] 5).map (1, ·) ++
    (([.next, .next] : List ProfileAction) ++ (sampleUpdate (str "/e4") true).tail ++
      (sampleSwitch [str "p", str "p-1-link", str "p-2-link"] 7).take 4).map (0, ·)

/-- `--set` creates a generation while an update is between its number and its link. -/
def setActions : List (ℕ × ProfileAction) :=
  (sampleUpdate (str "/e2") true).map (0, ·) ++
    [(0, .list [str "p", str "p-1-link"]), (1, .start (.set (str "/e3"))),
      (1, .list [str "p", str "p-1-link"]), (1, .link 5), (1, .next), (1, .next), (1, .next),
      (1, .next), (0, .link 7)]

/-- The current generation is deleted and created again before an update compares its token. -/
def deleteActions : List (ℕ × ProfileAction) :=
  ((sampleUpdate (str "/e2") true).take 5).map (0, ·) ++
    [(1, .start (.deleteGenerations [.number 1])), (1, .next),
      (1, .list [str "p", str "p-1-link"]), (1, .next), (1, .next), (1, .next)] ++
    (sampleUpdate (str "/e3") false ++ sampleSwitch [str "p"] 5).map (1, ·) ++
    (([.next, .next] : List ProfileAction) ++ (sampleSwitch [str "p", str "p-1-link"] 7).take 4).map (0, ·)

/-- An update that starts again takes the old manifest from the cache and undoes another update; `--set`
and an update make the same generation; and an update does not see that the generation behind its token
is another one. -/
theorem exists_not_stepKeeps :
    (∃ s s', run (str "p") restartActions (initial sampleLinks) = some s ∧
      s.step (str "p") 0 .next = some s' ∧ s.userEnv (str "p") = some (str "/e3") ∧
      s.procs 0 = .switching (.update ⟨str "p-2-link", some (str "/e3"), some (str "/e1")⟩)
        (str "p-3-link") ∧ ¬StepKeeps (str "p") 0 .next s s') ∧
    (∃ s s', run (str "p") setActions (initial sampleLinks) = some s ∧
      s.step (str "p") 0 .next = some s' ∧ s.links.find? (str "p-2-link") = some (str "/e3") ∧
      s'.links.find? (str "p-2-link") = some (str "/e2") ∧ ¬StepKeeps (str "p") 0 .next s s') ∧
    ∃ s s', run (str "p") deleteActions (initial sampleLinks) = some s ∧
      s.step (str "p") 0 .next = some s' ∧ s.userEnv (str "p") = some (str "/e3") ∧
      s.procs 0 = .switching (.update sampleBasis) (str "p-2-link") ∧
      ¬StepKeeps (str "p") 0 .next s s' := by
  refine ⟨?_, ?_, ?_⟩
  · have hrun : (run (str "p") restartActions (initial sampleLinks)).any (fun s =>
        decide (s.userEnv (str "p") = some (str "/e3")) &&
        decide (s.procs 0 = .switching (.update ⟨str "p-2-link", some (str "/e3"),
          some (str "/e1")⟩) (str "p-3-link")) &&
        (s.step (str "p") 0 .next).isSome) = true := by decide
    obtain ⟨s, hs, hrest⟩ := (Option.any_eq_true _ _).mp hrun
    simp only [Bool.and_eq_true, decide_eq_true_eq, Option.isSome_iff_exists] at hrest
    obtain ⟨⟨henv, hφ⟩, s', hstep⟩ := hrest
    refine ⟨s, s', hs, hstep, henv, hφ, fun h => ?_⟩
    have hbase := (h.based hφ rfl).2.2
    rw [henv] at hbase
    exact absurd hbase (by decide)
  · have hrun : (run (str "p") setActions (initial sampleLinks)).any (fun s =>
        decide (s.procs 0 = .linked (.update sampleBasis) 1
          (tempLink (makeName (str "p") 2) 0 7)) &&
        decide (makeName (str "p") 2 ∈ s.links) &&
        decide (s.links.find? (str "p-2-link") = some (str "/e3")) &&
        (s.step (str "p") 0 .next).any fun s' =>
          decide (s'.links.find? (str "p-2-link") = some (str "/e2"))) = true := by decide
    obtain ⟨s, hs, hrest⟩ := (Option.any_eq_true _ _).mp hrun
    simp only [Bool.and_eq_true, decide_eq_true_eq, Option.any_eq_true] at hrest
    obtain ⟨⟨⟨hφ, hmem⟩, hold⟩, s', hstep, hnew⟩ := hrest
    exact ⟨s, s', hs, hstep, hold, hnew, fun h => h.unused hφ rfl hmem⟩
  · have hrun : (run (str "p") deleteActions (initial sampleLinks)).any (fun s =>
        decide (s.userEnv (str "p") = some (str "/e3")) &&
        decide (s.procs 0 = .switching (.update sampleBasis) (str "p-2-link")) &&
        (s.step (str "p") 0 .next).isSome) = true := by decide
    obtain ⟨s, hs, hrest⟩ := (Option.any_eq_true _ _).mp hrun
    simp only [Bool.and_eq_true, decide_eq_true_eq, Option.isSome_iff_exists] at hrest
    obtain ⟨⟨henv, hφ⟩, s', hstep⟩ := hrest
    refine ⟨s, s', hs, hstep, henv, hφ, fun h => ?_⟩
    have hbase := (h.based hφ rfl).2.2
    rw [henv] at hbase
    exact absurd hbase (by decide)

end ProfileState

end Nix
