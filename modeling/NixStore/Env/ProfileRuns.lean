import NixStore.Env.ProfileSteps

/-!
# Commands one after another

When every command of `nix-env` starts after the one before has ended, the profile leads to a generation,
and the generations are the links that have been created and not deleted, unless a command deletes the
current generation by its number or the numbers run out.
-/

namespace Nix

namespace ProfileState

variable {P : Str} {p : ℕ} {s s' : ProfileState} {a : ProfileAction} {live : SortedSet Str}

/-! ### Runs of commands -/

/-- The generation links that have been created and not yet deleted, after a step. -/
def recordLinks (P : Str) (p : ℕ) (a : ProfileAction) (s : ProfileState) (live : SortedSet Str) :
    SortedSet Str :=
  match a, s.procs p with
  | .next, .linked _ num _ => live.insert (makeName P (num + 1))
  | .next, .deleting (num :: _) => live.erase (makeName P num)
  | _, _ => live

/-- A command starts when no other one runs.  It can fail at any moment, but it is not killed between
the two system calls that create a link. -/
structure InTurn (p : ℕ) (a : ProfileAction) (s : ProfileState) : Prop where
  alone : ∀ c, a = .start c → ∀ q, s.procs q = .idle
  whole : ∀ c num temp, s.procs p = .linked c num temp → a ≠ .exit

/-- The commands do not delete the current generation by its number, and there is a larger number for a
new one. -/
structure Spares (P : Str) (p : ℕ) (a : ProfileAction) (s : ProfileState) : Prop where
  current : ∀ {args gens}, s.procs p = .deleteListed args gens → a = .next →
    ∀ n : ℕ, .number n ∈ args → (n : ℤ) ≠ s.curGen P
  number : ∀ {c o names}, s.procs p = .listing c o → a = .list names →
    ∀ name ∈ s.links, ∀ n, parseName P name = some n → n + 1 < 2 ^ 31

/-- The states that commands reach one after another, in steps that all meet a condition, with the
generation links that have been created and not yet deleted. -/
inductive Serial (P : Str) (cond : ℕ → ProfileAction → ProfileState → Prop)
    (links : SortedMap Str Path) : ProfileState → SortedSet Str → Prop
  | initial : Serial P cond links (initial links) ∅
  | step {s s' : ProfileState} {live : SortedSet Str} {p : ℕ} {a : ProfileAction}
      (serial : Serial P cond links s live) (turn : s.InTurn p a) (met : cond p a s)
      (step : s.step P p a = some s') : Serial P cond links s' (s.recordLinks P p a live)

/-- The profile leads to a generation link that exists. -/
def Leads (P : Str) (s : ProfileState) : Prop :=
  ∀ target, s.links.find? P = some target → target ∈ s.links ∧ ∃ n, target = makeName P n

/-- What `findGenerations` reports: the generation links that have been created and not yet deleted,
with their numbers, and if there is a profile, the current one among them. -/
structure Reports (P : Str) (s : ProfileState) (live : SortedSet Str) (names : List Str) : Prop where
  links : ((findGenerations P names).map (·.name)).Perm live.toList
  numbers : ∀ g ∈ findGenerations P names, g.name = makeName P g.number
  current : ∀ target, s.links.find? P = some target →
    ∃ g ∈ findGenerations P names, g.name = target ∧ s.curGen P = g.number

/-! ### The invariant -/

/-- What holds of a process in a phase. -/
def PhaseFits (P : Str) (s : ProfileState) (live : SortedSet Str) : ProfilePhase → Prop
  | .linking _ _ num => num + 1 < 2 ^ 31
  | .linked _ num temp => num + 1 < 2 ^ 31 ∧
    ∃ pid rand, temp = tempLink (makeName P (num + 1)) pid rand
  | .switchStart _ target => target ∈ live
  | .switching _ target => s.links.find? (newLink P) = some target ∧ target ∈ live
  | .switchListed _ gens => ∀ g ∈ gens, g.name ∈ live
  | .deleteListed _ gens => ∀ g ∈ gens, g.number < 2 ^ 31
  | .deleting nums => ∀ n ∈ nums, n < 2 ^ 31 ∧ (n : ℤ) ≠ s.curGen P
  | _ => True

/-- The invariant of runs of commands one after another. -/
structure SerialInv (P : Str) (s : ProfileState) (live : SortedSet Str) : Prop where
  /-- Only one process does something. -/
  alone : ∀ p q, s.procs p ≠ .idle → s.procs q ≠ .idle → p = q
  /-- The links with a number. -/
  links : ∀ name ∈ s.links, ∀ n, parseName P name = some n →
    name ∈ live ∨ ∃ p c num, s.procs p = .linked c num name
  there : ∀ name ∈ live, name ∈ s.links ∧ ∃ n < 2 ^ 31, name = makeName P n
  current : ∀ target, s.links.find? P = some target → target ∈ live
  phase : ∀ p, PhaseFits P s live (s.procs p)

/-- The number of the current generation. -/
theorem curGen_of_find? {n : ℕ} (hn : n < 2 ^ 31) (h : s.links.find? P = some (makeName P n)) :
    s.curGen P = n := by
  rw [curGen, h, Option.bind_some, parseName_makeName hn]

/-- Between commands the profile leads to a generation. -/
theorem SerialInv.leads (h : SerialInv P s live) : Leads P s := by
  intro target ht
  obtain ⟨hmem, n, -, hname⟩ := h.there target (h.current target ht)
  exact ⟨hmem, n, hname⟩

/-- The generations that are found occur once. -/
theorem nodup_map_findGenerations {names : List Str} (h : names.Nodup) :
    ((findGenerations P names).map (·.name)).Nodup := by
  have hperm := (List.perm_insertionSort numberLE (names.filterMap fun name =>
    (parseName P name).map fun n => (⟨n, name⟩ : Generation))).map (·.name)
  refine hperm.nodup_iff.mpr ?_
  have hsub : ((names.filterMap fun name => (parseName P name).map fun n =>
      (⟨n, name⟩ : Generation)).map (·.name)).Sublist names := by
    induction names with
    | nil => exact .slnil
    | cons name names ih =>
      have hrest := ih (List.nodup_cons.mp h).2 ((List.perm_insertionSort _ _).map _)
      cases hparse : parseName P name with
      | none => simpa [hparse] using hrest.cons name
      | some n => simpa [hparse] using hrest.cons_cons name
  exact hsub.nodup h

/-- Between commands the live generations are those that are reported. -/
theorem SerialInv.reports (h : SerialInv P s live) (hidle : ∀ q, s.procs q = .idle)
    {names : List Str} (hperm : names.Perm s.links.keys) : Reports P s live names := by
  have hlive : ∀ g ∈ findGenerations P names, g.name ∈ live := by
    intro g hg
    obtain ⟨hname, hn⟩ := mem_findGenerations.mp hg
    rcases h.links g.name (hperm.mem_iff.mp hname) _ hn with hmem | ⟨p, c, num, hφ⟩
    · exact hmem
    · rw [hidle p] at hφ
      cases hφ
  have hfound : ∀ name ∈ live, ∃ n < 2 ^ 31, name = makeName P n ∧
      ⟨n, name⟩ ∈ findGenerations P names := by
    intro name hname
    obtain ⟨hmem, n, hn, rfl⟩ := h.there name hname
    exact ⟨n, hn, rfl, mem_findGenerations.mpr ⟨hperm.mem_iff.mpr hmem, parseName_makeName hn⟩⟩
  refine ⟨?_, fun g hg => ?_, fun target ht => ?_⟩
  · refine (List.perm_ext_iff_of_nodup (nodup_map_findGenerations
      (hperm.nodup_iff.mpr s.links.keys_nodup)) (SortedMap.keys_nodup live)).mpr fun name => ?_
    rw [List.mem_map]
    change _ ↔ name ∈ live
    constructor
    · rintro ⟨g, hg, rfl⟩
      exact hlive g hg
    · intro hname
      obtain ⟨n, -, -, hg⟩ := hfound name hname
      exact ⟨_, hg, rfl⟩
  · obtain ⟨n, hn, hname, -⟩ := hfound g.name (hlive g hg)
    obtain ⟨-, hparse⟩ := mem_findGenerations.mp hg
    rw [hname, parseName_makeName hn, Option.some.injEq] at hparse
    rw [← hparse, hname]
  · obtain ⟨n, hn, rfl, hg⟩ := hfound target (h.current target ht)
    exact ⟨_, hg, rfl, curGen_of_find? hn ht⟩

/-! ### The steps -/

/-- A process goes on while the others do nothing. -/
theorem SerialInv.update (hothers : ∀ q, q ≠ p → s.procs q = .idle) {links : SortedMap Str Path}
    {lock : Option ℕ} {φ : ProfilePhase}
    (hlinks : ∀ name ∈ links, ∀ n, parseName P name = some n →
      name ∈ live ∨ ∃ c num, φ = .linked c num name)
    (hthere : ∀ name ∈ live, name ∈ links ∧ ∃ n < 2 ^ 31, name = makeName P n)
    (hcurrent : ∀ target, links.find? P = some target → target ∈ live)
    (hphase : PhaseFits P (s.setLinks links) live φ) :
    SerialInv P ⟨links, lock, Function.update s.procs p φ⟩ live where
  alone q q' hq hq' := by
    have hself : ∀ q, Function.update s.procs p φ q ≠ .idle → q = p := by
      intro q hq
      by_contra hne
      rw [Function.update_of_ne hne] at hq
      exact hq (hothers q hne)
    rw [hself q hq, hself q' hq']
  links name hname n hn := by
    rcases hlinks name hname n hn with hmem | ⟨c, num, rfl⟩
    · exact Or.inl hmem
    · exact Or.inr ⟨p, c, num, Function.update_self ..⟩
  there := hthere
  current := hcurrent
  phase q := by
    by_cases hq : q = p
    · subst hq
      change PhaseFits P _ live (Function.update s.procs q φ q)
      rw [Function.update_self]
      exact hphase
    · change PhaseFits P _ live (Function.update s.procs p φ q)
      rw [Function.update_of_ne hq, hothers q hq]
      exact trivial

/-- A link with a number is a generation, unless it is the one that is being created. -/
theorem SerialInv.mem_live (h : SerialInv P s live) (hothers : ∀ q, q ≠ p → s.procs q = .idle)
    {name : Str} (hlinked : ∀ c num, s.procs p ≠ .linked c num name) (hname : name ∈ s.links) {n : ℕ}
    (hn : parseName P name = some n) : name ∈ live := by
  rcases h.links name hname n hn with hmem | ⟨q, c, num, hφ⟩
  · exact hmem
  · by_cases hq : q = p
    · exact absurd (hq ▸ hφ) (hlinked c num)
    · rw [hothers q hq] at hφ
      cases hφ

/-- A process that is not in the middle of creating a link goes on and leaves the links alone. -/
theorem SerialInv.goto (h : SerialInv P s live) (hothers : ∀ q, q ≠ p → s.procs q = .idle)
    (hlinked : ∀ c num name, s.procs p ≠ .linked c num name) {lock : Option ℕ} {φ : ProfilePhase}
    (hphase : PhaseFits P s live φ) :
    SerialInv P ⟨s.links, lock, Function.update s.procs p φ⟩ live := by
  exact SerialInv.update hothers
    (fun name hname n hn => Or.inl (h.mem_live hothers (fun c num => hlinked c num name) hname hn))
    h.there h.current hphase

/-- The numbers that a command deletes are those of generations, and not that of the current one. -/
theorem ne_curGen_of_mem_numbersToDelete {args : List DeleteArg} {curGen : ℤ}
    {gens : List Generation} (hargs : ∀ n : ℕ, .number n ∈ args → (n : ℤ) ≠ curGen) :
    ∀ n ∈ numbersToDelete args curGen gens, (∃ g ∈ gens, g.number = n) ∧ (n : ℤ) ≠ curGen := by
  intro n hn
  obtain ⟨arg, harg, hn⟩ := List.mem_flatMap.mp hn
  cases arg with
  | old =>
    obtain ⟨g, hg, rfl⟩ := List.mem_map.mp hn
    obtain ⟨hmem, hne⟩ := List.mem_filter.mp hg
    exact ⟨⟨g, hmem, rfl⟩, of_decide_eq_true hne⟩
  | number m =>
    dsimp only at hn
    split_ifs at hn with hany
    · obtain ⟨g, hg, heq⟩ := List.any_eq_true.mp hany
      rw [List.mem_singleton.mp hn]
      exact ⟨⟨g, hg, of_decide_eq_true heq⟩, hargs m harg⟩
    · cases hn

/-- While one process is at work the others are idle. -/
theorem SerialInv.others (h : SerialInv P s live) (hp : s.procs p ≠ .idle) :
    ∀ q, q ≠ p → s.procs q = .idle := by
  intro q hq
  by_contra hne
  exact hq (h.alone q p hne hp)

/-- A live generation is no temporary link. -/
theorem SerialInv.ne_tempLink (h : SerialInv P s live) {name : Str} (hname : name ∈ live)
    (m pid rand : ℕ) : name ≠ tempLink (makeName P m) pid rand := by
  obtain ⟨-, n, -, rfl⟩ := h.there name hname
  exact makeName_ne_tempLink P n m pid rand

/-- A live generation is not the new link. -/
theorem SerialInv.ne_newLink (h : SerialInv P s live) {name : Str} (hname : name ∈ live) :
    name ≠ newLink P := by
  obtain ⟨-, n, -, rfl⟩ := h.there name hname
  exact makeName_ne_newLink P n

/-- The profile is not one of the links with a number. -/
theorem ne_of_parseName {name : Str} {n : ℕ} (hn : parseName P name = some n) : P ≠ name := by
  rintro rfl
  rw [parseName_self] at hn
  cases hn

/-- The temporary link of a new generation is made. -/
theorem SerialInv.link (h : SerialInv P s live) {c : Cause} {o : Path} {num : ℕ}
    (hφ : s.procs p = .linking c o num) (rand : ℕ) :
    SerialInv P ((s.setLinks (s.links.insert (tempLink (makeName P (num + 1)) p rand) o)).goto p
      (.linked c num (tempLink (makeName P (num + 1)) p rand))) live := by
  have hothers := h.others (p := p) (by rw [hφ]; simp)
  have hphase := h.phase p
  rw [hφ] at hphase
  have hne := ne_of_parseName (parseName_tempLink (P := P) hphase p rand)
  refine SerialInv.update hothers (fun name hname n hn => ?_) (fun name hname => ?_)
    (fun target ht => ?_) ⟨hphase, p, rand, rfl⟩
  · rcases SortedMap.mem_insert.mp hname with rfl | hmem
    · exact Or.inr ⟨c, num, rfl⟩
    · exact Or.inl (h.mem_live hothers (by simp [hφ]) hmem hn)
  · exact ⟨SortedMap.mem_insert.mpr (Or.inr (h.there name hname).1), (h.there name hname).2⟩
  · rw [setLinks, SortedMap.find?_insert, if_neg hne] at ht
    exact h.current target ht

/-- The temporary link becomes the generation. -/
theorem SerialInv.create (h : SerialInv P s live) {c : Cause} {o : Path} {num : ℕ} {temp : Str}
    (hφ : s.procs p = .linked c num temp) :
    SerialInv P ((s.setLinks ((s.links.erase temp).insert (makeName P (num + 1)) o)).goto p
      (.switchStart c (makeName P (num + 1)))) (live.insert (makeName P (num + 1))) := by
  have hothers := h.others (p := p) (by rw [hφ]; simp)
  have hphase := h.phase p
  rw [hφ] at hphase
  obtain ⟨hnum, pid, rand, rfl⟩ := hphase
  have hne := ne_of_parseName (parseName_tempLink (P := P) hnum pid rand)
  refine SerialInv.update hothers (fun name hname n hn => ?_) (fun name hname => ?_)
    (fun target ht => ?_) (SortedSet.mem_insert.mpr (Or.inl rfl))
  · rcases SortedMap.mem_insert.mp hname with rfl | hmem
    · exact Or.inl (SortedSet.mem_insert.mpr (Or.inl rfl))
    · obtain ⟨htemp, hmem⟩ := SortedMap.mem_erase.mp hmem
      have hlive := h.mem_live hothers
        (fun c' num' => by rw [hφ]; simp only [ne_eq, ProfilePhase.linked.injEq, not_and]
                           exact fun _ _ heq => htemp heq.symm) hmem hn
      exact Or.inl (SortedSet.mem_insert.mpr (Or.inr hlive))
  · rcases SortedSet.mem_insert.mp hname with rfl | hlive
    · exact ⟨SortedMap.mem_insert.mpr (Or.inl rfl), num + 1, hnum, rfl⟩
    · exact ⟨SortedMap.mem_insert.mpr (Or.inr (SortedMap.mem_erase.mpr
        ⟨h.ne_tempLink hlive _ _ _, (h.there name hlive).1⟩)), (h.there name hlive).2⟩
  · rw [setLinks, SortedMap.find?_insert, if_neg (makeName_ne_self _).symm, SortedMap.find?_erase,
      if_neg hne] at ht
    exact SortedSet.mem_insert.mpr (Or.inr (h.current target ht))

/-- The temporary link of `switchLink` is made. -/
theorem SerialInv.prepare (h : SerialInv P s live) {c : Cause} {target : Str}
    (hφ : s.procs p = .switchStart c target) :
    SerialInv P ((s.setLinks (s.links.insert (newLink P) target)).goto p (.switching c target))
      live := by
  have hothers := h.others (p := p) (by rw [hφ]; simp)
  have hphase := h.phase p
  rw [hφ] at hphase
  refine SerialInv.update hothers (fun name hname n hn => ?_) (fun name hname => ?_)
    (fun target ht => ?_) ⟨?_, hphase⟩
  · rcases SortedMap.mem_insert.mp hname with rfl | hmem
    · rw [parseName_newLink] at hn
      cases hn
    · exact Or.inl (h.mem_live hothers (by simp [hφ]) hmem hn)
  · exact ⟨SortedMap.mem_insert.mpr (Or.inr (h.there name hname).1), (h.there name hname).2⟩
  · rw [setLinks, SortedMap.find?_insert, if_neg newLink_ne_self.symm] at ht
    exact h.current target ht
  · exact (SortedMap.find?_insert ..).trans (if_pos rfl)

/-- The profile is switched. -/
theorem SerialInv.switch (h : SerialInv P s live) {c : Cause} {target t : Str}
    (hφ : s.procs p = .switching c target) (hfound : s.links.find? (newLink P) = some t) :
    SerialInv P ((s.setLinks ((s.links.erase (newLink P)).insert P t)).goto p .finishing) live := by
  have hothers := h.others (p := p) (by rw [hφ]; simp)
  have hphase := h.phase p
  rw [hφ] at hphase
  obtain ⟨hnew, hlive⟩ := hphase
  obtain rfl : t = target := Option.some.inj (hfound.symm.trans hnew)
  refine SerialInv.update hothers (fun name hname n hn => ?_) (fun name hname => ?_)
    (fun target ht => ?_) trivial
  · rcases SortedMap.mem_insert.mp hname with rfl | hmem
    · rw [parseName_self] at hn
      cases hn
    · exact Or.inl (h.mem_live hothers (by simp [hφ]) (SortedMap.mem_erase.mp hmem).2 hn)
  · exact ⟨SortedMap.mem_insert.mpr (Or.inr (SortedMap.mem_erase.mpr
      ⟨h.ne_newLink hname, (h.there name hname).1⟩)), (h.there name hname).2⟩
  · rw [setLinks, SortedMap.find?_insert, if_pos rfl] at ht
    exact Option.some.inj ht ▸ hlive

/-- A generation is deleted that is not the current one. -/
theorem SerialInv.delete (h : SerialInv P s live) {num : ℕ} {nums : List ℕ}
    (hφ : s.procs p = .deleting (num :: nums)) :
    SerialInv P ((s.setLinks (s.links.erase (makeName P num))).goto p (.deleting nums))
      (live.erase (makeName P num)) := by
  have hothers := h.others (p := p) (by rw [hφ]; simp)
  have hphase := h.phase p
  rw [hφ] at hphase
  have hfind : (s.links.erase (makeName P num)).find? P = s.links.find? P := by
    rw [SortedMap.find?_erase, if_neg (makeName_ne_self _).symm]
  refine SerialInv.update hothers (fun name hname n hn => ?_) (fun name hname => ?_)
    (fun target ht => ?_) fun n hn => ?_
  · obtain ⟨hne, hmem⟩ := SortedMap.mem_erase.mp hname
    exact Or.inl (SortedSet.mem_erase.mpr ⟨hne, h.mem_live hothers (by simp [hφ]) hmem hn⟩)
  · obtain ⟨hne, hlive⟩ := SortedSet.mem_erase.mp hname
    exact ⟨SortedMap.mem_erase.mpr ⟨hne, (h.there name hlive).1⟩, (h.there name hlive).2⟩
  · rw [setLinks, hfind] at ht
    have hlive := h.current target ht
    refine SortedSet.mem_erase.mpr ⟨?_, hlive⟩
    rintro rfl
    obtain ⟨-, n, hn, heq⟩ := h.there _ hlive
    obtain ⟨hnum, hcur⟩ := hphase num List.mem_cons_self
    obtain rfl := eq_of_makeName_eq (by omega) (by omega) heq
    exact hcur (curGen_of_find? hn ht).symm
  · have hcur : (s.setLinks (s.links.erase (makeName P num))).curGen P = s.curGen P := by
      rw [curGen, curGen, setLinks, hfind]
    change n < 2 ^ 31 ∧ (n : ℤ) ≠ (s.setLinks (s.links.erase (makeName P num))).curGen P
    rw [hcur]
    exact hphase n (List.mem_cons_of_mem _ hn)

/-- Every step keeps the invariant. -/
theorem SerialInv.step (h : SerialInv P s live) (hturn : s.InTurn p a) (hspares : s.Spares P p a)
    (hstep : s.step P p a = some s') : SerialInv P s' (s.recordLinks P p a live) := by
  have hcase := step_cases hstep
  generalize hφ : s.procs p = φ at hcase
  have hidle : φ = .idle → ∀ q, q ≠ p → s.procs q = .idle := by
    rintro rfl q hq
    cases a with
    | start c => exact hturn.alone c rfl q
    | _ => simp [ProfileState.step, hφ] at hstep
  have hothers : ∀ q, q ≠ p → s.procs q = .idle := by
    by_cases hne : φ = .idle
    · exact hidle hne
    · exact h.others (hφ ▸ hne)
  have hphase := h.phase p
  rw [hφ] at hphase
  unfold recordLinks
  rw [hφ]
  cases hcase with
  | start c => exact h.goto hothers (by simp [hφ]) (by cases c <;> exact trivial)
  | leave done =>
    have hlinked : ∀ c num name, s.procs p ≠ .linked c num name := by
      rintro c num name hlinked
      rcases done with rfl | rfl | rfl
      · exact hturn.whole c num name hlinked rfl
      · rw [hφ] at hlinked
        cases hlinked
      · rw [hφ] at hlinked
        cases hlinked
    rcases done with rfl | rfl | rfl
    · exact h.goto hothers hlinked trivial
    · cases a <;> exact h.goto hothers hlinked trivial
    · cases a <;> exact h.goto hothers hlinked trivial
  | source phases => cases phases <;> exact h.goto hothers (by simp [hφ]) trivial
  | readToken => exact h.goto hothers (by simp [hφ]) trivial
  | find => exact h.goto hothers (by simp [hφ]) trivial
  | miss => exact h.goto hothers (by simp [hφ]) trivial
  | read found => exact h.goto hothers (by simp [hφ]) trivial
  | readOld => exact h.goto hothers (by simp [hφ]) trivial
  | build => exact h.goto hothers (by simp [hφ]) trivial
  | acquire phases free =>
    cases phases <;> exact h.goto hothers (by simp [hφ]) trivial
  | compare same => exact h.goto hothers (by simp [hφ]) trivial
  | restart => exact h.goto hothers (by simp [hφ]) trivial
  | @list c o names perm =>
    refine h.goto hothers (by simp [hφ]) ?_
    rcases lastNumber_spec P names with hzero | ⟨name, hname, hn⟩
    · rw [hzero]
      exact (by decide : 0 + 1 < 2 ^ 31)
    · exact hspares.number hφ rfl name (perm.mem_iff.mp hname) _ hn
  | link absent => exact h.link hφ _
  | create found => exact h.create hφ
  | prepare absent => exact h.prepare hφ
  | switch found => exact h.switch hφ found
  | look phases =>
    cases phases with
    | switchList perm =>
      refine h.goto hothers (by simp [hφ]) fun g hg => ?_
      obtain ⟨hname, hn⟩ := mem_findGenerations.mp hg
      exact h.mem_live hothers (by simp [hφ]) (perm.mem_iff.mp hname) hn
    | choose mem => exact h.goto hothers (by simp [hφ]) (hphase _ mem)
    | deleteList perm =>
      refine h.goto hothers (by simp [hφ]) fun g hg => ?_
      exact lt_of_parseName (mem_findGenerations.mp hg).2
    | chooseAll =>
      refine h.goto hothers (by simp [hφ]) fun n hn => ?_
      obtain ⟨⟨g, hg, rfl⟩, hne⟩ :=
        ne_curGen_of_mem_numbersToDelete (hspares.current hφ rfl) n hn
      exact ⟨hphase g hg, hne⟩
  | delete => exact h.delete hφ

/-- The invariant holds at the start, without generations. -/
theorem serialInv_initial {links : SortedMap Str Path} (habsent : P ∉ links)
    (hnone : ∀ name ∈ links, parseName P name = none) : SerialInv P (initial links) ∅ where
  alone p q hp := absurd rfl hp
  links name hname n hn := by
    rw [hnone name hname] at hn
    cases hn
  there name hname := absurd hname (SortedMap.notMem_empty name)
  current target ht := by
    have hfind : links.find? P = some target := ht
    have hmem : P ∈ links := SortedMap.mem_iff_find?_ne_none.mpr (by simp [hfind])
    exact absurd hmem habsent
  phase p := trivial

/-- Commands that run one after another, and do not delete the current generation by its number or run
out of numbers, keep the profile leading to a generation; and when no command runs, the generations are
the links that have been created and not yet deleted, and the current one is among them. -/
theorem leads_and_reports_of_serial {links : SortedMap Str Path} (habsent : P ∉ links)
    (hnone : ∀ name ∈ links, parseName P name = none)
    (h : Serial P (fun p a s => s.Spares P p a) links s live) :
    Leads P s ∧ ((∀ q, s.procs q = .idle) → ∀ names, names.Perm s.links.keys →
      Reports P s live names) := by
  have hinv : SerialInv P s live := by
    induction h with
    | initial => exact serialInv_initial habsent hnone
    | step serial turn met step ih => exact ih.step turn met step
  exact ⟨hinv.leads, fun hidle names hperm => hinv.reports hidle hperm⟩

/-! ### Sample runs -/

/-- What a process that runs alone has to watch. -/
def sparesAlone (P : Str) (a : ProfileAction) (s : ProfileState) : Bool :=
  match s.procs 0, a with
  | .deleteListed args _, .next => args.all fun
    | .old => true
    | .number n => decide ((n : ℤ) ≠ s.curGen P)
  | .listing _ _, .list _ => s.links.keys.all fun name => (parseName P name).all fun n => n + 1 < 2 ^ 31
  | _, _ => true

/-- The test for sparing the generations is right for one process. -/
theorem spares_of_sparesAlone (h : s.sparesAlone P a = true) : s.Spares P 0 a := by
  unfold sparesAlone at h
  constructor
  · rintro args gens hφ rfl n hn
    rw [hφ] at h
    exact of_decide_eq_true (List.all_eq_true.mp h _ hn)
  · rintro c o names hφ rfl name hname n hn
    rw [hφ] at h
    have hbound := List.all_eq_true.mp h name hname
    rw [hn] at hbound
    exact of_decide_eq_true hbound

/-- A process runs alone and is never killed. -/
def serialAlone (P : Str) (ok : ProfileAction → ProfileState → Bool) :
    List ProfileAction → ProfileState × SortedSet Str → Option (ProfileState × SortedSet Str)
  | [], x => some x
  | a :: rest, x =>
    if a ≠ .exit ∧ ok a x.1 = true then (x.1.step P 0 a).bind fun s' =>
      serialAlone P ok rest (s', x.1.recordLinks P 0 a x.2)
    else none

/-- A run of one process that passes the test is a serial run. -/
theorem serial_of_serialAlone {cond : ℕ → ProfileAction → ProfileState → Prop}
    {ok : ProfileAction → ProfileState → Bool} (hok : ∀ a s, ok a s = true → cond 0 a s)
    {links : SortedMap Str Path} {actions : List ProfileAction} {live' : SortedSet Str}
    (hrun : serialAlone P ok actions (s, live) = some (s', live')) (h : Serial P cond links s live)
    (halone : ∀ q, q ≠ 0 → s.procs q = .idle) :
    Serial P cond links s' live' ∧ ∀ q, q ≠ 0 → s'.procs q = .idle := by
  induction actions generalizing s live with
  | nil =>
    cases Option.some.inj hrun
    exact ⟨h, halone⟩
  | cons a rest ih =>
    rw [serialAlone] at hrun
    split_ifs at hrun with hcheck
    obtain ⟨t, hstep, hrun⟩ := Option.bind_eq_some_iff.mp hrun
    have hturn : s.InTurn 0 a := by
      refine ⟨fun c hc q => ?_, fun c num temp _ => hcheck.1⟩
      by_cases hq : q = 0
      · -- a process that does something cannot start a command
        subst hc hq
        cases hφ : s.procs 0 with
        | idle => rfl
        | _ => simp [ProfileState.step, hφ] at hstep
      · exact halone q hq
    refine ih hrun (h.step hturn (hok a s hcheck.2) hstep) fun q hq => ?_
    rw [procs_step hstep hq]
    exact halone q hq

/-- An update that makes a generation of a user environment, when the directory has the given names. -/
def updateTo (outPath : Path) (names : List Str) : List ProfileAction :=
  [.start .update, .next, .look false, .next, .build outPath, .next, .next, .list names, .link 7,
    .next, .next, .next, .next]

/-- Two updates, a rollback, and the deletion of old generations. -/
def tidyActions : List ProfileAction :=
  updateTo (str "/e1") [] ++ updateTo (str "/e2") [str "p", str "p-1-link"] ++
    [.start (.switchGeneration prevGen), .next, .list [str "p", str "p-1-link", str "p-2-link"],
      .next, .next, .next, .next] ++
    [.start (.deleteGenerations [.old]), .next, .list [str "p-1-link", str "p-2-link", str "p"],
      .next, .next, .next]

/-- In the sample the profile leads to its first generation, and that is reported. -/
theorem leads_and_reports_of_serial_tidyActions : ∃ s live,
    s.links.find? (str "p") = some (str "p-1-link") ∧ Leads (str "p") s ∧
      Reports (str "p") s live [str "p", str "p-1-link"] := by
  have hrun : (serialAlone (str "p") (sparesAlone (str "p")) tidyActions (initial ∅, ∅)).any
      (fun x => decide (x.1.links.find? (str "p") = some (str "p-1-link")) &&
        decide (x.1.links.keys = [str "p", str "p-1-link"]) &&
        decide (x.1.procs 0 = .idle)) = true := by decide
  obtain ⟨⟨s, live⟩, hs, hrest⟩ := (Option.any_eq_true _ _).mp hrun
  simp only [Bool.and_eq_true, decide_eq_true_eq] at hrest
  obtain ⟨hserial, halone⟩ := serial_of_serialAlone (fun a s => spares_of_sparesAlone) hs .initial
    fun _ _ => rfl
  obtain ⟨hleads, hreports⟩ := leads_and_reports_of_serial (SortedMap.notMem_empty _)
    (fun name hname => absurd hname (SortedMap.notMem_empty name)) hserial
  refine ⟨s, live, hrest.1.1, hleads, hreports (fun q => ?_) _ (List.Perm.of_eq hrest.1.2.symm)⟩
  by_cases hq : q = 0
  · rw [hq]
    exact hrest.2
  · exact halone q hq

/-- An update, and the deletion of its generation by the number. -/
def danglingActions : List ProfileAction :=
  updateTo (str "/e1") [] ++ [.start (.deleteGenerations [.number 1]), .next,
    .list [str "p", str "p-1-link"], .next, .next, .next]

/-- Commands that run one after another can leave a profile that leads nowhere. -/
theorem not_leads_of_serial : ¬ ∀ (P : Str) (links : SortedMap Str Path), P ∉ links →
    (∀ name ∈ links, parseName P name = none) → ∀ s live,
      Serial P (fun _ _ _ => True) links s live → Leads P s ∧
        ((∀ q, s.procs q = .idle) → ∀ names, names.Perm s.links.keys → Reports P s live names) := by
  intro hclaim
  have hrun : (serialAlone (str "p") (fun _ _ => true) danglingActions (initial ∅, ∅)).any
      (fun x => decide (x.1.links.find? (str "p") = some (str "p-1-link")) &&
        decide (x.1.links.keys = [str "p"])) = true := by decide
  obtain ⟨⟨s, live⟩, hs, hrest⟩ := (Option.any_eq_true _ _).mp hrun
  simp only [Bool.and_eq_true, decide_eq_true_eq] at hrest
  have hserial : Serial (str "p") (fun _ _ _ => True) ∅ s live :=
    (serial_of_serialAlone (fun _ _ _ => trivial) hs .initial fun _ _ => rfl).1
  obtain ⟨hleads, -⟩ := hclaim _ ∅ (SortedMap.notMem_empty _)
    (fun name hname => absurd hname (SortedMap.notMem_empty name)) s live hserial
  have hmem : str "p-1-link" ∈ s.links.keys := (hleads _ hrest.1).1
  rw [hrest.2] at hmem
  exact absurd hmem (by decide)

end ProfileState

end Nix
