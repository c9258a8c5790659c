import NixStore.Store.QueryMissing

/-!
# Nothing is left out

`queryMissing` comes to an end, and what it says is complete: all that its result leads to is valid, is
going to be built or substituted, or is said to be unknown (`MissingStore.queryMissing_covers`).  This
rests on the names: requests are strings, and an item with a `!` in it, an output id that is empty or
has a comma, or an input derivation without `.drv` is not read as it was meant
(`MissingStore.queryMissing_leaves_out`).
-/

namespace Nix

namespace MissingStore

variable {store : MissingStore} {s s' r r' : MissingState} {i : Str} {p : Path}

/-! ### What is accounted for -/

/-- The result says what happens to a path. -/
def Accounts (store : MissingStore) (r : MissingState) (p : Path) : Prop :=
  p ∈ store.validPaths ∨ p ∈ r.willSubstitute ∨ p ∈ r.unknown ∨
    ∃ d ∈ r.willBuild, ∃ drv, store.derivationFromPath d = .ok drv ∧
      ∃ o ∈ drv.outputs.entries, o.2.path = p

/-- The result says what happens to the outputs that are wanted of a derivation, or that the derivation
is missing; the request for them is written as `i`. -/
def AccountsRequest (store : MissingStore) (r : MissingState) (i : Str) (p : Path)
    (wanted : SortedSet Str) : Prop :=
  (p ∉ store.validPaths ∧ (i ∈ r.unknown ∨ p ∈ r.willSubstitute)) ∨
    (p ∈ store.validPaths ∧ ∃ drv, store.derivationFromPath p = .ok drv ∧
      ∀ o ∈ drv.outputs.entries, wantOutput o.1 wanted = true → store.Accounts r o.2.path)

/-- The result says what happens to an item. -/
def AccountsItem (store : MissingStore) (r : MissingState) (i : Str) : Prop :=
  if isDerivation (parseDrvPathWithOutputs i).1 then
    store.AccountsRequest r i (parseDrvPathWithOutputs i).1 (parseDrvPathWithOutputs i).2
  else store.Accounts r i

/-- The result leaves nothing out.  A request for outputs of something that is not called a derivation is
a path for it. -/
structure Covers (store : MissingStore) (targets : PathSet) (r : MissingState) : Prop where
  targets : ∀ t ∈ targets, store.AccountsItem r t
  references : ∀ p ∈ r.willSubstitute, ∃ info, store.substitutes.find? p = some info ∧
    ∀ q ∈ info.references, store.Accounts r q
  inputs : ∀ d ∈ r.willBuild, ∃ drv, store.derivationFromPath d = .ok drv ∧
    (∀ src ∈ drv.inputSrcs, store.Accounts r src) ∧
    ∀ j ∈ drv.inputDrvs.entries, if isDerivation j.1 then
      store.AccountsRequest r (makeDrvPathWithOutputs j.1 j.2) j.1 j.2
    else store.Accounts r (makeDrvPathWithOutputs j.1 j.2)

/-- The names that derivations and substituters use: paths have no `!`, and the ids of the outputs that
are wanted of an input are not empty and have no comma. -/
structure WellNamed (store : MissingStore) : Prop where
  references : ∀ p info, store.substitutes.find? p = some info →
    ∀ q ∈ info.references, '!'.toUInt8 ∉ q
  outputs : ∀ d ∈ store.validPaths, ∀ drv, store.derivationFromPath d = .ok drv →
    ∀ o ∈ drv.outputs.entries, '!'.toUInt8 ∉ o.2.path
  inputSrcs : ∀ d ∈ store.validPaths, ∀ drv, store.derivationFromPath d = .ok drv →
    ∀ src ∈ drv.inputSrcs, '!'.toUInt8 ∉ src
  inputDrvs : ∀ d ∈ store.validPaths, ∀ drv, store.derivationFromPath d = .ok drv →
    ∀ j ∈ drv.inputDrvs.entries, '!'.toUInt8 ∉ j.1 ∧ ∀ o ∈ j.2, o ≠ [] ∧ ','.toUInt8 ∉ o

/-- One result says at least as much as another. -/
structure ResultLE (r r' : MissingState) : Prop where
  willBuild : ∀ x ∈ r.willBuild, x ∈ r'.willBuild
  willSubstitute : ∀ x ∈ r.willSubstitute, x ∈ r'.willSubstitute
  unknown : ∀ x ∈ r.unknown, x ∈ r'.unknown

/-- A round only adds to the result. -/
theorem RoundTo.resultLE (h : store.RoundTo s s') : ResultLE s s' where
  willBuild x hx := (h.willBuild x).mpr (Or.inl hx)
  willSubstitute x hx := (h.willSubstitute x).mpr (Or.inl hx)
  unknown x hx := (h.unknown x).mpr (Or.inl hx)

/-- What is accounted for stays so in a larger result. -/
theorem Accounts.mono (h : store.Accounts r p) (hle : ResultLE r r') : store.Accounts r' p := by
  rcases h with h | h | h | ⟨d, hd, h⟩
  · exact Or.inl h
  · exact Or.inr (Or.inl (hle.willSubstitute p h))
  · exact Or.inr (Or.inr (Or.inl (hle.unknown p h)))
  · exact Or.inr (Or.inr (Or.inr ⟨d, hle.willBuild d hd, h⟩))

/-- A request that is accounted for stays so in a larger result. -/
theorem AccountsRequest.mono {wanted : SortedSet Str} (h : store.AccountsRequest r i p wanted)
    (hle : ResultLE r r') : store.AccountsRequest r' i p wanted := by
  rcases h with ⟨hp, h⟩ | ⟨hp, drv, hread, h⟩
  · exact Or.inl ⟨hp, h.imp (hle.unknown i) (hle.willSubstitute p)⟩
  · exact Or.inr ⟨hp, drv, hread, fun o ho hw => (h o ho hw).mono hle⟩

/-- An item that is accounted for stays so in a larger result. -/
theorem AccountsItem.mono (h : store.AccountsItem r i) (hle : ResultLE r r') :
    store.AccountsItem r' i := by
  rw [AccountsItem] at h ⊢
  split_ifs at h ⊢
  · exact AccountsRequest.mono h hle
  · exact Accounts.mono h hle

/-- A text without `!` is a path with all outputs. -/
theorem parseDrvPathWithOutputs_of_notMem (h : '!'.toUInt8 ∉ p) :
    parseDrvPathWithOutputs p = (p, ∅) := by
  have hempty : ∀ o ∈ (∅ : SortedSet Str), o ≠ [] ∧ ','.toUInt8 ∉ o := by simp
  exact parseDrvPathWithOutputs_make h hempty

/-- A path that is not read as a request is accounted for as a path. -/
theorem AccountsItem.accounts (h : store.AccountsItem r p) (hp : '!'.toUInt8 ∉ p) :
    store.Accounts r p := by
  rw [AccountsItem, parseDrvPathWithOutputs_of_notMem hp] at h
  split_ifs at h
  · rcases h with ⟨-, h | h⟩ | ⟨hvalid, -⟩
    · exact Or.inr (Or.inr (Or.inl h))
    · exact Or.inr (Or.inl h)
    · exact Or.inl hvalid
  · exact h

/-! ### The invariant of the rounds -/

/-- The outputs of a request are those that are wanted and not valid. -/
theorem mem_requestOutputs {drv : Derivation} : p ∈ store.requestOutputs i drv ↔
    ∃ o ∈ drv.outputs.entries, wantOutput o.1 (parseDrvPathWithOutputs i).2 = true ∧
      o.2.path ∉ store.validPaths ∧ o.2.path = p := by
  simp [requestOutputs, invalidOutputs, isValidPath, and_assoc]

/-- `isValidPath` says what is valid. -/
theorem isValidPath_eq_true_iff : store.isValidPath p = true ↔ p ∈ store.validPaths :=
  decide_eq_true_iff

/-- `isValidPath` says what is not valid. -/
theorem isValidPath_eq_false_iff : store.isValidPath p = false ↔ p ∉ store.validPaths :=
  decide_eq_false_iff_not

/-- What is taken up is accounted for. -/
theorem RoundTo.accounts_of_takesUp (h : store.RoundTo s s') (hp : store.TakesUp s p) :
    store.Accounts s' p := by
  by_cases hsub : p ∈ store.substitutes
  · exact Or.inr (Or.inl ((h.willSubstitute p).mpr (Or.inr ⟨hp, hsub⟩)))
  · exact Or.inr (Or.inr (Or.inl ((h.unknown p).mpr (Or.inr (Or.inr ⟨hp, hsub⟩)))))

/-- The items of a round are accounted for behind it. -/
theorem RoundTo.accountsItem_of_todo (h : store.RoundTo s s') (htodo : i ∈ s.todo)
    (hnew : i ∉ s.done) : store.AccountsItem s' i := by
  rw [AccountsItem]
  rcases h.reads i htodo hnew with hitem | ⟨drv, hitem⟩ | hpath
  · rw [if_pos hitem.1]
    exact Or.inl ⟨isValidPath_eq_false_iff.mp hitem.2,
      Or.inl ((h.unknown i).mpr (Or.inr (Or.inl ⟨htodo, hnew, hitem⟩)))⟩
  · rw [if_pos hitem.1]
    refine Or.inr ⟨isValidPath_eq_true_iff.mp hitem.2.1, drv, hitem.2.2, fun o ho hwant => ?_⟩
    by_cases hvalid : o.2.path ∈ store.validPaths
    · exact Or.inl hvalid
    · have hmem : o.2.path ∈ store.requestOutputs i drv :=
        mem_requestOutputs.mpr ⟨o, ho, hwant, hvalid, rfl⟩
      by_cases hbuild : store.useSubstitutes = true →
          ∃ q ∈ store.requestOutputs i drv, q ∉ store.substitutes
      · have hne : store.requestOutputs i drv ≠ ∅ := fun hempty => by
          rw [hempty] at hmem
          exact SortedMap.notMem_empty _ hmem
        refine Or.inr (Or.inr (Or.inr ⟨_, (h.willBuild _).mpr (Or.inr ⟨i, htodo, hnew, drv, ?_, rfl⟩),
          drv, hitem.2.2, o, ho, rfl⟩))
        exact ⟨hitem, hne, hbuild⟩
      · push Not at hbuild
        exact h.accounts_of_takesUp
          (Or.inr ⟨i, htodo, hnew, drv, hitem, hmem, hbuild.1, hbuild.2⟩)
  · rw [if_neg (by simp [hpath])]
    cases hvalid : store.isValidPath i with
    | true => exact Or.inl (isValidPath_eq_true_iff.mp hvalid)
    | false => exact h.accounts_of_takesUp (Or.inl ⟨htodo, hnew, hpath, hvalid⟩)

/-- The invariant: what is done is accounted for, and what the result leads to is done or to be
done. -/
structure CoverInv (store : MissingStore) (targets : PathSet) (s : MissingState) : Prop where
  settled : ∀ i ∈ s.done, store.AccountsItem s i
  targets : ∀ t ∈ targets, t ∈ s.done ∨ t ∈ s.todo
  references : ∀ p ∈ s.willSubstitute, ∃ info, store.substitutes.find? p = some info ∧
    ∀ q ∈ info.references, q ∈ s.done ∨ q ∈ s.todo
  inputs : ∀ d ∈ s.willBuild, d ∈ store.validPaths ∧ ∃ drv, store.derivationFromPath d = .ok drv ∧
    ∀ i ∈ inputItems drv, i ∈ s.done ∨ i ∈ s.todo

/-- The invariant holds at the start. -/
theorem coverInv_start (targets : PathSet) : store.CoverInv targets (start targets) where
  settled i hi := absurd hi (SortedMap.notMem_empty i)
  targets _ := Or.inr
  references p hp := absurd hp (SortedMap.notMem_empty p)
  inputs d hd := absurd hd (SortedMap.notMem_empty d)

/-- A round keeps the invariant. -/
theorem CoverInv.round {targets : PathSet} (hnames : store.WellNamed)
    (hinv : store.CoverInv targets s) (h : store.RoundTo s s') : store.CoverInv targets s' := by
  have hdone : ∀ x, x ∈ s.done ∨ x ∈ s.todo → x ∈ s'.done ∨ x ∈ s'.todo := fun x hx =>
    Or.inl ((h.done x).mpr (hx.elim Or.inl fun hx => Or.inr (Or.inl hx)))
  refine ⟨fun i hi => ?_, fun t ht => hdone t (hinv.targets t ht), fun p hp => ?_, fun d hd => ?_⟩
  · by_cases hold : i ∈ s.done
    · exact (hinv.settled i hold).mono h.resultLE
    · by_cases htodo : i ∈ s.todo
      · exact h.accountsItem_of_todo htodo hold
      · -- an output that is substituted
        have htaken := (((h.done i).mp hi).resolve_left hold).resolve_left htodo
        rcases id htaken with ⟨hmem, -⟩ | ⟨j, -, -, drv, hitem, hout, -, hall⟩
        · exact absurd hmem htodo
        · obtain ⟨o, ho, -, hvalid, rfl⟩ := mem_requestOutputs.mp hout
          have hd := isValidPath_eq_true_iff.mp hitem.2.1
          rw [AccountsItem,
            parseDrvPathWithOutputs_of_notMem (hnames.outputs _ hd drv hitem.2.2 o ho)]
          split_ifs
          · exact Or.inl ⟨hvalid,
              Or.inr ((h.willSubstitute _).mpr (Or.inr ⟨htaken, hall _ hout⟩))⟩
          · exact h.accounts_of_takesUp htaken
  · rcases (h.willSubstitute p).mp hp with hp | ⟨htaken, hsub⟩
    · obtain ⟨info, hinfo, hrefs⟩ := hinv.references p hp
      exact ⟨info, hinfo, fun q hq => hdone q (hrefs q hq)⟩
    · obtain ⟨info, hinfo⟩ :=
        Option.ne_none_iff_exists'.mp (SortedMap.mem_iff_find?_ne_none.mp hsub)
      exact ⟨info, hinfo, fun q hq => Or.inr ((h.todo q).mpr (Or.inr ⟨p, htaken, info, hinfo, hq⟩))⟩
  · rcases (h.willBuild d).mp hd with hd | ⟨i, htodo, hnew, drv, hbuild, rfl⟩
    · obtain ⟨hvalid, drv, hread, hinputs⟩ := hinv.inputs d hd
      exact ⟨hvalid, drv, hread, fun i hi => hdone i (hinputs i hi)⟩
    · exact ⟨isValidPath_eq_true_iff.mp hbuild.1.2.1, drv, hbuild.1.2.2, fun x hx =>
        Or.inr ((h.todo x).mpr (Or.inl ⟨i, htodo, hnew, drv, hbuild, hx⟩))⟩

/-- What the rounds preserve holds at the end, when nothing is to be done. -/
theorem rounds_preserve {P : MissingState → Prop}
    (hround : ∀ s s', P s → store.RoundTo s s' → P s') (fuel : ℕ) :
    ∀ {s r}, P s → store.rounds fuel s = .ok r → P r ∧ r.todo = ∅ := by
  induction fuel with
  | zero => intro s r _ h; cases h
  | succ fuel ih =>
    intro s r hs h
    rw [rounds] at h
    split_ifs at h with hempty
    · cases h
      exact ⟨hs, hempty⟩
    · obtain ⟨s', hs', h⟩ := Outcome.bind_eq_ok.mp h
      exact ih (hround s s' hs (round_spec hs')) h

/-- At the end, the invariant says that nothing is left out. -/
theorem CoverInv.covers {targets : PathSet} (hnames : store.WellNamed)
    (hinv : store.CoverInv targets r) (htodo : r.todo = ∅) : store.Covers targets r := by
  have hsettled : ∀ i, i ∈ r.done ∨ i ∈ r.todo → store.AccountsItem r i := fun i hi =>
    hinv.settled i (hi.resolve_right (by simp [htodo]))
  refine ⟨fun t ht => hsettled t (hinv.targets t ht), fun p hp => ?_, fun d hd => ?_⟩
  · obtain ⟨info, hinfo, hrefs⟩ := hinv.references p hp
    exact ⟨info, hinfo, fun q hq =>
      (hsettled q (hrefs q hq)).accounts (hnames.references p info hinfo q hq)⟩
  · obtain ⟨hvalid, drv, hread, hinputs⟩ := hinv.inputs d hd
    refine ⟨drv, hread, fun src hsrc => ?_, fun j hj => ?_⟩
    · exact (hsettled src (hinputs src (List.mem_append_left _ hsrc))).accounts
        (hnames.inputSrcs d hvalid drv hread src hsrc)
    · obtain ⟨hpath, hids⟩ := hnames.inputDrvs d hvalid drv hread j hj
      have hitem := hsettled (makeDrvPathWithOutputs j.1 j.2)
        (hinputs _ (List.mem_append_right _ (List.mem_map_of_mem hj)))
      rwa [AccountsItem, parseDrvPathWithOutputs_make hpath hids] at hitem

/-! ### Termination -/

/-- The items that can ever be to be done. -/
def allItems (store : MissingStore) (targets : PathSet) : Finset Str :=
  (targets.toList ++
    store.substitutes.entries.flatMap (fun e => e.2.references.toList) ++
    store.validPaths.toList.flatMap fun d =>
      match store.derivationFromPath d with
      | .ok drv => inputItems drv
      | _ => []).toFinset

/-- The items that have not been done. -/
def pendingItems (store : MissingStore) (targets : PathSet) (s : MissingState) : Finset Str :=
  (store.allItems targets).filter (· ∉ s.done)

/-- A round takes up no item that does not belong to the targets. -/
theorem RoundTo.todo_subset {targets : PathSet} (h : store.RoundTo s s') :
    ∀ x ∈ s'.todo, x ∈ store.allItems targets := by
  intro x hx
  rw [allItems, List.mem_toFinset, List.mem_append, List.mem_append]
  rcases (h.todo x).mp hx with ⟨i, -, -, drv, hbuild, hx⟩ | ⟨p, -, info, hinfo, hx⟩
  · refine Or.inr (List.mem_flatMap.mpr ⟨_, isValidPath_eq_true_iff.mp hbuild.1.2.1, ?_⟩)
    rw [hbuild.1.2.2]
    exact hx
  · exact Or.inl (Or.inr (List.mem_flatMap.mpr ⟨_, SortedMap.find?_eq_some_iff.mp hinfo, hx⟩))

/-- A round with a new item leaves fewer pending ones. -/
theorem RoundTo.card_pendingItems_lt {targets : PathSet} (h : store.RoundTo s s')
    (htodo : ∀ x ∈ s.todo, x ∈ store.allItems targets) (hi : i ∈ s.todo) (hnew : i ∉ s.done) :
    (store.pendingItems targets s').card < (store.pendingItems targets s).card := by
  refine Finset.card_lt_card ⟨fun x hx => ?_, fun hsub => ?_⟩
  · simp only [pendingItems, Finset.mem_filter] at hx ⊢
    exact ⟨hx.1, fun hdone => hx.2 ((h.done x).mpr (Or.inl hdone))⟩
  · have hmem : i ∈ store.pendingItems targets s :=
      Finset.mem_filter.mpr ⟨htodo i hi, hnew⟩
    exact (Finset.mem_filter.mp (hsub hmem)).2 ((h.done i).mpr (Or.inr (Or.inl hi)))

/-- A round without a new item is the last one. -/
theorem RoundTo.todo_eq_empty (h : store.RoundTo s s') (hold : ∀ i ∈ s.todo, i ∈ s.done) :
    s'.todo = ∅ := by
  refine SortedMap.ext_mem fun x => iff_of_false (fun hx => ?_) (SortedMap.notMem_empty x)
  rcases (h.todo x).mp hx with ⟨i, hi, hnew, -⟩ | ⟨p, ⟨hp, hnew, -⟩ | ⟨i, hi, hnew, -⟩, -⟩
  · exact hnew (hold i hi)
  · exact hnew (hold p hp)
  · exact hnew (hold i hi)

/-- The first loop fails only when it reads a valid derivation. -/
theorem classify_outcome (store : MissingStore) (s : MissingState) (i : Str) :
    (∃ s', store.classify s i = .ok s') ∨ ∃ d ∈ store.validPaths,
      (∃ e, store.derivationFromPath d = .error e ∧ store.classify s i = .error e) ∨
      (store.derivationFromPath d = .diverge ∧ store.classify s i = .diverge) := by
  unfold classify
  by_cases hdone : i ∈ s.done
  · rw [if_pos hdone]
    exact Or.inl ⟨_, rfl⟩
  · rw [if_neg hdone]
    dsimp only
    cases hdrv : isDerivation (parseDrvPathWithOutputs i).1 with
    | false =>
      simp only [Bool.false_eq_true, if_false]
      split_ifs
      · exact Or.inl ⟨_, rfl⟩
      · exact Or.inl ⟨_, rfl⟩
    | true =>
      simp only [if_true]
      cases hvalid : store.isValidPath (parseDrvPathWithOutputs i).1 with
      | false => exact Or.inl ⟨_, rfl⟩
      | true =>
        have hmem := isValidPath_eq_true_iff.mp hvalid
        simp only [Bool.not_true, Bool.false_eq_true, if_false]
        cases hread : store.derivationFromPath (parseDrvPathWithOutputs i).1 with
        | ok drv =>
          rw [Outcome.ok_bind]
          by_cases hempty : store.invalidOutputs drv (parseDrvPathWithOutputs i).2 = ∅
          · rw [if_pos hempty]
            exact Or.inl ⟨_, rfl⟩
          · rw [if_neg hempty]
            exact Or.inl ⟨_, rfl⟩
        | error e => exact Or.inr ⟨_, hmem, Or.inl ⟨e, hread, rfl⟩⟩
        | diverge => exact Or.inr ⟨_, hmem, Or.inr ⟨hread, rfl⟩⟩

/-- A derivation that was read is visited without error. -/
theorem visitDrv_isOk {infos : SortedMap Path SubstitutablePathInfo} (h : store.Pending i)
    (s : MissingState) : ∃ s', store.visitDrv infos s i = .ok s' := by
  obtain ⟨drv, hitem, -⟩ := h
  simp only [visitDrv, hitem.2.2, Outcome.ok_bind]
  split_ifs
  · exact ⟨_, rfl⟩
  · exact ⟨_, rfl⟩

/-- A round fails only when it reads a valid derivation. -/
theorem round_outcome (store : MissingStore) (s : MissingState) :
    (∃ s', store.round s = .ok s') ∨ (∃ d ∈ store.validPaths, ∃ e,
      store.derivationFromPath d = .error e ∧ store.round s = .error e) ∨
      ∃ d ∈ store.validPaths, store.derivationFromPath d = .diverge := by
  have hvisit : ∀ (infos : SortedMap Path SubstitutablePathInfo) (l : List Str),
      (∀ i ∈ l, store.Pending i) → ∀ s, ∃ s', l.foldlM (store.visitDrv infos) s = .ok s' := by
    intro infos l hl
    induction l with
    | nil => exact fun s => ⟨s, rfl⟩
    | cons i l ih =>
      intro s
      obtain ⟨s₁, hs₁⟩ : ∃ s₁, store.visitDrv infos s i = .ok s₁ :=
        visitDrv_isOk (hl i List.mem_cons_self) s
      rw [List.foldlM_cons, hs₁]
      exact ih (fun j hj => hl j (List.mem_cons_of_mem i hj)) s₁
  cases hs₁ : s.todo.toList.foldlM store.classify
      { s with query := ∅, todoDrv := ∅, todoNonDrv := ∅ } with
  | ok s₁ =>
    have hc := Classifies.of_foldlM s.todo.toList hs₁
    have hpending : ∀ i ∈ s₁.todoDrv.toList, store.Pending i := fun i hi => by
      rw [SortedSet.mem_toList, hc.todoDrv] at hi
      exact (hi.resolve_left (SortedMap.notMem_empty i)).2.2
    obtain ⟨s₂, hs₂⟩ := hvisit (store.querySubstitutablePathInfos s₁.query) _ hpending
      { s₁ with todo := ∅ }
    refine Or.inl ⟨s₂.todoNonDrv.toList.foldl
      (visitNonDrv (store.querySubstitutablePathInfos s₁.query)) s₂, ?_⟩
    rw [round, hs₁, Outcome.ok_bind]
    dsimp only
    rw [hs₂]
    rfl
  | error e =>
    obtain ⟨i, -, s₁, hfail⟩ := Outcome.exists_of_foldlM_eq_error hs₁
    rcases classify_outcome store s₁ i with ⟨s', hok⟩ | ⟨d, hd, ⟨e', hread, herror⟩ | ⟨-, hdiv⟩⟩
    · cases hok.symm.trans hfail
    · cases herror.symm.trans hfail
      exact Or.inr (Or.inl ⟨d, hd, e, hread, by rw [round, hs₁]; rfl⟩)
    · cases hdiv.symm.trans hfail
  | diverge =>
    refine Or.inr (Or.inr ?_)
    by_contra hnone
    push Not at hnone
    refine Outcome.foldlM_ne_diverge (P := fun _ => True) (fun s₁ i _ _ => ⟨fun hfail => ?_, fun _ _ =>
      trivial⟩) trivial hs₁
    rcases classify_outcome store s₁ i with ⟨s', hok⟩ | ⟨d, hd, ⟨e', -, herror⟩ | ⟨hread, -⟩⟩
    · cases hok.symm.trans hfail
    · cases herror.symm.trans hfail
    · exact hnone d hd hread

/-- The rounds end if their number is greater than the number of the pending items. -/
theorem rounds_outcome {targets : PathSet}
    (hread : ∀ d ∈ store.validPaths, store.derivationFromPath d ≠ .diverge) (fuel : ℕ) :
    ∀ s, (∀ x ∈ s.todo, x ∈ store.allItems targets) →
      (store.pendingItems targets s).card + 2 ≤ fuel →
      (∃ r, store.rounds fuel s = .ok r) ∨ ∃ d ∈ store.validPaths, ∃ e,
        store.derivationFromPath d = .error e ∧ store.rounds fuel s = .error e := by
  induction fuel with
  | zero => exact fun s _ h => absurd h (by omega)
  | succ fuel ih =>
    intro s htodo hfuel
    rw [rounds]
    split_ifs with hempty
    · exact Or.inl ⟨s, rfl⟩
    · rcases round_outcome store s with ⟨s', hs'⟩ | ⟨d, hd, e, he, herror⟩ | ⟨d, hd, hdiv⟩
      · have hround := round_spec hs'
        rw [hs', Outcome.ok_bind]
        by_cases hnew : ∃ i ∈ s.todo, i ∉ s.done
        · obtain ⟨i, hi, hnew⟩ := hnew
          have hlt := hround.card_pendingItems_lt htodo hi hnew
          exact ih s' hround.todo_subset (by omega)
        · push Not at hnew
          obtain ⟨n, rfl⟩ : ∃ n, fuel = n + 1 := ⟨fuel - 1, by omega⟩
          rw [rounds, if_pos (hround.todo_eq_empty hnew)]
          exact Or.inl ⟨s', rfl⟩
      · exact Or.inr ⟨d, hd, e, he, by rw [herror]; rfl⟩
      · exact absurd hdiv (hread d hd)

/-- A greater bound does not change a result. -/
theorem rounds_mono (fuel : ℕ) : ∀ (k : ℕ) (s : MissingState),
    (store.rounds fuel s).Approx (store.rounds (fuel + k) s) := by
  induction fuel with
  | zero => exact fun k s => Or.inl rfl
  | succ fuel ih =>
    intro k s
    rw [Nat.succ_add, rounds, rounds]
    split_ifs
    · exact .refl _
    · exact Outcome.Approx.bind (.refl _) fun s' => ih k s'

/-- `queryMissing` comes to an end: it returns, or throws what the reading of a valid derivation throws;
and when it returns it leaves nothing out. -/
theorem queryMissing_covers (hread : ∀ d ∈ store.validPaths, store.derivationFromPath d ≠ .diverge)
    (hnames : store.WellNamed) (targets : PathSet) :
    ∃ n outcome, (∀ fuel ≥ n, store.queryMissing fuel targets = outcome) ∧
      ((∃ r, outcome = .ok r ∧ store.Covers targets r) ∨
        ∃ d ∈ store.validPaths, ∃ e, store.derivationFromPath d = .error e ∧ outcome = .error e) := by
  obtain ⟨n, hn⟩ : ∃ n, n = (store.pendingItems targets (start targets)).card + 2 := ⟨_, rfl⟩
  have htodo : ∀ x ∈ (start targets).todo, x ∈ store.allItems targets := fun x hx => by
    rw [allItems, List.mem_toFinset, List.mem_append, List.mem_append]
    exact Or.inl (Or.inl hx)
  have hends := rounds_outcome hread n (start targets) htodo hn.ge
  refine ⟨n, store.queryMissing n targets, fun fuel hfuel => ?_, ?_⟩
  · obtain ⟨k, rfl⟩ := Nat.exists_eq_add_of_le hfuel
    have hmono : (store.queryMissing n targets).Approx (store.queryMissing (n + k) targets) :=
      rounds_mono n k (start targets)
    rcases hends with ⟨r, hok⟩ | ⟨d, -, e, -, herror⟩
    · exact (hmono.eq_of_ok hok).trans hok.symm
    · exact (hmono.eq_of_error herror).trans herror.symm
  · refine hends.imp_left fun ⟨r, hok⟩ => ⟨r, hok, ?_⟩
    obtain ⟨hinv, hempty⟩ := rounds_preserve (fun _ _ hs hround => hs.round hnames hround) n
      (coverInv_start targets) hok
    exact hinv.covers hnames hempty

/-! ### Names that are not read as they were meant -/

/-- A derivation with given outputs and inputs. -/
def sampleDerivation (outputs : List (Str × Path)) (inputDrvs : List (Path × List Str)) :
    Derivation where
  outputs := .ofList (outputs.map fun o => (o.1, ⟨o.2, [], []⟩))
  inputDrvs := .ofList (inputDrvs.map fun j => (j.1, .ofList j.2))
  inputSrcs := ∅
  platform := str "x86_64-linux"
  builder := str "/bin/sh"
  args := []
  env := ∅

/-- A store of derivations; `substitutes` is what the substituters have, without references. -/
def sampleStore (drvs : List (Path × Derivation)) (valid : List Path)
    (substitutes : List (Path × UInt64)) : MissingStore where
  validPaths := .ofList (drvs.map Prod.fst ++ valid)
  derivationFromPath p :=
    match drvs.lookup p with
    | some drv => .ok drv
    | none => .error (str "derivation expected")
  substitutes := (SortedMap.ofList substitutes).mapVal fun _ size => ⟨[], ∅, size, size⟩
  useSubstitutes := true

/-- An output of `e.drv` has an empty id, and `d.drv` wants it together with another one. -/
def emptyIdStore : MissingStore :=
  sampleStore [(str "/nix/store/d.drv", sampleDerivation [(str "out", str "/nix/store/d")]
      [(str "/nix/store/e.drv", [[], str "dev"])]),
    (str "/nix/store/e.drv", sampleDerivation
      [([], str "/nix/store/e-"), (str "dev", str "/nix/store/e-dev")] [])]
    [str "/nix/store/e-dev"] []

/-- The output of `c.drv` is a derivation, of which `d.drv` wants all outputs. -/
def builtDrvStore : MissingStore :=
  sampleStore [(str "/nix/store/c.drv", sampleDerivation [(str "out", str "/nix/store/e.drv")] []),
    (str "/nix/store/d.drv", sampleDerivation [(str "out", str "/nix/store/d")]
      [(str "/nix/store/e.drv", [])])]
    [] [(str "/nix/store/e.drv", 1)]

/-- A derivation that is not called one, of which `d.drv` wants an output. -/
def plainNameStore : MissingStore :=
  sampleStore [(str "/nix/store/d.drv", sampleDerivation [(str "out", str "/nix/store/d")]
      [(str "/nix/store/e", [str "out"])]),
    (str "/nix/store/e", sampleDerivation [(str "out", str "/nix/store/e-out")] [])] [] []

/-- What becomes of `d.drv` there. -/
def plainNameResult : MissingState :=
  ⟨∅, .ofList [str "/nix/store/d.drv", str "/nix/store/e!out"], .ofList [str "/nix/store/e!out"], ∅,
    .ofList [str "/nix/store/e!out"], .ofList [str "/nix/store/d.drv"], ∅,
    .ofList [str "/nix/store/e!out"], 0, 0⟩

/-- What becomes of `d.drv` in the store with an empty id. -/
def emptyIdResult : MissingState :=
  ⟨∅, .ofList [str "/nix/store/d.drv", str "/nix/store/e.drv!dev"], ∅, ∅, ∅,
    .ofList [str "/nix/store/d.drv"], ∅, ∅, 0, 0⟩

/-- A result does not account for a path that is in none of its sets and is no output of what is
built. -/
theorem not_accounts (hvalid : p ∉ store.validPaths) (hsubstitute : p ∉ r.willSubstitute)
    (hunknown : p ∉ r.unknown) (hbuild : ∀ d ∈ r.willBuild.toList, ∀ drv,
      store.derivationFromPath d = .ok drv → p ∉ drv.outputs.entries.map fun o => o.2.path) :
    ¬store.Accounts r p := by
  rintro (h | h | h | ⟨d, hd, drv, hread, o, ho, hpath⟩)
  · exact hvalid h
  · exact hsubstitute h
  · exact hunknown h
  · exact hbuild d (SortedSet.mem_toList.mpr hd) drv hread (List.mem_map.mpr ⟨o, ho, hpath⟩)

/-- The first sample does not account for its output. -/
theorem not_accounts_emptyIdResult :
    ¬emptyIdStore.Accounts emptyIdResult (str "/nix/store/e-") := by
  refine not_accounts (by decide) (by decide) (by decide) fun d hd drv hread => ?_
  obtain rfl : d = str "/nix/store/d.drv" := List.mem_singleton.mp hd
  cases hread
  decide

/-- The second sample does not account for its output. -/
theorem not_accounts_plainNameResult :
    ¬plainNameStore.Accounts plainNameResult (str "/nix/store/e-out") := by
  refine not_accounts (by decide) (by decide) (by decide) fun d hd drv hread => ?_
  obtain rfl : d = str "/nix/store/d.drv" := List.mem_singleton.mp hd
  cases hread
  decide

/-- The request for the two outputs of `e.drv` is read as a request for one of them, so the other one
is left out; a derivation that is going to be substituted is not said to be unknown, although its
outputs are; and a request for an output of a valid derivation `e` is taken for a path, so the output is
left out. -/
theorem queryMissing_leaves_out :
    (∃ r, emptyIdStore.queryMissing 3 (.ofList [str "/nix/store/d.drv"]) = .ok r ∧
      ¬emptyIdStore.Covers (.ofList [str "/nix/store/d.drv"]) r) ∧
    (∃ r, builtDrvStore.queryMissing 3
        (.ofList [str "/nix/store/c.drv", str "/nix/store/d.drv"]) = .ok r ∧
      str "/nix/store/d.drv" ∈ r.willBuild ∧
      str "/nix/store/e.drv" ∉ builtDrvStore.validPaths ∧ r.unknown = ∅) ∧
    ∃ r, plainNameStore.queryMissing 3 (.ofList [str "/nix/store/d.drv"]) = .ok r ∧
      str "/nix/store/d.drv" ∈ r.willBuild ∧ str "/nix/store/e" ∈ plainNameStore.validPaths ∧
      ¬plainNameStore.Accounts r (str "/nix/store/e-out") := by
  refine ⟨⟨emptyIdResult, by decide +kernel, fun hcovers => ?_⟩, ?_, ?_⟩
  · obtain ⟨drv, hread, -, hinputs⟩ := hcovers.inputs (str "/nix/store/d.drv") (by decide)
    cases hread
    have hrequest := hinputs (str "/nix/store/e.drv", .ofList [[], str "dev"])
      (List.mem_singleton.mpr rfl)
    rw [if_pos (by decide)] at hrequest
    rcases hrequest with ⟨hinvalid, -⟩ | ⟨-, drv, hread, houtputs⟩
    · exact hinvalid (by decide)
    · cases hread
      exact not_accounts_emptyIdResult
        (houtputs ([], ⟨str "/nix/store/e-", [], []⟩) (by decide) (by decide))
  · refine ⟨⟨∅, .ofList [str "/nix/store/c.drv", str "/nix/store/d.drv", str "/nix/store/e.drv"],
      ∅, ∅, ∅, .ofList [str "/nix/store/d.drv"], .ofList [str "/nix/store/e.drv"], ∅, 1, 1⟩, ?_⟩
    decide +kernel
  · exact ⟨plainNameResult, by decide +kernel, by decide, by decide, not_accounts_plainNameResult⟩

section

variable {drvs : List (Path × Derivation)} {valid : List Path} {substitutes : List (Path × UInt64)}

/-- The samples come to an end. -/
theorem sampleStore_reads (d : Path) :
    (sampleStore drvs valid substitutes).derivationFromPath d ≠ .diverge := by
  simp only [sampleStore]
  cases drvs.lookup d <;> simp

/-- What is read from a sample is in its list. -/
theorem mem_of_sampleStore {d : Path} {drv : Derivation}
    (h : (sampleStore drvs valid substitutes).derivationFromPath d = .ok drv) : (d, drv) ∈ drvs := by
  simp only [sampleStore] at h
  cases hlookup : drvs.lookup d with
  | none => simp [hlookup] at h
  | some drv' =>
    simp only [hlookup, Outcome.ok.injEq] at h
    subst h
    obtain ⟨l₁, l₂, rfl, -⟩ := List.lookup_eq_some_iff.mp hlookup
    simp

/-- Samples without `!` are well named. -/
theorem wellNamed_sampleStore (h : ∀ e ∈ drvs, (∀ o ∈ e.2.outputs.entries, '!'.toUInt8 ∉ o.2.path) ∧
      (∀ src ∈ e.2.inputSrcs.toList, '!'.toUInt8 ∉ src) ∧ ∀ j ∈ e.2.inputDrvs.entries,
        '!'.toUInt8 ∉ j.1 ∧ ∀ o ∈ j.2.toList, o ≠ [] ∧ ','.toUInt8 ∉ o) :
    (sampleStore drvs valid substitutes).WellNamed where
  references p info hinfo q hq := by
    rw [sampleStore, SortedMap.find?_mapVal] at hinfo
    obtain ⟨size, -, rfl⟩ := Option.map_eq_some_iff.mp hinfo
    exact absurd hq (SortedMap.notMem_empty q)
  outputs d _ drv hread := (h _ (mem_of_sampleStore hread)).1
  inputSrcs d _ drv hread := (h _ (mem_of_sampleStore hread)).2.1
  inputDrvs d _ drv hread := (h _ (mem_of_sampleStore hread)).2.2

end

/-- The store with a derivation that is built. -/
theorem queryMissing_covers_builtDrvStore :
    ∃ n outcome, (∀ fuel ≥ n, builtDrvStore.queryMissing fuel
        (.ofList [str "/nix/store/c.drv", str "/nix/store/d.drv"]) = outcome) ∧
      ((∃ r, outcome = .ok r ∧ builtDrvStore.Covers
        (.ofList [str "/nix/store/c.drv", str "/nix/store/d.drv"]) r) ∨
        ∃ d ∈ builtDrvStore.validPaths, ∃ e,
          builtDrvStore.derivationFromPath d = .error e ∧ outcome = .error e) :=
  queryMissing_covers (fun d _ => sampleStore_reads d) (wellNamed_sampleStore (by decide)) _

end MissingStore

end Nix
