import NixStore.Expr.DerivationStrict

/-!
# No dependency of a derivation is lost

An element of a context is an encoding of what a string depends on (`ContextElem`), and `Contributes`
says what it asks of the inputs of a derivation.  The loop over the context of `prim_derivationStrict`
inserts into some entries and overwrites others, but it only ever adds outputs that exist (`Keeps`),
so every element has its due at the end, in whatever order they come
(`derivationStrict_contributes`).
-/

namespace Nix

/-! ### What contexts say -/

/-- What an element of a context stands for. -/
inductive ContextElem where
  /-- A source file in the store, or a derivation itself. -/
  | path (p : Path) (plain : ∀ c ∈ str "=~!", p.head? ≠ some c)
  /-- A derivation that need not be built. -/
  | discarded (p : Path)
  /-- An output of a derivation. -/
  | output (o : Str) (p : Path) (noMark : '!'.toUInt8 ∉ o)
  /-- A derivation with all that can be reached from it. -/
  | closure (p : Path)

/-- The element as it is written. -/
def ContextElem.text : ContextElem → Str
  | .path p _ => p
  | .discarded p => str "~" ++ p
  | .output o p _ => outputContext o p
  | .closure p => drvPathContext p

/-- The context of an output is decoded to the path and the name. -/
theorem decodeContext_outputContext {o : Str} (h : '!'.toUInt8 ∉ o) (p : Path) :
    decodeContext (outputContext o p) = (p, o) := by
  have hne : ∀ c ∈ o, (decide (c ≠ '!'.toUInt8)) = true := fun c hc => by
    simpa using fun heq : c = '!'.toUInt8 => h (heq ▸ hc)
  have htail : outputContext o p = '!'.toUInt8 :: (o ++ '!'.toUInt8 :: p) := by
    simp [outputContext, str]
  rw [htail, decodeContext, if_pos List.head?_cons, List.drop_succ_cons, List.drop_zero]
  dsimp only
  rw [if_pos (by simp), List.dropWhile_append_of_pos hne, List.takeWhile_append_of_pos hne]
  simp

section

variable (store : EvalStore)

/-- A reference in the store. -/
def EvalStore.Refers (u v : Path) : Prop :=
  ∃ references, store.closure.queryReferences u = .ok references ∧ v ∈ references

/-- `o` is the name of an output of `p`, if the store knows the names at all. -/
def EvalStore.IsOutputName (p : Path) (o : Str) : Prop :=
  ∀ names, store.queryDerivationOutputNames p = .ok names → o ∈ names

/-- An output that is wanted of an input. -/
def Derivation.Wants (drv : Derivation) (p : Path) (o : Str) : Prop :=
  ∃ outputs, drv.inputDrvs.find? p = some outputs ∧ o ∈ outputs

/-- All outputs are wanted of an input. -/
def Derivation.WantsAll (drv : Derivation) (p : Path) : Prop :=
  ∃ names outputs, store.queryDerivationOutputNames p = .ok names ∧
    drv.inputDrvs.find? p = some outputs ∧ ∀ o ∈ names, o ∈ outputs

/-- The element has its due in the inputs of the derivation. -/
def ContextElem.Contributes (drv : Derivation) : ContextElem → Prop
  | .path p _ => if isDerivation p then drv.WantsAll store p else p ∈ drv.inputSrcs
  | .discarded p => p ∈ drv.inputSrcs
  | .output o p _ => store.IsOutputName p o → drv.Wants p o
  | .closure p => ∀ q, Relation.ReflTransGen store.Refers p q →
      q ∈ drv.inputSrcs ∧ (isDerivation q = true → drv.WantsAll store q)

/-- The inputs of one derivation are inputs of another, as far as their outputs exist. -/
structure Derivation.Keeps (drv drv' : Derivation) : Prop where
  inputSrcs : ∀ p ∈ drv.inputSrcs, p ∈ drv'.inputSrcs
  inputDrvs : ∀ p outputs, drv.inputDrvs.find? p = some outputs → ∃ outputs',
    drv'.inputDrvs.find? p = some outputs' ∧ ∀ o ∈ outputs, store.IsOutputName p o → o ∈ outputs'

variable {store} {drv drv' drv'' : Derivation} {p : Path} {o : Str}

namespace Derivation.Keeps

/-- A derivation keeps its own inputs. -/
theorem refl (drv : Derivation) : drv.Keeps store drv :=
  ⟨fun _ => id, fun _ outputs h => ⟨outputs, h, fun _ ho _ => ho⟩⟩

/-- Keeping inputs is transitive. -/
theorem trans (h : drv.Keeps store drv') (h' : drv'.Keeps store drv'') : drv.Keeps store drv'' where
  inputSrcs p hp := h'.inputSrcs p (h.inputSrcs p hp)
  inputDrvs p outputs hp := by
    obtain ⟨outputs', hp', hsub⟩ := h.inputDrvs p outputs hp
    obtain ⟨outputs'', hp'', hsub'⟩ := h'.inputDrvs p outputs' hp'
    exact ⟨outputs'', hp'', fun o ho hname => hsub' o (hsub o ho hname) hname⟩

/-- A change that leaves the inputs alone. -/
theorem of_eq (hsrcs : drv'.inputSrcs = drv.inputSrcs) (hdrvs : drv'.inputDrvs = drv.inputDrvs) :
    drv.Keeps store drv' where
  inputSrcs _ hp := hsrcs ▸ hp
  inputDrvs _ outputs hp := ⟨outputs, hdrvs ▸ hp, fun _ ho _ => ho⟩

/-- A wanted output stays wanted. -/
theorem wants (h : drv.Keeps store drv') (hname : store.IsOutputName p o) (hw : drv.Wants p o) :
    drv'.Wants p o := by
  obtain ⟨outputs, hp, ho⟩ := hw
  obtain ⟨outputs', hp', hsub⟩ := h.inputDrvs p outputs hp
  exact ⟨outputs', hp', hsub o ho hname⟩

/-- All outputs that are wanted stay wanted. -/
theorem wantsAll (h : drv.Keeps store drv') (hw : drv.WantsAll store p) : drv'.WantsAll store p := by
  obtain ⟨names, outputs, hnames, hp, hall⟩ := hw
  obtain ⟨outputs', hp', hsub⟩ := h.inputDrvs p outputs hp
  refine ⟨names, outputs', hnames, hp', fun o ho => hsub o (hall o ho) fun names' hnames' => ?_⟩
  cases hnames.symm.trans hnames'
  exact ho

/-- What has been contributed stays. -/
theorem contributes (h : drv.Keeps store drv') {e : ContextElem} (he : e.Contributes store drv) :
    e.Contributes store drv' := by
  cases e with
  | path p plain =>
    simp only [ContextElem.Contributes] at he ⊢
    split_ifs at he ⊢
    · exact h.wantsAll he
    · exact h.inputSrcs p he
  | discarded p => exact h.inputSrcs p he
  | output o p noMark => exact fun hname => h.wants hname (he hname)
  | closure p =>
    exact fun q hq => ⟨h.inputSrcs q (he q hq).1, fun hdrv => h.wantsAll ((he q hq).2 hdrv)⟩

end Derivation.Keeps

/-! ### The steps of the loop -/

/-- Adding a source keeps the inputs. -/
theorem keeps_addInputSrc (drv : Derivation) (p : Path) : drv.Keeps store (addInputSrc drv p) where
  inputSrcs _ hq := SortedSet.mem_insert.mpr (Or.inr hq)
  inputDrvs _ outputs h := ⟨outputs, h, fun _ ho _ => ho⟩

/-- The added source is there. -/
theorem mem_addInputSrc (drv : Derivation) (p : Path) : p ∈ (addInputSrc drv p).inputSrcs :=
  SortedSet.mem_insert.mpr (Or.inl rfl)

/-- Overwriting an entry with all the names loses no output that exists. -/
theorem keeps_setInputDrv {names : SortedSet Str} (h : store.queryDerivationOutputNames p = .ok names)
    (drv : Derivation) : drv.Keeps store (setInputDrv drv p names) where
  inputSrcs _ := id
  inputDrvs q outputs hq := by
    by_cases heq : q = p
    · subst heq
      exact ⟨names, by simp [setInputDrv], fun o _ hname => hname names h⟩
    · exact ⟨outputs, by simpa [setInputDrv, heq] using hq, fun _ ho _ => ho⟩

/-- The outputs that were set are wanted, all of them. -/
theorem wantsAll_setInputDrv {names : SortedSet Str}
    (h : store.queryDerivationOutputNames p = .ok names) (drv : Derivation) :
    (setInputDrv drv p names).WantsAll store p :=
  ⟨names, names, h, by simp [setInputDrv], fun _ => id⟩

/-- Adding an output of a derivation keeps the inputs. -/
theorem keeps_addInputDrv (drv : Derivation) (p : Path) (o : Str) :
    drv.Keeps store (addInputDrv drv p o) where
  inputSrcs _ := id
  inputDrvs q outputs hq := by
    by_cases heq : q = p
    · subst heq
      exact ⟨outputs.insert o, by simp [addInputDrv, setInputDrv, hq], fun o' ho' _ =>
        SortedSet.mem_insert.mpr (Or.inr ho')⟩
    · exact ⟨outputs, by simpa [addInputDrv, setInputDrv, heq] using hq, fun _ ho _ => ho⟩

/-- The added output is wanted. -/
theorem wants_addInputDrv (drv : Derivation) (p : Path) (o : Str) : (addInputDrv drv p o).Wants p o :=
  ⟨((drv.inputDrvs.find? p).getD ∅).insert o, by simp [addInputDrv, setInputDrv],
    SortedSet.mem_insert.mpr (Or.inl rfl)⟩

/-- A path of the closure of a derivation that is passed explicitly. -/
theorem addRef_spec {j : Path} (h : addRef store drv j = .ok drv') :
    drv.Keeps store drv' ∧ j ∈ drv'.inputSrcs ∧ (isDerivation j = true → drv'.WantsAll store j) := by
  unfold addRef at h
  have hsrc : drv.Keeps store (addInputSrc drv j) := keeps_addInputSrc drv j
  split_ifs at h with hdrv
  · obtain ⟨names, hnames, h⟩ := Outcome.bind_eq_ok.mp h
    cases h
    have hset := keeps_setInputDrv hnames (addInputSrc drv j)
    exact ⟨hsrc.trans hset, hset.inputSrcs j (mem_addInputSrc drv j),
      fun _ => wantsAll_setInputDrv hnames _⟩
  · cases h
    exact ⟨hsrc, mem_addInputSrc drv j, fun h => absurd h hdrv⟩

/-- The loop over the closure of a derivation that is passed explicitly. -/
theorem addRefs_spec {refs : List Path} (h : refs.foldlM (addRef store) drv = .ok drv') :
    drv.Keeps store drv' ∧
      ∀ j ∈ refs, j ∈ drv'.inputSrcs ∧ (isDerivation j = true → drv'.WantsAll store j) :=
  Outcome.foldlM_grows (R := Derivation.Keeps store)
    (Q := fun j drv => j ∈ drv.inputSrcs ∧ (isDerivation j = true → drv.WantsAll store j))
    .refl .trans (fun hj h => ⟨h.inputSrcs _ hj.1, fun hdrv => h.wantsAll (hj.2 hdrv)⟩)
    (fun _ _ _ => addRef_spec) h

/-- One round of the loop over the context: what is there stays, and the element gets its due. -/
theorem addContext_spec {fuel : ℕ} {c : Str} (h : addContext store fuel drv c = .ok drv') :
    drv.Keeps store drv' ∧ ∀ e : ContextElem, e.text = c → e.Contributes store drv' := by
  cases c with
  | nil => cases h
  | cons c path =>
    rw [addContext] at h
    split_ifs at h with heq htilde hbang hdrv
    · subst heq
      obtain ⟨refs, hrefs, h⟩ := Outcome.bind_eq_ok.mp h
      obtain ⟨hkeeps, hall⟩ := addRefs_spec h
      refine ⟨hkeeps, fun e he => ?_⟩
      cases e with
      | closure p =>
        obtain rfl : p = path := by simpa [ContextElem.text, drvPathContext, str] using he
        -- the closure has all that can be reached
        intro q hq
        have hreach : Relation.ReflTransGen (store.closure.Edge false false) p q :=
          hq.lift id fun u v ⟨references, hquery, hv⟩ => .reference hquery hv
        have hmem : q ∈ refs := ((explores_computeFSClosure fuel hrefs).mem_iff
          fun q hq => absurd hq (SortedMap.notMem_empty q)).mpr (Or.inr hreach)
        exact hall q hmem
      | path p plain => exact absurd (congrArg List.head? he) (plain _ (by decide))
      | discarded p => exact absurd (List.cons.inj he).1 (by decide)
      | output o p _ => exact absurd (List.cons.inj he).1 (by decide)
    · subst htilde
      cases h
      refine ⟨keeps_addInputSrc drv path, fun e he => ?_⟩
      cases e with
      | discarded p =>
        obtain rfl : p = path := by simpa [ContextElem.text, str] using he
        exact mem_addInputSrc drv p
      | path p plain => exact absurd (congrArg List.head? he) (plain _ (by decide))
      | output o p _ => exact absurd (List.cons.inj he).1 (by decide)
      | closure p => exact absurd (List.cons.inj he).1 (by decide)
    · subst hbang
      cases h
      refine ⟨keeps_addInputDrv drv _ _, fun e he => ?_⟩
      cases e with
      | output o p noMark =>
        rw [← show outputContext o p = _ from he, decodeContext_outputContext noMark]
        exact fun _ => wants_addInputDrv drv p o
      | path p plain => exact absurd (congrArg List.head? he) (plain _ (by decide))
      | discarded p => exact absurd (List.cons.inj he).1 (by decide)
      | closure p => exact absurd (List.cons.inj he).1 (by decide)
    · obtain ⟨names, hnames, h⟩ := Outcome.bind_eq_ok.mp h
      cases h
      refine ⟨keeps_setInputDrv hnames drv, fun e he => ?_⟩
      cases e with
      | path p plain =>
        obtain rfl : p = c :: path := he
        simpa only [ContextElem.Contributes, if_pos hdrv] using wantsAll_setInputDrv hnames drv
      | discarded p => exact absurd (List.cons.inj he).1.symm htilde
      | output o p _ => exact absurd (List.cons.inj he).1.symm hbang
      | closure p => exact absurd (List.cons.inj he).1.symm heq
    · cases h
      refine ⟨keeps_addInputSrc drv _, fun e he => ?_⟩
      cases e with
      | path p plain =>
        obtain rfl : p = c :: path := he
        simpa only [ContextElem.Contributes, if_neg hdrv] using mem_addInputSrc drv (c :: path)
      | discarded p => exact absurd (List.cons.inj he).1.symm htilde
      | output o p _ => exact absurd (List.cons.inj he).1.symm hbang
      | closure p => exact absurd (List.cons.inj he).1.symm heq

/-- The loop over the context, in whatever order. -/
theorem addContexts_spec {fuel : ℕ} {cs : List Str}
    (h : cs.foldlM (addContext store fuel) drv = .ok drv') :
    drv.Keeps store drv' ∧ ∀ c ∈ cs, ∀ e : ContextElem, e.text = c → e.Contributes store drv' :=
  Outcome.foldlM_grows (R := Derivation.Keeps store)
    (Q := fun c drv => ∀ e : ContextElem, e.text = c → e.Contributes store drv)
    .refl .trans (fun hc h e he => h.contributes (hc e he)) (fun _ _ _ => addContext_spec) h

end

/-! ### The outputs leave the inputs alone -/

section

variable {cfg : StoreConfig} {sha256 : Str → Str} {drv drv' : Derivation}

/-- The inputs of two derivations are the same. -/
def Derivation.SameInputs (drv drv' : Derivation) : Prop :=
  drv'.inputSrcs = drv.inputSrcs ∧ drv'.inputDrvs = drv.inputDrvs

/-- Masking the outputs leaves the inputs alone. -/
theorem sameInputs_addMaskedOutputs (outputs : SortedSet Str) (drv : Derivation) :
    drv.SameInputs (addMaskedOutputs outputs drv) := by
  unfold addMaskedOutputs
  generalize outputs.toList = l
  induction l generalizing drv with
  | nil => exact ⟨rfl, rfl⟩
  | cons i l ih => exact ih _

/-- Filling in the outputs leaves the inputs alone. -/
theorem sameInputs_fillOutputs {h : Hash} {drvName : Str}
    (hfill : fillOutputs cfg sha256 h drvName drv = .ok drv') : drv.SameInputs drv' := by
  refine (Outcome.foldlM_grows (R := Derivation.SameInputs) (Q := fun _ _ => True)
    (fun _ => ⟨rfl, rfl⟩) (fun h h' => ⟨h'.1.trans h.1, h'.2.trans h.2⟩) (fun _ _ => trivial)
    (fun drv i drv' hi => ⟨?_, trivial⟩) hfill).1
  split_ifs at hi
  · obtain ⟨outPath, -, hi⟩ := Outcome.bind_eq_ok.mp hi
    cases hi
    exact ⟨rfl, rfl⟩
  · cases hi
    exact ⟨rfl, rfl⟩

/-- Setting the outputs leaves the inputs alone. -/
theorem sameInputs_setOutputs {store : DrvStore} {fuel : ℕ} {st : StrictState cfg sha256}
    {drvHashes drvHashes' : DrvHashes}
    (h : setOutputs cfg sha256 store fuel st drvHashes = .ok (drv, drvHashes')) :
    st.drv.SameInputs drv := by
  unfold setOutputs at h
  split_ifs at h with hfixed
  · obtain ⟨drv₁, hfix, h⟩ := Outcome.bind_eq_ok.mp h
    cases h
    unfold fixOutput at hfix
    split at hfix
    · cases hfix
    · dsimp only at hfix
      split at hfix
      · cases hfix
      · obtain ⟨hash, -, hfix⟩ := Outcome.bind_eq_ok.mp hfix
        obtain ⟨outPath, -, hfix⟩ := Outcome.bind_eq_ok.mp hfix
        cases hfix
        exact ⟨rfl, rfl⟩
  · obtain ⟨⟨hash, drvHashes₁⟩, -, h⟩ := Outcome.bind_eq_ok.mp h
    obtain ⟨drv₁, hfill, h⟩ := Outcome.bind_eq_ok.mp h
    cases h
    have hmask := sameInputs_addMaskedOutputs st.outputs st.drv
    have hsame := sameInputs_fillOutputs hfill
    exact ⟨hsame.1.trans hmask.1, hsame.2.trans hmask.2⟩

end

/-! ### The attributes -/

section

variable {α : Type} {env : EvalEnv α} {cfg : StoreConfig} {sha256 : Str → Str} {fuel : ℕ}
  {st st' : StrictState cfg sha256}

/-- The values that are coerced for an attribute. -/
inductive Converts (env : EvalEnv α) (i : Attr α) : α → Prop
  | value : i.name ≠ str "__ignoreNulls" → i.name ≠ str "args" → Converts env i i.value
  | arg {elems : List α} {v : α} : i.name = str "args" →
      env.forceValue i.value = .ok (.tList elems) → v ∈ elems → Converts env i v

/-- Setting a field coerces nothing. -/
theorem coerced_setField {key s : Str} (h : setField key s st = .ok st') : st'.coerced = st.coerced := by
  unfold setField at h
  split_ifs at h
  all_goals first
    | cases h; rfl
    | cases h
    | obtain ⟨outputs, -, h⟩ := Outcome.bind_eq_ok.mp h; cases h; rfl

/-- An argument is coerced and its context collected. -/
theorem addArg_collects {v : α} (h : addArg env fuel st v = .ok st') :
    st.coerced.Grows st'.coerced ∧ Collects env true true v st'.coerced := by
  obtain ⟨⟨s, coerced⟩, hs, h⟩ := Outcome.bind_eq_ok.mp h
  cases h
  exact coerceToString_collects hs

/-- One round of the loop over the attributes collects what the values of the attribute depend on. -/
theorem processAttr_collects {ignoreNulls : Bool} {posDrvName : Pos} {i : Attr α}
    (h : processAttr env fuel ignoreNulls posDrvName st i = .ok st') :
    st.coerced.Grows st'.coerced ∧ ∀ v, Converts env i v → Collects env true true v st'.coerced := by
  unfold processAttr at h
  split_ifs at h with hnulls
  · cases h
    refine ⟨.refl _, fun v hv => ?_⟩
    cases hv with
    | value hne => exact absurd hnulls hne
    | arg hargs => exact absurd (hnulls.symm.trans hargs) (by decide)
  · rw [addPrefix_eq_ok] at h
    obtain ⟨ignored, hignored, h⟩ := Outcome.bind_eq_ok.mp h
    cases ignored with
    | true =>
      cases h
      have hnull : env.forceValue i.value = .ok .tNull := by
        unfold isIgnored at hignored
        split_ifs at hignored
        · obtain ⟨x, hx, hignored⟩ := Outcome.bind_eq_ok.mp hignored
          cases x <;> first | exact hx | cases hignored
        · cases hignored
      refine ⟨.refl _, fun v hv w hw => ?_⟩
      cases hv with
      | value =>
        obtain rfl := hw.eq_self (by simp [hnull]) (by simp [hnull])
        exact collected_of_noContext hnull (by simp) (by simp) _
      | arg _ hforce => cases hnull.symm.trans hforce
    | false =>
      by_cases hargs : i.name = str "args"
      · simp only [hargs, if_true, Bool.false_eq_true, if_false] at h
        obtain ⟨elems, helems, h⟩ := Outcome.bind_eq_ok.mp h
        obtain ⟨hgrows, hall⟩ := Outcome.foldlM_grows
          (R := fun st st' : StrictState cfg sha256 => st.coerced.Grows st'.coerced)
          (Q := fun v st => Collects env true true v st.coerced)
          (fun _ => .refl _) .trans (fun hv h => hv.mono h) (fun _ _ _ => addArg_collects) h
        refine ⟨hgrows, fun v hv => ?_⟩
        cases hv with
        | value _ hne => exact absurd hargs hne
        | arg _ hforce hmem =>
          cases (EvalEnv.forceList_eq_ok.mp helems).symm.trans hforce
          exact hall v hmem
      · simp only [hargs, Bool.false_eq_true, if_false] at h
        obtain ⟨⟨s, coerced⟩, hs, h⟩ := Outcome.bind_eq_ok.mp h
        obtain ⟨hgrows, hv⟩ := coerceToString_collects hs
        rw [coerced_setField h]
        refine ⟨hgrows, fun v hconv => ?_⟩
        cases hconv with
        | value => exact hv
        | arg heq => exact absurd heq hargs

/-- The loop over the attributes collects what all the values depend on. -/
theorem processAttrs_collects {attrs : List (Attr α)} {srcToStore : SrcToStore cfg sha256}
    (h : processAttrs env fuel attrs srcToStore = .ok st) :
    ∀ i ∈ attrs, ∀ v, Converts env i v → Collects env true true v st.coerced := by
  unfold processAttrs at h
  cases hname : findAttr attrs (str "name") with
  | none => simp [hname] at h
  | some attr =>
    simp only [hname] at h
    obtain ⟨drvName, -, h⟩ := Outcome.bind_eq_ok.mp h
    obtain ⟨ignoreNulls, st₀, h⟩ : ∃ ignoreNulls st₀,
        attrs.foldlM (processAttr env fuel ignoreNulls attr.pos) st₀ = .ok st := by
      cases hnulls : findAttr attrs (str "__ignoreNulls") with
      | none =>
        simp only [hnulls] at h
        exact ⟨false, _, h⟩
      | some a =>
        simp only [hnulls] at h
        obtain ⟨ignoreNulls, -, h⟩ := Outcome.bind_eq_ok.mp h
        exact ⟨ignoreNulls, _, h⟩
    exact (Outcome.foldlM_grows
      (R := fun st st' : StrictState cfg sha256 => st.coerced.Grows st'.coerced)
      (Q := fun i st => ∀ v, Converts env i v → Collects env true true v st.coerced)
      (fun _ => .refl _) .trans (fun hi h v hv => (hi v hv).mono h)
      (fun _ _ _ => processAttr_collects) h).2

/-! ### Copies of sources -/

/-- The last of the joined texts ends the joined text. -/
theorem getLastD_suffix_intercalate (sep : Str) (l : List Str) :
    l.getLastD [] <:+ sep.intercalate l := by
  induction l with
  | nil => exact List.suffix_refl _
  | cons a l ih =>
    cases l with
    | nil => simp
    | cons b l =>
      rw [List.intercalate_cons_cons]
      exact (by simpa using ih : (a :: b :: l).getLastD [] <:+ sep.intercalate (b :: l)).trans
        (List.suffix_append _ _)

/-- The base name of a path is the end of it. -/
theorem suffix_of_baseNameOf {path : Path} {name : Str} (h : baseNameOf path = .ok name) :
    name <:+ path := by
  unfold baseNameOf at h
  split_ifs at h
  cases h
  have hsuffix := getLastD_suffix_intercalate ['/'.toUInt8] (path.splitOn '/'.toUInt8)
  rwa [List.intercalate_splitOn] at hsuffix

/-- The copy of a source is not mistaken for anything else. -/
theorem IsCopy.plain {path dst : Path} (h : IsCopy cfg sha256 path dst) :
    isDerivation dst = false ∧ ∀ c ∈ str "=~!", dst.head? ≠ some c := by
  obtain ⟨hdrv, hash, name, hname, hdst⟩ := h
  rw [makeFixedOutputPath, if_pos ⟨rfl, rfl⟩] at hdst
  obtain ⟨-, -, hdst⟩ := Outcome.bind_eq_ok.mp hdst
  cases hdst
  constructor
  · rw [← Bool.not_eq_true] at hdrv ⊢
    rw [isDerivation, Str.hasSuffix_iff] at hdrv ⊢
    intro hsuffix
    -- the extension is shorter than the name with the dash in front of it, or has that dash in it
    have hdash : '-'.toUInt8 :: name <:+ cfg.nixStore ++ str "/" ++ hashPart sha256
        (fingerprint cfg (str "source") hash name) ++ str "-" ++ name :=
      ⟨_, by rw [List.append_cons]; rfl⟩
    rcases List.suffix_or_suffix_of_suffix hsuffix hdash with hle | hle
    · rcases List.suffix_cons_iff.mp hle with heq | hle
      · have hhead : drvExtension.head? = some '-'.toUInt8 := by rw [heq, List.head?_cons]
        exact absurd hhead (by decide)
      · exact hdrv (hle.trans (suffix_of_baseNameOf hname))
    · exact absurd (hle.subset List.mem_cons_self) (by decide)
  · intro c hc heq
    have habs := cfg.absolute
    obtain ⟨a, rest, hstore⟩ : ∃ a rest, cfg.nixStore = a :: rest := by
      cases hs : cfg.nixStore with
      | nil => simp [hs, isAbsolute] at habs
      | cons a rest => exact ⟨a, rest, rfl⟩
    have ha : a = '/'.toUInt8 := by simpa [hstore, isAbsolute] using habs
    have hca : a = c := by simpa [hstore] using heq
    rw [← hca, ha] at hc
    exact absurd hc (by decide)

end

/-! ### Every dependency is an input -/

section

variable {α : Type} {env : EvalEnv α} {store : EvalStore} {cfg : StoreConfig} {sha256 : Str → Str}
  {order : PathSet → List Str} {fuel : ℕ} {tables tables' : EvalTables cfg sha256} {i : Instantiated}

/-- The attributes that a call has converted, and the context that it has turned into inputs. -/
theorem derivationStrict_inputs {v : α} (h : derivationStrict env store order fuel v tables =
    .ok (i, tables')) {attrs : List (Attr α)} (hv : env.forceValue v = .ok (.tAttrs attrs)) :
    ∃ st : StrictState cfg sha256, processAttrs env fuel attrs tables.srcToStore = .ok st ∧
      tables'.srcToStore = st.coerced.srcToStore ∧ ∃ drv,
        (order st.coerced.context).foldlM (addContext store fuel) st.drv = .ok drv ∧
          drv.SameInputs i.drv := by
  obtain ⟨attrs', hattrs, h⟩ := Outcome.bind_eq_ok.mp h
  cases hv.symm.trans (EvalEnv.forceAttrs_eq_ok.mp hattrs)
  obtain ⟨st, hst, h⟩ := Outcome.bind_eq_ok.mp h
  obtain ⟨drv, hdrv, h⟩ := Outcome.bind_eq_ok.mp h
  obtain ⟨-, -, h⟩ := Outcome.bind_eq_ok.mp h
  obtain ⟨⟨drv', drvHashes⟩, houtputs, h⟩ := Outcome.bind_eq_ok.mp h
  obtain ⟨drvPath, -, h⟩ := Outcome.bind_eq_ok.mp h
  obtain ⟨⟨hash, drvHashes'⟩, -, h⟩ := Outcome.bind_eq_ok.mp h
  cases h
  exact ⟨st, hst, rfl, drv, hdrv, sameInputs_setOutputs houtputs⟩

/-- Every string and every path that the conversion of the attributes comes to is accounted for in
the inputs of the derivation: each element of the context of a string has its due, and the copy of a
source is an input. -/
theorem derivationStrict_contributes {v : α} (horder : ∀ s c, c ∈ order s ↔ c ∈ s)
    (h : derivationStrict env store order fuel v tables = .ok (i, tables')) {attrs : List (Attr α)}
    (hv : env.forceValue v = .ok (.tAttrs attrs)) {attr : Attr α} (hattr : attr ∈ attrs) {w₀ w : α}
    (hconv : Converts env attr w₀) (hreach : Reaches env true w₀ w) :
    (∀ s context, env.forceValue w = .ok (.tString s context) →
      ∀ e : ContextElem, e.text ∈ context → e.Contributes store i.drv) ∧
    (∀ p, env.forceValue w = .ok (.tPath p) → ∃ path dst, canonPath p = .ok path ∧
      tables'.srcToStore.map.find? path = some dst ∧ dst ∈ i.drv.inputSrcs) := by
  obtain ⟨st, hst, htables, drv, hdrv, hsame⟩ := derivationStrict_inputs h hv
  have hcollected := processAttrs_collects hst attr hattr w₀ hconv w hreach
  obtain ⟨-, hall⟩ := addContexts_spec hdrv
  have hkeeps : drv.Keeps store i.drv := .of_eq hsame.1 hsame.2
  refine ⟨fun s context hforce e he => ?_, fun p hforce => ?_⟩
  · have hmem := hcollected.string s context hforce _ he
    exact hkeeps.contributes (hall _ ((horder _ _).mpr hmem) e rfl)
  · obtain ⟨path, dst, hpath, hdst, hmem⟩ := hcollected.path rfl p hforce
    obtain ⟨hnotDrv, hplain⟩ := (st.coerced.srcToStore.copies path dst hdst).plain
    have hdue := hall _ ((horder _ _).mpr hmem) (.path dst hplain) rfl
    simp only [ContextElem.Contributes, hnotDrv, Bool.false_eq_true, if_false] at hdue
    exact ⟨path, dst, hpath, htables ▸ hdst, hkeeps.inputSrcs dst hdue⟩

end

/-! ### An example -/

/-- A derivation whose builder is an output of another one and whose argument is a source. -/
def sampleAttrs : List (Attr ℕ) :=
  [⟨str "name", 1, ⟨[], 0, 0⟩⟩, ⟨str "system", 1, ⟨[], 0, 0⟩⟩, ⟨str "builder", 2, ⟨[], 0, 0⟩⟩,
    ⟨str "args", 3, ⟨[], 0, 0⟩⟩]

/-- The values that occur in it. -/
def sampleEvalEnv : EvalEnv ℕ where
  forceValue
    | 0 => .ok (.tAttrs sampleAttrs)
    | 1 => .ok (.tString (str "x") ∅)
    | 2 => .ok (.tString (str "/nix/store/d") (.ofList [str "!out!/nix/store/d.drv"]))
    | 3 => .ok (.tList [4])
    | _ => .ok (.tPath (str "/src"))
  hashPath _ := .ok ⟨.htSHA256, [0]⟩

/-- A store that knows the output of the other derivation. -/
def sampleEvalStore : EvalStore where
  closure := ⟨fun _ => .ok ∅, fun _ => .ok ∅, fun _ => .ok ∅, fun _ => true⟩
  queryDerivationOutputNames _ := .ok (.ofList [str "out"])
  drvs := ⟨fun _ => true, fun _ => .ok [], fun _ => []⟩

/-- Tables in which the hash of the other derivation is known. -/
def sampleTables : EvalTables defaultConfig fun _ => [0] where
  srcToStore := .empty
  drvHashes := SortedMap.insert ∅ (str "/nix/store/d.drv") ⟨.htSHA256, [0]⟩

/-- The instantiation succeeds, and wants the output that the builder depends on. -/
theorem derivationStrict_contributes_sample : ∃ i tables',
    derivationStrict sampleEvalEnv sampleEvalStore SortedSet.toList 5 0 sampleTables = .ok (i, tables') ∧
      i.drv.Wants (str "/nix/store/d.drv") (str "out") := by
  have hok : (derivationStrict sampleEvalEnv sampleEvalStore SortedSet.toList 5 0
      sampleTables).isOk = true := by
    decide +kernel
  have hmem : ⟨str "builder", 2, ⟨[], 0, 0⟩⟩ ∈ sampleAttrs := by simp [sampleAttrs]
  obtain ⟨⟨i, tables'⟩, h⟩ := Outcome.isOk_iff.mp hok
  have hdue := (derivationStrict_contributes (fun _ _ => SortedSet.mem_toList) h rfl hmem
    (.value (by decide) (by decide)) (.refl 2)).1 _ _ rfl
    (.output (str "out") (str "/nix/store/d.drv") (by decide)) (by decide)
  refine ⟨i, tables', h, hdue fun names hnames => ?_⟩
  cases hnames
  decide

end Nix
