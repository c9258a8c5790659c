import NixStore.Expr.ContextElems
import NixStore.Lib.SortedLists

/-!
# Contexts of the strings that an evaluation makes

Every operation of `NixStore.Expr.StringOps` makes strings whose contexts consist of encodings of
store paths, if the strings and the paths that it comes to are like that (`sound_run`).  So every
string value is (`StringValue.sound`), and `contexts_decode_iff` says which of the elements can be
decoded, and when the assertion in `import` fails.
-/

namespace Nix

variable {α : Type} {cfg : StoreConfig} {sha256 : Str → Str}

/-- All elements of a context encode store paths. -/
def Elems (cfg : StoreConfig) (context : PathSet) : Prop := ∀ c ∈ context, IsElem cfg c

/-- A string or path is a C string, and the elements of a context encode store paths. -/
def Value.Sound (cfg : StoreConfig) : Value α → Prop
  | .tString s context => s.NulFree ∧ Elems cfg context
  | .tPath p => p.NulFree
  | _ => True

/-- All values in the cells are sound. -/
def EvalEnv.Sound (cfg : StoreConfig) (env : EvalEnv α) : Prop :=
  ∀ v w, env.forceValue v = .ok w → w.Sound cfg

/-- The empty context has only proper elements. -/
theorem Elems.empty : Elems cfg ∅ := fun c hc => absurd hc (SortedMap.notMem_empty c)

/-- A proper element may be added to a context. -/
theorem Elems.insert {context : PathSet} (h : Elems cfg context) {c : Str} (hc : IsElem cfg c) :
    Elems cfg (SortedSet.insert context c) := fun d hd => by
  rcases SortedSet.mem_insert.mp hd with rfl | hd
  · exact hc
  · exact h d hd

/-- Contexts may be united. -/
theorem Elems.foldl_insert {context context' : PathSet} (h : Elems cfg context)
    (h' : Elems cfg context') : Elems cfg (context'.toList.foldl SortedSet.insert context) :=
  fun c hc => (SortedSet.mem_foldl_insert.mp hc).elim (h' c) (h c)

/-- A string that is made of a text and of elements. -/
theorem sound_mkString (s : Str) {context : PathSet} (h : Elems cfg context) :
    (mkString s context : Value α).Sound cfg := by
  refine ⟨Str.nulFree_cut s, fun c hc => ?_⟩
  obtain ⟨d, hd, rfl⟩ := List.mem_map.mp (SortedSet.mem_ofList.mp hc)
  have hd' := h d hd
  rwa [hd'.cut_eq]

/-- A string with one context element is sound when that is proper. -/
theorem sound_mkString_singleton (s : Str) {c : Str} (h : IsElem cfg c) :
    (mkString s (.ofList [c]) : Value α).Sound cfg :=
  sound_mkString s fun d hd => by
    rw [List.mem_singleton.mp (SortedSet.mem_ofList.mp hd)]
    exact h

/-- A path never has a NUL, since it ends before the first one. -/
theorem sound_mkPath (s : Str) : (mkPath s : Value α).Sound cfg := Str.nulFree_cut s

/-! ### Coercion -/

section

variable {env : EvalEnv α} {fuel : ℕ} {st st' : CoerceState cfg sha256}

/-- What a source was copied to is a proper context element. -/
theorem IsCopy.isElem {path dst : Path} (h : IsCopy cfg sha256 path dst) : IsElem cfg dst := by
  obtain ⟨-, hash, name, -, hdst⟩ := h
  obtain ⟨hpath, hnul⟩ := makeFixedOutputPath_spec hdst
  exact .of_path hpath hnul

/-- Copying a source adds the copy to the context. -/
theorem elems_copySource {path : Path} {s : Str} (hst : Elems cfg st.context)
    (h : copySource env path st = .ok (s, st')) : Elems cfg st'.context := by
  unfold copySource at h
  split_ifs at h with hdrv
  split at h
  next dst hdst =>
    cases h
    exact hst.insert (st.srcToStore.copies path _ hdst).isElem
  next hnone =>
    split at h
    next dst hdst =>
      cases h
      exact hst.insert
        (isCopy_of_computeStorePathForPath (Bool.not_eq_true _ ▸ hdrv) hdst).isElem
    · cases h
    · cases h

/-- Coercing a list keeps the context proper if coercing its elements does. -/
theorem elems_coerceElems
    {coerce : α → CoerceState cfg sha256 → Outcome Str (Str × CoerceState cfg sha256)}
    (hcoerce : ∀ v st s st', Elems cfg st.context → coerce v st = .ok (s, st') →
      Elems cfg st'.context) {elems : List α} {s : Str} (hst : Elems cfg st.context)
    (h : coerceElems env coerce elems st = .ok (s, st')) : Elems cfg st'.context := by
  induction elems generalizing st s with
  | nil =>
    cases h
    exact hst
  | cons v rest ih =>
    obtain ⟨⟨s₁, st₁⟩, h₁, h⟩ := Outcome.bind_eq_ok.mp h
    obtain ⟨w, -, h⟩ := Outcome.bind_eq_ok.mp h
    obtain ⟨⟨s₂, st₂⟩, h₂, h⟩ := Outcome.bind_eq_ok.mp h
    cases h
    exact ih (hcoerce v st s₁ st₁ hst h₁) h₂

/-- A coercion only adds elements. -/
theorem elems_coerceToString (henv : env.Sound cfg) {coerceMore copyToStore : Bool} {v : α} {s : Str}
    (hst : Elems cfg st.context)
    (h : coerceToString env coerceMore copyToStore fuel v st = .ok (s, st')) :
    Elems cfg st'.context := by
  induction fuel generalizing v st s st' with
  | zero => cases h
  | succ fuel ih =>
    obtain ⟨x, hx, h⟩ := Outcome.bind_eq_ok.mp h
    cases x with
    | tString s context =>
      cases h
      exact hst.foldl_insert (henv v _ hx).2
    | tPath p =>
      obtain ⟨path, -, h⟩ := Outcome.bind_eq_ok.mp h
      split_ifs at h
      · exact elems_copySource hst h
      · cases h
        exact hst
    | tAttrs attrs =>
      cases hfind : findAttr attrs (str "outPath") with
      | none => simp [hfind] at h
      | some a =>
        simp only [hfind] at h
        exact ih hst h
    | tList elems =>
      dsimp only at h
      split_ifs at h
      exact elems_coerceElems (fun _ _ _ _ => ih) hst h
    | _ =>
      -- no other value has a context
      simp only at h
      split_ifs at h <;> cases h <;> exact hst

/-- The text of a path is a C string. -/
theorem nulFree_coerceToString (henv : env.Sound cfg) {v : α} {s : Str}
    (h : coerceToString env false false fuel v st = .ok (s, st')) : s.NulFree := by
  induction fuel generalizing v st s st' with
  | zero => cases h
  | succ fuel ih =>
    obtain ⟨x, hx, h⟩ := Outcome.bind_eq_ok.mp h
    cases x with
    | tString s context =>
      cases h
      exact (henv v _ hx).1
    | tPath p =>
      obtain ⟨path, hpath, h⟩ := Outcome.bind_eq_ok.mp h
      cases h
      have hp : p.NulFree := henv v _ hx
      rcases canonPath_spec hpath with rfl | ⟨names, -, rfl, hnames⟩
      · decide
      · intro h0
        obtain ⟨n, hn, h0⟩ := List.mem_flatMap.mp h0
        rcases List.mem_cons.mp h0 with h0 | h0
        · exact absurd h0 (by decide)
        · exact hp ((hnames n hn).2 0 h0)
    | tAttrs attrs =>
      cases hfind : findAttr attrs (str "outPath") with
      | none => simp [hfind] at h
      | some a =>
        simp only [hfind] at h
        exact ih h
    | _ => cases h

/-- Coercion to a path keeps the context proper. -/
theorem elems_coerceToPath (henv : env.Sound cfg) {v : α} {path : Path}
    (hst : Elems cfg st.context) (h : coerceToPath env fuel v st = .ok (path, st')) :
    Elems cfg st'.context ∧ path.NulFree := by
  obtain ⟨⟨path', st₁⟩, h₁, h⟩ := Outcome.bind_eq_ok.mp h
  dsimp only at h
  split_ifs at h
  cases h
  exact ⟨elems_coerceToString henv hst h₁, nulFree_coerceToString henv h₁⟩

/-! ### Text -/

/-- Concatenation keeps the context proper. -/
theorem elems_concatElems (henv : env.Sound cfg) {isPath : Bool} {es : List α} {s : Str}
    (hst : Elems cfg st.context) (h : concatElems env fuel isPath es st = .ok (s, st')) :
    Elems cfg st'.context := by
  induction es generalizing st s with
  | nil =>
    cases h
    exact hst
  | cons e es ih =>
    obtain ⟨⟨s₁, st₁⟩, h₁, h⟩ := Outcome.bind_eq_ok.mp h
    obtain ⟨⟨s₂, st₂⟩, h₂, h⟩ := Outcome.bind_eq_ok.mp h
    cases h
    exact ih (elems_coerceToString henv hst h₁) h₂

/-- The context of an XML text is proper. -/
theorem elems_valueToXML (henv : env.Sound cfg) {location : Bool} {v : α} {out : Str}
    {context : PathSet} (h : valueToXML env location fuel v = .ok (out, context)) :
    Elems cfg context := by
  obtain ⟨st, hst, h⟩ := Outcome.bind_eq_ok.mp h
  cases h
  obtain ⟨st₁, st₂, -, hbody, -, hshows⟩ := shows_of_element hst
  obtain ⟨l, hl, hl'⟩ := printValueAsXML_copies hbody
  intro c hc
  rcases ((hshows [] l (by simp) hl').context c).mp hc with hc | ⟨x, hx, -, hc⟩
  · exact absurd hc (SortedMap.notMem_empty c)
  · obtain ⟨w, hw⟩ := exists_force_of_mem_xmlCopies hl hx
    exact (henv w _ hw).2 c hc

/-- The links that `storePath` follows have C strings as targets. -/
def PathView.NulFreeTargets (view : PathView) : Prop :=
  ∀ p target, view.links p = .ok (some target) → target.NulFree

/-- A file name is a name of canonical paths. -/
theorem isFileName_isCanonName {n : Str} (h : IsFileName n) : IsCanonName n :=
  ⟨h.ne_nil, h.noSlash, h.ne_dot, h.ne_dotdot⟩

/-- The path that `storePath` adds to the context is a store path. -/
theorem isElem_of_primStorePath {view : PathView} (hview : view.NulFreeTargets) {path p : Path}
    (hnul : path.NulFree)
    (hp : (isStorePath cfg path = true ∧ p = path) ∨ canonPathScan view.links fuel path = .ok p)
    {q : Path} (hq : toStorePath cfg p = .ok q) : IsElem cfg q := by
  have hsub : ∀ {p : Path}, p.NulFree → toStorePath cfg p = .ok q → q.NulFree := by
    intro p hpnul hq h0
    obtain ⟨c, rest, rfl, rfl⟩ := toStorePath_eq hq
    refine hpnul ?_
    rcases List.mem_append.mp h0 with h0 | h0
    · exact List.mem_append_left _ h0
    · refine List.mem_append_right _ ?_
      rcases List.mem_cons.mp h0 with h0 | h0
      · exact h0 ▸ List.mem_cons_self
      · exact List.mem_cons_of_mem _ ((List.takeWhile_sublist _).subset h0)
  rcases hp with ⟨hstore, rfl⟩ | hp
  · obtain ⟨n, -, hslash, hpath⟩ := isStorePath_iff.mp hstore
    obtain ⟨c, rest, hpath', hq'⟩ := toStorePath_eq hq
    have hn : n = c :: rest := by
      have heq := hpath.symm.trans hpath'
      exact (List.cons.inj (List.append_cancel_left heq)).2
    have hall : (c :: rest).takeWhile (· ≠ slash) = c :: rest :=
      List.takeWhile_eq_self_iff.mpr fun b hb => by
        simpa using fun heq : b = slash => hslash (hn ▸ heq ▸ hb)
    rw [hall, ← hpath'] at hq'
    exact hq' ▸ .of_path hstore hnul
  · obtain ⟨names, rfl, hnames⟩ := isFileName_of_canonPathScan hview hnul hp
    refine .of_path
      (isStorePath_of_toStorePath (fun n hn => isFileName_isCanonName (hnames n hn)) hq) ?_
    refine hsub ?_ hq
    rw [joinComponents]
    split_ifs
    · decide
    · exact nulFree_subPath hnames

section

variable {w : Value α}

/-- Concatenation gives a sound value. -/
theorem sound_concatStrings (henv : env.Sound cfg) {es : List α} (hst : Elems cfg st.context)
    (h : concatStrings env fuel es st = .ok (w, st')) : w.Sound cfg := by
  obtain ⟨isPath, -, h⟩ := Outcome.bind_eq_ok.mp h
  obtain ⟨⟨s, st₁⟩, hs, h⟩ := Outcome.bind_eq_ok.mp h
  dsimp only at h
  split_ifs at h
  · cases h
    exact sound_mkPath s
  · cases h
    exact sound_mkString s (elems_concatElems henv hst hs)

/-- `toString` gives a sound value. -/
theorem sound_primToString (henv : env.Sound cfg) {v : α} (hst : Elems cfg st.context)
    (h : primToString env fuel v st = .ok (w, st')) : w.Sound cfg := by
  obtain ⟨⟨s, st₁⟩, hs, h⟩ := Outcome.bind_eq_ok.mp h
  cases h
  exact sound_mkString s (elems_coerceToString henv hst hs)

/-- `substring` keeps the whole context. -/
theorem sound_primSubstring (henv : env.Sound cfg) {start len v : α} (hst : Elems cfg st.context)
    (h : primSubstring env fuel start len v st = .ok (w, st')) : w.Sound cfg := by
  obtain ⟨start, -, h⟩ := Outcome.bind_eq_ok.mp h
  obtain ⟨len, -, h⟩ := Outcome.bind_eq_ok.mp h
  obtain ⟨⟨s, st₁⟩, hs, h⟩ := Outcome.bind_eq_ok.mp h
  dsimp only at h
  split at h
  · cases h
  · cases h
    exact sound_mkString _ (elems_coerceToString henv hst hs)

/-- `baseNameOf` keeps the context. -/
theorem sound_primBaseNameOf (henv : env.Sound cfg) {v : α} (hst : Elems cfg st.context)
    (h : primBaseNameOf env fuel v st = .ok (w, st')) : w.Sound cfg := by
  obtain ⟨⟨s, st₁⟩, hs, h⟩ := Outcome.bind_eq_ok.mp h
  obtain ⟨name, -, h⟩ := Outcome.bind_eq_ok.mp h
  cases h
  exact sound_mkString name (elems_coerceToString henv hst hs)

/-- `dirOf` keeps the context. -/
theorem sound_primDirOf (henv : env.Sound cfg) {v : α} (hst : Elems cfg st.context)
    (h : primDirOf env fuel v st = .ok (w, st')) : w.Sound cfg := by
  obtain ⟨⟨path, st₁⟩, hs, h⟩ := Outcome.bind_eq_ok.mp h
  obtain ⟨dir, -, h⟩ := Outcome.bind_eq_ok.mp h
  obtain ⟨x, -, h⟩ := Outcome.bind_eq_ok.mp h
  cases x with
  | tPath p =>
    cases h
    exact sound_mkPath dir
  | _ =>
    cases h
    exact sound_mkString dir (elems_coerceToPath henv hst hs).1

/-- `toPath` gives a sound value. -/
theorem sound_primToPath (henv : env.Sound cfg) {v : α} (hst : Elems cfg st.context)
    (h : primToPath env fuel v st = .ok (w, st')) : w.Sound cfg := by
  obtain ⟨⟨path, st₁⟩, hs, h⟩ := Outcome.bind_eq_ok.mp h
  obtain ⟨path', -, h⟩ := Outcome.bind_eq_ok.mp h
  cases h
  exact sound_mkString path' (elems_coerceToPath henv hst hs).1

/-- `storePath` puts the store path into the context. -/
theorem sound_primStorePath (henv : env.Sound cfg) {view : PathView} (hview : view.NulFreeTargets)
    {v : α} (hst : Elems cfg st.context) (h : primStorePath env fuel view v st = .ok (w, st')) :
    w.Sound cfg := by
  obtain ⟨⟨path, st₁⟩, hs, h⟩ := Outcome.bind_eq_ok.mp h
  obtain ⟨helems, hnul⟩ := elems_coerceToPath henv hst hs
  obtain ⟨p, hp, h⟩ : ∃ p, ((isStorePath cfg path = true ∧ p = path) ∨
      canonPathScan view.links fuel path = .ok p) ∧ (if isInStore cfg p then do
        let path2 ← toStorePath cfg p
        if view.isValidPath path2 then
          return (mkString p (st₁.context.insert path2),
            { st₁ with context := st₁.context.insert path2 })
        else .error (str "store path `" ++ path2 ++ str "' is not valid")
      else .error (str "path `" ++ p ++ str "' is not in the Nix store")) = .ok (w, st') := by
    dsimp only at h
    split_ifs at h with hstore
    · exact ⟨path, Or.inl ⟨hstore, rfl⟩, h⟩
    · obtain ⟨p, hp, h⟩ := Outcome.bind_eq_ok.mp h
      exact ⟨p, Or.inr hp, h⟩
  split_ifs at h
  obtain ⟨q, hq, h⟩ := Outcome.bind_eq_ok.mp h
  split_ifs at h
  cases h
  exact sound_mkString p (helems.insert (isElem_of_primStorePath hview hnul hp hq))

/-- `toXML` gives a sound value. -/
theorem sound_primToXML (henv : env.Sound cfg) {v : α}
    (h : primToXML env fuel v st = .ok (w, st')) : w.Sound cfg := by
  obtain ⟨⟨out, context⟩, hs, h⟩ := Outcome.bind_eq_ok.mp h
  cases h
  exact sound_mkString out (elems_valueToXML henv hs)

/-- What an operation on texts makes is sound. -/
theorem sound_textRun (henv : env.Sound cfg) {view : PathView} (hview : view.NulFreeTargets)
    {op : TextOp α} {m m' : SrcToStore cfg sha256} (h : op.run env fuel view m = .ok (w, m')) :
    w.Sound cfg := by
  have hval : ∀ {x : Outcome Str (Value α × CoerceState cfg sha256)},
      (do let r ← x; pure (r.1, r.2.srcToStore)) = Outcome.ok (w, m') → ∃ st, x = .ok (w, st) := by
    intro x hx
    obtain ⟨⟨w', st⟩, hw', heq⟩ := Outcome.bind_eq_ok.mp hx
    cases heq
    exact ⟨st, hw'⟩
  cases op with
  | concatStrings es => exact (hval h).elim fun _ h => sound_concatStrings henv .empty h
  | toString v => exact (hval h).elim fun _ h => sound_primToString henv .empty h
  | substring start len v => exact (hval h).elim fun _ h => sound_primSubstring henv .empty h
  | baseNameOf v => exact (hval h).elim fun _ h => sound_primBaseNameOf henv .empty h
  | dirOf v => exact (hval h).elim fun _ h => sound_primDirOf henv .empty h
  | toPath v => exact (hval h).elim fun _ h => sound_primToPath henv .empty h
  | storePath v => exact (hval h).elim fun _ h => sound_primStorePath henv hview .empty h
  | toXML v => exact (hval h).elim fun _ h => sound_primToXML henv h

end

end

/-! ### Instantiation -/

section

variable {env : EvalEnv α} {fuel : ℕ} {drv drv' : Derivation}

/-- The loops of an instantiation set no outputs. -/
theorem outputs_addContext {store : EvalStore} {c : Str}
    (h : addContext store fuel drv c = .ok drv') : drv'.outputs = drv.outputs := by
  have hrefs : ∀ (refs : List Path) (drv' : Derivation),
      refs.foldlM (addRef store) drv = .ok drv' → drv'.outputs = drv.outputs := by
    intro refs drv' h
    refine Outcome.foldlM_preserves (P := fun d => d.outputs = drv.outputs) (fun d j _ d' hd h => ?_)
      rfl h
    unfold addRef at h
    split_ifs at h
    · obtain ⟨names, -, h⟩ := Outcome.bind_eq_ok.mp h
      cases h
      exact hd
    · cases h
      exact hd
  cases c with
  | nil => cases h
  | cons c path =>
    rw [addContext] at h
    split_ifs at h
    · obtain ⟨refs, -, h⟩ := Outcome.bind_eq_ok.mp h
      exact hrefs _ _ h
    · cases h
      rfl
    · cases h
      rfl
    · obtain ⟨names, -, h⟩ := Outcome.bind_eq_ok.mp h
      cases h
      rfl
    · cases h
      rfl

/-- Setting a field of the derivation leaves its outputs alone. -/
theorem outputs_setField {st st' : StrictState cfg sha256} {key s : Str}
    (h : setField key s st = .ok st') : st'.drv.outputs = st.drv.outputs := by
  unfold setField at h
  split_ifs at h
  all_goals first
    | cases h; rfl
    | cases h
    | obtain ⟨outputs, -, h⟩ := Outcome.bind_eq_ok.mp h; cases h; rfl

/-- An attribute of `derivationStrict` leaves the outputs alone. -/
theorem outputs_processAttr {ignoreNulls : Bool} {pos : Pos} {st st' : StrictState cfg sha256}
    {i : Attr α} (h : processAttr env fuel ignoreNulls pos st i = .ok st') :
    st'.drv.outputs = st.drv.outputs := by
  unfold processAttr at h
  split_ifs at h with hnulls
  · cases h
    rfl
  · rw [addPrefix_eq_ok] at h
    obtain ⟨ignored, -, h⟩ := Outcome.bind_eq_ok.mp h
    dsimp only at h
    split_ifs at h with hignored hargs
    · cases h
      rfl
    · obtain ⟨elems, -, h⟩ := Outcome.bind_eq_ok.mp h
      refine Outcome.foldlM_preserves (P := fun s => s.drv.outputs = st.drv.outputs)
        (fun s v _ s' hs h => ?_) rfl h
      obtain ⟨⟨t, coerced⟩, -, h⟩ := Outcome.bind_eq_ok.mp h
      cases h
      exact hs
    · obtain ⟨⟨t, coerced⟩, -, h⟩ := Outcome.bind_eq_ok.mp h
      have houtputs := outputs_setField h
      exact houtputs

/-- Before the outputs are filled in there are none. -/
theorem outputs_processAttrs {attrs : List (Attr α)} {srcToStore : SrcToStore cfg sha256}
    {st : StrictState cfg sha256} (h : processAttrs env fuel attrs srcToStore = .ok st) :
    st.drv.outputs = ∅ := by
  unfold processAttrs at h
  cases hname : findAttr attrs (str "name") with
  | none => simp [hname] at h
  | some attr =>
    simp only [hname] at h
    obtain ⟨drvName, -, h⟩ := Outcome.bind_eq_ok.mp h
    obtain ⟨ignoreNulls, st₀, hst₀, h⟩ : ∃ ignoreNulls, ∃ st₀ : StrictState cfg sha256,
        st₀.drv.outputs = ∅ ∧
          attrs.foldlM (processAttr env fuel ignoreNulls attr.pos) st₀ = .ok st := by
      cases hnulls : findAttr attrs (str "__ignoreNulls") with
      | none =>
        simp only [hnulls] at h
        exact ⟨false, _, rfl, h⟩
      | some a =>
        simp only [hnulls] at h
        obtain ⟨ignoreNulls, -, h⟩ := Outcome.bind_eq_ok.mp h
        exact ⟨ignoreNulls, _, rfl, h⟩
    exact Outcome.foldlM_preserves (P := fun s => s.drv.outputs = ∅)
      (fun _ _ _ _ hs h => (outputs_processAttr h).trans hs) hst₀ h

/-- The names of the outputs are proper. -/
def ProperOutputs (drv : Derivation) : Prop :=
  ∀ o ∈ drv.outputs.entries, ∀ c ∈ o.1, isNameChar c = true

/-- Outputs are proper when their names are those of store paths. -/
theorem properOutputs_iff : ProperOutputs drv ↔
    ∀ id out, drv.outputs.find? id = some out → ∀ c ∈ id, isNameChar c = true :=
  ⟨fun h id out ho => h (id, out) (SortedMap.find?_eq_some_iff.mp ho),
    fun h o ho => h o.1 o.2 (SortedMap.find?_eq_some_iff.mpr ho)⟩

/-- The name `out` is a name of store paths. -/
theorem isNameChar_out : ∀ c ∈ str "out", isNameChar c = true := by decide +kernel

/-- A fixed output has a proper name. -/
theorem properOutputs_fixOutput {st : StrictState cfg sha256} (hst : st.drv.outputs = ∅)
    (h : fixOutput cfg sha256 st = .ok drv) : ProperOutputs drv := by
  unfold fixOutput at h
  split at h
  · cases h
  dsimp only at h
  split at h
  · cases h
  obtain ⟨hash, -, h⟩ := Outcome.bind_eq_ok.mp h
  obtain ⟨outPath, -, h⟩ := Outcome.bind_eq_ok.mp h
  cases h
  refine properOutputs_iff.mpr fun id out hid => ?_
  rw [hst, SortedMap.find?_insert] at hid
  by_cases heq : id = str "out"
  · exact heq ▸ isNameChar_out
  · rw [if_neg heq] at hid
    exact absurd (SortedMap.find?_eq_some_iff.mp hid) List.not_mem_nil

/-- Outputs that are masked have no paths. -/
theorem path_addMaskedOutputs (outputs : SortedSet Str)
    (hdrv : ∀ o ∈ drv.outputs.entries, o.2.path = []) :
    ∀ o ∈ (addMaskedOutputs outputs drv).outputs.entries, o.2.path = [] := by
  unfold addMaskedOutputs
  generalize outputs.toList = l
  induction l generalizing drv with
  | nil => exact hdrv
  | cons i l ih =>
    refine ih fun o ho => ?_
    have hfind := SortedMap.find?_eq_some_iff.mpr ho
    rw [SortedMap.find?_insert] at hfind
    split_ifs at hfind with heq
    · exact congrArg DerivationOutput.path (Option.some.inj hfind).symm
    · exact hdrv o (SortedMap.find?_eq_some_iff.mp hfind)

/-- The outputs that get their paths have proper names, since `makeStorePath` has checked them. -/
theorem properOutputs_fillOutputs {hash : Hash} {drvName : Str}
    (hdrv : ∀ o ∈ drv.outputs.entries, o.2.path = [])
    (h : fillOutputs cfg sha256 hash drvName drv = .ok drv') : ProperOutputs drv' := by
  obtain ⟨hkeys, hproper⟩ := Outcome.foldlM_grows
    (R := fun d d' : Derivation => ∀ id, id ∈ d'.outputs → id ∈ d.outputs ∨
      ∀ c ∈ id, isNameChar c = true)
    (Q := fun (o : Str × DerivationOutput) _ => o.2.path = [] → ∀ c ∈ o.1, isNameChar c = true)
    (fun _ _ => Or.inl) (fun h h' id hid => (h' id hid).elim (h id) Or.inr) (fun hq _ => hq)
    (fun d o d' hd => by
      split_ifs at hd with hpath
      · obtain ⟨outPath, hout, hd⟩ := Outcome.bind_eq_ok.mp hd
        cases hd
        have hname := isNameChar_of_makeOutputPath hout
        refine ⟨fun id hid => ?_, fun _ => hname⟩
        rcases SortedMap.mem_insert.mp hid with rfl | hid
        · exact Or.inr hname
        · exact Or.inl hid
      · cases hd
        exact ⟨fun _ => Or.inl, fun h => absurd h hpath⟩) h
  refine properOutputs_iff.mpr fun id out hid => ?_
  rcases hkeys id (SortedMap.mem_iff_find?_ne_none.mpr (by simp [hid])) with hmem | hname
  · obtain ⟨o, ho⟩ := SortedMap.mem_iff_exists.mp hmem
    exact hproper _ ho (hdrv _ ho)
  · exact hname

/-- An instantiation makes a store derivation whose outputs have proper names. -/
theorem derivationStrict_spec {store : EvalStore} {order : PathSet → List Str}
    {tables tables' : EvalTables cfg sha256} {v : α} {i : Instantiated}
    (h : derivationStrict env store order fuel v tables = .ok (i, tables')) :
    isStorePath cfg i.drvPath = true ∧ i.drvPath.NulFree ∧ ProperOutputs i.drv := by
  obtain ⟨attrs, -, h⟩ := Outcome.bind_eq_ok.mp h
  obtain ⟨st, hst, h⟩ := Outcome.bind_eq_ok.mp h
  obtain ⟨drv, hdrv, h⟩ := Outcome.bind_eq_ok.mp h
  obtain ⟨-, -, h⟩ := Outcome.bind_eq_ok.mp h
  obtain ⟨⟨drv', drvHashes⟩, houtputs, h⟩ := Outcome.bind_eq_ok.mp h
  obtain ⟨drvPath, hdrvPath, h⟩ := Outcome.bind_eq_ok.mp h
  obtain ⟨⟨hash, drvHashes'⟩, -, h⟩ := Outcome.bind_eq_ok.mp h
  cases h
  obtain ⟨hpath, hnul, -⟩ := makeStorePath_spec hdrvPath
  refine ⟨hpath, hnul, ?_⟩
  have hnone : drv.outputs = ∅ := Outcome.foldlM_preserves
    (P := fun d => d.outputs = ∅) (fun _ _ _ _ hd h => (outputs_addContext h).trans hd)
    (outputs_processAttrs hst) hdrv
  unfold setOutputs at houtputs
  split_ifs at houtputs
  · obtain ⟨drv₁, hfix, houtputs⟩ := Outcome.bind_eq_ok.mp houtputs
    cases houtputs
    exact properOutputs_fixOutput hnone hfix
  · obtain ⟨⟨h₁, hashes⟩, -, houtputs⟩ := Outcome.bind_eq_ok.mp houtputs
    obtain ⟨drv₁, hfill, houtputs⟩ := Outcome.bind_eq_ok.mp houtputs
    cases houtputs
    refine properOutputs_fillOutputs (path_addMaskedOutputs _ fun o ho => ?_) hfill
    change o ∈ drv.outputs.entries at ho
    rw [hnone] at ho
    cases ho

/-- The strings for a derivation, instantiated or imported. -/
theorem sound_outputContext {path : Path} (hpath : isStorePath cfg path = true) (hnul : path.NulFree)
    (hproper : ProperOutputs drv) {o : Str × DerivationOutput} (ho : o ∈ drv.outputs.entries) :
    (mkString o.2.path (.ofList [outputContext o.1 path]) : Value α).Sound cfg :=
  sound_mkString_singleton _ (.of_output (hproper o ho) hpath hnul)

/-- Every attribute that `derivationStrict` returns is sound. -/
theorem sound_attrs {store : EvalStore} {order : PathSet → List Str}
    {tables tables' : EvalTables cfg sha256} {v : α} {i : Instantiated}
    (h : derivationStrict env store order fuel v tables = .ok (i, tables')) {w : Value α}
    (hw : w ∈ i.attrs.map Prod.snd) : w.Sound cfg := by
  obtain ⟨hpath, hnul, hproper⟩ := derivationStrict_spec h
  obtain ⟨⟨name, w⟩, hmem, rfl⟩ := List.mem_map.mp hw
  rcases List.mem_cons.mp hmem with heq | hmem
  · cases heq
    exact sound_mkString_singleton _ (.of_closure hpath hnul)
  · obtain ⟨o, ho, heq⟩ := List.mem_map.mp hmem
    cases heq
    exact sound_outputContext hpath hnul hproper ho

/-- A derivation that has been checked has outputs with proper names. -/
theorem properOutputs_of_accepted {store : DrvStore} {path : Path}
    (h : Accepted cfg sha256 store path drv) : ProperOutputs drv := by
  obtain ⟨drvName, -, h⟩ := h
  intro o ho
  split_ifs at h with hfixed
  · have hout : o.1 = str "out" := by
      unfold isFixedOutputDrv at hfixed
      split at hfixed
      next id out heq =>
        rw [heq, List.mem_singleton] at ho
        simp only [Bool.and_eq_true, decide_eq_true_eq] at hfixed
        rw [ho]
        exact hfixed.1
      · cases hfixed
    rw [hout]
    exact isNameChar_out
  · obtain ⟨hash, -, hall⟩ := h
    exact isNameChar_of_makeOutputPath (hall o ho).1

end

/-! ### Importing -/

section

variable {σ : Type} {env : EvalEnv α} {fuel : ℕ} {imports : ImportStore cfg sha256 σ}
  {st : CoerceState cfg sha256} {s : σ}

/-- The strings of an imported derivation are sound. -/
theorem sound_importedStrings {path : Path} {drv : Derivation} {v : α}
    (henv : env.Sound cfg) (hst : Elems cfg st.context)
    (h : primImport imports env fuel v st s = .ok (.derivation path drv)) {w : Value α}
    (hw : w ∈ importedStrings path drv) : w.Sound cfg := by
  obtain ⟨⟨path', st'⟩, hpath, h⟩ := Outcome.bind_eq_ok.mp h
  obtain ⟨s', -, h⟩ := Outcome.bind_eq_ok.mp h
  split_ifs at h with hcond
  · obtain ⟨drv', hdrv, h⟩ := Outcome.bind_eq_ok.mp h
    cases h
    rw [Bool.and_eq_true, Bool.and_eq_true] at hcond
    obtain ⟨⟨hstore, hvalid⟩, -⟩ := hcond
    obtain ⟨store, haccepted⟩ := imports.checked s' path drv hvalid (thrown_eq_ok.mp hdrv)
    have hnul := (elems_coerceToPath henv hst (thrown_eq_ok.mp hpath)).2
    rcases List.mem_cons.mp hw with rfl | hw
    · exact sound_mkString_singleton _ (.of_closure hstore hnul)
    · rcases List.mem_append.mp hw with hw | hw
      · obtain ⟨o, ho, rfl⟩ := List.mem_map.mp hw
        exact sound_outputContext hstore hnul (properOutputs_of_accepted haccepted) ho
      · obtain ⟨o, -, rfl⟩ := List.mem_map.mp hw
        exact sound_mkString o.1 .empty
  · cases h

/-- The context of an import is realised element after element. -/
theorem importContext_append {path : Path} (l l' : List Str) (s : σ) :
    importContext imports path (l ++ l') s =
      importContext imports path l s >>= importContext imports path l' := by
  induction l generalizing s with
  | nil => rfl
  | cons c l ih =>
    rw [List.cons_append, importContext, importContext]
    split_ifs with hstore hvalid hdrv
    · rfl
    · rfl
    · rw [Outcome.bind_assoc]
      congr 1
      funext s'
      exact ih s'
    · exact ih s

/-- The assertion holds of the elements that can be decoded. -/
theorem importContext_ne_assertion {path : Path} {l : List Str}
    (hl : ∀ c ∈ l, isStorePath cfg (decodeContext c).1 = true) (s : σ) :
    importContext imports path l s ≠ .error .assertion := by
  induction l generalizing s with
  | nil => exact fun h => nomatch h
  | cons c l ih =>
    have htail := ih fun d hd => hl d (List.mem_cons_of_mem c hd)
    rw [importContext, if_neg (by simp [hl c List.mem_cons_self])]
    split_ifs
    · simp
    · intro h
      rcases Outcome.bind_eq_error.mp h with h | ⟨s', -, h⟩
      · exact thrown_ne_assertion _ h
      · exact htail s' h
    · exact htail s

/-- The loop fails at the first element with an unknown mark, if it comes that far. -/
theorem importContext_eq_assertion_iff {path : Path} {context : PathSet} (h : Elems cfg context)
    (s : σ) : importContext imports path context.toList s = .error .assertion ↔
      (∃ c ∈ context, UnknownMark c) ∧ ∃ s', importContext imports path
        (context.toList.filter fun c => ¬ UnknownMark c) s = .ok s' := by
  have hsplit : context.toList = (context.toList.filter fun c => ¬ UnknownMark c) ++
      context.toList.filter fun c => UnknownMark c :=
    eq_filter_append_filter context.toList_sorted fun c hc d hd => (h c hc).marked_of_lt (h d hd)
  have hdecodes : ∀ c ∈ context.toList.filter fun c => ¬ UnknownMark c,
      isStorePath cfg (decodeContext c).1 = true := fun c hc => by
    obtain ⟨hmem, hmark⟩ := List.mem_filter.mp hc
    exact (h c hmem).isStorePath_decodeContext_iff.mpr (of_decide_eq_true hmark)
  have hfirst : ∀ s', importContext imports path (context.toList.filter fun c => UnknownMark c) s' =
      .error .assertion ↔ ∃ c ∈ context, UnknownMark c := by
    intro s'
    cases hmarked : context.toList.filter fun c => UnknownMark c with
    | nil =>
      refine iff_of_false (fun h => nomatch h) ?_
      rintro ⟨c, hc, hmark⟩
      have hmem : c ∈ context.toList.filter fun c => UnknownMark c :=
        List.mem_filter.mpr ⟨hc, decide_eq_true hmark⟩
      rw [hmarked] at hmem
      cases hmem
    | cons c l =>
      have hmem : c ∈ context.toList.filter fun c => UnknownMark c := hmarked ▸ List.mem_cons_self
      obtain ⟨hc, hmark⟩ := List.mem_filter.mp hmem
      have hmark := of_decide_eq_true hmark
      refine iff_of_true ?_ ⟨c, hc, hmark⟩
      have hbad : isStorePath cfg (decodeContext c).1 = false := by
        rw [← Bool.not_eq_true, (h c hc).isStorePath_decodeContext_iff]
        exact not_not.mpr hmark
      rw [importContext, if_pos hbad]
  have happend : importContext imports path context.toList s =
      importContext imports path (context.toList.filter fun c => ¬ UnknownMark c) s >>=
        importContext imports path (context.toList.filter fun c => UnknownMark c) := by
    rw [← importContext_append, ← hsplit]
  rw [happend, Outcome.bind_eq_error]
  constructor
  · rintro (herror | ⟨s', hs', hassert⟩)
    · exact absurd herror (importContext_ne_assertion hdecodes s)
    · exact ⟨(hfirst s').mp hassert, s', hs'⟩
  · rintro ⟨hmarked, s', hs'⟩
    exact Or.inr ⟨s', hs', (hfirst s').mpr hmarked⟩

end

/-! ### Making files and discarding contexts -/

section

variable {env : EvalEnv α} {fuel : ℕ} {st : CoerceState cfg sha256} {w : Value α}

/-- `toFile` gives a sound value. -/
theorem sound_primToFile {name contents : α} (h : primToFile env cfg sha256 name contents = .ok w) :
    w.Sound cfg := by
  obtain ⟨name, -, h⟩ := Outcome.bind_eq_ok.mp h
  obtain ⟨⟨contents, context⟩, -, h⟩ := Outcome.bind_eq_ok.mp h
  obtain ⟨refs, -, h⟩ := Outcome.bind_eq_ok.mp h
  obtain ⟨storePath, hpath, h⟩ := Outcome.bind_eq_ok.mp h
  cases h
  obtain ⟨hstore, hnul, -⟩ := makeStorePath_spec hpath
  exact sound_mkString_singleton _ (.of_path hstore hnul)

/-- `filterSource` gives a sound value. -/
theorem sound_primFilterSource {hashFiltered : α → Path → Outcome Str Hash} {filter path : α}
    (h : primFilterSource env fuel hashFiltered filter path st = .ok w) : w.Sound cfg := by
  obtain ⟨⟨path, st'⟩, -, h⟩ := Outcome.bind_eq_ok.mp h
  dsimp only at h
  split_ifs at h
  obtain ⟨fn, -, h⟩ := Outcome.bind_eq_ok.mp h
  cases fn with
  | tLambda lambda =>
    obtain ⟨hash, -, h⟩ := Outcome.bind_eq_ok.mp h
    obtain ⟨name, -, h⟩ := Outcome.bind_eq_ok.mp h
    obtain ⟨dstPath, hpath, h⟩ := Outcome.bind_eq_ok.mp h
    cases h
    obtain ⟨hstore, hnul⟩ := makeFixedOutputPath_spec hpath
    exact sound_mkString_singleton _ (.of_path hstore hnul)
  | _ => cases h

/-- Without its context a value is sound. -/
theorem sound_primUnsafeDiscardStringContext {v : α}
    (h : primUnsafeDiscardStringContext env fuel v st = .ok w) : w.Sound cfg := by
  obtain ⟨⟨s, st'⟩, -, h⟩ := Outcome.bind_eq_ok.mp h
  cases h
  exact sound_mkString s .empty

/-- Replacing `=` by the plain path keeps an element proper. -/
theorem IsElem.discardOutputDependency {c : Str} (h : IsElem cfg c) :
    IsElem cfg (discardOutputDependency c) := by
  rw [Nix.discardOutputDependency]
  split_ifs with heq
  · obtain ⟨e, rfl, hstore, hnul⟩ := h
    cases e with
    | path p plain => exact absurd heq (plain _ (by decide))
    | discarded p => exact absurd heq (by simp [ContextElem.text, str]; decide)
    | output o p noMark => exact absurd heq (by simp [ContextElem.text, outputContext, str]; decide)
    | closure p => exact .of_discarded hstore fun h0 => hnul (List.mem_append_right _ h0)
  · exact h

/-- Discarding the dependency on the outputs keeps a value sound. -/
theorem sound_primUnsafeDiscardOutputDependency (henv : env.Sound cfg) (hst : Elems cfg st.context)
    {v : α} (h : primUnsafeDiscardOutputDependency env fuel v st = .ok w) : w.Sound cfg := by
  obtain ⟨⟨s, st'⟩, hs, h⟩ := Outcome.bind_eq_ok.mp h
  cases h
  refine sound_mkString s fun c hc => ?_
  obtain ⟨d, hd, rfl⟩ := List.mem_map.mp (SortedSet.mem_ofList.mp hc)
  exact (elems_coerceToString henv hst hs d hd).discardOutputDependency

end

/-! ### All string values -/

section

variable {σ : Type} {env : EvalEnv α} {world : StringWorld α σ cfg sha256}

/-- All values that an operation makes are sound. -/
theorem sound_run (henv : env.Sound cfg) (hview : world.view.NulFreeTargets) {op : StringOp α}
    {fuel : ℕ} {tables : EvalTables cfg sha256} {s : σ} {values : List (Value α)}
    (h : op.run env world fuel tables s = .ok values) : ∀ w ∈ values, w.Sound cfg := by
  have hsingle : ∀ {x : Outcome Str (Value α)}, (∀ w, x = .ok w → w.Sound cfg) →
      (do let v ← thrown x; return [v]) = Outcome.ok values → ∀ w ∈ values, w.Sound cfg := by
    intro x hx h w hw
    obtain ⟨v, hv, h⟩ := Outcome.bind_eq_ok.mp h
    cases h
    rw [List.mem_singleton.mp hw]
    exact hx v (thrown_eq_ok.mp hv)
  cases op with
  | text op =>
    obtain ⟨⟨v, m⟩, hv, h⟩ := Outcome.bind_eq_ok.mp h
    cases h
    intro w hw
    rw [List.mem_singleton.mp hw]
    exact sound_textRun henv hview (thrown_eq_ok.mp hv)
  | derivationStrict v =>
    obtain ⟨⟨i, tables'⟩, hi, h⟩ := Outcome.bind_eq_ok.mp h
    cases h
    exact fun w hw => sound_attrs (thrown_eq_ok.mp hi) hw
  | importPath v =>
    obtain ⟨imported, himport, h⟩ := Outcome.bind_eq_ok.mp h
    cases imported with
    | derivation path drv =>
      cases h
      exact fun w hw => sound_importedStrings henv .empty himport hw
    | file path =>
      cases h
      exact List.forall_mem_nil _
  | toFile name contents => exact hsingle (fun _ hw => sound_primToFile hw) h
  | filterSource filter path => exact hsingle (fun _ hw => sound_primFilterSource hw) h
  | unsafeDiscardStringContext v =>
    exact hsingle (fun _ hw => sound_primUnsafeDiscardStringContext hw) h
  | unsafeDiscardOutputDependency v =>
    exact hsingle (fun _ hw => sound_primUnsafeDiscardOutputDependency henv .empty hw) h

end

/-- The strings, with their contexts, that an evaluation can make: those without a context, and those
that an operation makes when all strings that it can come to are such strings. -/
inductive StringValue (cfg : StoreConfig) (sha256 : Str → Str) : Str → PathSet → Prop
  | literal {s : Str} (nulFree : s.NulFree) : StringValue cfg sha256 s ∅
  | made {α σ : Type} {env : EvalEnv α}
      (strings : ∀ v s context, env.forceValue v = .ok (.tString s context) →
        StringValue cfg sha256 s context)
      (paths : ∀ v p, env.forceValue v = .ok (.tPath p) → p.NulFree)
      {world : StringWorld α σ cfg sha256} (targets : world.view.NulFreeTargets)
      {op : StringOp α} {fuel : ℕ} {tables : EvalTables cfg sha256} {state : σ}
      {values : List (Value α)} (run : op.run env world fuel tables state = .ok values)
      {s : Str} {context : PathSet} (mem : .tString s context ∈ values) :
      StringValue cfg sha256 s context

/-- The values in the cells can come from an evaluation. -/
structure EvalEnv.Evaluated (cfg : StoreConfig) (sha256 : Str → Str) (env : EvalEnv α) : Prop where
  strings : ∀ v s context, env.forceValue v = .ok (.tString s context) →
    StringValue cfg sha256 s context
  paths : ∀ v p, env.forceValue v = .ok (.tPath p) → p.NulFree

/-- An environment is sound when its strings and paths are. -/
theorem sound_of_parts {env : EvalEnv α}
    (hstrings : ∀ v s context, env.forceValue v = .ok (.tString s context) →
      s.NulFree ∧ Elems cfg context)
    (hpaths : ∀ v p, env.forceValue v = .ok (.tPath p) → p.NulFree) : env.Sound cfg := by
  intro v w hw
  cases w with
  | tString s context => exact hstrings v s context hw
  | tPath p => exact hpaths v p hw
  | _ => trivial

/-- The elements of the contexts of string values encode store paths. -/
theorem StringValue.sound {s : Str} {context : PathSet} (h : StringValue cfg sha256 s context) :
    s.NulFree ∧ Elems cfg context := by
  induction h with
  | literal hs => exact ⟨hs, .empty⟩
  | made _ paths targets run mem ih => exact sound_run (sound_of_parts ih paths) targets run _ mem

/-- Values that an evaluation has produced are sound. -/
theorem EvalEnv.Evaluated.sound {env : EvalEnv α} (h : env.Evaluated cfg sha256) : env.Sound cfg :=
  sound_of_parts (fun v s context hv => (h.strings v s context hv).sound) h.paths

/-- Contexts are decoded where they have no element that begins with `=` or `~`.  The assertion in
`import` fails exactly if there is such an element in the context of the path and the elements without
such a mark, which come first, are valid and built. -/
theorem contexts_decode_iff (cfg : StoreConfig) (sha256 : Str → Str) :
    (∀ s context, StringValue cfg sha256 s context →
      ((∀ c ∈ context, DecodesElem cfg c) ↔ ∀ c ∈ context, ¬ UnknownMark c)) ∧
    ∀ (α σ : Type) (env : EvalEnv α), env.Evaluated cfg sha256 →
      ∀ (imports : ImportStore cfg sha256 σ) (fuel : ℕ) (v : α) (m : SrcToStore cfg sha256) (s : σ),
        primImport imports env fuel v ⟨∅, m⟩ s = .error .assertion ↔
          ∃ path st, coerceToPath env fuel v ⟨∅, m⟩ = .ok (path, st) ∧
            (∃ c ∈ st.context, UnknownMark c) ∧ ∃ s', importContext imports path
              (st.context.toList.filter fun c => ¬ UnknownMark c) s = .ok s' := by
  refine ⟨fun s context h => forall₂_congr fun c hc => (h.sound.2 c hc).decodesElem_iff, ?_⟩
  intro α σ env henv imports fuel v m s
  constructor
  · intro h
    rcases Outcome.bind_eq_error.mp h with h | ⟨⟨path, st⟩, hpath, h⟩
    · exact absurd h (thrown_ne_assertion _)
    · have hst := (elems_coerceToPath henv.sound .empty (thrown_eq_ok.mp hpath)).1
      rcases Outcome.bind_eq_error.mp h with h | ⟨s', -, h⟩
      · exact ⟨path, st, thrown_eq_ok.mp hpath, (importContext_eq_assertion_iff hst s).mp h⟩
      · split_ifs at h
        rcases Outcome.bind_eq_error.mp h with h | ⟨drv, -, ⟨⟩⟩
        exact absurd h (thrown_ne_assertion _)
  · rintro ⟨path, st, hpath, hmarked⟩
    have hst := (elems_coerceToPath henv.sound .empty hpath).1
    refine Outcome.bind_eq_error.mpr (Or.inr ⟨(path, st), thrown_eq_ok.mpr hpath, ?_⟩)
    exact Outcome.bind_eq_error.mpr (Or.inl ((importContext_eq_assertion_iff hst s).mpr hmarked))

/-! ### The path of a derivation -/

/-- The values for a derivation whose attributes are plain strings. -/
def plainEvalEnv : EvalEnv ℕ where
  forceValue
    | 0 => .ok (.tAttrs [⟨str "name", 1, noPos⟩, ⟨str "system", 1, noPos⟩, ⟨str "builder", 1, noPos⟩])
    | _ => .ok (.tString (str "x") ∅)
  hashPath _ := .ok ⟨.htSHA256, [0]⟩

/-- A table with the derivation of these values. -/
def plainDerivations : SortedMap Path Derivation :=
  match derivationStrict plainEvalEnv sampleEvalStore SortedSet.toList 5 0 sampleTables with
  | .ok (i, _) => SortedMap.insert ∅ i.drvPath i.drv
  | _ => ∅

/-- A store with that derivation. -/
def plainImports : ImportStore defaultConfig (fun _ => [0]) Unit :=
  .registered defaultConfig (fun _ => [0]) sampleEvalStore.drvs 5 plainDerivations

/-- The derivation is valid. -/
example : plainDerivations.keys.map (plainImports.isValidPath ()) = [true] := by decide +kernel

/-- The world of an evaluation with that store. -/
def plainWorld : StringWorld ℕ Unit defaultConfig fun _ => [0] where
  view := ⟨fun _ => .ok none, fun _ => false⟩
  store := sampleEvalStore
  order := SortedSet.toList
  imports := plainImports
  hashFiltered _ _ := .ok ⟨.htSHA256, [0]⟩

/-- There is a derivation, and the string with its path is a value. -/
theorem exists_drvPath : ∃ p, isStorePath defaultConfig p = true ∧
    StringValue defaultConfig (fun _ => [0]) p (.ofList [drvPathContext p]) := by
  have hok : (derivationStrict plainEvalEnv sampleEvalStore SortedSet.toList 5 0
      sampleTables).isOk = true := by
    decide
  obtain ⟨⟨i, tables'⟩, h⟩ := Outcome.isOk_iff.mp hok
  obtain ⟨hpath, hnul, -⟩ := derivationStrict_spec h
  have hrun : StringOp.run plainEvalEnv plainWorld 5 sampleTables () (.derivationStrict 0) =
      .ok (i.attrs.map Prod.snd) := by
    change (thrown (derivationStrict plainEvalEnv sampleEvalStore SortedSet.toList 5 0 sampleTables)
      >>= _) = _
    rw [h]
    rfl
  have hmem : (.tString i.drvPath (.ofList [drvPathContext i.drvPath]) : Value ℕ) ∈
      i.attrs.map Prod.snd := by
    have hcut : (drvPathContext i.drvPath).cut = drvPathContext i.drvPath :=
      (IsElem.of_closure hpath hnul).cut_eq
    refine List.mem_cons.mpr (Or.inl ?_)
    change _ = Value.tString i.drvPath.cut (.ofList [(drvPathContext i.drvPath).cut])
    rw [hcut, Str.cut_eq_self hnul]
  have htargets : plainWorld.view.NulFreeTargets := fun p target h => nomatch h
  refine ⟨i.drvPath, hpath, .made (fun v s context hv => ?_) (fun v p hv => ?_) htargets hrun hmem⟩
  · cases v with
    | zero => cases hv
    | succ v =>
      cases hv
      exact .literal (by decide)
  · cases v <;> cases hv

/-- The value in every cell is the string with the path of a derivation. -/
def drvPathEnv (p : Path) : EvalEnv Unit where
  forceValue _ := .ok (.tString p (.ofList [drvPathContext p]))
  hashPath _ := .ok ⟨.htSHA256, [0]⟩

/-- The environment with one derivation path is one that an evaluation produces. -/
theorem evaluated_drvPathEnv {p : Path}
    (h : StringValue cfg sha256 p (.ofList [drvPathContext p])) :
    (drvPathEnv p).Evaluated cfg sha256 where
  strings v s context hv := by
    cases hv
    exact h
  paths v q hv := nomatch hv

/-- The context of the path of a derivation has an element that is not decoded. -/
theorem contexts_decode_iff_drvPath : ∃ s context,
    StringValue defaultConfig (fun _ => [0]) s context ∧
      ¬ ∀ c ∈ context, DecodesElem defaultConfig c := by
  obtain ⟨p, -, hp⟩ := exists_drvPath
  refine ⟨p, _, hp, fun h => ?_⟩
  have hmark := ((contexts_decode_iff defaultConfig fun _ => [0]).1 p _ hp).mp h
  exact hmark (drvPathContext p) (SortedSet.mem_ofList.mpr List.mem_cons_self) (Or.inl rfl)

/-- The path of a derivation has an element in its context that is not decoded, and the assertion
fails when it is imported. -/
theorem not_contexts_decode :
    (¬ ∀ (cfg : StoreConfig) (sha256 : Str → Str) (s : Str) (context : PathSet),
      StringValue cfg sha256 s context → ∀ c ∈ context, DecodesElem cfg c) ∧
    ¬ ∀ (cfg : StoreConfig) (sha256 : Str → Str) (α σ : Type) (env : EvalEnv α),
      env.Evaluated cfg sha256 → ∀ (imports : ImportStore cfg sha256 σ) (fuel : ℕ) (v : α)
        (m : SrcToStore cfg sha256) (s : σ),
        primImport imports env fuel v ⟨∅, m⟩ s ≠ .error .assertion := by
  obtain ⟨p, hpath, hp⟩ := exists_drvPath
  have hmem : drvPathContext p ∈ (SortedSet.ofList [drvPathContext p] : PathSet) :=
    SortedSet.mem_ofList.mpr List.mem_cons_self
  have hbad : isStorePath defaultConfig (decodeContext (drvPathContext p)).1 = false := by
    rw [← Bool.not_eq_true, (hp.sound.2 _ hmem).isStorePath_decodeContext_iff]
    exact not_not.mpr (Or.inl rfl)
  refine ⟨fun h => ?_, fun h => ?_⟩
  · exact absurd (h _ _ p _ hp _ hmem).isStorePath (by rw [hbad]; decide)
  · refine h _ _ Unit Unit (drvPathEnv p) (evaluated_drvPathEnv hp) plainImports 1 () .empty () ?_
    have habs : isAbsolute p = true := decide_eq_true (head?_of_isStorePath hpath)
    have hcoerce : coerceToPath (drvPathEnv p) 1 () ⟨∅, .empty⟩ =
        .ok (p, (⟨.ofList [drvPathContext p], .empty⟩ : CoerceState defaultConfig fun _ => [0])) := by
      change (if isAbsolute p then _ else _) = _
      rw [if_pos habs]
      rfl
    refine Outcome.bind_eq_error.mpr (Or.inr ⟨_, thrown_eq_ok.mpr hcoerce, ?_⟩)
    refine Outcome.bind_eq_error.mpr (Or.inl ?_)
    change importContext plainImports p [drvPathContext p] () = _
    rw [importContext, if_pos hbad]

end Nix
