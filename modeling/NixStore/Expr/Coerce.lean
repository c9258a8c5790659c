import NixStore.Expr.Values

/-!
# Coercion to strings

Model of `coerceToString` and `coerceToPath` of `eval.cc`.  The context and the table `srcToStore` of
sources that have been copied are threaded through; the recursion is bounded by an argument.  The main
result says that a coercion collects the context of every value that it comes to
(`coerceToString_collects`).
-/

namespace Nix

variable {α : Type}

/-! ### Sources in the store -/

section

variable (env : EvalEnv α) (cfg : StoreConfig) (sha256 : Str → Str)

/-- Model of `computeStorePathForPath`, which is also the path that `addToStore` returns. -/
def computeStorePathForPath (srcPath : Path) : Outcome Str Path := do
  let h ← env.hashPath srcPath
  let name ← baseNameOf srcPath
  makeFixedOutputPath cfg sha256 true .htSHA256 h name

/-- `dst` can be the path of a copy of the source `path`. -/
def IsCopy (path dst : Path) : Prop :=
  isDerivation path = false ∧ ∃ h name, baseNameOf path = .ok name ∧
    makeFixedOutputPath cfg sha256 true .htSHA256 h name = .ok dst

/-- The table `srcToStore`: the copies that have been made of sources. -/
structure SrcToStore where
  map : SortedMap Path Path
  copies : ∀ path dst, map.find? path = some dst → IsCopy cfg sha256 path dst

variable {env cfg sha256}

/-- What the computed store path of a source is. -/
theorem isCopy_of_computeStorePathForPath {path dst : Path} (hdrv : isDerivation path = false)
    (h : computeStorePathForPath env cfg sha256 path = .ok dst) : IsCopy cfg sha256 path dst := by
  obtain ⟨hash, -, h⟩ := Outcome.bind_eq_ok.mp h
  obtain ⟨name, hname, h⟩ := Outcome.bind_eq_ok.mp h
  exact ⟨hdrv, hash, name, hname, h⟩

namespace SrcToStore

/-- An empty table. -/
def empty : SrcToStore cfg sha256 where
  map := ∅
  copies path dst h := by
    rw [SortedMap.find?_eq_none_iff.mpr (SortedMap.notMem_empty path)] at h
    cases h

/-- The table with one more copy. -/
def insert (m : SrcToStore cfg sha256) (path dst : Path) (h : IsCopy cfg sha256 path dst) :
    SrcToStore cfg sha256 where
  map := m.map.insert path dst
  copies q d hq := by
    rw [SortedMap.find?_insert] at hq
    split_ifs at hq with heq
    · cases hq
      exact heq ▸ h
    · exact m.copies q d hq

/-- The copies of a table are in a later one too. -/
def Extends (m m' : SrcToStore cfg sha256) : Prop :=
  ∀ path dst, m.map.find? path = some dst → m'.map.find? path = some dst

/-- A table extends itself. -/
theorem Extends.refl (m : SrcToStore cfg sha256) : m.Extends m := fun _ _ => id

/-- Extensions follow each other. -/
theorem Extends.trans {m₁ m₂ m₃ : SrcToStore cfg sha256} (h : m₁.Extends m₂) (h' : m₂.Extends m₃) :
    m₁.Extends m₃ := fun path dst hm => h' path dst (h path dst hm)

end SrcToStore

end

/-- What a coercion changes. -/
structure CoerceState (cfg : StoreConfig) (sha256 : Str → Str) where
  context : PathSet
  srcToStore : SrcToStore cfg sha256

section

variable (env : EvalEnv α) {cfg : StoreConfig} {sha256 : Str → Str}

/-- Model of `copyContext`. -/
def copyContext (context : PathSet) (st : CoerceState cfg sha256) : CoerceState cfg sha256 :=
  { st with context := context.toList.foldl SortedSet.insert st.context }

/-- The branch of `coerceToString` that copies a source to the store. -/
def copySource (path : Path) (st : CoerceState cfg sha256) :
    Outcome Str (Str × CoerceState cfg sha256) :=
  if hdrv : isDerivation path = true then
    .error (str "file names are not allowed to end in `" ++ drvExtension ++ str "'")
  else
    match st.srcToStore.map.find? path with
    | some dst => .ok (dst, { st with context := st.context.insert dst })
    | none =>
      match h : computeStorePathForPath env cfg sha256 path with
      | .ok dst => .ok (dst,
          { context := st.context.insert dst
            srcToStore := st.srcToStore.insert path dst
              (isCopy_of_computeStorePathForPath (Bool.not_eq_true _ ▸ hdrv) h) })
      | .error e => .error e
      | .diverge => .diverge

/-- An empty list. -/
def isEmptyList : Value α → Bool
  | .tList [] => true
  | _ => false

/-- The loop of `coerceToString` over a list, given the coercion of an element: a space follows an
element unless it is the last one or an empty list. -/
def coerceElems (coerce : α → CoerceState cfg sha256 → Outcome Str (Str × CoerceState cfg sha256)) :
    List α → CoerceState cfg sha256 → Outcome Str (Str × CoerceState cfg sha256)
  | [], st => return ([], st)
  | v :: rest, st => do
    let (s, st) ← coerce v st
    let w ← env.forceValue v
    let (result, st) ← coerceElems coerce rest st
    return (s ++ (if rest.isEmpty || isEmptyList w then [] else str " ") ++ result, st)

/-- Model of `coerceToString`. -/
def coerceToString (coerceMore copyToStore : Bool) :
    ℕ → α → CoerceState cfg sha256 → Outcome Str (Str × CoerceState cfg sha256)
  | 0, _, _ => .diverge
  | fuel + 1, v, st => do
    match ← env.forceValue v with
    | .tString s context => return (s, copyContext context st)
    | .tPath p => do
      let path ← canonPath p
      if copyToStore then copySource env path st else return (path, st)
    | .tAttrs attrs =>
      match findAttr attrs (str "outPath") with
      | some a => coerceToString coerceMore copyToStore fuel a.value st
      | none => .error (str "cannot coerce an attribute set (except a derivation) to a string")
    | w =>
      if coerceMore then
        match w with
        | .tBool b => return (if b then str "1" else [], st)
        | .tInt n => return (int2String n, st)
        | .tNull => return ([], st)
        | .tList elems => coerceElems env (coerceToString coerceMore copyToStore fuel) elems st
        | w => .error (str "cannot coerce " ++ showType w ++ str " to a string")
      else .error (str "cannot coerce " ++ showType w ++ str " to a string")

/-- Model of `coerceToPath`. -/
def coerceToPath (fuel : ℕ) (v : α) (st : CoerceState cfg sha256) :
    Outcome Str (Path × CoerceState cfg sha256) := do
  let (path, st) ← coerceToString env false false fuel v st
  if isAbsolute path then return (path, st)
  else .error (str "string `" ++ path ++ str "' doesn't represent an absolute path")

end

/-! ### Which contexts a coercion collects -/

section

variable (env : EvalEnv α) {cfg : StoreConfig} {sha256 : Str → Str}

/-- The values that a coercion comes to, through nested lists and `outPath` attributes. -/
inductive Reaches (coerceMore : Bool) : α → α → Prop
  | refl (v : α) : Reaches coerceMore v v
  | outPath {v w : α} {attrs : List (Attr α)} {a : Attr α} :
      env.forceValue v = .ok (.tAttrs attrs) → findAttr attrs (str "outPath") = some a →
      Reaches coerceMore a.value w → Reaches coerceMore v w
  | elem {v w x : α} {elems : List α} : coerceMore = true →
      env.forceValue v = .ok (.tList elems) → x ∈ elems → Reaches coerceMore x w →
      Reaches coerceMore v w

/-- What a coercion owes to a value that it comes to: the context of a string, and the copy of a
source. -/
structure Collected (copyToStore : Bool) (w : α) (st : CoerceState cfg sha256) : Prop where
  string : ∀ s context, env.forceValue w = .ok (.tString s context) → ∀ c ∈ context, c ∈ st.context
  path : copyToStore = true → ∀ p, env.forceValue w = .ok (.tPath p) → ∃ path dst,
    canonPath p = .ok path ∧ st.srcToStore.map.find? path = some dst ∧ dst ∈ st.context

/-- The state has what a coercion of `v` owes to all the values that it comes to. -/
def Collects (coerceMore copyToStore : Bool) (v : α) (st : CoerceState cfg sha256) : Prop :=
  ∀ w, Reaches env coerceMore v w → Collected env copyToStore w st

/-- The context and the table of copies have only grown. -/
structure CoerceState.Grows (st st' : CoerceState cfg sha256) : Prop where
  context : ∀ c ∈ st.context, c ∈ st'.context
  srcToStore : st.srcToStore.Extends st'.srcToStore

variable {env} {coerceMore copyToStore : Bool} {v : α} {st st' st'' : CoerceState cfg sha256}

/-- A state grows to itself. -/
theorem CoerceState.Grows.refl (st : CoerceState cfg sha256) : st.Grows st := ⟨fun _ => id, .refl _⟩

/-- Growth is transitive. -/
theorem CoerceState.Grows.trans (h : st.Grows st') (h' : st'.Grows st'') : st.Grows st'' :=
  ⟨fun c hc => h'.context c (h.context c hc), h.srcToStore.trans h'.srcToStore⟩

/-- What was collected stays collected. -/
theorem Collects.mono (h : Collects env coerceMore copyToStore v st) (hgrows : st.Grows st') :
    Collects env coerceMore copyToStore v st' := fun w hw =>
  { string := fun s context hforce c hc => hgrows.context c ((h w hw).string s context hforce c hc)
    path := fun hcopy p hforce => by
      obtain ⟨path, dst, hpath, hdst, hmem⟩ := (h w hw).path hcopy p hforce
      exact ⟨path, dst, hpath, hgrows.srcToStore path dst hdst, hgrows.context dst hmem⟩ }

/-- The context after one was copied into it. -/
theorem mem_copyContext {context : PathSet} {c : Str} :
    c ∈ (copyContext context st).context ↔ c ∈ context ∨ c ∈ st.context := by
  rw [copyContext, SortedSet.mem_foldl_insert, SortedSet.mem_toList]

/-- Copying a source adds the copy to the context and remembers it. -/
theorem copySource_spec {path : Path} {s : Str} (h : copySource env path st = .ok (s, st')) :
    st.Grows st' ∧ st'.srcToStore.map.find? path = some s ∧ s ∈ st'.context := by
  unfold copySource at h
  split_ifs at h with hdrv
  split at h
  next dst hdst =>
    cases h
    refine ⟨⟨fun c hc => ?_, .refl _⟩, hdst, ?_⟩ <;> simp [*]
  next hnone =>
    split at h
    next dst hdst =>
      cases h
      refine ⟨⟨fun c hc => ?_, fun q d hq => ?_⟩, ?_, ?_⟩
      · simp [hc]
      · -- the new entry is for a path that had none
        have hne : q ≠ path := by
          rintro rfl
          rw [hnone] at hq
          cases hq
        simpa [SrcToStore.insert, hne] using hq
      · simp [SrcToStore.insert]
      · simp
    · cases h
    · cases h

/-- The loop over a list collects what the coercions of the elements collect. -/
theorem coerceElems_collects
    {coerce : α → CoerceState cfg sha256 → Outcome Str (Str × CoerceState cfg sha256)}
    (hcoerce : ∀ v st s st', coerce v st = .ok (s, st') →
      st.Grows st' ∧ Collects env coerceMore copyToStore v st') {elems : List α} {s : Str}
    (h : coerceElems env coerce elems st = .ok (s, st')) :
    st.Grows st' ∧ ∀ x ∈ elems, Collects env coerceMore copyToStore x st' := by
  induction elems generalizing st s with
  | nil =>
    cases h
    exact ⟨.refl _, fun x hx => by simp at hx⟩
  | cons v rest ih =>
    rw [coerceElems] at h
    obtain ⟨⟨s₁, st₁⟩, h₁, h⟩ := Outcome.bind_eq_ok.mp h
    obtain ⟨w, -, h⟩ := Outcome.bind_eq_ok.mp h
    obtain ⟨⟨s₂, st₂⟩, h₂, h⟩ := Outcome.bind_eq_ok.mp h
    cases h
    obtain ⟨hgrows, hv⟩ := hcoerce v st s₁ st₁ h₁
    obtain ⟨hgrows', hrest⟩ := ih h₂
    refine ⟨hgrows.trans hgrows', fun x hx => ?_⟩
    rcases List.mem_cons.mp hx with rfl | hx
    · exact hv.mono hgrows'
    · exact hrest x hx

/-- What a value that is neither a set nor a list comes to is itself. -/
theorem Reaches.eq_self {w : α} (h : Reaches env coerceMore v w)
    (hattrs : ∀ attrs, env.forceValue v ≠ .ok (.tAttrs attrs))
    (hlist : ∀ elems, coerceMore = true → env.forceValue v ≠ .ok (.tList elems)) : w = v := by
  cases h with
  | refl => rfl
  | outPath h => exact absurd h (hattrs _)
  | elem hmore h => exact absurd h (hlist _ hmore)

/-- Nothing is owed to a value that is neither a string nor a path. -/
theorem collected_of_noContext {x : Value α} (hx : env.forceValue v = .ok x)
    (hstring : ∀ s context, x ≠ .tString s context) (hpath : ∀ p, copyToStore = true → x ≠ .tPath p)
    (st : CoerceState cfg sha256) : Collected env copyToStore v st where
  string s context hforce := absurd (Outcome.ok.inj (hx.symm.trans hforce)) (hstring s context)
  path hcopy p hforce := absurd (Outcome.ok.inj (hx.symm.trans hforce)) (hpath p hcopy)

/-- A coercion that returns has collected the context of every string, path and derivation that it
came to, and lost nothing that was there before. -/
theorem coerceToString_collects {fuel : ℕ} {s : Str}
    (h : coerceToString env coerceMore copyToStore fuel v st = .ok (s, st')) :
    st.Grows st' ∧ Collects env coerceMore copyToStore v st' := by
  induction fuel generalizing v st s st' with
  | zero => cases h
  | succ fuel ih =>
    rw [coerceToString] at h
    obtain ⟨x, hx, h⟩ := Outcome.bind_eq_ok.mp h
    cases x with
    | tString s context =>
      cases h
      refine ⟨⟨fun c hc => mem_copyContext.mpr (Or.inr hc), .refl _⟩, fun w hw => ?_⟩
      obtain rfl := hw.eq_self (by simp [hx]) (by simp [hx])
      refine ⟨fun s' context' hforce c hc => ?_, fun _ p hforce => ?_⟩
      · cases hx.symm.trans hforce
        exact mem_copyContext.mpr (Or.inl hc)
      · cases hx.symm.trans hforce
    | tPath p =>
      obtain ⟨path, hpath, h⟩ := Outcome.bind_eq_ok.mp h
      by_cases hcopy : copyToStore = true
      · rw [if_pos hcopy] at h
        obtain ⟨hgrows, hdst, hmem⟩ := copySource_spec h
        refine ⟨hgrows, fun w hw => ?_⟩
        obtain rfl := hw.eq_self (by simp [hx]) (by simp [hx])
        refine ⟨fun s' context' hforce => ?_, fun _ q hforce => ?_⟩
        · cases hx.symm.trans hforce
        · cases hx.symm.trans hforce
          exact ⟨path, _, hpath, hdst, hmem⟩
      · rw [if_neg hcopy] at h
        cases h
        refine ⟨.refl _, fun w hw => ?_⟩
        obtain rfl := hw.eq_self (by simp [hx]) (by simp [hx])
        exact collected_of_noContext hx (by simp) (fun _ h => absurd h hcopy) _
    | tAttrs attrs =>
      cases hfind : findAttr attrs (str "outPath") with
      | none => simp [hfind] at h
      | some a =>
        simp only [hfind] at h
        obtain ⟨hgrows, ha⟩ := ih h
        refine ⟨hgrows, fun w hw => ?_⟩
        cases hw with
        | refl => exact collected_of_noContext hx (by simp) (by simp) _
        | outPath hforce hfind' hw =>
          cases hx.symm.trans hforce
          cases hfind.symm.trans hfind'
          exact ha w hw
        | elem _ hforce => cases hx.symm.trans hforce
    | tList elems =>
      by_cases hmore : coerceMore = true
      · subst hmore
        obtain ⟨hgrows, helems⟩ := coerceElems_collects (fun _ _ _ _ => ih) (by simpa using h)
        refine ⟨hgrows, fun w hw => ?_⟩
        cases hw with
        | refl => exact collected_of_noContext hx (by simp) (by simp) _
        | outPath hforce => cases hx.symm.trans hforce
        | elem _ hforce hmem hw =>
          cases hx.symm.trans hforce
          exact helems _ hmem w hw
      · simp [hmore] at h
    | _ =>
      -- no other value has a context, and none is changed by its coercion
      obtain rfl : st = st' := by
        simp only at h
        split_ifs at h <;> cases h <;> rfl
      refine ⟨.refl _, fun w hw => ?_⟩
      obtain rfl := hw.eq_self (by simp [hx]) (by simp [hx])
      exact collected_of_noContext hx (by simp) (by simp) _

end

end Nix
