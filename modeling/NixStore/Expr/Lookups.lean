import NixStore.Expr.Sessions

/-!
# Levels, displacements and names

An environment fits a static environment if its frames have the names that the scopes declare and the
distances between the `with`s.  In such an environment a bound variable leads by its level and displacement
to the same value as by its name (`lookupVar_eq_lookupName`), and never out of the environments or
their slots.
-/

namespace Nix.Lang

/-- A frame has the names of a scope, or it is that of a `with` and has the right distance. -/
def Frame.Fits (scope : StaticScope) (dist : ℕ) : Frame → Prop
  | .slots names values => scope = scopeOf names ∧ values.length = names.length
  | .withValue prevWith _ => scope = withScope ∧ prevWith = dist

/-- An environment has been made as a static environment says. -/
def Heap.Fits (h : Heap) : StaticEnv → Env → Prop
  | [], [] => True
  | scope :: σ, f :: env =>
    f < h.nextFrame ∧ (h.frames f).Fits scope (prevWith σ) ∧ Heap.Fits h σ env
  | _, _ => False

/-- Two contents of a frame are for the same names. -/
def Frame.Like : Frame → Frame → Prop
  | .slots names values, .slots names' values' => names = names' ∧ values.length = values'.length
  | .withValue prevWith _, .withValue prevWith' _ => prevWith = prevWith'
  | _, _ => False

/-- The memory grows, and frames stay what they are for. -/
structure Heap.Le (h h' : Heap) : Prop where
  next : h.nextFrame ≤ h'.nextFrame
  like : ∀ f < h.nextFrame, (h.frames f).Like (h'.frames f)

namespace Frame

variable {frame frame' frame'' : Frame} {scope : StaticScope} {dist : ℕ}

/-- A frame is like itself. -/
theorem Like.refl (frame : Frame) : frame.Like frame := by
  cases frame <;> simp [Like]

/-- Likeness is transitive. -/
theorem Like.trans (h : frame.Like frame') (h' : frame'.Like frame'') : frame.Like frame'' := by
  cases frame <;> cases frame' <;> cases frame'' <;> simp_all [Like]

/-- Setting a slot leaves a frame alike. -/
theorem Like.setSlot (frame : Frame) (displ : ℕ) (c : Cell) : frame.Like (frame.setSlot displ c) := by
  cases frame <;> simp [Like, Frame.setSlot]

/-- A frame that is like a fitting one fits. -/
theorem Fits.like (h : frame.Fits scope dist) (hlike : frame.Like frame') :
    frame'.Fits scope dist := by
  cases frame with
  | slots names values =>
    cases frame' with
    | slots names' values' =>
      obtain ⟨rfl, hlength⟩ := hlike
      exact ⟨h.1, hlength.symm.trans h.2⟩
    | withValue => exact hlike.elim
  | withValue prevWith v =>
    cases frame' with
    | slots => exact hlike.elim
    | withValue prevWith' v' => exact ⟨h.1, (show prevWith = prevWith' from hlike) ▸ h.2⟩

end Frame

namespace Heap

variable {h h' h'' : Heap} {σ : StaticEnv} {env : Env}

/-- A heap is no larger than itself. -/
theorem Le.refl (h : Heap) : h.Le h := ⟨le_rfl, fun _ _ => .refl _⟩

/-- Growth is transitive. -/
theorem Le.trans (hle : h.Le h') (hle' : h'.Le h'') : h.Le h'' :=
  ⟨hle.next.trans hle'.next, fun f hf =>
    (hle.like f hf).trans (hle'.like f (hf.trans_le hle.next))⟩

/-- Nothing happens to the frames. -/
theorem le_of_frames (hframes : h'.frames = h.frames) (hnext : h'.nextFrame = h.nextFrame) :
    h.Le h' := ⟨hnext.ge, fun f _ => by rw [hframes]; exact .refl _⟩

/-- Allocating an environment grows the heap. -/
theorem le_allocEnv (h : Heap) (frame : Frame) : h.Le (h.allocEnv frame).2 := by
  refine ⟨Nat.le_succ _, fun f hf => ?_⟩
  change (h.frames f).Like (Function.update h.frames h.nextFrame frame f)
  rw [Function.update_of_ne (Nat.ne_of_lt hf)]
  exact .refl _

/-- Setting a slot grows the heap. -/
theorem le_setSlot (h : Heap) (f displ : ℕ) (c : Cell) : h.Le (h.setSlot f displ c) := by
  refine ⟨le_rfl, fun g _ => ?_⟩
  change (h.frames g).Like (Function.update h.frames f _ g)
  rcases eq_or_ne g f with rfl | hne
  · rw [Function.update_self]
    exact .setSlot _ _ _
  · rw [Function.update_of_ne hne]
    exact .refl _

/-- What fits a heap fits a larger one. -/
theorem Fits.mono (hfits : h.Fits σ env) (hle : h.Le h') : h'.Fits σ env := by
  induction σ generalizing env with
  | nil => cases env <;> exact hfits
  | cons scope σ ih =>
    cases env with
    | nil => exact hfits
    | cons f env =>
      obtain ⟨hf, hframe, hrest⟩ := hfits
      exact ⟨hf.trans_le hle.next, hframe.like (hle.like f hf), ih hrest⟩

/-- A new frame. -/
theorem Fits.allocEnv {frame : Frame} {scope : StaticScope} (hfits : h.Fits σ env)
    (hframe : frame.Fits scope (prevWith σ)) :
    (h.allocEnv frame).2.Fits (scope :: σ) ((h.allocEnv frame).1 :: env) := by
  refine ⟨Nat.lt_succ_self _, ?_, hfits.mono (le_allocEnv h frame)⟩
  change (Function.update h.frames h.nextFrame frame h.nextFrame).Fits scope _
  rw [Function.update_self]
  exact hframe

end Heap

/-! ### Scopes -/

/-- The displacement that a scope has for a name leads to the slot for that name. -/
theorem slot_of_displ {names : List Str} {values : List (Option Cell)} {vars : SortedMap Str ℕ} {d i : ℕ}
    {x : Str} (hlength : values.length = names.length) (h : (assignDispls vars d names).find? x = some i) :
    (vars.find? x = some i ∧ (names.zip values).reverse.lookup x = none) ∨
      ∃ j c, i = d + j ∧ values[j]? = some c ∧ (names.zip values).reverse.lookup x = some c := by
  induction names generalizing values vars d with
  | nil => exact Or.inl ⟨h, by simp⟩
  | cons name names ih =>
    cases values with
    | nil => simp at hlength
    | cons v values =>
      rw [assignDispls] at h
      have hlookup : ((name :: names).zip (v :: values)).reverse.lookup x =
          ((names.zip values).reverse.lookup x).or (List.lookup x [(name, v)]) := by
        rw [List.zip_cons_cons, List.reverse_cons, List.lookup_append]
      rw [hlookup]
      rcases ih (by simpa using hlength) h with ⟨hfind, hnone⟩ | ⟨j, c, hi, hj, hsome⟩
      · rw [hnone, Option.none_or]
        rw [SortedMap.find?_insert] at hfind
        split_ifs at hfind with hx
        · refine Or.inr ⟨0, v, by simpa using hfind.symm, rfl, ?_⟩
          simp [List.lookup, hx]
        · refine Or.inl ⟨hfind, ?_⟩
          simp [List.lookup, beq_eq_false_iff_ne.mpr hx]
      · exact Or.inr ⟨j + 1, c, by omega, hj, by rw [hsome]; rfl⟩

/-- A name that a scope does not declare has no slot. -/
theorem notMem_of_displ {names : List Str} {values : List (Option Cell)} {vars : SortedMap Str ℕ} {d : ℕ}
    {x : Str} (h : (assignDispls vars d names).find? x = none) :
    vars.find? x = none ∧ (names.zip values).reverse.lookup x = none := by
  induction names generalizing values vars d with
  | nil => exact ⟨h, by simp⟩
  | cons name names ih =>
    rw [assignDispls] at h
    cases values with
    | nil =>
      obtain ⟨hfind, -⟩ := @ih [] _ _ h
      rw [SortedMap.find?_insert] at hfind
      split_ifs at hfind
      exact ⟨hfind, by simp⟩
    | cons v values =>
      obtain ⟨hfind, hnone⟩ := @ih values _ _ h
      rw [SortedMap.find?_insert] at hfind
      split_ifs at hfind with hx
      refine ⟨hfind, ?_⟩
      rw [List.zip_cons_cons, List.reverse_cons, List.lookup_append, hnone]
      simp [List.lookup, beq_eq_false_iff_ne.mpr hx]

/-- The distance of the next `with`, by the scope in front. -/
theorem prevWith_cons (scope : StaticScope) (σ : StaticEnv) :
    prevWith (scope :: σ) = if scope.isWith then 1 else if prevWith σ = 0 then 0 else prevWith σ + 1 := by
  unfold prevWith
  rw [List.findIdx?_cons]
  split_ifs with hscope h <;> cases hi : σ.findIdx? (·.isWith) <;> simp_all

/-! ### Variables -/

section

variable {h : Heap} {symbols : SymbolTable} {σ : StaticEnv} {env : Env} {ref ref' : VarRef} {level : ℕ}
  {withLevel : Option ℕ}

/-- A variable that a scope declares. -/
theorem declared_of_bindFrom (hfits : h.Fits σ env) (hbind : ref.bindFrom level withLevel σ = .ok ref')
    (hfrom : ref'.fromWith = false) : ∃ k f up names values c, ref'.level = level + k ∧
      env.drop k = f :: up ∧ h.frames f = .slots names values ∧ values[ref'.displ]? = some c ∧
      h.declared ref.name env = some c := by
  induction σ generalizing env level withLevel with
  | nil =>
    cases withLevel with
    | none => cases hbind
    | some w =>
      cases hbind
      cases hfrom
  | cons scope σ ih =>
    cases env with
    | nil => exact hfits.elim
    | cons f env =>
      obtain ⟨-, hframe, hrest⟩ := hfits
      rw [VarRef.bindFrom] at hbind
      cases hf : h.frames f with
      | withValue prevWith v =>
        rw [hf] at hframe
        obtain ⟨rfl, -⟩ := hframe
        rw [if_pos isWith_withScope] at hbind
        obtain ⟨k, g, up, names, values, c, hlevel, hdrop, hg, hc, hdeclared⟩ := ih hrest hbind
        refine ⟨k + 1, g, up, names, values, c, by omega, hdrop, hg, hc, ?_⟩
        rw [Heap.declared, hf]
        exact hdeclared
      | slots names values =>
        rw [hf] at hframe
        obtain ⟨rfl, hlength⟩ := hframe
        rw [if_neg (by simp)] at hbind
        rw [Heap.declared, hf]
        dsimp only
        cases hfind : (scopeOf names).vars.find? ref.name with
        | some displ =>
          rw [hfind] at hbind
          cases hbind
          rcases slot_of_displ hlength hfind with ⟨hempty, -⟩ | ⟨j, c, hj, hc, hlookup⟩
          · rw [SortedMap.find?_eq_none_iff.mpr (SortedMap.notMem_empty _)] at hempty
            cases hempty
          · obtain rfl : displ = j := by omega
            exact ⟨0, f, env, names, values, c, rfl, rfl, hf, hc, by rw [hlookup]; rfl⟩
        | none =>
          rw [hfind] at hbind
          obtain ⟨k, g, up, names', values', c, hlevel, hdrop, hg, hc, hdeclared⟩ := ih hrest hbind
          refine ⟨k + 1, g, up, names', values', c, by omega, hdrop, hg, hc, ?_⟩
          rw [(notMem_of_displ hfind).2, Option.none_or]
          exact hdeclared

/-- A variable of a `with`. -/
theorem notDeclared_of_bindFrom (hfits : h.Fits σ env)
    (hbind : ref.bindFrom level withLevel σ = .ok ref') (hfrom : ref'.fromWith = true) :
    h.declared ref.name env = none := by
  induction σ generalizing env level withLevel with
  | nil =>
    cases env with
    | nil => rfl
    | cons f env => exact hfits.elim
  | cons scope σ ih =>
    cases env with
    | nil => exact hfits.elim
    | cons f env =>
      obtain ⟨-, hframe, hrest⟩ := hfits
      rw [VarRef.bindFrom] at hbind
      rw [Heap.declared]
      cases hf : h.frames f with
      | withValue prevWith v =>
        rw [hf] at hframe
        obtain ⟨rfl, -⟩ := hframe
        rw [if_pos isWith_withScope] at hbind
        exact ih hrest hbind
      | slots names values =>
        rw [hf] at hframe
        obtain ⟨rfl, hlength⟩ := hframe
        rw [if_neg (by simp)] at hbind
        cases hfind : (scopeOf names).vars.find? ref.name with
        | some displ =>
          rw [hfind] at hbind
          cases hbind
          cases hfrom
        | none =>
          rw [hfind] at hbind
          dsimp only
          rw [(notMem_of_displ hfind).2, Option.none_or]
          exact ih hrest hbind

/-- There is no `with` to go to. -/
theorem ofWith_of_prevWith_eq_zero (hfits : h.Fits σ env) (hprev : prevWith σ = 0) (name : Str) :
    h.ofWith symbols name env = .error (undefinedVariable name) := by
  induction σ generalizing env with
  | nil =>
    cases env with
    | nil => rfl
    | cons f env => exact hfits.elim
  | cons scope σ ih =>
    cases env with
    | nil => exact hfits.elim
    | cons f env =>
      obtain ⟨-, hframe, hrest⟩ := hfits
      rw [prevWith_cons] at hprev
      rw [Heap.ofWith]
      cases hf : h.frames f with
      | withValue dist v =>
        rw [hf] at hframe
        obtain ⟨rfl, -⟩ := hframe
        simp at hprev
      | slots names values =>
        rw [hf] at hframe
        obtain ⟨rfl, -⟩ := hframe
        refine ih hrest ?_
        by_contra hne
        simp [hne] at hprev

/-- The loop over the `with`s finds what the innermost one with the name has. -/
theorem lookupWith_eq_ofWith (hfits : h.Fits σ env) (hprev : prevWith σ = level + 1) (name : Str) :
    h.lookupWith symbols name level env = h.ofWith symbols name env := by
  induction σ generalizing env level with
  | nil => cases hprev
  | cons scope σ ih =>
    cases env with
    | nil => exact hfits.elim
    | cons f env =>
      obtain ⟨-, hframe, hrest⟩ := hfits
      rw [prevWith_cons] at hprev
      rw [Heap.ofWith]
      cases hf : h.frames f with
      | withValue dist v =>
        rw [hf] at hframe
        obtain ⟨rfl, rfl⟩ := hframe
        obtain rfl : level = 0 := by simpa using hprev.symm
        rw [Heap.lookupWith, hf]
        dsimp only
        cases h.read v with
        | tAttrs attrs =>
          dsimp only
          cases find symbols (h.bindings attrs) name with
          | some j => rfl
          | none =>
            cases hdist : prevWith σ with
            | zero => exact (ofWith_of_prevWith_eq_zero hrest hdist name).symm
            | succ level => exact ih hrest hdist
        | _ => rfl
      | slots names values =>
        rw [hf] at hframe
        obtain ⟨rfl, -⟩ := hframe
        by_cases hzero : prevWith σ = 0
        · simp [hzero] at hprev
        · obtain rfl : prevWith σ = level := by simpa [hzero] using hprev
          obtain ⟨level, hlevel⟩ := Nat.exists_eq_succ_of_ne_zero hzero
          rw [hlevel, Heap.lookupWith]
          exact ih hrest hlevel

/-- A bound variable leads to the same value by its level and displacement as by its name. -/
theorem lookupVar_eq_lookupName (hfits : h.Fits σ env) (hbind : ref.bind σ = .ok ref) :
    h.lookupVar symbols env ref = h.lookupName symbols env ref.name := by
  rw [Heap.lookupVar, Heap.lookupName]
  cases hfrom : ref.fromWith with
  | false =>
    obtain ⟨k, f, up, names, values, c, hlevel, hdrop, hf, hc, hdeclared⟩ :=
      declared_of_bindFrom hfits hbind hfrom
    rw [if_neg (by simp), hlevel, Nat.zero_add, hdrop, hdeclared]
    dsimp only
    rw [hf]
    dsimp only
    rw [hc]
  | true =>
    rw [if_pos rfl, notDeclared_of_bindFrom hfits hbind hfrom]
    exact lookupWith_eq_ofWith hfits (VarRef.prevWith_of_bind hbind hfrom) ref.name

/-- The loop over the `with`s by names never leaves the environments. -/
theorem ofWith_error {name : Str} {e : Failure} (h' : h.ofWith symbols name env = .error e) :
    e = undefinedVariable name ∨ e = .fault .wrongType := by
  induction env with
  | nil =>
    cases h'
    exact Or.inl rfl
  | cons f env ih =>
    rw [Heap.ofWith] at h'
    cases hf : h.frames f with
    | slots names values =>
      rw [hf] at h'
      exact ih h'
    | withValue dist v =>
      rw [hf] at h'
      dsimp only at h'
      cases hv : h.read v with
      | tAttrs attrs =>
        rw [hv] at h'
        dsimp only at h'
        cases hfind : find symbols (h.bindings attrs) name with
        | some j =>
          rw [hfind] at h'
          cases h'
        | none =>
          rw [hfind] at h'
          exact ih h'
      | _ =>
        rw [hv] at h'
        cases h'
        exact Or.inr rfl

/-- A lookup by name fails because the name is undefined, or because a value has the wrong type. -/
theorem lookupName_error {name : Str} {e : Failure} (h' : h.lookupName symbols env name = .error e) :
    e = undefinedVariable name ∨ e = .fault .wrongType := by
  rw [Heap.lookupName] at h'
  cases hdeclared : h.declared name env with
  | some c =>
    rw [hdeclared] at h'
    cases h'
  | none =>
    rw [hdeclared] at h'
    exact ofWith_error h'

end

/-! ### Attributes -/

/-- The displacements that binding gives are the positions. -/
theorem displ_of_bindDefs {σ σ' : StaticEnv} {k : ℕ} {attrs : List AttrDef}
    (h : bindDefs σ σ' (some k) attrs = .ok attrs) {i : ℕ} {d : AttrDef} (hd : attrs[i]? = some d) :
    d.displ = k + i := by
  induction attrs generalizing k i with
  | nil => simp at hd
  | cons a attrs ih =>
    rw [bindDefs] at h
    obtain ⟨a', ha, h⟩ := Outcome.bind_eq_ok.mp h
    obtain ⟨attrs', hattrs, h⟩ := Outcome.bind_eq_ok.mp h
    cases h
    cases i with
    | zero =>
      obtain rfl : a = d := by simpa using hd
      cases a with
      | inherited name var pos displ =>
        rw [AttrDef.bindVars] at ha
        obtain ⟨var', -, ha⟩ := Outcome.bind_eq_ok.mp ha
        exact (congrArg AttrDef.displ (Outcome.ok.inj ha)).symm
      | plain name e pos displ =>
        rw [AttrDef.bindVars] at ha
        obtain ⟨e', -, ha⟩ := Outcome.bind_eq_ok.mp ha
        exact (congrArg AttrDef.displ (Outcome.ok.inj ha)).symm
    | succ i =>
      have hi : d.displ = k + 1 + i := ih hattrs (by simpa using hd)
      omega

/-- The displacement of a bound attribute is its position. -/
theorem displOf_eq {σ σ' : StaticEnv} {attrs : List AttrDef}
    (h : bindDefs σ σ' (some 0) attrs = .ok attrs) (name : Str) :
    displOf .byIndex attrs name = displOf .byName attrs name := by
  simp only [displOf]
  rw [List.find?_eq_bind_findIdx?_getElem?]
  cases hi : attrs.findIdx? (·.name = name) with
  | none => rfl
  | some i =>
    obtain ⟨hlt, -⟩ := List.findIdx?_eq_some_iff_getElem.mp hi
    have hd : attrs[i]? = some attrs[i] := List.getElem?_eq_getElem hlt
    simp [hd, displ_of_bindDefs h hd]

end Nix.Lang
