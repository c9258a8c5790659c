import NixStore.Expr.CallFunction

/-!
# Matching formal arguments

A call enters the body of a function with a pattern if each formal argument without a default is there,
and, unless the pattern has an ellipsis, nothing else; but a default that is used and is a variable of a
`with` is looked up right away, and has to be there as well.  In the environment of the call, the
variable of each formal argument leads to the attribute of the argument, or to the default.
-/

namespace Nix

/-! ### Counting -/

/-- Of two lists without duplicates, the first one has as many members in the second one as this has
members only if it has all of them. -/
theorem countP_eq_length_iff_subset {α : Type*} {l m : List α} {p : α → Bool} (hl : l.Nodup)
    (hm : m.Nodup) (hp : ∀ a, p a = true ↔ a ∈ m) :
    l.countP p = m.length ↔ ∀ a ∈ m, a ∈ l := by
  have hmem : ∀ {a}, a ∈ l.filter p ↔ a ∈ l ∧ a ∈ m := by
    intro a
    rw [List.mem_filter, hp]
  have hfilter := hl.filter p
  rw [List.countP_eq_length_filter]
  constructor
  · intro hlength a ha
    have hperm := (List.subperm_of_subset hfilter fun a ha => (hmem.mp ha).2).perm_of_length_le
      hlength.ge
    exact (hmem.mp (hperm.mem_iff.mpr ha)).1
  · intro hsub
    refine ((List.perm_ext_iff_of_nodup hfilter hm).mpr fun a => ?_).length_eq
    rw [hmem]
    exact ⟨fun ha => ha.2, fun ha => ⟨hsub a ha, ha⟩⟩

/-! ### Variables in environments -/

section

variable {symbols : SymbolTable} {ε : Type} {senv : StaticEnv} {env : Env symbols} {name : Str}
  {level : ℕ} {h h' : Heap symbols ε} {info info' : VarRef} {v : Cell}

/-- An environment that is made for the scopes of a static one. -/
inductive Scoped : StaticEnv → Env symbols → Prop
  | nil : Scoped [] []
  | scope {senv : StaticEnv} {env : Env symbols} (vars : SortedMap Str ℕ) (a : ℕ)
      (h : Scoped senv env) : Scoped (⟨false, vars⟩ :: senv) (.scope a :: env)
  | withAttrs {senv : StaticEnv} {env : Env symbols} (vars : SortedMap Str ℕ)
      (attrs : Bindings symbols Cell) (h : Scoped senv env) :
      Scoped (⟨true, vars⟩ :: senv) (.withAttrs attrs (prevWith senv) :: env)

/-- The set of some `with` has an attribute of this name. -/
def InWith (name : Str) (env : Env symbols) : Prop :=
  ∃ attrs prev, EnvFrame.withAttrs attrs prev ∈ env ∧ (attrs.find name).isSome = true

/-- Leaving an ordinary scope adds one to the distance of the next `with`. -/
theorem prevWith_scope (vars : SortedMap Str ℕ) (senv : StaticEnv) :
    prevWith (⟨false, vars⟩ :: senv) = if prevWith senv = 0 then 0 else prevWith senv + 1 := by
  rw [prevWith, prevWith, List.findIdx?_cons, if_neg Bool.false_ne_true]
  cases senv.findIdx? (·.isWith) with
  | none => rfl
  | some i => rfl

/-- At a `with` the distance is one. -/
theorem prevWith_with (vars : SortedMap Str ℕ) (senv : StaticEnv) :
    prevWith (⟨true, vars⟩ :: senv) = 1 := by
  rw [prevWith, List.findIdx?_cons, if_pos rfl]

/-- No name is found in an ordinary scope by way of `with`. -/
theorem inWith_scope {a : ℕ} : InWith name (.scope a :: env) ↔ InWith name env := by
  constructor
  · rintro ⟨attrs, prev, hmem, hfind⟩
    rcases List.mem_cons.mp hmem with heq | hmem
    · cases heq
    · exact ⟨attrs, prev, hmem, hfind⟩
  · rintro ⟨attrs, prev, hmem, hfind⟩
    exact ⟨attrs, prev, List.mem_cons_of_mem _ hmem, hfind⟩

/-- A name is found by way of `with` in its set, or further out. -/
theorem inWith_withAttrs {attrs : Bindings symbols Cell} {prev : ℕ} :
    InWith name (.withAttrs attrs prev :: env) ↔
      (attrs.find name).isSome = true ∨ InWith name env := by
  constructor
  · rintro ⟨attrs', prev', hmem, hfind⟩
    rcases List.mem_cons.mp hmem with heq | hmem
    · cases heq
      exact Or.inl hfind
    · exact Or.inr ⟨attrs', prev', hmem, hfind⟩
  · rintro (hfind | ⟨attrs', prev', hmem, hfind⟩)
    · exact ⟨attrs, prev, List.mem_cons_self, hfind⟩
    · exact ⟨attrs', prev', List.mem_cons_of_mem _ hmem, hfind⟩

/-- Where no `with` encloses the expression, no name is found by way of one. -/
theorem Scoped.not_inWith (hs : Scoped senv env) (hprev : prevWith senv = 0) : ¬ InWith name env := by
  induction hs with
  | nil =>
    rintro ⟨attrs, prev, hmem, -⟩
    cases hmem
  | scope vars a hs ih =>
    rw [prevWith_scope] at hprev
    rw [inWith_scope]
    refine ih ?_
    by_contra hne
    rw [if_neg hne] at hprev
    cases hprev
  | withAttrs vars attrs hs ih =>
    rw [prevWith_with] at hprev
    cases hprev

/-- The lookup in the sets of `with` finds a name if one of them has it. -/
theorem Scoped.isOk_lookupWith (hs : Scoped senv env) (hprev : prevWith senv = level + 1) :
    (lookupWith name level env).isOk = true ↔ InWith name env := by
  induction hs generalizing level with
  | nil => cases hprev
  | @scope senv env vars a hs ih =>
    rw [prevWith_scope] at hprev
    split_ifs at hprev with hne
    obtain ⟨n, hn⟩ := Nat.exists_eq_succ_of_ne_zero hne
    obtain rfl : level = n + 1 := by omega
    rw [lookupWith, inWith_scope]
    exact ih hn
  | @withAttrs senv env vars attrs hs ih =>
    rw [prevWith_with] at hprev
    obtain rfl : level = 0 := by omega
    rw [lookupWith, inWith_withAttrs]
    cases hfind : attrs.find name with
    | some a => exact ⟨fun _ => Or.inl rfl, fun _ => rfl⟩
    | none =>
      by_cases hzero : prevWith senv = 0
      · rw [if_pos hzero]
        refine ⟨fun hok => absurd hok Bool.false_ne_true, ?_⟩
        rintro (hsome | hin)
        · cases hsome
        · exact absurd hin (hs.not_inWith hzero)
      · rw [if_neg hzero, ih (by omega)]
        exact ⟨Or.inr, fun hor => hor.resolve_left Bool.false_ne_true⟩

/-- The lookup of a variable fails only in the sets of `with`. -/
theorem isOk_lookupVar : (lookupVar h env info).isOk = true ↔
    (info.fromWith = true → (lookupWith info.name info.level env).isOk = true) := by
  rw [lookupVar]
  by_cases hfrom : info.fromWith = true
  · rw [if_pos hfrom]
    cases lookupWith info.name info.level env <;> simp [hfrom, Outcome.isOk]
  · rw [if_neg hfrom]
    refine ⟨fun _ hfrom' => absurd hfrom' hfrom, fun _ => ?_⟩
    cases env.drop info.level with
    | nil => rfl
    | cons f up => cases f <;> rfl

/-- A variable that has a value keeps it. -/
theorem Heap.Extends.lookupVar (hext : h.Extends h') (hv : lookupVar h env info = .ok (some v)) :
    Nix.lookupVar h' env info = .ok (some v) := by
  rw [Nix.lookupVar] at hv ⊢
  split_ifs at hv ⊢ with hfrom
  · exact hv
  · cases hdrop : env.drop info.level with
    | nil =>
      rw [hdrop] at hv
      cases hv
    | cons f up =>
      rw [hdrop] at hv
      cases f with
      | withAttrs attrs prev => cases hv
      | scope a => exact congrArg Outcome.ok (hext.slot (Outcome.ok.inj hv))

end

/-! ### Defaults -/

section

variable {symbols : SymbolTable} {ε : Type} {env : Env symbols} {h h' : Heap symbols ε} {e : Expr ε}
  {v : Cell} {attrs : Bindings symbols Cell} {x : Formal ε}

/-- The value of an expression in an environment, or a thunk of it. -/
def HoldsExpr (h : Heap symbols ε) (env : Env symbols) (e : Expr ε) (v : Cell) : Prop :=
  match e with
  | .literal c => v = c
  | .var info => lookupVar h env info = .ok (some v) ∨ h.values[v]? = some (.thunk env e)
  | .other _ => h.values[v]? = some (.thunk env e)

/-- The attribute for a formal argument, or its default. -/
def HoldsFormal (h : Heap symbols ε) (env : Env symbols) (attrs : Bindings symbols Cell) (x : Formal ε)
    (v : Cell) : Prop :=
  match attrs.find x.name with
  | some attr => v = attr.value
  | none => ∃ e, x.dflt = some e ∧ HoldsExpr h env e v

/-- An extension of the heap keeps every value. -/
theorem Heap.Extends.values_eq (hext : h.Extends h') {w : Content symbols ε}
    (hw : h.values[v]? = some w) : h'.values[v]? = some w := by
  obtain ⟨t, ht⟩ := hext.values
  rw [← ht]
  exact List.getElem?_append_left (List.getElem?_eq_some_iff.mp hw).1 ▸ hw

/-- What a value holds for an expression is kept by every extension of the heap. -/
theorem HoldsExpr.mono (hv : HoldsExpr h env e v) (hext : h.Extends h') : HoldsExpr h' env e v := by
  cases e with
  | literal c => exact hv
  | var info => exact hv.imp hext.lookupVar hext.values_eq
  | other e => exact hext.values_eq hv

/-- What a value holds for a formal is kept by every extension of the heap. -/
theorem HoldsFormal.mono (hv : HoldsFormal h env attrs x v) (hext : h.Extends h') :
    HoldsFormal h' env attrs x v := by
  rw [HoldsFormal] at hv ⊢
  cases hfind : attrs.find x.name with
  | some attr =>
    rw [hfind] at hv
    exact hv
  | none =>
    rw [hfind] at hv
    obtain ⟨e, he, hv⟩ := hv
    exact ⟨e, he, hv.mono hext⟩

/-- `maybeThunk` only extends the heap, leaves the scopes alone, and its result stands for the
expression. -/
theorem maybeThunk_spec (hok : maybeThunk h env e = .ok (h', v)) :
    h.Extends h' ∧ h'.scopes = h.scopes ∧ HoldsExpr h' env e v := by
  have hthunk : ∀ {w : Content symbols ε}, h.allocValue w = (h', v) →
      h.Extends h' ∧ h'.scopes = h.scopes ∧ h'.values[v]? = some w := by
    rintro w ⟨⟩
    exact ⟨Heap.extends_allocValue w, rfl, List.getElem?_concat_length⟩
  cases e with
  | literal c =>
    cases hok
    exact ⟨Heap.Extends.refl _, rfl, rfl⟩
  | other e => exact hthunk (Outcome.ok.inj hok)
  | var info =>
    obtain ⟨w, hlookup, hret⟩ := Outcome.bind_eq_ok.mp hok
    cases w with
    | some w =>
      cases hret
      exact ⟨Heap.Extends.refl _, rfl, Or.inl hlookup⟩
    | none =>
      obtain ⟨hext, hscopes, hvalue⟩ := hthunk (Outcome.ok.inj hret)
      exact ⟨hext, hscopes, Or.inr hvalue⟩

/-- The expression can be looked up, if it is a variable. -/
def CanThunk (env : Env symbols) (e : Expr ε) : Prop :=
  ∀ info, e = .var info → info.fromWith = true → (lookupWith info.name info.level env).isOk = true

/-- `maybeThunk` succeeds exactly when the variable that it looks up at once is there. -/
theorem isOk_maybeThunk : (maybeThunk h env e).isOk = true ↔ CanThunk env e := by
  cases e with
  | literal c =>
    refine ⟨fun _ info hinfo => ?_, fun _ => rfl⟩
    cases hinfo
  | other e =>
    refine ⟨fun _ info hinfo => ?_, fun _ => rfl⟩
    cases hinfo
  | var info =>
    have hcan : CanThunk env (.var info : Expr ε) ↔ (lookupVar h env info).isOk = true := by
      rw [isOk_lookupVar]
      refine ⟨fun hcan => hcan info rfl, fun hok info' hinfo => ?_⟩
      cases hinfo
      exact hok
    rw [hcan, maybeThunk]
    cases lookupVar h env info with
    | ok w => cases w <;> exact ⟨fun _ => rfl, fun _ => rfl⟩
    | error err => exact Iff.rfl
    | diverge => exact Iff.rfl

end

/-! ### The loop over the formal arguments -/

/-- There is a value for the formal argument. -/
def FormalOk {symbols : SymbolTable} {ε : Type} (env : Env symbols) (attrs : Bindings symbols Cell)
    (x : Formal ε) : Prop :=
  attrs.find x.name = none → ∃ e, x.dflt = some e ∧ CanThunk env e

section

variable {symbols : SymbolTable} {ε : Type} {pos : Pos} {attrs : Bindings symbols Cell}
  {env : Env symbols} {a displ used : ℕ} {h h' : Heap symbols ε} {x : Formal ε} {xs : List (Formal ε)}

/-- One turn of the loop. -/
theorem matchFormals_cons (hok : FormalOk env attrs x) (displ used : ℕ) (h : Heap symbols ε) :
    ∃ h' v, h.Extends h' ∧ h'.scopes = h.scopes ∧ HoldsFormal h' env attrs x v ∧
      ∀ xs, matchFormals pos attrs env a (x :: xs) displ used h =
        matchFormals pos attrs env a xs (displ + 1)
          (used + if (attrs.find x.name).isSome then 1 else 0) (h'.setSlot a displ v) := by
  cases hfind : attrs.find x.name with
  | some attr =>
    refine ⟨h, attr.value, Heap.Extends.refl h, rfl, by rw [HoldsFormal, hfind], fun xs => ?_⟩
    rw [matchFormals, hfind]
    rfl
  | none =>
    obtain ⟨e, he, hcan⟩ := hok hfind
    obtain ⟨⟨h', v⟩, hthunk⟩ := Outcome.isOk_iff.mp (isOk_maybeThunk.mpr hcan)
    obtain ⟨hext, hscopes, hholds⟩ := maybeThunk_spec hthunk
    refine ⟨h', v, hext, hscopes, ?_, fun xs => ?_⟩
    · rw [HoldsFormal, hfind]
      exact ⟨e, he, hholds⟩
    · rw [matchFormals, hfind, he]
      dsimp only
      rw [hthunk]
      rfl

/-- When the loop over the formals succeeds, the first of them had a value. -/
theorem formalOk_of_isOk (hok : (matchFormals pos attrs env a (x :: xs) displ used h).isOk = true) :
    FormalOk env attrs x := by
  intro hfind
  rw [matchFormals, hfind] at hok
  cases he : x.dflt with
  | none =>
    rw [he] at hok
    cases hok
  | some e =>
    rw [he] at hok
    obtain ⟨r, hr⟩ := Outcome.isOk_iff.mp hok
    obtain ⟨hv, hthunk, -⟩ := Outcome.bind_eq_ok.mp hr
    exact ⟨e, rfl, isOk_maybeThunk.mp (Outcome.isOk_iff.mpr ⟨hv, hthunk⟩)⟩

/-- The loop over the formals succeeds exactly when each of them has a value. -/
theorem isOk_matchFormals : (matchFormals pos attrs env a xs displ used h).isOk = true ↔
    ∀ x ∈ xs, FormalOk env attrs x := by
  induction xs generalizing displ used h with
  | nil => exact ⟨fun _ x hx => absurd hx List.not_mem_nil, fun _ => rfl⟩
  | cons x xs ih =>
    rw [List.forall_mem_cons]
    constructor
    · intro hok
      have hx := formalOk_of_isOk hok
      obtain ⟨h', v, -, -, -, hstep⟩ := matchFormals_cons hx displ used h
      rw [hstep, ih] at hok
      exact ⟨hx, hok⟩
    · rintro ⟨hx, hxs⟩
      obtain ⟨h', v, -, -, -, hstep⟩ := matchFormals_cons hx displ used h
      rw [hstep, ih]
      exact hxs

/-- The loop counts the formal arguments that are there, and fills the slots in order. -/
theorem matchFormals_spec {used' : ℕ} (hlen : displ + xs.length ≤ (h.slots a).length)
    (hempty : ∀ i, displ ≤ i → h.slot a i = none)
    (hok : matchFormals pos attrs env a xs displ used h = .ok (used', h')) :
    used' = used + xs.countP (fun x => (attrs.find x.name).isSome) ∧ h.Extends h' ∧
      ∀ i x, xs[i]? = some x → ∃ v, h'.slot a (displ + i) = some v ∧ HoldsFormal h' env attrs x v := by
  induction xs generalizing displ used h with
  | nil =>
    cases hok
    exact ⟨rfl, Heap.Extends.refl _, fun i x hx => by cases hx⟩
  | cons x xs ih =>
    have hx : FormalOk env attrs x := formalOk_of_isOk (Outcome.isOk_iff.mpr ⟨_, hok⟩)
    obtain ⟨h₁, v, hext, hscopes, hholds, hstep⟩ := matchFormals_cons hx displ used h
    rw [hstep] at hok
    have hslots : h₁.slots = h.slots := funext fun a => by rw [Heap.slots, hscopes, Heap.slots]
    have hslot : h₁.slot = h.slot := funext fun a => funext fun i => by
      rw [Heap.slot, hslots, Heap.slot]
    rw [List.length_cons] at hlen
    have hfill : h₁.Extends (h₁.setSlot a displ v) :=
      Heap.extends_setSlot (by rw [hslot]; exact hempty displ le_rfl)
    have hlen₁ : displ + 1 + xs.length ≤ ((h₁.setSlot a displ v).slots a).length := by
      rw [Heap.length_slots_setSlot, hslots]
      omega
    have hempty₁ : ∀ i, displ + 1 ≤ i → (h₁.setSlot a displ v).slot a i = none := by
      intro i hi
      rw [Heap.slot_setSlot_of_ne (Or.inr (by omega)), hslot]
      exact hempty i (by omega)
    obtain ⟨hused, hext', hrest⟩ := ih hlen₁ hempty₁ hok
    refine ⟨?_, hext.trans (hfill.trans hext'), fun i y hy => ?_⟩
    · rw [hused, List.countP_cons, Nat.add_assoc, Nat.add_comm (xs.countP _)]
    · cases i with
      | zero =>
        obtain rfl : x = y := Option.some.inj hy
        have hself : (h₁.setSlot a displ v).slot a displ = some v :=
          Heap.slot_setSlot_self (by rw [hslots]; omega)
        exact ⟨v, hext'.slot hself, hholds.mono (hfill.trans hext')⟩
      | succ i =>
        obtain ⟨w, hw, hholds'⟩ := hrest i y hy
        exact ⟨w, by rw [← hw, Nat.add_assoc, Nat.add_comm 1 i], hholds'⟩

end

/-! ### Displacements -/

section

variable {ε : Type} {names : List Str} {name : Str} {vars : SortedMap Str ℕ} {displ : ℕ} {f f' : Lambda ε}
  {bindOther : StaticEnv → ε → Outcome Str ε} {senv : StaticEnv}

/-- Numbering the formals leaves the displacement of every other name as it was. -/
theorem find?_assignDispls_of_notMem (hname : name ∉ names) :
    (assignDispls vars displ names).find? name = vars.find? name := by
  induction names generalizing vars displ with
  | nil => rfl
  | cons n names ih =>
    rw [List.mem_cons, not_or] at hname
    rw [assignDispls, ih hname.2, SortedMap.find?_insert, if_neg hname.1]

/-- Of names that differ, the one at place `i` gets the displacement `displ + i`. -/
theorem find?_assignDispls (hnodup : names.Nodup) {i : ℕ} (hi : names[i]? = some name) :
    (assignDispls vars displ names).find? name = some (displ + i) := by
  induction names generalizing vars displ i with
  | nil => cases hi
  | cons n names ih =>
    rw [List.nodup_cons] at hnodup
    cases i with
    | zero =>
      obtain rfl : n = name := Option.some.inj hi
      rw [assignDispls, find?_assignDispls_of_notMem hnodup.1, SortedMap.find?_insert, if_pos rfl]
      rfl
    | succ i =>
      rw [assignDispls, ih hnodup.2 hi, Nat.add_assoc, Nat.add_comm 1 i]

/-- The number of slots in front of those for the formal arguments. -/
def Lambda.argSlots (f : Lambda ε) : ℕ := if f.arg = [] then 0 else 1

/-- The names that a function binds differ from each other. -/
theorem Lambda.nodup_names (f : Lambda ε) : f.names.Nodup := by
  have hformals : ((f.formals.map Formals.names).getD []).Nodup := by
    cases f.formals with
    | none => exact List.nodup_nil
    | some fs => exact fs.nodup
  rw [names]
  split_ifs with harg
  · exact hformals
  · refine List.nodup_cons.mpr ⟨fun hmem => ?_, hformals⟩
    cases hfs : f.formals with
    | none =>
      rw [hfs] at hmem
      cases hmem
    | some fs =>
      rw [hfs] at hmem
      exact f.fresh fs hfs harg ((fs.mem_argNames _).mpr hmem)

/-- The slot of a formal argument, by its position in the pattern. -/
theorem Lambda.bind_formal {fs : Formals ε} {i : ℕ} {x : Formal ε} (hfs : f.formals = some fs)
    (hx : fs.formals[i]? = some x) : (VarRef.unbound x.name).bind (f.newEnv senv) =
      .ok ⟨x.name, false, 0, f.argSlots + i⟩ := by
  have hname : fs.names[i]? = some x.name := by
    rw [Formals.names, List.getElem?_map, hx]
    rfl
  have hindex : f.names[f.argSlots + i]? = some x.name := by
    rw [names, argSlots, hfs, Option.map_some, Option.getD_some, ← hname]
    split_ifs
    · rw [Nat.zero_add, List.nil_append]
    · rw [Nat.add_comm]
      rfl
  refine VarRef.bind_of_find? ?_
  rw [VarRef.unbound, find?_assignDispls f.nodup_names hindex, Nat.zero_add]

/-- Binding the variables of a function binds those of its defaults, in the environment of the call. -/
theorem Lambda.formals_bindVars {fs' : Formals ε} (h : f.bindVars bindOther senv = .ok f')
    (hfs' : f'.formals = some fs') : ∃ fs, f.formals = some fs ∧
      bindFormals bindOther (f.newEnv senv) fs.formals = .ok fs'.formals := by
  rw [bindVars] at h
  split at h
  · obtain ⟨body, -, hret⟩ := Outcome.bind_eq_ok.mp h
    cases hret
    cases hfs'
  · rename_i fs hfs
    obtain ⟨fs₁, hfs₁, h⟩ := Outcome.bind_eq_ok.mp h
    obtain ⟨body, -, hret⟩ := Outcome.bind_eq_ok.mp h
    cases hret
    cases hfs'
    refine ⟨fs, hfs, ?_⟩
    rw [Formals.bindVars] at hfs₁
    split at hfs₁
    · rename_i formals hformals
      cases hfs₁
      exact hformals
    · cases hfs₁
    · cases hfs₁

/-- A default that is a variable has been bound in the scope of the function. -/
theorem Lambda.bind_of_mem {fs' : Formals ε} {x : Formal ε} {info : VarRef}
    (h : f.bindVars bindOther senv = .ok f') (hfs' : f'.formals = some fs') (hx : x ∈ fs'.formals)
    (hdflt : x.dflt = some (.var info)) : ∃ ref, VarRef.bind ref (f.newEnv senv) = .ok info := by
  obtain ⟨fs, -, hbind⟩ := formals_bindVars h hfs'
  obtain ⟨y, -, hy⟩ := exists_of_mem_bindFormals hbind hx
  rw [Formal.bindVars] at hy
  cases hydflt : y.dflt with
  | none =>
    rw [hydflt] at hy
    cases hy
    cases hdflt
  | some e =>
    rw [hydflt] at hy
    obtain ⟨e', he', hret⟩ := Outcome.bind_eq_ok.mp hy
    cases hret
    cases hdflt
    cases e with
    | literal c => cases he'
    | other e =>
      obtain ⟨e'', -, hret⟩ := Outcome.bind_eq_ok.mp he'
      cases hret
    | var ref =>
      obtain ⟨info', hinfo', hret⟩ := Outcome.bind_eq_ok.mp he'
      cases hret
      exact ⟨ref, hinfo'⟩

end

/-! ### Calls -/

section

variable {symbols : SymbolTable} {ε : Type} {ev : Evaluator symbols ε} {h h' : Heap symbols ε}
  {env env2 : Env symbols} {senv : StaticEnv} {f₀ f : Lambda ε} {fs : Formals ε} {arg v : Cell}
  {attrs : Bindings symbols Cell} {bindOther : StaticEnv → ε → Outcome Str ε}

/-- The state before the loop over the formal arguments. -/
def callHeap (h : Heap symbols ε) (f : Lambda ε) (n : ℕ) (arg : Cell) : Heap symbols ε :=
  if f.arg = [] then h.allocEnv (f.argSlots + n)
  else (h.allocEnv (f.argSlots + n)).setSlot h.scopes.length 0 arg

/-- A new environment starts with empty slots. -/
theorem slots_allocEnv (h : Heap symbols ε) (size : ℕ) :
    (h.allocEnv size).slots h.scopes.length = List.replicate size none := by
  rw [Heap.slots, Heap.allocEnv, List.getElem?_concat_length]
  rfl

/-- The environment of a call has one slot for the `@` name, if any, and one for each formal. -/
theorem length_slots_callHeap (h : Heap symbols ε) (f : Lambda ε) (n : ℕ) (arg : Cell) :
    ((callHeap h f n arg).slots h.scopes.length).length = f.argSlots + n := by
  rw [callHeap]
  split_ifs
  · rw [slots_allocEnv, List.length_replicate]
  · rw [Heap.length_slots_setSlot, slots_allocEnv, List.length_replicate]

/-- Behind the slot of the `@` name, the environment of a call is empty at first. -/
theorem slot_callHeap (h : Heap symbols ε) (f : Lambda ε) (n : ℕ) (arg : Cell) {i : ℕ}
    (hi : f.argSlots ≤ i) : (callHeap h f n arg).slot h.scopes.length i = none := by
  have hempty : ∀ size, (h.allocEnv size).slot h.scopes.length i = none := by
    intro size
    rw [Heap.slot, slots_allocEnv, List.getElem?_replicate]
    split_ifs <;> rfl
  rw [Lambda.argSlots] at hi
  rw [callHeap]
  split_ifs at hi ⊢
  · exact hempty _
  · rw [Heap.slot_setSlot_of_ne (Or.inr (by omega))]
    exact hempty _

/-- A call with a set. -/
theorem enterLambda_eq (hfs : f.formals = some fs) (harg : h.values[arg]? = some (.attrs attrs)) :
    enterLambda ev h env f arg =
      (matchFormals f.pos attrs (.scope h.scopes.length :: env) h.scopes.length fs.formals f.argSlots 0
        (callHeap h f fs.formals.length arg) >>= fun r =>
          if !fs.ellipsis ∧ r.1 ≠ attrs.attrs.length then
            .error (str "function at " ++ f.pos.print ++ str " called with unexpected argument")
          else .ok (r.2, .scope h.scopes.length :: env)) := by
  have hforce : ∀ size, ev.forceAttrs (h.allocEnv size) arg = .ok (h.allocEnv size, attrs) := by
    intro size
    have hvalue : (h.allocEnv size).values[arg]? = some (.attrs attrs) := harg
    have hvalue' : ev.forceValue (h.allocEnv size) arg = .ok (h.allocEnv size) := by
      rw [Evaluator.forceValue, hvalue]
    rw [Evaluator.forceAttrs, hvalue', Outcome.ok_bind, hvalue]
    rfl
  rw [enterLambda, hfs]
  dsimp only
  rw [hforce, Outcome.ok_bind, callHeap, Lambda.argSlots]
  split_ifs <;> rfl

/-- The counter reaches the size of the set exactly if all attributes are formal arguments. -/
theorem countP_eq_length_iff : fs.formals.countP (fun x => (attrs.find x.name).isSome) =
    attrs.attrs.length ↔ ∀ a ∈ attrs.attrs, a.name ∈ fs.names := by
  have hnodup : (attrs.attrs.map Attr.name).Nodup := by
    have hkeys := attrs.sorted.nodup
    rw [show symbols.key = symbols.address ∘ (Attr.name : Attr Cell → Str) from rfl,
      ← List.map_map] at hkeys
    exact hkeys.of_map
  have hmem : ∀ name, (attrs.find name).isSome = true ↔ name ∈ attrs.attrs.map Attr.name := by
    intro name
    rw [Option.isSome_iff_exists, List.mem_map]
    exact exists_congr fun a => Bindings.find_eq_some_iff
  have hcount : fs.formals.countP (fun x => (attrs.find x.name).isSome) =
      fs.names.countP fun name => (attrs.find name).isSome := by
    rw [Formals.names, List.countP_map]
    rfl
  have hnames : fs.names.Nodup := fs.nodup
  have hiff := countP_eq_length_iff_subset hnames hnodup hmem
  rw [List.length_map, List.forall_mem_map] at hiff
  rw [hcount]
  exact hiff

/-- What a call asks of its argument: each formal argument without a default is there, nothing else
unless there is an ellipsis, and each default that is used and is a variable of a `with` is found. -/
structure CallOk (env : Env symbols) (fs : Formals ε) (attrs : Bindings symbols Cell) : Prop where
  required : ∀ x ∈ fs.formals, x.dflt = none → ∃ a ∈ attrs.attrs, a.name = x.name
  unexpected : fs.ellipsis = true ∨ ∀ a ∈ attrs.attrs, a.name ∈ fs.names
  withDefault : ∀ x ∈ fs.formals, (∀ a ∈ attrs.attrs, a.name ≠ x.name) → ∀ info,
    x.dflt = some (.var info) → info.fromWith = true → InWith info.name env

/-- The values of the formal arguments are there exactly if no argument is missing and the variables of
`with` among the defaults are found. -/
theorem forall_formalOk_iff {a : ℕ} (hbind : f₀.bindVars bindOther senv = .ok f)
    (hscoped : Scoped senv env) (hfs : f.formals = some fs) :
    (∀ x ∈ fs.formals, FormalOk (.scope a :: env) attrs x) ↔
      (∀ x ∈ fs.formals, x.dflt = none → ∃ a ∈ attrs.attrs, a.name = x.name) ∧
      ∀ x ∈ fs.formals, (∀ a ∈ attrs.attrs, a.name ≠ x.name) → ∀ info,
        x.dflt = some (.var info) → info.fromWith = true → InWith info.name env := by
  have hfind : ∀ name, attrs.find name = none ↔ ∀ a ∈ attrs.attrs, a.name ≠ name := by
    intro name
    rw [Option.eq_none_iff_forall_ne_some]
    refine ⟨fun hnone a ha hname => hnone a (Bindings.find_eq_some_iff.mpr ⟨ha, hname⟩), ?_⟩
    intro hall a ha
    obtain ⟨hmem, hname⟩ := Bindings.find_eq_some_iff.mp ha
    exact hall a hmem hname
  have hvar : ∀ x ∈ fs.formals, ∀ info, x.dflt = some (.var info) → info.fromWith = true →
      ((lookupWith info.name info.level (.scope a :: env)).isOk = true ↔ InWith info.name env) := by
    intro x hx info hdflt hfrom
    obtain ⟨ref, href⟩ := Lambda.bind_of_mem hbind hfs hx hdflt
    rw [← inWith_scope (a := a)]
    exact (hscoped.scope _ a).isOk_lookupWith (VarRef.prevWith_of_bind href hfrom)
  constructor
  · intro hok
    refine ⟨fun x hx hnone => ?_, fun x hx hmissing info hdflt hfrom => ?_⟩
    · by_contra hall
      push Not at hall
      obtain ⟨e, he, -⟩ := hok x hx ((hfind x.name).mpr hall)
      rw [hnone] at he
      cases he
    · obtain ⟨e, he, hcan⟩ := hok x hx ((hfind x.name).mpr hmissing)
      rw [hdflt] at he
      cases he
      exact (hvar x hx info hdflt hfrom).mp (hcan info rfl hfrom)
  · rintro ⟨hrequired, hvariable⟩ x hx hnone
    have hmissing := (hfind x.name).mp hnone
    cases hdflt : x.dflt with
    | none =>
      obtain ⟨a, ha, hname⟩ := hrequired x hx hdflt
      exact absurd hname (hmissing a ha)
    | some e =>
      refine ⟨e, rfl, fun info hinfo hfrom => ?_⟩
      rw [hinfo] at hdflt
      exact (hvar x hx info hdflt hfrom).mpr (hvariable x hx hmissing info hdflt hfrom)

/-- The loop reads the whole set. -/
theorem matchFormals_callHeap {used : ℕ} (hok : matchFormals f.pos attrs (.scope h.scopes.length :: env)
    h.scopes.length fs.formals f.argSlots 0 (callHeap h f fs.formals.length arg) = .ok (used, h')) :
    (used = attrs.attrs.length ↔ ∀ a ∈ attrs.attrs, a.name ∈ fs.names) ∧
      ∀ i x, fs.formals[i]? = some x → ∃ v, h'.slot h.scopes.length (f.argSlots + i) = some v ∧
        HoldsFormal h' (.scope h.scopes.length :: env) attrs x v := by
  obtain ⟨hused, -, hslots⟩ := matchFormals_spec (length_slots_callHeap h f _ arg).ge
    (fun i hi => slot_callHeap h f _ arg hi) hok
  rw [hused, Nat.zero_add]
  exact ⟨countP_eq_length_iff, hslots⟩

/-- A call with a set enters the body exactly if the argument is as it should be, and then the variable
of each formal argument leads to the attribute or the default. -/
theorem callFunction_formals (hbind : f₀.bindVars bindOther senv = .ok f) (hscoped : Scoped senv env)
    (hfs : f.formals = some fs) (hv : h.values[v]? = some (.lambda env f))
    (harg : h.values[arg]? = some (.attrs attrs)) :
    ((enterLambda ev h env f arg).isOk = true ↔ CallOk env fs attrs) ∧
      ∀ h' env2, enterLambda ev h env f arg = .ok (h', env2) →
        callFunction ev h v arg = ev.evalBody f h' env2 ∧ Scoped (f.newEnv senv) env2 ∧
        ∀ x ∈ fs.formals, ∃ info w, (VarRef.unbound x.name).bind (f.newEnv senv) = .ok info ∧
          lookupVar h' env2 info = .ok (some w) ∧ HoldsFormal h' env2 attrs x w := by
  have hformals := @forall_formalOk_iff _ _ env senv f₀ f fs attrs bindOther h.scopes.length hbind
    hscoped hfs
  constructor
  · rw [enterLambda_eq hfs harg]
    constructor
    · intro hok
      obtain ⟨r, hr⟩ := Outcome.isOk_iff.mp hok
      obtain ⟨⟨used, h'⟩, hmatch, hret⟩ := Outcome.bind_eq_ok.mp hr
      obtain ⟨hrequired, hvariable⟩ := hformals.mp
        (isOk_matchFormals.mp (Outcome.isOk_iff.mpr ⟨_, hmatch⟩))
      refine ⟨hrequired, ?_, hvariable⟩
      rw [← (matchFormals_callHeap hmatch).1]
      split_ifs at hret with hcheck
      by_cases hellipsis : fs.ellipsis = true
      · exact Or.inl hellipsis
      · refine Or.inr (not_not.mp fun hne => hcheck ⟨?_, hne⟩)
        rw [Bool.not_eq_true] at hellipsis
        rw [hellipsis]
        rfl
    · rintro ⟨hrequired, hunexpected, hvariable⟩
      obtain ⟨⟨used, h'⟩, hmatch⟩ := Outcome.isOk_iff.mp
        (isOk_matchFormals.mpr (hformals.mpr ⟨hrequired, hvariable⟩))
      rw [hmatch, Outcome.ok_bind, if_neg]
      · rfl
      · rintro ⟨hellipsis, hne⟩
        rcases hunexpected with hunexpected | hunexpected
        · rw [hunexpected] at hellipsis
          exact absurd hellipsis Bool.false_ne_true
        · exact hne ((matchFormals_callHeap hmatch).1.mpr hunexpected)
  · intro h' env2 hok
    refine ⟨by rw [callFunction, hv]; dsimp only; rw [hok, Outcome.ok_bind], ?_⟩
    rw [enterLambda_eq hfs harg] at hok
    obtain ⟨⟨used, h₁⟩, hmatch, hret⟩ := Outcome.bind_eq_ok.mp hok
    split_ifs at hret
    cases hret
    refine ⟨hscoped.scope _ _, fun x hx => ?_⟩
    obtain ⟨i, hi⟩ := List.mem_iff_getElem?.mp hx
    obtain ⟨w, hslot, hholds⟩ := (matchFormals_callHeap hmatch).2 i x hi
    refine ⟨_, w, Lambda.bind_formal hfs hi, ?_, hholds⟩
    rw [lookupVar, if_neg Bool.false_ne_true, ← hslot]
    rfl

end

/-! ### A default that is a variable of a `with` -/

/-- The function `{ x ? dflt }: body`. -/
def optionLambda (dflt body : Expr Empty) : Lambda Empty where
  pos := ⟨[], 0, 0⟩
  arg := []
  formals := some {
    formals := [⟨str "x", some dflt⟩]
    argNames := SortedSet.insert ∅ (str "x")
    ellipsis := false
    mem_argNames := fun name => by simp
    nodup := List.nodup_singleton _ }
  body := body
  fresh fs hfs hne := absurd rfl hne

/-- The state in which `with attrs; ({ x ? y }: x) {}` calls the function, with all names bound. -/
def optionHeap (attrs : Bindings .digits Cell) : Heap .digits Empty where
  scopes := []
  values := [.lambda [.withAttrs attrs 0] (optionLambda (.var ⟨str "y", true, 1, 0⟩)
    (.var ⟨str "x", false, 0, 0⟩)), .attrs .empty]

/-- An evaluator that evaluates nothing. -/
def stuckEvaluator (symbols : SymbolTable) (ε : Type) : Evaluator symbols ε where
  forceThunk h _ := .ok h
  eval _ _ _ := .diverge
  callPrimOp _ _ _ := .diverge

/-- The sample with a default, bound below a `with`: `y` has level one, `x` slot zero. -/
theorem bindVars_optionLambda : (optionLambda (.var (.unbound (str "y")))
    (.var (.unbound (str "x")))).bindVars (fun _ e => .ok e) [⟨true, ∅⟩] =
      .ok (optionLambda (.var ⟨str "y", true, 1, 0⟩) (.var ⟨str "x", false, 0, 0⟩)) := by
  rfl

/-- The function `{ z, x ? dflt }: body`. -/
def requiredLambda (dflt body : Expr Empty) : Lambda Empty where
  pos := ⟨[], 0, 0⟩
  arg := []
  formals := some {
    formals := [⟨str "z", none⟩, ⟨str "x", some dflt⟩]
    argNames := SortedSet.insert (SortedSet.insert ∅ (str "x")) (str "z")
    ellipsis := false
    mem_argNames := fun name => by simp
    nodup := List.nodup_cons.mpr ⟨by simpa using (by decide : str "z" ≠ str "x"), List.nodup_singleton _⟩ }
  body := body
  fresh fs hfs hne := absurd rfl hne

/-- A set with one attribute. -/
def oneAttr (name : Str) : Bindings .digits Cell :=
  ⟨[⟨name, 5, ⟨[], 0, 0⟩⟩], List.pairwise_singleton _ _⟩

/-- The state in which `with { y = …; }; ({ z, x ? y }: x) { z = …; }` calls the function. -/
def requiredHeap : Heap .digits Empty where
  scopes := []
  values := [.lambda [.withAttrs (oneAttr (str "y")) 0] (requiredLambda (.var ⟨str "y", true, 1, 0⟩)
    (.var ⟨str "x", false, 0, 1⟩)), .attrs (oneAttr (str "z"))]

/-- The sample with a required formal, bound below a `with`: `x` has slot one. -/
theorem bindVars_requiredLambda : (requiredLambda (.var (.unbound (str "y")))
    (.var (.unbound (str "x")))).bindVars (fun _ e => .ok e) [⟨true, ∅⟩] =
      .ok (requiredLambda (.var ⟨str "y", true, 1, 0⟩) (.var ⟨str "x", false, 0, 1⟩)) := by
  rfl

/-- The required argument is there, the other one has a default in the set of the `with`, and the one
attribute is used, so the function is entered. -/
theorem isOk_enterLambda_sample : (enterLambda (stuckEvaluator .digits Empty) requiredHeap
    [.withAttrs (oneAttr (str "y")) 0]
    (requiredLambda (.var ⟨str "y", true, 1, 0⟩) (.var ⟨str "x", false, 0, 1⟩)) 1).isOk = true := by
  refine (callFunction_formals (v := 0) bindVars_requiredLambda (.withAttrs ∅ _ .nil) rfl rfl rfl).1.mpr
    ⟨fun x hx hnone => ?_, Or.inr fun a ha => ?_, fun x hx _ info hdflt _ => ?_⟩
  · rcases List.mem_cons.mp hx with rfl | hx
    · exact ⟨_, List.mem_singleton_self _, rfl⟩
    · obtain rfl := List.mem_singleton.mp hx
      cases hnone
  · obtain rfl := List.mem_singleton.mp ha
    exact List.mem_cons_self
  · rcases List.mem_cons.mp hx with rfl | hx
    · cases hdflt
    · obtain rfl := List.mem_singleton.mp hx
      cases hdflt
      exact ⟨_, 0, List.mem_singleton_self _, by decide⟩

/-- Without it, the call fails, although no argument is missing and none is unexpected. -/
theorem not_isOk_enterLambda_undefined :
    ¬ ∀ (symbols : SymbolTable) (ε : Type) (ev : Evaluator symbols ε) (h : Heap symbols ε)
      (env : Env symbols) (senv : StaticEnv) (f₀ f : Lambda ε) (fs : Formals ε) (arg v : Cell)
      (attrs : Bindings symbols Cell) (bindOther : StaticEnv → ε → Outcome Str ε),
      f₀.bindVars bindOther senv = .ok f → Scoped senv env → f.formals = some fs →
      h.values[v]? = some (.lambda env f) → h.values[arg]? = some (.attrs attrs) →
      ((enterLambda ev h env f arg).isOk = true ↔
        (∀ x ∈ fs.formals, x.dflt = none → ∃ a ∈ attrs.attrs, a.name = x.name) ∧
        (fs.ellipsis = true ∨ ∀ a ∈ attrs.attrs, a.name ∈ fs.names)) := by
  intro hall
  have hiff := hall .digits Empty (stuckEvaluator .digits Empty) (optionHeap .empty) _ [⟨true, ∅⟩] _ _
    _ 1 0 .empty _ bindVars_optionLambda (.withAttrs ∅ _ .nil) rfl rfl rfl
  have hok := hiff.mpr ⟨fun x hx hnone => ?_, Or.inr fun a ha => ?_⟩
  · revert hok
    decide
  · obtain rfl := List.mem_singleton.mp hx
    cases hnone
  · cases ha

end Nix
