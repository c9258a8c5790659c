import NixStore.Expr.Bindings

/-!
# Variables and environments

Model of the scopes of `nixexpr.cc` and of the environments of `eval.cc`.  A variable is bound once, to
a level and a displacement; evaluation follows these through a chain of environments.  The environments
of `with` hold a set, all others hold slots, which are filled after the environment is made.
-/

namespace Nix

/-! ### Binding -/

/-- Model of `VarRef`. -/
structure VarRef where
  name : Str
  fromWith : Bool
  level : ℕ
  displ : ℕ
deriving DecidableEq

/-- Model of `StaticEnv`, less the pointer to the enclosing one. -/
structure StaticScope where
  isWith : Bool
  vars : SortedMap Str ℕ

/-- Model of `StaticEnv`: the scope and those that enclose it. -/
abbrev StaticEnv := List StaticScope

/-- The loop of `VarRef::bind`, with the variables `level` and `withLevel`. -/
def VarRef.bindFrom (ref : VarRef) : ℕ → Option ℕ → StaticEnv → Outcome Str VarRef
  | _, none, [] => .error (str "undefined variable `" ++ ref.name ++ str "'")
  | _, some withLevel, [] => .ok { ref with fromWith := true, level := withLevel }
  | level, withLevel, scope :: up =>
    if scope.isWith then ref.bindFrom (level + 1) (withLevel.or (some level)) up
    else
      match scope.vars.find? ref.name with
      | some displ => .ok { ref with fromWith := false, level := level, displ := displ }
      | none => ref.bindFrom (level + 1) withLevel up

/-- Model of `VarRef::bind`. -/
def VarRef.bind (ref : VarRef) (env : StaticEnv) : Outcome Str VarRef := ref.bindFrom 0 none env

/-- A reference that has not been bound. -/
def VarRef.unbound (name : Str) : VarRef := ⟨name, false, 0, 0⟩

/-- What `ExprWith::bindVars` stores in `prevWith`: the number of levels up to the next `with`, or 0. -/
def prevWith (env : StaticEnv) : ℕ :=
  match env.findIdx? (·.isWith) with
  | some i => i + 1
  | none => 0

section

variable {ref ref' : VarRef} {env : StaticEnv} {level : ℕ} {withLevel : Option ℕ}

/-- Binding keeps the name.  A variable that no scope declares belongs to the first `with`. -/
theorem VarRef.bindFrom_spec (h : ref.bindFrom level withLevel env = .ok ref') :
    ref'.name = ref.name ∧ (ref'.fromWith = true →
      withLevel.or ((env.findIdx? (·.isWith)).map (level + ·)) = some ref'.level) := by
  have hshift : ∀ (up : StaticEnv) (level : ℕ), ((up.findIdx? (·.isWith)).map (· + 1)).map (level + ·) =
      (up.findIdx? (·.isWith)).map (level + 1 + ·) := by
    intro up level
    rw [Option.map_map]
    exact congrArg (fun f => Option.map f _) (funext fun i => by simp only [Function.comp]; omega)
  induction env generalizing level withLevel with
  | nil =>
    cases withLevel with
    | none => cases h
    | some w =>
      cases h
      exact ⟨rfl, fun _ => rfl⟩
  | cons scope up ih =>
    rw [List.findIdx?_cons]
    rw [bindFrom] at h
    split_ifs at h with hwith
    · obtain ⟨hname, hlevel⟩ := ih h
      refine ⟨hname, fun hfrom => ?_⟩
      rw [if_pos hwith, ← hlevel hfrom]
      cases withLevel <;> rfl
    · rw [if_neg hwith, hshift]
      cases hfind : scope.vars.find? ref.name with
      | some displ =>
        rw [hfind] at h
        cases h
        exact ⟨rfl, fun hfrom => absurd hfrom Bool.false_ne_true⟩
      | none =>
        rw [hfind] at h
        exact ih h

/-- A variable from a `with` has the level of the nearest one. -/
theorem VarRef.prevWith_of_bind (h : ref.bind env = .ok ref') (hfrom : ref'.fromWith = true) :
    prevWith env = ref'.level + 1 := by
  have hlevel := (bindFrom_spec h).2 hfrom
  rw [Option.none_or] at hlevel
  obtain ⟨i, hi, hi'⟩ := Option.map_eq_some_iff.mp hlevel
  rw [prevWith, hi, ← hi', Nat.zero_add]

/-- A variable of the innermost scope. -/
theorem VarRef.bind_of_find? {vars : SortedMap Str ℕ} {displ : ℕ}
    (h : vars.find? ref.name = some displ) :
    ref.bind (⟨false, vars⟩ :: env) = .ok { ref with fromWith := false, level := 0, displ := displ } := by
  rw [bind, bindFrom, if_neg Bool.false_ne_true, h]

end

/-! ### Expressions -/

/-- The address of a `Value`. -/
abbrev Cell := ℕ

/-- Model of `Expr`, as far as `maybeThunk` tells expressions apart; `ε` is the type of the others. -/
inductive Expr (ε : Type) where
  /-- `ExprVar` -/
  | var (info : VarRef)
  /-- `ExprInt`, `ExprString` and `ExprPath`, with the cell of the value in the expression. -/
  | literal (v : Cell)
  | other (e : ε)
deriving DecidableEq

/-- Model of `Expr::bindVars`. -/
def Expr.bindVars {ε : Type} (bindOther : StaticEnv → ε → Outcome Str ε) (env : StaticEnv) :
    Expr ε → Outcome Str (Expr ε)
  | .var info => do
    let info ← info.bind env
    return .var info
  | .literal v => return .literal v
  | .other e => do
    let e ← bindOther env e
    return .other e

/-- Model of `Formal`. -/
structure Formal (ε : Type) where
  name : Str
  dflt : Option (Expr ε)

/-- Model of `Formals`. -/
structure Formals (ε : Type) where
  formals : List (Formal ε)
  argNames : SortedSet Str
  ellipsis : Bool
  mem_argNames : ∀ name, name ∈ argNames ↔ name ∈ formals.map Formal.name
  nodup : (formals.map Formal.name).Nodup

/-- Model of `ExprLambda`; `formals` is missing where `matchAttrs` is false. -/
structure Lambda (ε : Type) where
  pos : Pos
  arg : Str
  formals : Option (Formals ε)
  body : Expr ε
  fresh : ∀ fs ∈ formals, arg ≠ [] → arg ∉ fs.argNames

/-! ### The scope of a function -/

/-- Successive displacements for a list of names, as `ExprLambda::bindVars` gives them. -/
def assignDispls (vars : SortedMap Str ℕ) (displ : ℕ) : List Str → SortedMap Str ℕ
  | [] => vars
  | name :: names => assignDispls (vars.insert name displ) (displ + 1) names

section

variable {ε : Type}

/-- The names of the formal arguments. -/
def Formals.names (fs : Formals ε) : List Str := fs.formals.map Formal.name

/-- The names that a function declares. -/
def Lambda.names (f : Lambda ε) : List Str :=
  (if f.arg = [] then [] else [f.arg]) ++ (f.formals.map Formals.names).getD []

/-- The `newEnv` of `ExprLambda::bindVars`. -/
def Lambda.newEnv (f : Lambda ε) (env : StaticEnv) : StaticEnv :=
  ⟨false, assignDispls ∅ 0 f.names⟩ :: env

/-- Binds the default of a formal argument. -/
def Formal.bindVars (bindOther : StaticEnv → ε → Outcome Str ε) (env : StaticEnv) (x : Formal ε) :
    Outcome Str (Formal ε) :=
  match x.dflt with
  | none => return ⟨x.name, none⟩
  | some e => do
    let e ← e.bindVars bindOther env
    return ⟨x.name, some e⟩

/-- Binds the defaults of formal arguments. -/
def bindFormals (bindOther : StaticEnv → ε → Outcome Str ε) (env : StaticEnv) :
    List (Formal ε) → Outcome Str (List (Formal ε))
  | [] => return []
  | x :: xs => do
    let x ← x.bindVars bindOther env
    let xs ← bindFormals bindOther env xs
    return x :: xs

/-- Binding keeps the name of a formal. -/
theorem Formal.name_bindVars {bindOther : StaticEnv → ε → Outcome Str ε} {env : StaticEnv}
    {x x' : Formal ε} (h : x.bindVars bindOther env = .ok x') : x'.name = x.name := by
  rw [bindVars] at h
  cases hx : x.dflt with
  | none =>
    rw [hx] at h
    cases h
    rfl
  | some e =>
    rw [hx] at h
    obtain ⟨e', -, hret⟩ := Outcome.bind_eq_ok.mp h
    cases hret
    rfl

/-- Binding keeps the names of formals. -/
theorem names_bindFormals {bindOther : StaticEnv → ε → Outcome Str ε} {env : StaticEnv}
    {xs xs' : List (Formal ε)} (h : bindFormals bindOther env xs = .ok xs') :
    xs'.map Formal.name = xs.map Formal.name := by
  induction xs generalizing xs' with
  | nil =>
    cases h
    rfl
  | cons x xs ih =>
    obtain ⟨x', hx, h⟩ := Outcome.bind_eq_ok.mp h
    obtain ⟨xs', hxs, h⟩ := Outcome.bind_eq_ok.mp h
    cases h
    rw [List.map_cons, List.map_cons, Formal.name_bindVars hx, ih hxs]

/-- A formal argument whose default is bound comes from one whose default has not been bound. -/
theorem exists_of_mem_bindFormals {bindOther : StaticEnv → ε → Outcome Str ε} {env : StaticEnv}
    {xs xs' : List (Formal ε)} {x' : Formal ε} (h : bindFormals bindOther env xs = .ok xs')
    (hx' : x' ∈ xs') : ∃ x ∈ xs, x.bindVars bindOther env = .ok x' := by
  induction xs generalizing xs' with
  | nil =>
    cases h
    cases hx'
  | cons y xs ih =>
    obtain ⟨y', hy, h⟩ := Outcome.bind_eq_ok.mp h
    obtain ⟨ys', hys, h⟩ := Outcome.bind_eq_ok.mp h
    cases h
    rcases List.mem_cons.mp hx' with rfl | hx'
    · exact ⟨y, List.mem_cons_self, hy⟩
    · obtain ⟨x, hx, hbind⟩ := ih hys hx'
      exact ⟨x, List.mem_cons_of_mem y hx, hbind⟩

/-- A pattern with other defaults. -/
def Formals.withFormals (fs : Formals ε) (formals : List (Formal ε))
    (h : formals.map Formal.name = fs.formals.map Formal.name) : Formals ε where
  formals := formals
  argNames := fs.argNames
  ellipsis := fs.ellipsis
  mem_argNames name := by rw [h, fs.mem_argNames]
  nodup := by
    rw [h]
    exact fs.nodup

/-- The pattern of a function with its defaults bound. -/
def Formals.bindVars (bindOther : StaticEnv → ε → Outcome Str ε) (env : StaticEnv) (fs : Formals ε) :
    Outcome Str {fs' : Formals ε // fs'.argNames = fs.argNames} :=
  match h : bindFormals bindOther env fs.formals with
  | .ok formals => .ok ⟨fs.withFormals formals (names_bindFormals h), rfl⟩
  | .error e => .error e
  | .diverge => .diverge

/-- Model of `ExprLambda::bindVars`. -/
def Lambda.bindVars (bindOther : StaticEnv → ε → Outcome Str ε) (env : StaticEnv) (f : Lambda ε) :
    Outcome Str (Lambda ε) :=
  match hf : f.formals with
  | none => do
    let body ← f.body.bindVars bindOther (f.newEnv env)
    return ⟨f.pos, f.arg, none, body, fun fs hfs => by cases hfs⟩
  | some fs => do
    let fs' ← fs.bindVars bindOther (f.newEnv env)
    let body ← f.body.bindVars bindOther (f.newEnv env)
    return ⟨f.pos, f.arg, some fs'.1, body, fun fs'' hfs => by
      obtain rfl := Option.some.inj hfs
      rw [fs'.2]
      exact f.fresh fs hf⟩

end

end Nix
