import NixStore.Expr.Scopes

/-!
# Expressions and their binding

Model of the abstract syntax in `nixexpr.hh` and of `Expr::bindVars` in `nixexpr.cc`, which fills in
the level and the displacement of every variable, the displacements of attributes and the distance from each
`with` to the next one.  Binding depends on the names only, so binding a bound expression again
changes nothing.
-/

namespace Nix.Lang

/-- The value inside an `ExprInt`, an `ExprString` or an `ExprPath`. -/
inductive Literal where
  | int (n : ℤ)
  | string (s : Str)
  | path (s : Str)
deriving DecidableEq

/-- The classes that `MakeBinOp` defines. -/
inductive BinOp where
  | app
  | opEq
  | opNEq
  | opAnd
  | opOr
  | opImpl
  | opUpdate
  | opConcatLists
deriving DecidableEq

mutual

/-- Model of `Expr`. -/
inductive Expr where
  /-- `ExprInt`, `ExprString` and `ExprPath` -/
  | literal (v : Literal)
  | var (info : VarRef)
  | select (e : Expr) (attrPath : List Str) (dflt : Option Expr)
  | opHasAttr (e : Expr) (attrPath : List Str)
  | attrs (recursive : Bool) (attrs : List AttrDef)
  | list (elems : List Expr)
  | lambda (pos : Pos) (arg : Str) (matchAttrs : Bool) (formals : List Formal) (ellipsis : Bool)
      (body : Expr)
  /-- `ExprLet` -/
  | letIn (attrs : List AttrDef) (body : Expr)
  /-- `ExprWith` -/
  | withIn (pos : Pos) (attrs body : Expr) (prevWith : ℕ)
  /-- `ExprIf` -/
  | cond (cond thenBranch elseBranch : Expr)
  | assert (pos : Pos) (cond body : Expr)
  | opNot (e : Expr)
  | binOp (op : BinOp) (e1 e2 : Expr)
  | concatStrings (es : List Expr)

/-- Model of `ExprAttrs::AttrDef` with the name that the map has it under. -/
inductive AttrDef where
  | inherited (name : Str) (var : VarRef) (pos : Pos) (displ : ℕ)
  | plain (name : Str) (e : Expr) (pos : Pos) (displ : ℕ)

/-- Model of `Formal`. -/
inductive Formal where
  | mk (name : Str) (dflt : Option Expr)

end

/-- The name that an attribute is defined under. -/
def AttrDef.name : AttrDef → Str
  | .inherited name _ _ _ => name
  | .plain name _ _ _ => name

/-- The field `displ`. -/
def AttrDef.displ : AttrDef → ℕ
  | .inherited _ _ _ displ => displ
  | .plain _ _ _ displ => displ

/-- The field `name`. -/
def Formal.name : Formal → Str
  | .mk name _ => name

/-- The field `def`. -/
def Formal.dflt : Formal → Option Expr
  | .mk _ dflt => dflt

/-- The names that a function declares. -/
def lambdaNames (arg : Str) (matchAttrs : Bool) (formals : List Formal) : List Str :=
  (if arg = [] then [] else [arg]) ++ if matchAttrs then formals.map Formal.name else []

/-- The scope that declares names at successive displacements. -/
def scopeOf (names : List Str) : StaticScope := ⟨false, assignDispls ∅ 0 names⟩

/-- The scope of a `with`. -/
def withScope : StaticScope := ⟨true, ∅⟩

@[simp] theorem isWith_scopeOf (names : List Str) : (scopeOf names).isWith = false := rfl

@[simp] theorem isWith_withScope : withScope.isWith = true := rfl

mutual

/-- Model of `Expr::bindVars`. -/
def Expr.bindVars (env : StaticEnv) : Expr → Outcome Str Expr
  | .literal v => .ok (.literal v)
  | .var info => do
    let info ← info.bind env
    return .var info
  | .select e attrPath dflt => do
    let e ← e.bindVars env
    let dflt ← bindOption env dflt
    return .select e attrPath dflt
  | .opHasAttr e attrPath => do
    let e ← e.bindVars env
    return .opHasAttr e attrPath
  | .attrs true attrs => do
    let attrs ← bindDefs env (scopeOf (attrs.map AttrDef.name) :: env) (some 0) attrs
    return .attrs true attrs
  | .attrs false attrs => do
    let attrs ← bindDefs env env none attrs
    return .attrs false attrs
  | .list elems => do
    let elems ← bindList env elems
    return .list elems
  | .lambda pos arg matchAttrs formals ellipsis body => do
    let newEnv := scopeOf (lambdaNames arg matchAttrs formals) :: env
    let formals ← (if matchAttrs then bindFormals newEnv formals else .ok formals)
    let body ← body.bindVars newEnv
    return .lambda pos arg matchAttrs formals ellipsis body
  | .letIn attrs body => do
    let newEnv := scopeOf (attrs.map AttrDef.name) :: env
    let attrs ← bindDefs env newEnv (some 0) attrs
    let body ← body.bindVars newEnv
    return .letIn attrs body
  | .withIn pos attrs body _ => do
    let attrs ← attrs.bindVars env
    let body ← body.bindVars (withScope :: env)
    return .withIn pos attrs body (prevWith env)
  | .cond cond thenBranch elseBranch => do
    let cond ← cond.bindVars env
    let thenBranch ← thenBranch.bindVars env
    let elseBranch ← elseBranch.bindVars env
    return .cond cond thenBranch elseBranch
  | .assert pos cond body => do
    let cond ← cond.bindVars env
    let body ← body.bindVars env
    return .assert pos cond body
  | .opNot e => do
    let e ← e.bindVars env
    return .opNot e
  | .binOp op e1 e2 => do
    let e1 ← e1.bindVars env
    let e2 ← e2.bindVars env
    return .binOp op e1 e2
  | .concatStrings es => do
    let es ← bindList env es
    return .concatStrings es

/-- Binds a default, where there is one. -/
def bindOption (env : StaticEnv) : Option Expr → Outcome Str (Option Expr)
  | none => .ok none
  | some e => do
    let e ← e.bindVars env
    return some e

/-- Binds the elements of a list. -/
def bindList (env : StaticEnv) : List Expr → Outcome Str (List Expr)
  | [] => .ok []
  | e :: es => do
    let e ← e.bindVars env
    let es ← bindList env es
    return e :: es

/-- Binds attributes: the inherited ones in `env`, the others in `newEnv`.  With a number, the attributes
get displacements from there on. -/
def bindDefs (env newEnv : StaticEnv) (displ : Option ℕ) : List AttrDef → Outcome Str (List AttrDef)
  | [] => .ok []
  | d :: ds => do
    let d ← d.bindVars env newEnv displ
    let ds ← bindDefs env newEnv (displ.map (· + 1)) ds
    return d :: ds

/-- Binds an attribute. -/
def AttrDef.bindVars (env newEnv : StaticEnv) (displ : Option ℕ) : AttrDef → Outcome Str AttrDef
  | .inherited name var pos displ' => do
    let var ← var.bind env
    return .inherited name var pos (displ.getD displ')
  | .plain name e pos displ' => do
    let e ← e.bindVars newEnv
    return .plain name e pos (displ.getD displ')

/-- Binds the defaults of formal arguments. -/
def bindFormals (env : StaticEnv) : List Formal → Outcome Str (List Formal)
  | [] => .ok []
  | x :: xs => do
    let x ← x.bindVars env
    let xs ← bindFormals env xs
    return x :: xs

/-- Binds the default of a formal argument. -/
def Formal.bindVars (env : StaticEnv) : Formal → Outcome Str Formal
  | .mk name dflt => do
    let dflt ← bindOption env dflt
    return .mk name dflt

end

/-! ### Binding twice -/

/-- Binding again changes nothing. -/
theorem bindFrom_bindFrom {ref ref' : VarRef} {level : ℕ} {withLevel : Option ℕ} {env : StaticEnv}
    (h : ref.bindFrom level withLevel env = .ok ref') :
    ref'.bindFrom level withLevel env = .ok ref' := by
  induction env generalizing level withLevel with
  | nil =>
    cases withLevel with
    | none => cases h
    | some w =>
      cases h
      rfl
  | cons scope up ih =>
    have hname : ref'.name = ref.name := (VarRef.bindFrom_spec h).1
    rw [VarRef.bindFrom] at h ⊢
    split_ifs at h ⊢ with hwith
    · exact ih h
    · rw [hname]
      cases hfind : scope.vars.find? ref.name with
      | some displ =>
        rw [hfind] at h
        cases h
        rfl
      | none =>
        rw [hfind] at h
        exact ih h

/-- A bound variable stays as it is. -/
theorem bind_bind {ref ref' : VarRef} {env : StaticEnv} (h : ref.bind env = .ok ref') :
    ref'.bind env = .ok ref' := bindFrom_bindFrom h

section

variable {env newEnv : StaticEnv}

/-- Binding keeps the name of an attribute. -/
theorem AttrDef.name_bindVars {displ : Option ℕ} {d d' : AttrDef}
    (h : d.bindVars env newEnv displ = .ok d') : d'.name = d.name := by
  cases d with
  | inherited name var pos displ' =>
    rw [AttrDef.bindVars] at h
    obtain ⟨var', -, h⟩ := Outcome.bind_eq_ok.mp h
    cases h
    rfl
  | plain name e pos displ' =>
    rw [AttrDef.bindVars] at h
    obtain ⟨e', -, h⟩ := Outcome.bind_eq_ok.mp h
    cases h
    rfl

/-- Binding keeps the names of attributes. -/
theorem names_bindDefs {displ : Option ℕ} {ds ds' : List AttrDef}
    (h : bindDefs env newEnv displ ds = .ok ds') : ds'.map AttrDef.name = ds.map AttrDef.name := by
  induction ds generalizing displ ds' with
  | nil =>
    rw [bindDefs] at h
    cases h
    rfl
  | cons d ds ih =>
    rw [bindDefs] at h
    obtain ⟨d', hd, h⟩ := Outcome.bind_eq_ok.mp h
    obtain ⟨ds', hds, h⟩ := Outcome.bind_eq_ok.mp h
    cases h
    rw [List.map_cons, List.map_cons, AttrDef.name_bindVars hd, ih hds]

/-- Binding keeps the name of a formal. -/
theorem Formal.name_bindVars {x x' : Formal} (h : x.bindVars env = .ok x') : x'.name = x.name := by
  cases x with
  | mk name dflt =>
    rw [Formal.bindVars] at h
    obtain ⟨dflt', -, h⟩ := Outcome.bind_eq_ok.mp h
    cases h
    rfl

/-- Binding keeps the names of formals. -/
theorem names_bindFormals {xs xs' : List Formal} (h : bindFormals env xs = .ok xs') :
    xs'.map Formal.name = xs.map Formal.name := by
  induction xs generalizing xs' with
  | nil =>
    rw [bindFormals] at h
    cases h
    rfl
  | cons x xs ih =>
    rw [bindFormals] at h
    obtain ⟨x', hx, h⟩ := Outcome.bind_eq_ok.mp h
    obtain ⟨xs', hxs, h⟩ := Outcome.bind_eq_ok.mp h
    cases h
    rw [List.map_cons, List.map_cons, Formal.name_bindVars hx, ih hxs]

end

mutual

/-- Binding a bound expression again changes nothing. -/
theorem Expr.bindVars_bindVars {env : StaticEnv} : ∀ {e e' : Expr}, e.bindVars env = .ok e' →
    e'.bindVars env = .ok e'
  | .literal v, e', h => by
    rw [Expr.bindVars] at h
    cases h
    rfl
  | .var info, e', h => by
    rw [Expr.bindVars] at h
    obtain ⟨info', hinfo, h⟩ := Outcome.bind_eq_ok.mp h
    cases h
    rw [Expr.bindVars, bind_bind hinfo]
    rfl
  | .select e attrPath dflt, e', h => by
    rw [Expr.bindVars] at h
    obtain ⟨e₁, he, h⟩ := Outcome.bind_eq_ok.mp h
    obtain ⟨dflt₁, hdflt, h⟩ := Outcome.bind_eq_ok.mp h
    cases h
    rw [Expr.bindVars, Expr.bindVars_bindVars he, Outcome.ok_bind, bindOption_bindOption hdflt]
    rfl
  | .opHasAttr e attrPath, e', h => by
    rw [Expr.bindVars] at h
    obtain ⟨e₁, he, h⟩ := Outcome.bind_eq_ok.mp h
    cases h
    rw [Expr.bindVars, Expr.bindVars_bindVars he]
    rfl
  | .attrs true attrs, e', h => by
    rw [Expr.bindVars] at h
    obtain ⟨attrs₁, hattrs, h⟩ := Outcome.bind_eq_ok.mp h
    cases h
    rw [Expr.bindVars, names_bindDefs hattrs, bindDefs_bindDefs hattrs]
    rfl
  | .attrs false attrs, e', h => by
    rw [Expr.bindVars] at h
    obtain ⟨attrs₁, hattrs, h⟩ := Outcome.bind_eq_ok.mp h
    cases h
    rw [Expr.bindVars, bindDefs_bindDefs hattrs]
    rfl
  | .list elems, e', h => by
    rw [Expr.bindVars] at h
    obtain ⟨elems₁, helems, h⟩ := Outcome.bind_eq_ok.mp h
    cases h
    rw [Expr.bindVars, bindList_bindList helems]
    rfl
  | .lambda pos arg true formals ellipsis body, e', h => by
    rw [Expr.bindVars] at h
    obtain ⟨formals₁, hformals, h⟩ := Outcome.bind_eq_ok.mp h
    obtain ⟨body₁, hbody, h⟩ := Outcome.bind_eq_ok.mp h
    cases h
    have hnames : lambdaNames arg true formals₁ = lambdaNames arg true formals := by
      rw [lambdaNames, lambdaNames, if_pos rfl, if_pos rfl, names_bindFormals hformals]
    rw [Expr.bindVars, hnames]
    simp only [if_true] at hformals ⊢
    rw [bindFormals_bindFormals hformals, Outcome.ok_bind, Expr.bindVars_bindVars hbody]
    rfl
  | .lambda pos arg false formals ellipsis body, e', h => by
    rw [Expr.bindVars] at h
    obtain ⟨formals₁, hformals, h⟩ := Outcome.bind_eq_ok.mp h
    obtain ⟨body₁, hbody, h⟩ := Outcome.bind_eq_ok.mp h
    cases h
    cases hformals
    rw [Expr.bindVars]
    simp only [Bool.false_eq_true, if_false, Outcome.ok_bind]
    rw [Expr.bindVars_bindVars hbody]
    rfl
  | .letIn attrs body, e', h => by
    rw [Expr.bindVars] at h
    obtain ⟨attrs₁, hattrs, h⟩ := Outcome.bind_eq_ok.mp h
    obtain ⟨body₁, hbody, h⟩ := Outcome.bind_eq_ok.mp h
    cases h
    rw [Expr.bindVars, names_bindDefs hattrs, bindDefs_bindDefs hattrs, Outcome.ok_bind,
      Expr.bindVars_bindVars hbody]
    rfl
  | .withIn pos attrs body _, e', h => by
    rw [Expr.bindVars] at h
    obtain ⟨attrs₁, hattrs, h⟩ := Outcome.bind_eq_ok.mp h
    obtain ⟨body₁, hbody, h⟩ := Outcome.bind_eq_ok.mp h
    cases h
    rw [Expr.bindVars, Expr.bindVars_bindVars hattrs, Outcome.ok_bind, Expr.bindVars_bindVars hbody]
    rfl
  | .cond cond thenBranch elseBranch, e', h => by
    rw [Expr.bindVars] at h
    obtain ⟨cond₁, hcond, h⟩ := Outcome.bind_eq_ok.mp h
    obtain ⟨then₁, hthen, h⟩ := Outcome.bind_eq_ok.mp h
    obtain ⟨else₁, helse, h⟩ := Outcome.bind_eq_ok.mp h
    cases h
    rw [Expr.bindVars, Expr.bindVars_bindVars hcond, Outcome.ok_bind, Expr.bindVars_bindVars hthen,
      Outcome.ok_bind, Expr.bindVars_bindVars helse]
    rfl
  | .assert pos cond body, e', h => by
    rw [Expr.bindVars] at h
    obtain ⟨cond₁, hcond, h⟩ := Outcome.bind_eq_ok.mp h
    obtain ⟨body₁, hbody, h⟩ := Outcome.bind_eq_ok.mp h
    cases h
    rw [Expr.bindVars, Expr.bindVars_bindVars hcond, Outcome.ok_bind, Expr.bindVars_bindVars hbody]
    rfl
  | .opNot e, e', h => by
    rw [Expr.bindVars] at h
    obtain ⟨e₁, he, h⟩ := Outcome.bind_eq_ok.mp h
    cases h
    rw [Expr.bindVars, Expr.bindVars_bindVars he]
    rfl
  | .binOp op e1 e2, e', h => by
    rw [Expr.bindVars] at h
    obtain ⟨e₁, he1, h⟩ := Outcome.bind_eq_ok.mp h
    obtain ⟨e₂, he2, h⟩ := Outcome.bind_eq_ok.mp h
    cases h
    rw [Expr.bindVars, Expr.bindVars_bindVars he1, Outcome.ok_bind, Expr.bindVars_bindVars he2]
    rfl
  | .concatStrings es, e', h => by
    rw [Expr.bindVars] at h
    obtain ⟨es₁, hes, h⟩ := Outcome.bind_eq_ok.mp h
    cases h
    rw [Expr.bindVars, bindList_bindList hes]
    rfl
termination_by structural e => e

/-- A bound default stays as it is. -/
theorem bindOption_bindOption {env : StaticEnv} : ∀ {e e' : Option Expr}, bindOption env e = .ok e' →
    bindOption env e' = .ok e'
  | none, e', h => by
    rw [bindOption] at h
    cases h
    rfl
  | some e, e', h => by
    rw [bindOption] at h
    obtain ⟨e₁, he, h⟩ := Outcome.bind_eq_ok.mp h
    cases h
    rw [bindOption, Expr.bindVars_bindVars he]
    rfl
termination_by structural e => e

/-- Bound expressions stay as they are. -/
theorem bindList_bindList {env : StaticEnv} : ∀ {es es' : List Expr}, bindList env es = .ok es' →
    bindList env es' = .ok es'
  | [], es', h => by
    rw [bindList] at h
    cases h
    rfl
  | e :: es, es', h => by
    rw [bindList] at h
    obtain ⟨e₁, he, h⟩ := Outcome.bind_eq_ok.mp h
    obtain ⟨es₁, hes, h⟩ := Outcome.bind_eq_ok.mp h
    cases h
    rw [bindList, Expr.bindVars_bindVars he, Outcome.ok_bind, bindList_bindList hes]
    rfl
termination_by structural es => es

/-- Bound attributes stay as they are. -/
theorem bindDefs_bindDefs {env newEnv : StaticEnv} : ∀ {displ : Option ℕ} {ds ds' : List AttrDef},
    bindDefs env newEnv displ ds = .ok ds' → bindDefs env newEnv displ ds' = .ok ds'
  | displ, [], ds', h => by
    rw [bindDefs] at h
    cases h
    rfl
  | displ, d :: ds, ds', h => by
    rw [bindDefs] at h
    obtain ⟨d₁, hd, h⟩ := Outcome.bind_eq_ok.mp h
    obtain ⟨ds₁, hds, h⟩ := Outcome.bind_eq_ok.mp h
    cases h
    rw [bindDefs, AttrDef.bindVars_bindVars hd, Outcome.ok_bind, bindDefs_bindDefs hds]
    rfl
termination_by structural _ ds => ds

/-- A bound attribute stays as it is. -/
theorem AttrDef.bindVars_bindVars {env newEnv : StaticEnv} : ∀ {displ : Option ℕ} {d d' : AttrDef},
    d.bindVars env newEnv displ = .ok d' → d'.bindVars env newEnv displ = .ok d'
  | displ, .inherited name var pos displ', d', h => by
    rw [AttrDef.bindVars] at h
    obtain ⟨var₁, hvar, h⟩ := Outcome.bind_eq_ok.mp h
    cases h
    rw [AttrDef.bindVars, bind_bind hvar]
    cases displ <;> rfl
  | displ, .plain name e pos displ', d', h => by
    rw [AttrDef.bindVars] at h
    obtain ⟨e₁, he, h⟩ := Outcome.bind_eq_ok.mp h
    cases h
    rw [AttrDef.bindVars, Expr.bindVars_bindVars he]
    cases displ <;> rfl
termination_by structural _ d => d

/-- Bound formals stay as they are. -/
theorem bindFormals_bindFormals {env : StaticEnv} : ∀ {xs xs' : List Formal},
    bindFormals env xs = .ok xs' → bindFormals env xs' = .ok xs'
  | [], xs', h => by
    rw [bindFormals] at h
    cases h
    rfl
  | x :: xs, xs', h => by
    rw [bindFormals] at h
    obtain ⟨x₁, hx, h⟩ := Outcome.bind_eq_ok.mp h
    obtain ⟨xs₁, hxs, h⟩ := Outcome.bind_eq_ok.mp h
    cases h
    rw [bindFormals, Formal.bindVars_bindVars hx, Outcome.ok_bind, bindFormals_bindFormals hxs]
    rfl
termination_by structural xs => xs

/-- A bound formal stays as it is. -/
theorem Formal.bindVars_bindVars {env : StaticEnv} : ∀ {x x' : Formal}, x.bindVars env = .ok x' →
    x'.bindVars env = .ok x'
  | .mk name dflt, x', h => by
    rw [Formal.bindVars] at h
    obtain ⟨dflt₁, hdflt, h⟩ := Outcome.bind_eq_ok.mp h
    cases h
    rw [Formal.bindVars, bindOption_bindOption hdflt]
    rfl
termination_by structural x => x

end

end Nix.Lang
