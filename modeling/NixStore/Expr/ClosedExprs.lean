import NixStore.Expr.Syntax

/-!
# Expressions that can be bound

The variables of an expression that its own scopes do not declare, in the order in which `bindVars` comes
to them.  The bodies of `with` contribute none, since a variable there may always come from the set.
Binding succeeds exactly if each of these variables is declared by an enclosing scope, or a `with` encloses
the expression; otherwise it fails, and the error names the first one that is not declared.
-/

namespace Nix.Lang

mutual

/-- The variables that are free in an expression, outside the bodies of `with`. -/
def Expr.freeVars : Expr → List Str
  | .literal _ => []
  | .var info => [info.name]
  | .select e _ dflt => e.freeVars ++ freeVarsOption dflt
  | .opHasAttr e _ => e.freeVars
  | .attrs true attrs => freeVarsDefs (attrs.map AttrDef.name) attrs
  | .attrs false attrs => freeVarsDefs [] attrs
  | .list elems => freeVarsList elems
  | .lambda _ arg matchAttrs formals _ body =>
    ((if matchAttrs then freeVarsFormals formals else []) ++ body.freeVars).filter
      (· ∉ lambdaNames arg matchAttrs formals)
  | .letIn attrs body =>
    freeVarsDefs (attrs.map AttrDef.name) attrs ++
      body.freeVars.filter (· ∉ attrs.map AttrDef.name)
  | .withIn _ attrs _ _ => attrs.freeVars
  | .cond cond thenBranch elseBranch => cond.freeVars ++ (thenBranch.freeVars ++ elseBranch.freeVars)
  | .assert _ cond body => cond.freeVars ++ body.freeVars
  | .opNot e => e.freeVars
  | .binOp _ e1 e2 => e1.freeVars ++ e2.freeVars
  | .concatStrings es => freeVarsList es

/-- The variables that are free in a default. -/
def freeVarsOption : Option Expr → List Str
  | none => []
  | some e => e.freeVars

/-- The variables that are free in a list of expressions. -/
def freeVarsList : List Expr → List Str
  | [] => []
  | e :: es => e.freeVars ++ freeVarsList es

/-- The variables that are free in attributes which are themselves in scope under `names`. -/
def freeVarsDefs (names : List Str) : List AttrDef → List Str
  | [] => []
  | d :: ds => d.freeVars names ++ freeVarsDefs names ds

/-- The variables that are free in an attribute. -/
def AttrDef.freeVars (names : List Str) : AttrDef → List Str
  | .inherited _ var _ _ => [var.name]
  | .plain _ e _ _ => e.freeVars.filter (· ∉ names)

/-- The variables that are free in the defaults of formal arguments. -/
def freeVarsFormals : List Formal → List Str
  | [] => []
  | x :: xs => x.freeVars ++ freeVarsFormals xs

/-- The variables that are free in the default of a formal argument. -/
def Formal.freeVars : Formal → List Str
  | .mk _ dflt => freeVarsOption dflt

end

/-! ### Scopes -/

/-- Whether a name can be bound: a scope declares it, or there is a `with`. -/
def resolves (env : StaticEnv) (name : Str) : Bool :=
  env.any fun scope => scope.isWith || (scope.vars.find? name).isSome

section

variable {env : StaticEnv} {names xs ys : List Str} {α β : Type}

/-- A name is in the scope when it was there or is one of the new ones. -/
theorem isSome_find?_assignDispls {vars : SortedMap Str ℕ} {displ : ℕ} (name : Str) :
    ((assignDispls vars displ names).find? name).isSome =
      (decide (name ∈ names) || (vars.find? name).isSome) := by
  induction names generalizing vars displ with
  | nil => simp [assignDispls]
  | cons x names ih =>
    rw [assignDispls, ih, SortedMap.find?_insert]
    split_ifs with hx <;> simp [hx]

/-- A name resolves in a new scope or further out. -/
theorem resolves_scopeOf (name : Str) :
    resolves (scopeOf names :: env) name = (decide (name ∈ names) || resolves env name) := by
  have hempty : (∅ : SortedMap Str ℕ).find? name = none :=
    SortedMap.find?_eq_none_iff.mpr (SortedMap.notMem_empty name)
  rw [resolves, List.any_cons, isWith_scopeOf, Bool.false_or, scopeOf, isSome_find?_assignDispls, hempty]
  simp [resolves]

/-- Every name resolves below a `with`. -/
theorem resolves_withScope (name : Str) : resolves (withScope :: env) name = true := by
  simp [resolves]

/-! ### Verdicts -/

/-- The message of `VarRef::bind`. -/
def undefinedVar (name : Str) : Str := str "undefined variable `" ++ name ++ str "'"

/-- What binding says to these variables: it succeeds if all of them can be bound, and complains about the
first one that cannot. -/
def Verdict (env : StaticEnv) (xs : List Str) (x : Outcome Str α) : Prop :=
  match xs.find? (!resolves env ·) with
  | none => ∃ a, x = .ok a
  | some name => x = .error (undefinedVar name)

namespace Verdict

/-- Nothing free, nothing to fail. -/
theorem ok (a : α) : Verdict env [] (.ok a : Outcome Str α) := ⟨a, rfl⟩

/-- The free names of the first part come before those of the second. -/
protected theorem bind {x : Outcome Str α} {f : α → Outcome Str β} (h : Verdict env xs x)
    (hf : ∀ a, Verdict env ys (f a)) : Verdict env (xs ++ ys) (x >>= f) := by
  unfold Verdict at h ⊢
  rw [List.find?_append]
  cases hfind : xs.find? (!resolves env ·) with
  | none =>
    rw [hfind] at h
    obtain ⟨a, rfl⟩ := h
    exact hf a
  | some name =>
    rw [hfind] at h
    rw [h]
    rfl

/-- A last step that cannot fail. -/
theorem map {x : Outcome Str α} {f : α → β} (h : Verdict env xs x) :
    Verdict env xs (x >>= fun a => .ok (f a)) := by
  have hmap := h.bind fun a => ok (f a)
  rwa [List.append_nil] at hmap

/-- Inside a scope, the names that it declares can be bound. -/
theorem scope {x : Outcome Str α} (h : Verdict (scopeOf names :: env) xs x) :
    Verdict env (xs.filter (· ∉ names)) x := by
  unfold Verdict at h ⊢
  rw [List.find?_filter]
  have hpred : (fun name => decide (decide (name ∉ names) = true ∧ (!resolves env name) = true)) =
      fun name => !resolves (scopeOf names :: env) name := by
    funext name
    rw [resolves_scopeOf]
    simp
  rwa [hpred]

/-- Inside a `with`, all names can be bound. -/
theorem inWith {x : Outcome Str α} (h : Verdict (withScope :: env) xs x) : Verdict env [] x := by
  unfold Verdict at h
  have hnone : xs.find? (!resolves (withScope :: env) ·) = none :=
    List.find?_eq_none.mpr fun name _ => by simp [resolves_withScope]
  rwa [hnone] at h

end Verdict

/-- A variable is bound when a `with` was passed or the name resolves. -/
theorem verdict_bindFrom (ref : VarRef) (level : ℕ) (withLevel : Option ℕ) :
    if withLevel.isSome || resolves env ref.name then ∃ ref', ref.bindFrom level withLevel env = .ok ref'
    else ref.bindFrom level withLevel env = .error (undefinedVar ref.name) := by
  induction env generalizing level withLevel with
  | nil => cases withLevel <;> simp [VarRef.bindFrom, resolves, undefinedVar]
  | cons scope up ih =>
    rw [VarRef.bindFrom]
    cases hwith : scope.isWith with
    | true =>
      have hup := ih (level + 1) (withLevel.or (some level))
      have hsome : (withLevel.or (some level)).isSome = true := by cases withLevel <;> rfl
      rw [hsome, Bool.true_or, if_pos rfl] at hup
      simpa [resolves, hwith] using hup
    | false =>
      cases hfind : scope.vars.find? ref.name with
      | some displ => simp [resolves, hwith, hfind]
      | none => simpa [resolves, hwith, hfind] using ih (level + 1) withLevel

/-- A variable is bound when its name resolves. -/
theorem verdict_bind (ref : VarRef) : Verdict env [ref.name] (ref.bind env) := by
  have h := @verdict_bindFrom env ref 0 none
  unfold Verdict
  cases hresolves : resolves env ref.name <;> simpa [hresolves, VarRef.bind] using h

end

/-! ### Expressions -/

mutual

/-- What `bindVars` says to the free variables of an expression. -/
theorem Expr.verdict_bindVars (env : StaticEnv) :
    ∀ e : Expr, Verdict env e.freeVars (e.bindVars env)
  | .literal v => .ok _
  | .var info => (verdict_bind info).map
  | .select e attrPath dflt =>
    (Expr.verdict_bindVars env e).bind fun _ => (verdict_bindOption env dflt).map
  | .opHasAttr e attrPath => (Expr.verdict_bindVars env e).map
  | .attrs true attrs => (verdict_bindDefs env (attrs.map AttrDef.name) (some 0) attrs).1.map
  | .attrs false attrs => (verdict_bindDefs env [] none attrs).2.map
  | .list elems => (verdict_bindList env elems).map
  | .lambda pos arg true formals ellipsis body =>
    ((verdict_bindFormals _ formals).bind fun _ => (Expr.verdict_bindVars _ body).map).scope
  | .lambda pos arg false formals ellipsis body => (Expr.verdict_bindVars _ body).map.scope
  | .letIn attrs body =>
    (verdict_bindDefs env (attrs.map AttrDef.name) (some 0) attrs).1.bind fun _ =>
      (Expr.verdict_bindVars _ body).scope.map
  | .withIn pos attrs body _ => by
    have hbody : Verdict env [] (body.bindVars (withScope :: env)) :=
      (Expr.verdict_bindVars _ body).inWith
    have hattrs := (Expr.verdict_bindVars env attrs).bind fun attrs' =>
      hbody.map (f := fun body' => Expr.withIn pos attrs' body' (prevWith env))
    rwa [List.append_nil] at hattrs
  | .cond cond thenBranch elseBranch =>
    (Expr.verdict_bindVars env cond).bind fun _ => (Expr.verdict_bindVars env thenBranch).bind fun _ =>
      (Expr.verdict_bindVars env elseBranch).map
  | .assert pos cond body =>
    (Expr.verdict_bindVars env cond).bind fun _ => (Expr.verdict_bindVars env body).map
  | .opNot e => (Expr.verdict_bindVars env e).map
  | .binOp op e1 e2 => (Expr.verdict_bindVars env e1).bind fun _ => (Expr.verdict_bindVars env e2).map
  | .concatStrings es => (verdict_bindList env es).map
termination_by structural e => e

/-- A default that may be missing. -/
theorem verdict_bindOption (env : StaticEnv) :
    ∀ e : Option Expr, Verdict env (freeVarsOption e) (bindOption env e)
  | none => .ok _
  | some e => (Expr.verdict_bindVars env e).map
termination_by structural e => e

/-- A list of expressions, from left to right. -/
theorem verdict_bindList (env : StaticEnv) :
    ∀ es : List Expr, Verdict env (freeVarsList es) (bindList env es)
  | [] => .ok _
  | e :: es => (Expr.verdict_bindVars env e).bind fun _ => (verdict_bindList env es).map
termination_by structural es => es

/-- The attributes of a recursive set or a `let`, and those of another set. -/
theorem verdict_bindDefs (env : StaticEnv) (names : List Str) : ∀ (displ : Option ℕ) (ds : List AttrDef),
    Verdict env (freeVarsDefs names ds) (bindDefs env (scopeOf names :: env) displ ds) ∧
      Verdict env (freeVarsDefs [] ds) (bindDefs env env displ ds)
  | _, [] => ⟨.ok _, .ok _⟩
  | displ, d :: ds =>
    ⟨(AttrDef.verdict_bindVars env names displ d).1.bind fun _ => (verdict_bindDefs env names _ ds).1.map,
      (AttrDef.verdict_bindVars env names displ d).2.bind fun _ => (verdict_bindDefs env names _ ds).2.map⟩
termination_by structural _ ds => ds

/-- An attribute, with the names of its set or without. -/
theorem AttrDef.verdict_bindVars (env : StaticEnv) (names : List Str) : ∀ (displ : Option ℕ) (d : AttrDef),
    Verdict env (d.freeVars names) (d.bindVars env (scopeOf names :: env) displ) ∧
      Verdict env (d.freeVars []) (d.bindVars env env displ)
  | displ, .inherited name var pos displ' => ⟨(verdict_bind var).map, (verdict_bind var).map⟩
  | displ, .plain name e pos displ' => by
    have he : Verdict env (e.freeVars.filter (· ∉ [])) (e.bindVars env) := by
      simpa using Expr.verdict_bindVars env e
    exact ⟨(Expr.verdict_bindVars _ e).scope.map, he.map⟩
termination_by structural _ d => d

/-- The formals of a function, from left to right. -/
theorem verdict_bindFormals (env : StaticEnv) :
    ∀ xs : List Formal, Verdict env (freeVarsFormals xs) (bindFormals env xs)
  | [] => .ok _
  | x :: xs => (Formal.verdict_bindVars env x).bind fun _ => (verdict_bindFormals env xs).map
termination_by structural xs => xs

/-- One formal. -/
theorem Formal.verdict_bindVars (env : StaticEnv) :
    ∀ x : Formal, Verdict env x.freeVars (x.bindVars env)
  | .mk _ dflt => (verdict_bindOption env dflt).map
termination_by structural x => x

end

/-- Binding succeeds if and only if every free variable can be bound. -/
theorem Expr.bindVars_ok_iff (env : StaticEnv) (e : Expr) :
    (∃ e', e.bindVars env = .ok e') ↔ ∀ name ∈ e.freeVars, resolves env name = true := by
  have h := e.verdict_bindVars env
  unfold Verdict at h
  cases hfind : e.freeVars.find? (!resolves env ·) with
  | none =>
    rw [hfind] at h
    exact iff_of_true h fun name hname => by simpa using List.find?_eq_none.mp hfind name hname
  | some name =>
    rw [hfind] at h
    refine iff_of_false (fun ⟨e', he'⟩ => by rw [h] at he'; cases he') fun hall => ?_
    have hfalse := List.find?_some hfind
    rw [hall name (List.mem_of_find?_eq_some hfind)] at hfalse
    cases hfalse

/-- A program that `bindVars` rejects has a free variable that cannot be bound, and the error names the
first such variable. -/
theorem Expr.bindVars_eq_error_iff (env : StaticEnv) (e : Expr) (msg : Str) :
    e.bindVars env = .error msg ↔
      ∃ name, e.freeVars.find? (!resolves env ·) = some name ∧ msg = undefinedVar name := by
  have h := e.verdict_bindVars env
  unfold Verdict at h
  cases hfind : e.freeVars.find? (!resolves env ·) with
  | none =>
    rw [hfind] at h
    obtain ⟨e', he'⟩ := h
    simp [he']
  | some name =>
    rw [hfind] at h
    rw [h]
    simp [eq_comm]

/-- Binding accepts exactly the expressions whose free variables can all be bound, and otherwise complains
about the first one that cannot. -/
theorem Expr.bindVars_closed (env : StaticEnv) (e : Expr) :
    ((∃ e', e.bindVars env = .ok e') ↔ ∀ name ∈ e.freeVars, resolves env name = true) ∧
    ∀ msg, e.bindVars env = .error msg ↔
      ∃ name, e.freeVars.find? (!resolves env ·) = some name ∧ msg = undefinedVar name :=
  ⟨e.bindVars_ok_iff env, e.bindVars_eq_error_iff env⟩

end Nix.Lang
