import NixStore.Expr.ScopeStorePrimOps

/-!
# Lexical addressing is right

The evaluator finds variables by the levels and displacements that `bindVars` has computed.  The bodies of
all of its procedures keep the invariant of scopes, so every variable that it looks up has been bound in
the environment that it is looked up in, and a lookup by level and displacement is a lookup by name.
Hence sessions of the evaluator do the same by index as by name, and they never go up beyond the outermost
environment, never read a slot that an environment does not have, and never take the set of a `with` for
slots or slots for such a set (`session_byIndex_eq_byName`).
-/

namespace Nix.Lang

/-! ### Bound expressions -/

/-- An attribute has been bound: an inherited one outside, another one inside. -/
def AttrDef.Bound (σ newEnv : StaticEnv) : AttrDef → Prop
  | .inherited _ var _ _ => var.bind σ = .ok var
  | .plain _ e _ _ => Lang.Bound newEnv e

section

variable {σ newEnv : StaticEnv}

/-- Attributes that were bound stay as they are when they are bound again. -/
theorem bound_of_bindDefs {displ : Option ℕ} {attrs : List AttrDef}
    (h : bindDefs σ newEnv displ attrs = .ok attrs) : ∀ d ∈ attrs, d.Bound σ newEnv := by
  induction attrs generalizing displ with
  | nil => simp
  | cons d attrs ih =>
    rw [bindDefs] at h
    obtain ⟨d', hd, h⟩ := Outcome.bind_eq_ok.mp h
    obtain ⟨attrs', hattrs, h⟩ := Outcome.bind_eq_ok.mp h
    cases h
    intro a ha
    rcases List.mem_cons.mp ha with rfl | ha
    · cases a with
      | inherited name var pos displ' =>
        rw [AttrDef.bindVars] at hd
        obtain ⟨var', hvar, hd⟩ := Outcome.bind_eq_ok.mp hd
        obtain ⟨-, rfl, -⟩ := AttrDef.inherited.inj (Outcome.ok.inj hd)
        exact hvar
      | plain name e pos displ' =>
        rw [AttrDef.bindVars] at hd
        obtain ⟨e', he, hd⟩ := Outcome.bind_eq_ok.mp hd
        obtain ⟨-, rfl, -⟩ := AttrDef.plain.inj (Outcome.ok.inj hd)
        exact he
    · exact ih hattrs a ha

/-- The same for lists of expressions. -/
theorem bound_of_bindList {es : List Expr} (h : bindList σ es = .ok es) : ∀ e ∈ es, Bound σ e := by
  induction es with
  | nil => simp
  | cons e es ih =>
    rw [bindList] at h
    obtain ⟨e', he, h⟩ := Outcome.bind_eq_ok.mp h
    obtain ⟨es', hes, h⟩ := Outcome.bind_eq_ok.mp h
    cases h
    intro a ha
    rcases List.mem_cons.mp ha with rfl | ha
    · exact he
    · exact ih hes a ha

/-- The same for the defaults of formals. -/
theorem bound_of_bindFormals {xs : List Formal} (h : bindFormals σ xs = .ok xs) :
    ∀ x ∈ xs, ∀ e, x.dflt = some e → Bound σ e := by
  induction xs with
  | nil => simp
  | cons x xs ih =>
    rw [bindFormals] at h
    obtain ⟨x', hx, h⟩ := Outcome.bind_eq_ok.mp h
    obtain ⟨xs', hxs, h⟩ := Outcome.bind_eq_ok.mp h
    cases h
    intro y hy e he
    rcases List.mem_cons.mp hy with rfl | hy
    · cases y with
      | mk name dflt =>
        obtain rfl : dflt = some e := he
        rw [Formal.bindVars, bindOption] at hx
        obtain ⟨dflt', hdflt, hx⟩ := Outcome.bind_eq_ok.mp hx
        obtain ⟨e', he', hdflt⟩ := Outcome.bind_eq_ok.mp hdflt
        cases hdflt
        cases hx
        exact he'
    · exact ih hxs y hy e he

end

section

variable {settings : Settings} {facts : List (StaticEnv × Env)} {α : Type} {σ : StaticEnv} {env : Env}

/-! ### Parts of an evaluation -/

/-- A bound variable is found where its binding says, or by name in the sets of `with`. -/
theorem steady_lookupVar {var : VarRef} (hmem : (σ, env) ∈ facts) (hvar : var.bind σ = .ok var) :
    Steady settings facts (lookupVar env var) := by
  refine steady_lookup hmem hvar (fun c => ?_) fun e he => Contract.Triple.fail he
  cases c with
  | none => exact .undefined id
  | some v => exact .pure v

/-- A thunk is made in a known environment; a variable is looked up at once. -/
theorem steady_maybeThunk {e : Expr} (hmem : (σ, env) ∈ facts) (he : Bound σ e) :
    Steady settings facts (maybeThunk env e) := by
  unfold maybeThunk
  split
  · exact .pure _
  · obtain ⟨info', hinfo, h⟩ := Outcome.bind_eq_ok.mp he
    cases h
    refine steady_lookup hmem hinfo (fun c => ?_) fun e he => Contract.Triple.fail he
    cases c with
    | none => exact steady_mkThunk hmem he
    | some v => exact .pure v
  · exact steady_mkThunk hmem he

/-- An expression is evaluated to a value of the expected type. -/
theorem steady_evalAs {expected : Str} {type? : Value → Option α} {e : Expr} {v : Cell}
    (hmem : (σ, env) ∈ facts) (he : Bound σ e) : Steady settings facts (evalAs expected type? env e v) :=
  (Steady.eval hmem he).bind fun _ => (steady_read v).bind fun w => steady_ofType _ _ w

/-- A condition is evaluated to a boolean. -/
theorem steady_evalBool {e : Expr} (hmem : (σ, env) ∈ facts) (he : Bound σ e) :
    Steady settings facts (evalBool env e) := steady_allocValue.bind fun _ => steady_evalAs hmem he

/-- A part is evaluated into a fresh cell. -/
theorem steady_evalLocal {e : Expr} (hmem : (σ, env) ∈ facts) (he : Bound σ e) :
    Steady settings facts (evalLocal env e) :=
  steady_allocValue.bind fun v => (Steady.eval hmem he).bind fun _ => .pure v

/-- An attribute outside `rec` becomes a thunk in the environment around it. -/
theorem steady_evalAttr {d : AttrDef} (b : ℕ) (hmem : (σ, env) ∈ facts) (hd : d.Bound σ σ) :
    Steady settings facts (evalAttr env b d) := by
  cases d with
  | inherited name var pos displ =>
    exact (steady_lookupVar hmem hd).bind fun v => steady_pushAttr b _
  | plain name e pos displ => exact (steady_maybeThunk hmem hd).bind fun v => steady_pushAttr b _

/-- An attribute of `rec` becomes a thunk in the new environment, an inherited one in that around it. -/
theorem steady_evalRecAttrs {newEnv : StaticEnv} {f : ℕ} (b : ℕ) (hasOverrides : Bool)
    (hmem : (σ, env) ∈ facts) (hnew : (newEnv, f :: env) ∈ facts) {attrs : List AttrDef}
    (hattrs : ∀ d ∈ attrs, d.Bound σ newEnv) (displ : ℕ) :
    Steady settings facts (evalRecAttrs env f b hasOverrides displ attrs) := by
  induction attrs generalizing displ with
  | nil => exact .pure _
  | cons d attrs ih =>
    have hd := hattrs d List.mem_cons_self
    have hrest := ih (fun d hd => hattrs d (List.mem_cons_of_mem _ hd)) (displ + 1)
    cases d with
    | inherited name var pos displ' =>
      exact (steady_lookupVar hmem hd).bind fun v => (steady_setSlot f displ v).bind fun _ =>
        (steady_pushAttr b _).bind fun _ => hrest
    | plain name e pos displ' =>
      have hthunk : Steady settings facts
          (if hasOverrides then mkThunk (f :: env) e else maybeThunk (f :: env) e) := by
        split_ifs
        · exact steady_mkThunk hnew hd
        · exact steady_maybeThunk hnew hd
      exact hthunk.bind fun v => (steady_setSlot f displ v).bind fun _ =>
        (steady_pushAttr b _).bind fun _ => hrest

/-- The overrides of a `rec` set replace slots whose displacements binding has stored. -/
theorem steady_evalOverrides {newEnv : StaticEnv} {attrs : List AttrDef}
    (hattrs : bindDefs σ newEnv (some 0) attrs = .ok attrs) (symbols : SymbolTable) (f b : ℕ) :
    Steady settings facts (evalOverrides symbols f b attrs) := by
  have hoverride (i : Attr Cell) : Steady settings facts (override f b attrs i) := by
    refine (steady_displ i.name hattrs).bind fun d => ?_
    split
    · exact (steady_attrsOf b).bind fun old => (steady_setBindings b _).bind fun _ =>
        steady_setSlot f _ _
    · exact steady_pushAttr b i
  refine (steady_displ sOverrides hattrs).bind fun d => ?_
  split
  · exact .pure _
  · refine (steady_attrsOf b).bind fun old => ?_
    split
    · exact .undefined id
    · refine (steady_forceAttrs _).bind fun overrides => (steady_attrsOf overrides).bind fun is => ?_
      exact Steady.bind (.each fun i _ => hoverride i) fun _ => steady_sortAttrs symbols b

/-- The attributes of `let` become thunks, as those of `rec` do. -/
theorem steady_evalLetAttrs {newEnv : StaticEnv} {f : ℕ} (hmem : (σ, env) ∈ facts)
    (hnew : (newEnv, f :: env) ∈ facts) {attrs : List AttrDef} (hattrs : ∀ d ∈ attrs, d.Bound σ newEnv)
    (displ : ℕ) : Steady settings facts (evalLetAttrs env f displ attrs) := by
  induction attrs generalizing displ with
  | nil => exact .pure _
  | cons d attrs ih =>
    have hd := hattrs d List.mem_cons_self
    have hrest := ih (fun d hd => hattrs d (List.mem_cons_of_mem _ hd)) (displ + 1)
    cases d with
    | inherited name var pos displ' =>
      exact (steady_lookupVar hmem hd).bind fun v => (steady_setSlot f displ v).bind fun _ => hrest
    | plain name e pos displ' =>
      exact (steady_maybeThunk hnew hd).bind fun v => (steady_setSlot f displ v).bind fun _ => hrest

/-- Putting the position of an attribute before the messages of errors. -/
theorem steady_atAttr {c : Eval α} (attrPath : List Str) (pos : Option Pos) (h : Steady settings facts c) :
    Steady settings facts (atAttr attrPath pos c) := by
  cases pos with
  | none => exact h
  | some pos => exact h.mapError _

/-- Forcing by a call of its own. -/
theorem steady_forceValueCall (v : Cell) : Steady settings facts (invoke (.forceValue v)) :=
  .invoke fun _ => trivial

/-- Looking up an attribute that may be missing. -/
theorem steady_attrOf? (symbols : SymbolTable) (v : Cell) (name : Str) :
    Steady settings facts (attrOf? symbols v name) := by
  refine (steady_force v).bind fun w => ?_
  split
  · exact (steady_attrsOf _).bind fun _ => .pure _
  · exact .pure _

/-- A selection with a default, along the path. -/
theorem steady_selectOr {dflt : Expr} (hmem : (σ, env) ∈ facts) (hdflt : Bound σ dflt)
    (symbols : SymbolTable) (attrPath : List Str) (v : Cell) (path : List Str) (pos : Option Pos)
    (vAttrs : Cell) : Steady settings facts (selectOr symbols env attrPath dflt v pos vAttrs path) := by
  induction path generalizing pos vAttrs with
  | nil => exact (steady_atAttr _ _ (steady_forceValueCall vAttrs)).bind fun _ => steady_copyValue _ v
  | cons i path ih =>
    refine (steady_atAttr _ _ (steady_attrOf? symbols vAttrs i)).bind fun j => ?_
    cases j with
    | none => exact steady_atAttr _ _ (.eval hmem hdflt)
    | some j => exact ih _ _

/-- A selection without a default, along the path. -/
theorem steady_select (symbols : SymbolTable) (attrPath : List Str) (v : Cell) (path : List Str)
    (pos : Option Pos) (vAttrs : Cell) :
    Steady settings facts (select symbols attrPath v pos vAttrs path) := by
  induction path generalizing pos vAttrs with
  | nil => exact (steady_atAttr _ _ (steady_forceValueCall vAttrs)).bind fun _ => steady_copyValue _ v
  | cons i path ih =>
    exact (steady_atAttr _ _ (steady_attrOf symbols vAttrs i _)).bind fun j => ih _ _

/-- The operator `?`, along the path. -/
theorem steady_hasAttrPath (symbols : SymbolTable) (path : List Str) (vAttrs : Cell) :
    Steady settings facts (hasAttrPath symbols vAttrs path) := by
  induction path generalizing vAttrs with
  | nil => exact .pure _
  | cons i path ih =>
    refine (steady_attrOf? symbols vAttrs i).bind fun j => ?_
    cases j with
    | none => exact .pure _
    | some j => exact ih _

/-- The operator `//` evaluates both sides and merges them. -/
theorem steady_evalUpdate {e1 e2 : Expr} (hmem : (σ, env) ∈ facts) (h1 : Bound σ e1) (h2 : Bound σ e2)
    (symbols : SymbolTable) (v : Cell) : Steady settings facts (evalUpdate symbols env e1 e2 v) := by
  refine steady_allocValue.bind fun v1 => steady_allocValue.bind fun v2 => ?_
  refine Steady.bind (steady_evalAs hmem h1) fun b1 => Steady.bind (steady_evalAs hmem h2) fun b2 => ?_
  refine (steady_attrsOf b1).bind fun attrs1 => (steady_attrsOf b2).bind fun attrs2 => ?_
  split_ifs
  · exact steady_copyValue v2 v
  · exact steady_copyValue v1 v
  · exact (steady_mkAttrs v _).bind fun _ => .pure _

/-- The parts of a concatenation, one after the other. -/
theorem steady_concatParts {es : List Expr} (hmem : (σ, env) ∈ facts) (hes : ∀ e ∈ es, Bound σ e)
    (isPath : Option Bool) (s : Str) (context : PathSet) :
    Steady settings facts (concatParts env isPath s context es) := by
  induction es generalizing isPath s context with
  | nil => exact .pure _
  | cons e es ih =>
    refine (steady_evalLocal hmem (hes e List.mem_cons_self)).bind fun vStr => ?_
    refine (steady_read vStr).bind fun w => Steady.bind (.invoke fun _ => trivial) fun p => ?_
    exact ih (fun e he => hes e (List.mem_cons_of_mem _ he)) _ _ _

/-- A concatenation writes a string, a path or an integer. -/
theorem steady_evalConcatStrings {es : List Expr} (hmem : (σ, env) ∈ facts)
    (hes : ∀ e ∈ es, Bound σ e) (v : Cell) : Steady settings facts (evalConcatStrings env es v) := by
  refine (steady_concatParts hmem hes none [] ∅).bind fun p => ?_
  dsimp only
  split_ifs
  · exact steady_write v trivial
  · exact .evalError _
  · exact steady_mkString v _ _

/-- An operator, by cases. -/
theorem steady_evalBinOp {e1 e2 : Expr} (hmem : (σ, env) ∈ facts) (h1 : Bound σ e1) (h2 : Bound σ e2)
    (symbols : SymbolTable) (v : Cell) (op : BinOp) :
    Steady settings facts (evalBinOp symbols env v op e1 e2) := by
  have hbool {c : Eval Bool} (h : Steady settings facts c) (f : Bool → Bool) :
      Steady settings facts (c >>= fun b => write v (.tBool (f b))) :=
    h.bind fun b => steady_write v trivial
  have heq (v1 v2 : Cell) : Steady settings facts (invoke (.eqValues v1 v2)) :=
    .invoke fun _ => trivial
  cases op with
  | app =>
    exact (steady_evalLocal hmem h1).bind fun vFun => (steady_maybeThunk hmem h2).bind fun arg =>
      .invoke fun _ => trivial
  | opEq =>
    exact (steady_evalLocal hmem h1).bind fun v1 => (steady_evalLocal hmem h2).bind fun v2 =>
      hbool (heq v1 v2) id
  | opNEq =>
    exact (steady_evalLocal hmem h1).bind fun v1 => (steady_evalLocal hmem h2).bind fun v2 =>
      hbool (heq v1 v2) not
  | opAnd => exact hbool (steady_andAlso (steady_evalBool hmem h1) (steady_evalBool hmem h2)) id
  | opOr => exact hbool (steady_orElse (steady_evalBool hmem h1) (steady_evalBool hmem h2)) id
  | opImpl =>
    exact hbool (steady_orElse ((steady_evalBool hmem h1).bind fun _ => .pure _)
      (steady_evalBool hmem h2)) id
  | opUpdate => exact steady_evalUpdate hmem h1 h2 symbols v
  | opConcatLists =>
    exact (steady_evalLocal hmem h1).bind fun v1 => (steady_evalLocal hmem h2).bind fun v2 =>
      steady_concatLists v _

/-! ### The bodies -/

/-- Evaluation of a bound expression in a known environment, by induction on the expression. -/
theorem steady_eval {e : Expr} (hmem : (σ, env) ∈ facts) (he : Bound σ e) (v : Cell) :
    Steady settings facts (eval settings.symbols env v e) := by
  unfold Bound at he
  cases e with
  | literal lit => exact steady_copyValue _ v
  | var info =>
    rw [Expr.bindVars] at he
    obtain ⟨info', hinfo, he⟩ := Outcome.bind_eq_ok.mp he
    cases he
    exact (steady_lookupVar hmem hinfo).bind fun v2 => (steady_forceValueCall v2).bind fun _ =>
      steady_copyValue v2 v
  | select e attrPath dflt =>
    rw [Expr.bindVars] at he
    obtain ⟨e', he', he⟩ := Outcome.bind_eq_ok.mp he
    obtain ⟨dflt', hdflt, he⟩ := Outcome.bind_eq_ok.mp he
    cases he
    refine (steady_evalLocal hmem he').bind fun vTmp => ?_
    cases dflt with
    | none => exact steady_select _ attrPath v attrPath none vTmp
    | some d =>
      rw [bindOption] at hdflt
      obtain ⟨d', hd, hdflt⟩ := Outcome.bind_eq_ok.mp hdflt
      cases hdflt
      exact steady_selectOr hmem hd _ attrPath v attrPath none vTmp
  | opHasAttr e attrPath =>
    rw [Expr.bindVars] at he
    obtain ⟨e', he', he⟩ := Outcome.bind_eq_ok.mp he
    cases he
    exact (steady_evalLocal hmem he').bind fun vTmp => (steady_hasAttrPath _ attrPath vTmp).bind fun _ =>
      steady_write v trivial
  | attrs recursive attrs =>
    cases recursive with
    | false =>
      rw [Expr.bindVars] at he
      obtain ⟨attrs', hattrs, he⟩ := Outcome.bind_eq_ok.mp he
      cases he
      exact (steady_mkAttrs v []).bind fun b =>
        .each fun d hd => steady_evalAttr b hmem (bound_of_bindDefs hattrs d hd)
    | true =>
      rw [Expr.bindVars] at he
      obtain ⟨attrs', hattrs, he⟩ := Outcome.bind_eq_ok.mp he
      cases he
      refine (steady_mkAttrs v []).bind fun b => ?_
      refine steady_allocEnv hmem ⟨rfl, by simp⟩ fun f => ?_
      exact Steady.bind (steady_evalRecAttrs b _ (List.mem_cons_of_mem _ hmem) List.mem_cons_self
        (bound_of_bindDefs hattrs) 0) fun _ => steady_evalOverrides hattrs _ f b
  | list elems =>
    rw [Expr.bindVars] at he
    obtain ⟨elems', helems, he⟩ := Outcome.bind_eq_ok.mp he
    cases he
    exact Steady.bind (.collect fun e he => steady_maybeThunk hmem (bound_of_bindList helems e he))
      fun vs => steady_write v trivial
  | lambda pos arg matchAttrs formals ellipsis body =>
    rw [Expr.bindVars] at he
    obtain ⟨formals', hformals, he⟩ := Outcome.bind_eq_ok.mp he
    obtain ⟨body', hbody, he⟩ := Outcome.bind_eq_ok.mp he
    cases he
    have hbound : Lambda.Bound σ ⟨pos, arg, matchAttrs, formals, ellipsis, body⟩ :=
      ⟨fun h => (if_pos h).symm.trans hformals, hbody⟩
    exact steady_write_of fun h hknows => ⟨σ, hknows _ hmem, hbound⟩
  | letIn attrs body =>
    rw [Expr.bindVars] at he
    obtain ⟨attrs', hattrs, he⟩ := Outcome.bind_eq_ok.mp he
    obtain ⟨body', hbody, he⟩ := Outcome.bind_eq_ok.mp he
    cases he
    refine steady_allocEnv hmem ⟨rfl, by simp⟩ fun f => ?_
    exact Steady.bind (steady_evalLetAttrs (List.mem_cons_of_mem _ hmem) List.mem_cons_self
      (bound_of_bindDefs hattrs) 0) fun _ => .eval List.mem_cons_self hbody
  | withIn pos attrs body dist =>
    rw [Expr.bindVars] at he
    obtain ⟨attrs', hattrs, he⟩ := Outcome.bind_eq_ok.mp he
    obtain ⟨body', hbody, he⟩ := Outcome.bind_eq_ok.mp he
    cases he
    refine steady_allocValue.bind fun vAttrs => ?_
    refine steady_allocEnv hmem ⟨rfl, rfl⟩ fun f => ?_
    exact Steady.bind (steady_evalAs (List.mem_cons_of_mem _ hmem) hattrs) fun _ =>
      .eval List.mem_cons_self hbody
  | cond cond thenBranch elseBranch =>
    rw [Expr.bindVars] at he
    obtain ⟨cond', hcond, he⟩ := Outcome.bind_eq_ok.mp he
    obtain ⟨then', hthen, he⟩ := Outcome.bind_eq_ok.mp he
    obtain ⟨else', helse, he⟩ := Outcome.bind_eq_ok.mp he
    cases he
    refine (steady_evalBool hmem hcond).bind fun b => ?_
    cases b with
    | true => exact .eval hmem hthen
    | false => exact .eval hmem helse
  | assert pos cond body =>
    rw [Expr.bindVars] at he
    obtain ⟨cond', hcond, he⟩ := Outcome.bind_eq_ok.mp he
    obtain ⟨body', hbody, he⟩ := Outcome.bind_eq_ok.mp he
    cases he
    refine (steady_evalBool hmem hcond).bind fun b => ?_
    cases b with
    | true => exact .eval hmem hbody
    | false => exact .thrown _ _
  | opNot e =>
    rw [Expr.bindVars] at he
    obtain ⟨e', he', he⟩ := Outcome.bind_eq_ok.mp he
    cases he
    exact (steady_evalBool hmem he').bind fun _ => steady_write v trivial
  | binOp op e1 e2 =>
    rw [Expr.bindVars] at he
    obtain ⟨e1', he1, he⟩ := Outcome.bind_eq_ok.mp he
    obtain ⟨e2', he2, he⟩ := Outcome.bind_eq_ok.mp he
    cases he
    exact steady_evalBinOp hmem he1 he2 _ v op
  | concatStrings es =>
    rw [Expr.bindVars] at he
    obtain ⟨es', hes, he⟩ := Outcome.bind_eq_ok.mp he
    cases he
    exact steady_evalConcatStrings hmem (bound_of_bindList hes) v

/-- The formals of a call, whose defaults become thunks in the new environment. -/
theorem steady_matchFormals {env2 : Env} (hmem : (σ, env2) ∈ facts) (symbols : SymbolTable) (pos : Pos)
    (attrs : List (Attr Cell)) (f : ℕ) {formals : List Formal}
    (hformals : ∀ x ∈ formals, ∀ e, x.dflt = some e → Bound σ e) (displ attrsUsed : ℕ) :
    Steady settings facts (matchFormals symbols pos attrs env2 f displ attrsUsed formals) := by
  induction formals generalizing displ attrsUsed with
  | nil => exact .pure _
  | cons i formals ih =>
    have hrest := ih fun x hx => hformals x (List.mem_cons_of_mem _ hx)
    unfold matchFormals
    split
    · exact (steady_setSlot f displ _).bind fun _ => hrest _ _
    · split
      · exact .evalError _
      · rename_i e hdflt
        exact (steady_maybeThunk hmem (hformals i List.mem_cons_self e hdflt)).bind fun v =>
          (steady_setSlot f displ v).bind fun _ => hrest _ _

/-- A call, by cases on what is called. -/
theorem steady_callFunction (fn arg v : Cell) :
    Steady settings facts (callFunction settings.symbols fn arg v) := by
  refine Contract.Triple.bind stable_knows (triple_read fn) fun w => ?_
  have hknown {c : Eval Unit} (h : Steady settings facts c) :
      (contract settings).Triple (Op.perform settings .byIndex)
        (fun h => Knows facts h ∧ w.Good h) c fun _ _ => True :=
    Contract.Triple.mono h (fun _ hs => hs.1) fun _ _ => id
  cases w with
  | tPrimOp op => exact hknown (steady_callPrimOpApp fn arg v)
  | tPrimOpApp left right => exact hknown (steady_callPrimOpApp fn arg v)
  | tLambda env lambda =>
    refine triple_of_exists fun σ hbound => ?_
    refine steady_allocEnv List.mem_cons_self ⟨rfl, by simp⟩ fun f => ?_
    refine Steady.bind ?_ fun _ => Steady.mapError (.eval List.mem_cons_self hbound.body) _
    unfold bindArgs
    split_ifs with hmatch
    · refine (steady_forceAttrs arg).bind fun b => (steady_attrsOf b).bind fun attrs => ?_
      have harg : Steady settings ((lambda.newEnv σ, f :: env) :: (σ, env) :: facts)
          (bindArg lambda arg f) := by
        unfold bindArg
        split_ifs
        · exact .pure _
        · exact (steady_setSlot f 0 arg).bind fun _ => .pure _
      refine harg.bind fun displ => ?_
      refine (steady_matchFormals List.mem_cons_self _ _ attrs f
        (bound_of_bindFormals (hbound.formals hmatch)) displ 0).bind fun attrsUsed => ?_
      split_ifs
      · exact .evalError _
      · exact .pure _
    · exact steady_setSlot f 0 arg
  | _ => exact hknown (.evalError _)

/-- Forcing, by cases on what is forced. -/
theorem steady_forceValue (v : Cell) : Steady settings facts (forceValue v) := by
  refine Contract.Triple.bind stable_knows (triple_read v) fun w => ?_
  have hknown {c : Eval Unit} (h : Steady settings facts c) :
      (contract settings).Triple (Op.perform settings .byIndex)
        (fun h => Knows facts h ∧ w.Good h) c fun _ _ => True :=
    Contract.Triple.mono h (fun _ hs => hs.1) fun _ _ => id
  cases w with
  | tThunk env e =>
    refine triple_of_exists fun σ hbound => ?_
    refine (steady_write v (v := .tBlackhole) trivial).bind fun _ => ?_
    refine Contract.Triple.call stable_knows
      (fun _ _ hknows => ⟨σ, hknows _ List.mem_cons_self, hbound⟩) fun r hr => ?_
    cases r with
    | ok u => exact Steady.pure ()
    | error e' =>
      refine (steady_read v).bind fun w => ?_
      split
      · exact (steady_writeThunk v List.mem_cons_self hbound).bind fun _ =>
          Contract.Triple.fail (hr e' rfl)
      · exact (steady_write v (v := .brokenThunk) trivial).bind fun _ =>
          Contract.Triple.fail (hr e' rfl)
  | tApp left right => exact hknown (.invoke fun _ => trivial)
  | tBlackhole => exact hknown (.evalError _)
  | brokenThunk => exact hknown (.undefined id)
  | _ => exact hknown (Steady.pure ())

/-- The body of every procedure keeps the invariant. -/
theorem triple_body (p : Proc) : (contract settings).Triple (Op.perform settings .byIndex)
    ((contract settings).pre p) (body settings p) fun _ _ => True := by
  have hother {α : Type} {c : Eval α} {P : Heap → Prop} (h : Steady settings [] c) :
      (contract settings).Triple (Op.perform settings .byIndex) P c fun _ _ => True :=
    Contract.Triple.mono h (fun _ _ x hx => by cases hx) fun _ _ => id
  cases p with
  | eval e env v =>
    intro h hgood hpre
    obtain ⟨σ, hfits, hbound⟩ := hpre
    have heval : Steady settings [(σ, env)] (eval settings.symbols env v e) :=
      steady_eval List.mem_cons_self hbound v
    refine heval h hgood fun x hx => ?_
    obtain rfl := List.mem_singleton.mp hx
    exact hfits
  | forceValue v => exact hother (steady_forceValue v)
  | callFunction fn arg v => exact hother (steady_callFunction fn arg v)
  | callPrimOp op args v => exact hother (steady_callPrimOp v op args)
  | coerceToString v context more copy => exact hother (steady_coerceToString _ v context more copy)
  | eqValues v1 v2 => exact hother (steady_eqValues _ v1 v2)
  | strictForceValue v => exact hother (steady_strictForceValue v)
  | evalFile path v => exact hother (steady_evalFile path v)
  | autoCallFunction args fn res => exact hother (steady_autoCallFunction _ args fn res)
  | primOpOf fn => exact hother (steady_primOpOf fn)
  | closureLoop op workSet doneKeys res => exact hother (steady_closureLoop op workSet doneKeys res)
  | printValueAsXML v st => exact hother (steady_printValueAsXML v st)
  | dump filter path => exact hother (steady_dump filter path)
  | diverge =>
    have hdiverge : Steady settings [] (invoke .diverge) := .invoke fun _ => trivial
    exact hother hdiverge

end

/-! ### Sessions -/

section

variable (settings : Settings)

/-- Lookups by index that are allowed are lookups by name. -/
theorem perform_byIndex_eq_byName (o : Op) (h : Heap) (ho : o.Allowed h) :
    o.perform settings .byIndex h = o.perform settings .byName h := by
  cases o with
  | lookupVar env var =>
    obtain ⟨σ, hfits, hvar⟩ := ho
    exact Prod.ext (lookupVar_eq_lookupName hfits hvar) rfl
  | displ attrs name =>
    obtain ⟨σ, σ', hattrs⟩ := ho
    exact Prod.ext (displOf_eq hattrs name) rfl
  | _ => rfl

/-- Evaluation by index is evaluation by name. -/
theorem evaluate_byIndex_eq_byName (n : ℕ) (p : Proc) {h : Heap} (hgood : h.Good settings)
    (hp : p.Pre h) : evaluate settings .byIndex n p h = evaluate settings .byName n p h :=
  Contract.run_congr (K := contract settings) triple_body (perform_byIndex_eq_byName settings) n p h
    hgood hp

/-- What evaluation leaves behind is good again. -/
theorem evaluate_good {n : ℕ} {p : Proc} {h h' : Heap} {r : Except Failure p.Result}
    (hgood : h.Good settings) (hp : p.Pre h) (hrun : evaluate settings .byIndex n p h = some (r, h')) :
    h'.Good settings ∧ ∀ e, r = .error e → ¬e.LeavesScope := by
  have hspec := Contract.run_spec (K := contract settings) triple_body n
  obtain ⟨hgood', -, -, hfine⟩ := hspec p h r h' hgood hp hrun
  exact ⟨hgood', hfine⟩

/-- The values that are there before `derivation.nix` is read are no closures. -/
theorem plain_of_mem_baseValues {v : Value} (hv : v ∈ settings.baseValues.map Prod.snd) : v.Plain := by
  rw [Settings.baseValues, Settings.primValues, List.map_append, List.map_append, List.mem_append,
    List.mem_append] at hv
  rcases hv with (hv | hv) | hv
  · simp only [Settings.constants, List.map_cons, List.map_nil, List.mem_cons, List.not_mem_nil,
      or_false] at hv
    rcases hv with rfl | rfl | rfl | rfl | rfl | rfl | rfl | rfl <;> trivial
  · rw [List.map_map, List.mem_map] at hv
    obtain ⟨p, -, rfl⟩ := hv
    trivial
  · obtain rfl := List.mem_singleton.mp hv
    trivial

/-- The memory before `derivation.nix` is read is good. -/
theorem good_baseHeap : (baseHeap settings).Good settings := by
  have hnone {β : Type} {path : Path} {b : β} (h : (∅ : SortedMap Path β).find? path = some b) : False := by
    rw [SortedMap.find?_eq_none_iff.mpr (SortedMap.notMem_empty path)] at h
    cases h
  refine ⟨fun n => ?_, fun path v hfind => (hnone hfind).elim, fun path tree hfind => (hnone hfind).elim,
    Nat.two_pos, ⟨rfl, by simp⟩, trivial⟩
  change (((settings.baseValues.map Prod.snd)[n]?).getD .unset).Good _
  cases hn : (settings.baseValues.map Prod.snd)[n]? with
  | none => trivial
  | some v => exact (plain_of_mem_baseValues settings (List.mem_of_getElem? hn)).good _

/-- The thunk `derivation` is bound in the environment in which it is evaluated. -/
theorem steady_addDerivation :
    Steady settings [(settings.staticPrimEnv, primEnv)] (addDerivation settings) := by
  refine (steady_ask _).bind fun path => ?_
  refine steady_parseExprFromFile (fun h _ hknows => hknows _ List.mem_cons_self) fun e env σ he => ?_
  exact steady_writeThunk _ List.mem_cons_self he

variable {settings}

/-- The memory that `createBaseEnv` makes is good. -/
theorem good_createBaseEnv {r : Except Failure Unit} {h : Heap}
    (hbase : createBaseEnv settings = some (r, h)) : h.Good settings := by
  have hcalls : (contract settings).Obeys fun _ _ => none := fun _ _ _ _ _ _ hcall => by cases hcall
  have hknows : Knows [(settings.staticPrimEnv, primEnv)] (baseHeap settings) := by
    intro x hx
    obtain rfl := List.mem_singleton.mp hx
    exact ⟨Nat.one_lt_two, ⟨rfl, by simp⟩, trivial⟩
  exact (Contract.exec_of_meets hcalls
    (steady_addDerivation settings _ (good_baseHeap settings) hknows) hbase).1

/-- A request runs alike by index and by name, and leaves the heap good. -/
theorem Request.run_byIndex_eq_byName (n : ℕ) (request : Request) {h : Heap} (hgood : h.Good settings) :
    request.run settings .byIndex n h = request.run settings .byName n h ∧
      ∀ r h', request.run settings .byIndex n h = some (r, h') →
        h'.Good settings ∧ ∀ e, r = .error e → ¬e.LeavesScope := by
  have hcall (p : Proc) (hp : p.Pre h) := And.intro (evaluate_byIndex_eq_byName settings n p hgood hp)
    fun r h' => @evaluate_good settings n p h h' r hgood hp
  cases request with
  | eval e v =>
    simp only [Request.run]
    cases hbind : e.bindVars settings.staticBaseEnv with
    | ok e' => exact hcall (.eval e' baseEnv v) ⟨_, hgood.base, Expr.bindVars_bindVars hbind⟩
    | error msg =>
      refine ⟨rfl, fun r h' hrun => ?_⟩
      cases hrun
      exact ⟨hgood, fun e he => by cases he; exact id⟩
    | diverge => exact ⟨rfl, fun r h' hrun => by cases hrun⟩
  | evalFile path v => exact hcall (.evalFile path v) trivial
  | forceValue v => exact hcall (.forceValue v) trivial
  | strictForceValue v => exact hcall (.strictForceValue v) trivial
  | callFunction fn arg v => exact hcall (.callFunction fn arg v) trivial
  | autoCallFunction args fn res => exact hcall (.autoCallFunction args fn res) trivial

/-- A session runs alike by index and by name, by induction on the requests. -/
theorem session_of_good (n : ℕ) (requests : List Request) {h : Heap} (hgood : h.Good settings) :
    session settings .byIndex n requests h = session settings .byName n requests h ∧
      ∀ rs h', session settings .byIndex n requests h = some (rs, h') →
        ∀ e, .error e ∈ rs → ¬e.LeavesScope := by
  induction requests generalizing h with
  | nil =>
    refine ⟨rfl, fun rs h' hrun e he => ?_⟩
    cases hrun
    cases he
  | cons request requests ih =>
    obtain ⟨heq, hrun⟩ := request.run_byIndex_eq_byName n hgood
    unfold session
    rw [← heq]
    cases hr : request.run settings .byIndex n h with
    | none => exact ⟨rfl, fun rs h' hrs => by cases hrs⟩
    | some r =>
      obtain ⟨hgood', hfine⟩ := hrun r.1 r.2 hr
      obtain ⟨heq', hrest⟩ := ih hgood'
      refine ⟨congrArg (fun x : Option (List (Except Failure Unit) × Heap) =>
        x.bind fun y => some (r.1 :: y.1, y.2)) heq', fun rs h' hrs e he => ?_⟩
      obtain ⟨r', hr', hrs⟩ := Option.bind_eq_some_iff.mp hrs
      cases hr'
      obtain ⟨⟨rs', h''⟩, hrs', hret⟩ := Option.bind_eq_some_iff.mp hrs
      cases hret
      rcases List.mem_cons.mp he with he | he
      · exact hfine e he.symm
      · exact hrest rs' _ hrs' e he

variable (settings)

end

/-- A file that makes `derivation` a call of `derivationStrict`. -/
def derivationFile : Expr :=
  .lambda noPos (str "drvAttrs") false [] false (.binOp .app
    (.var ⟨str "derivationStrict", false, 0, 0⟩) (.var ⟨str "drvAttrs", false, 0, 0⟩))

/-- Settings with an outside that knows this file only. -/
def derivationSettings : Settings where
  symbols := .digits
  cfg := defaultConfig
  sha256 s := s
  outside _ q :=
    match q with
    | .findFile path => .ok (str "/" ++ path)
    | .exprPath path => .ok path
    | .parse _ => .ok derivationFile
    | _ => .error (str "no answer")
  readOnlyMode := true
  time := 0
  thisSystem := str "i686-linux"
  nixVersion := str "1.7"

end Nix.Lang
