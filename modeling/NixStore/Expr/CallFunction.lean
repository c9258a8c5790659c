import NixStore.Expr.Scopes

/-!
# Calls of functions

Model of `lookupVar`, `maybeThunk` and `callFunction` of `eval.cc`.  A call fills the slots of a new
environment with the argument, or with the attributes of the argument and the defaults for those that
are missing; the attributes that are used are counted, and their number is compared with the size of
the set.
-/

namespace Nix

/-! ### Environments -/

/-- Model of `Env`, less the pointer to the enclosing one. -/
inductive EnvFrame (symbols : SymbolTable) where
  /-- The slots of a function, a `let` or a recursive set, by their address. -/
  | scope (addr : ℕ)
  /-- The set of a `with`. -/
  | withAttrs (attrs : Bindings symbols Cell) (prevWith : ℕ)

/-- Model of `Env`: the environment and those that enclose it. -/
abbrev Env (symbols : SymbolTable) := List (EnvFrame symbols)

/-- Model of `Value`, as far as a call tells values apart. -/
inductive Content (symbols : SymbolTable) (ε : Type) where
  | thunk (env : Env symbols) (e : Expr ε)
  | app (left right : Cell)
  | blackhole
  | attrs (attrs : Bindings symbols Cell)
  | lambda (env : Env symbols) (f : Lambda ε)
  | primOp
  /-- A built-in function that lacks arguments. -/
  | primOpApp (left right : Cell)
  /-- Another value, with what `showType` says of it. -/
  | other (type : Str)

/-- Model of `showType`. -/
def Content.showType {symbols : SymbolTable} {ε : Type} : Content symbols ε → Str
  | .thunk _ _ => str "a thunk"
  | .app _ _ => str "a function application"
  | .blackhole => str "a black hole"
  | .attrs _ => str "an attribute set"
  | .lambda _ _ => str "a function"
  | .primOp => str "a built-in function"
  | .primOpApp _ _ => str "a partially applied built-in function"
  | .other type => type

/-- The slots of the environments and the values, by their addresses. -/
structure Heap (symbols : SymbolTable) (ε : Type) where
  scopes : List (List (Option Cell))
  values : List (Content symbols ε)

namespace Heap

variable {symbols : SymbolTable} {ε : Type} (h : Heap symbols ε)

/-- The slots of an environment. -/
def slots (a : ℕ) : List (Option Cell) := (h.scopes[a]?).getD []

/-- A slot of an environment. -/
def slot (a i : ℕ) : Option Cell := ((h.slots a)[i]?).join

/-- Fills a slot. -/
def setSlot (a i : ℕ) (v : Cell) : Heap symbols ε :=
  { h with scopes := h.scopes.set a ((h.slots a).set i (some v)) }

/-- Model of `allocEnv`: all slots are cleared. -/
def allocEnv (size : ℕ) : Heap symbols ε :=
  { h with scopes := h.scopes ++ [List.replicate size none] }

/-- A new value. -/
def allocValue (v : Content symbols ε) : Heap symbols ε × Cell :=
  ({ h with values := h.values ++ [v] }, h.values.length)

end Heap

section

variable {symbols : SymbolTable} {ε : Type}

/-- The loops of `lookupVar` for a variable of a `with`: go up the given number of levels, and from
there to the enclosing `with` until one has the attribute. -/
def lookupWith (name : Str) : ℕ → Env symbols → Outcome Str Cell
  | level + 1, _ :: up => lookupWith name level up
  | 0, .withAttrs attrs prevWith :: up =>
    match attrs.find name with
    | some a => .ok a.value
    | none =>
      if prevWith = 0 then .error (str "undefined variable `" ++ name ++ str "'")
      else lookupWith name (prevWith - 1) up
  | _, _ => .error (str "undefined variable `" ++ name ++ str "'")

/-- Model of `lookupVar`. -/
def lookupVar (h : Heap symbols ε) (env : Env symbols) (var : VarRef) : Outcome Str (Option Cell) :=
  if var.fromWith then do
    let v ← lookupWith var.name var.level env
    return some v
  else
    match env.drop var.level with
    | .scope a :: _ => return h.slot a var.displ
    | _ => return none

/-- Model of `maybeThunk`. -/
def maybeThunk (h : Heap symbols ε) (env : Env symbols) (e : Expr ε) :
    Outcome Str (Heap symbols ε × Cell) :=
  match e with
  | .var info => do
    match ← lookupVar h env info with
    | some v => return (h, v)
    -- the value might not be initialised in the environment yet
    | none => return h.allocValue (.thunk env e)
  | .literal v => return (h, v)
  | .other _ => return h.allocValue (.thunk env e)

end

/-! ### Calls -/

/-- The evaluation of expressions and the calls of built-in functions. -/
structure Evaluator (symbols : SymbolTable) (ε : Type) where
  /-- What `forceValue` does to a thunk or an application. -/
  forceThunk : Heap symbols ε → Cell → Outcome Str (Heap symbols ε)
  eval : Heap symbols ε → Env symbols → Expr ε → Outcome Str (Heap symbols ε × Content symbols ε)
  callPrimOp : Heap symbols ε → Cell → Cell → Outcome Str (Heap symbols ε × Content symbols ε)

section

variable {symbols : SymbolTable} {ε : Type} (ev : Evaluator symbols ε)

/-- Model of `forceValue`. -/
def Evaluator.forceValue (h : Heap symbols ε) (v : Cell) : Outcome Str (Heap symbols ε) :=
  match h.values[v]? with
  | some (.thunk _ _) => ev.forceThunk h v
  | some (.app _ _) => ev.forceThunk h v
  | some .blackhole => .error (str "infinite recursion encountered")
  | _ => .ok h

/-- Model of `forceAttrs`. -/
def Evaluator.forceAttrs (h : Heap symbols ε) (v : Cell) :
    Outcome Str (Heap symbols ε × Bindings symbols Cell) := do
  let h ← ev.forceValue h v
  match h.values[v]? with
  | some (.attrs attrs) => return (h, attrs)
  | w => .error (str "value is " ++ (w.map Content.showType).getD [] ++
      str " while an attribute set was expected")

/-- The loop of `callFunction` over the formal arguments, with the variables `displ` and `attrsUsed`;
`env2` has its slots at address `a`. -/
def matchFormals (pos : Pos) (attrs : Bindings symbols Cell) (env2 : Env symbols) (a : ℕ) :
    List (Formal ε) → ℕ → ℕ → Heap symbols ε → Outcome Str (ℕ × Heap symbols ε)
  | [], _, attrsUsed, h => return (attrsUsed, h)
  | x :: xs, displ, attrsUsed, h =>
    match attrs.find x.name with
    | none =>
      match x.dflt with
      | none => .error (str "function at " ++ pos.print ++ str " called without required argument `" ++
          x.name ++ str "'")
      | some e => do
        let (h, v) ← maybeThunk h env2 e
        matchFormals pos attrs env2 a xs (displ + 1) attrsUsed (h.setSlot a displ v)
    | some attr =>
      matchFormals pos attrs env2 a xs (displ + 1) (attrsUsed + 1) (h.setSlot a displ attr.value)

/-- The part of `callFunction` before a function's body is evaluated: the environment of the call. -/
def enterLambda (h : Heap symbols ε) (env : Env symbols) (f : Lambda ε) (arg : Cell) :
    Outcome Str (Heap symbols ε × Env symbols) :=
  let size := (if f.arg = [] then 0 else 1) + ((f.formals.map fun fs => fs.formals.length).getD 0)
  let a := h.scopes.length
  let h := h.allocEnv size
  let env2 := .scope a :: env
  match f.formals with
  | none => return (h.setSlot a 0 arg, env2)
  | some fs => do
    let (h, attrs) ← ev.forceAttrs h arg
    let (h, displ) := if f.arg = [] then (h, 0) else (h.setSlot a 0 arg, 1)
    let (attrsUsed, h) ← matchFormals f.pos attrs env2 a fs.formals displ 0 h
    if !fs.ellipsis ∧ attrsUsed ≠ attrs.attrs.length then
      .error (str "function at " ++ f.pos.print ++ str " called with unexpected argument")
    else return (h, env2)

/-- Evaluates the body of a function; an error gets a prefix. -/
def Evaluator.evalBody (f : Lambda ε) (h : Heap symbols ε) (env : Env symbols) :
    Outcome Str (Heap symbols ε × Content symbols ε) :=
  match ev.eval h env f.body with
  | .error e => .error (str "while evaluating the function at " ++ f.pos.print ++ str ":\n" ++ e)
  | r => r

/-- Model of `callFunction`. -/
def callFunction (h : Heap symbols ε) (v arg : Cell) :
    Outcome Str (Heap symbols ε × Content symbols ε) :=
  match h.values[v]? with
  | some .primOp => ev.callPrimOp h v arg
  | some (.primOpApp _ _) => ev.callPrimOp h v arg
  | some (.lambda env f) => do
    let (h, env2) ← enterLambda ev h env f arg
    ev.evalBody f h env2
  | w => .error (str "attempt to call something which is not a function but " ++
      (w.map Content.showType).getD [])

end

/-! ### The state grows -/

namespace Heap

variable {symbols : SymbolTable} {ε : Type} {h h' h'' : Heap symbols ε} {a a' i i' : ℕ} {v : Cell}

/-- Values and filled slots stay as they are. -/
structure Extends (h h' : Heap symbols ε) : Prop where
  values : h.values <+: h'.values
  slot : ∀ {a i v}, h.slot a i = some v → h'.slot a i = some v

/-- A heap extends itself. -/
theorem Extends.refl (h : Heap symbols ε) : h.Extends h := ⟨List.prefix_rfl, fun hs => hs⟩

/-- Extensions follow each other. -/
theorem Extends.trans (hs : h.Extends h') (hs' : h'.Extends h'') : h.Extends h'' :=
  ⟨hs.values.trans hs'.values, fun hslot => hs'.slot (hs.slot hslot)⟩

/-- The slots after one was set. -/
theorem slots_setSlot (h : Heap symbols ε) (a i : ℕ) (v : Cell) (a' : ℕ) :
    (h.setSlot a i v).slots a' =
      if a' = a then (h.slots a).set i (some v) else h.slots a' := by
  by_cases ha : a' = a
  · subst ha
    rw [if_pos rfl]
    by_cases hlt : a' < h.scopes.length
    · rw [slots, setSlot, List.getElem?_set_self hlt]
      rfl
    · have hnil : h.slots a' = [] := by
        rw [slots, List.getElem?_eq_none (Nat.le_of_not_lt hlt)]
        rfl
      rw [slots, setSlot, List.set_eq_of_length_le (Nat.le_of_not_lt hlt), hnil]
      exact hnil
  · rw [if_neg ha, slots, setSlot, List.getElem?_set_ne (Ne.symm ha)]
    rfl

/-- The slot that was set. -/
theorem slot_setSlot_self (hlt : i < (h.slots a).length) : (h.setSlot a i v).slot a i = some v := by
  rw [slot, slots_setSlot, if_pos rfl, List.getElem?_set_self hlt]
  rfl

/-- The other slots stay. -/
theorem slot_setSlot_of_ne (hne : a' ≠ a ∨ i' ≠ i) : (h.setSlot a i v).slot a' i' = h.slot a' i' := by
  rw [slot, slots_setSlot]
  split_ifs with ha
  · subst ha
    rw [List.getElem?_set_ne (Ne.symm (hne.resolve_left fun hne => hne rfl))]
    rfl
  · rfl

/-- Setting a slot keeps their number. -/
theorem length_slots_setSlot : ((h.setSlot a i v).slots a').length = (h.slots a').length := by
  rw [slots_setSlot]
  split_ifs with ha
  · rw [List.length_set, ha]
  · rfl

/-- An empty slot can be filled. -/
theorem extends_setSlot (hnone : h.slot a i = none) : h.Extends (h.setSlot a i v) := by
  refine ⟨List.prefix_rfl, fun {a' i' w} hslot => ?_⟩
  rw [slot_setSlot_of_ne, hslot]
  by_contra hne
  rw [not_or, not_not, not_not] at hne
  rw [hne.1, hne.2, hnone] at hslot
  cases hslot

/-- Allocating a value extends the heap. -/
theorem extends_allocValue (w : Content symbols ε) : h.Extends (h.allocValue w).1 :=
  ⟨List.prefix_append _ _, fun hslot => hslot⟩

end Heap

end Nix
