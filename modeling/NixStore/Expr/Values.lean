import NixStore.Store.StorePaths
import NixStore.Util.Paths
import NixStore.Lib.Decimal

/-!
# Values of the expression language

Model of `value.hh` and of the operations of `eval.cc` that force a value and look at its type.  A
value sits in a cell, and other cells occur in it; `α` is the type of the cells.  What evaluation
does is the parameter `forceValue` of an `EvalEnv`: it says what `forceValue` leaves in a cell.
-/

namespace Nix

/-- Model of `Pos`. -/
structure Pos where
  file : Str
  line : ℕ
  column : ℕ
deriving DecidableEq

/-- Model of `operator <<` on positions. -/
def Pos.print (pos : Pos) : Str :=
  if pos.line = 0 then str "undefined position"
  else str "`" ++ pos.file ++ str ":" ++ decimal pos.line ++ str ":" ++ decimal pos.column ++ str "'"

/-- Model of `Attr`. -/
structure Attr (α : Type) where
  name : Str
  value : α
  pos : Pos
deriving DecidableEq

/-- Model of `ExprLambda`, as far as it is shown. -/
structure ExprLambda where
  pos : Pos
  matchAttrs : Bool
  arg : Str
  ellipsis : Bool
  /-- The names of the formal arguments. -/
  formals : List Str
deriving DecidableEq

/-- Model of `Value`, less the types that `forceValue` never leaves behind. -/
inductive Value (α : Type) where
  | tInt (integer : ℤ)
  | tBool (boolean : Bool)
  /-- A string with its context. -/
  | tString (s : Str) (context : PathSet)
  | tPath (path : Str)
  | tNull
  /-- An attribute set, in the order of its `Bindings`. -/
  | tAttrs (attrs : List (Attr α))
  | tList (elems : List α)
  | tLambda (lambda : ExprLambda)
  | tPrimOp
  | tPrimOpApp
deriving DecidableEq

/-- Model of `int2String`. -/
def int2String (n : ℤ) : Str := (if n < 0 then str "-" else []) ++ decimal n.natAbs

section

variable {α : Type}

/-- Model of `showType`. -/
def showType : Value α → Str
  | .tInt _ => str "an integer"
  | .tBool _ => str "a boolean"
  | .tString _ _ => str "a string"
  | .tPath _ => str "a path"
  | .tNull => str "null"
  | .tAttrs _ => str "an attribute set"
  | .tList _ => str "a list"
  | .tLambda _ => str "a function"
  | .tPrimOp => str "a built-in function"
  | .tPrimOpApp => str "a partially applied built-in function"

/-- Model of `Bindings::find`. -/
def findAttr (attrs : List (Attr α)) (name : Str) : Option (Attr α) :=
  attrs.find? fun a => a.name = name

/-- An attribute that was found is in the set. -/
theorem mem_of_findAttr {attrs : List (Attr α)} {name : Str} {a : Attr α}
    (h : findAttr attrs name = some a) : a ∈ attrs ∧ a.name = name :=
  ⟨List.mem_of_find?_eq_some h, by simpa using List.find?_some h⟩

/-- Model of `mkString`: the text and the elements of the context become C strings. -/
def mkString (s : Str) (context : PathSet) : Value α :=
  .tString s.cut (.ofList (context.toList.map Str.cut))

end

/-- What an evaluation depends on. -/
structure EvalEnv (α : Type) where
  /-- What `forceValue` leaves in a cell. -/
  forceValue : α → Outcome Str (Value α)
  /-- `hashPath` for SHA-256, that is, the hash of the dump of a file. -/
  hashPath : Path → Outcome Str Hash

namespace EvalEnv

variable {α : Type} (env : EvalEnv α)

/-- Model of `forceInt`. -/
def forceInt (v : α) : Outcome Str ℤ := do
  match ← env.forceValue v with
  | .tInt n => return n
  | w => .error (str "value is " ++ showType w ++ str " while an integer was expected")

/-- Model of `forceBool`. -/
def forceBool (v : α) : Outcome Str Bool := do
  match ← env.forceValue v with
  | .tBool b => return b
  | w => .error (str "value is " ++ showType w ++ str " while a Boolean was expected")

/-- Model of `forceAttrs`. -/
def forceAttrs (v : α) : Outcome Str (List (Attr α)) := do
  match ← env.forceValue v with
  | .tAttrs attrs => return attrs
  | w => .error (str "value is " ++ showType w ++ str " while an attribute set was expected")

/-- Model of `forceList`. -/
def forceList (v : α) : Outcome Str (List α) := do
  match ← env.forceValue v with
  | .tList elems => return elems
  | w => .error (str "value is " ++ showType w ++ str " while a list was expected")

/-- Model of `forceString`, with the context that `copyContext` finds. -/
def forceString (v : α) : Outcome Str (Str × PathSet) := do
  match ← env.forceValue v with
  | .tString s context => return (s, context)
  | w => .error (str "value is " ++ showType w ++ str " while a string was expected")

/-- Model of `forceStringNoCtx`. -/
def forceStringNoCtx (v : α) : Outcome Str Str := do
  let (s, context) ← env.forceString v
  match context.toList with
  | [] => return s
  | c :: _ => .error (str "the string `" ++ s ++
      str "' is not allowed to refer to a store path (such as `" ++ c ++ str "')")

/-- Model of `EvalState::isDerivation` on a set that has been forced. -/
def isDerivation (attrs : List (Attr α)) : Outcome Str Bool :=
  match findAttr attrs (str "type") with
  | none => return false
  | some a => do
    match ← env.forceValue a.value with
    | .tString _ _ => do
      let type ← env.forceStringNoCtx a.value
      return decide (type = str "derivation")
    | _ => return false

variable {env}

/-- Forcing to a list. -/
theorem forceList_eq_ok {v : α} {elems : List α} :
    env.forceList v = .ok elems ↔ env.forceValue v = .ok (.tList elems) := by
  unfold forceList
  rcases env.forceValue v with (_ | _ | _ | _ | _ | _ | _ | _ | _ | _) | _ | _ <;> simp

/-- Forcing to a set. -/
theorem forceAttrs_eq_ok {v : α} {attrs : List (Attr α)} :
    env.forceAttrs v = .ok attrs ↔ env.forceValue v = .ok (.tAttrs attrs) := by
  unfold forceAttrs
  rcases env.forceValue v with (_ | _ | _ | _ | _ | _ | _ | _ | _ | _) | _ | _ <;> simp

end EvalEnv

end Nix
