import NixStore.Expr.Evaluation

/-!
# Built-in functions

Model of the functions of `primops.cc` that ask nothing of the outside, other than by forcing and coercing
their arguments.  Messages of `trace` are not printed.
-/

namespace Nix.Lang

/-! ### Miscellaneous -/

/-- The functions that look at the type of their argument. -/
def typeTest (p : Value → Bool) (a v : Cell) : Eval Unit := do
  let w ← force a
  write v (.tBool (p w))

/-- Model of `prim_isNull`. -/
def primIsNull : Cell → Cell → Eval Unit := typeTest fun
  | .tNull => true
  | _ => false

/-- Model of `prim_isFunction`. -/
def primIsFunction : Cell → Cell → Eval Unit := typeTest fun
  | .tLambda _ _ => true
  | _ => false

/-- Model of `prim_isInt`. -/
def primIsInt : Cell → Cell → Eval Unit := typeTest fun w => w.int?.isSome

/-- Model of `prim_isString`. -/
def primIsString : Cell → Cell → Eval Unit := typeTest fun w => w.string?.isSome

/-- Model of `prim_isBool`. -/
def primIsBool : Cell → Cell → Eval Unit := typeTest fun w => w.bool?.isSome

/-- Model of `prim_isAttrs`. -/
def primIsAttrs : Cell → Cell → Eval Unit := typeTest fun w => w.attrs?.isSome

/-- Model of `prim_isList`. -/
def primIsList : Cell → Cell → Eval Unit := typeTest fun w => w.list?.isSome

/-- `state.coerceToString(*args[0], context)` -/
def coerceArg (a : Cell) : Eval (Str × PathSet) := invoke (.coerceToString a ∅ false true)

/-- Model of `prim_abort`. -/
def primAbort (a : Cell) : Eval Unit := do
  let (s, _) ← coerceArg a
  .fail (evalError (str "evaluation aborted with the following error message: `" ++ s ++ str "'"))

/-- Model of `prim_throw`. -/
def primThrow (a : Cell) : Eval Unit := do
  let (s, _) ← coerceArg a
  .fail (.thrown .assertionError (str "user-thrown exception: " ++ s))

/-- Model of `prim_addErrorContext`. -/
def primAddErrorContext (a0 a1 v : Cell) : Eval Unit :=
  Code.handle (do
    invoke (.forceValue a1)
    copyValue a1 v) fun
    | .ok _ => .ret ()
    | .error (.fault fault) => undefined fault
    | .error e => do
      let (s, _) ← coerceArg a0
      .fail (addErrorPrefix (s ++ str "\n") e)

/-- Model of `prim_tryEval`. -/
def primTryEval (symbols : SymbolTable) (a v : Cell) : Eval Unit := do
  let b ← mkAttrs v []
  Code.handle (invoke (.forceValue a)) fun
    | .ok _ => do
      pushAttr b ⟨str "value", a, noPos⟩
      allocAttr b (str "success") (.tBool true)
    | .error (.thrown .assertionError _) => do
      allocAttr b (str "value") (.tBool false)
      allocAttr b (str "success") (.tBool false)
    | .error e => .fail e
  sortAttrs symbols b

/-- Model of `prim_trace`. -/
def primTrace (a0 a1 v : Cell) : Eval Unit := do
  invoke (.forceValue a0)
  invoke (.forceValue a1)
  copyValue a1 v

/-! ### Paths -/

/-- Model of `prim_toPath`. -/
def primToPath (a v : Cell) : Eval Unit := do
  let (path, context) ← coerceToPath a
  let path ← ofOutcome (canonPath path)
  write v (mkString path context)

/-- Model of `prim_baseNameOf`. -/
def primBaseNameOf (a v : Cell) : Eval Unit := do
  let (s, context) ← coerceArg a
  let name ← ofOutcome (baseNameOf s)
  write v (mkString name context)

/-- Model of `prim_dirOf`. -/
def primDirOf (a v : Cell) : Eval Unit := do
  let (path, context) ← coerceToPath a
  let dir ← ofOutcome (dirOf path)
  match ← read a with
  | .tPath _ => write v (.tPath dir.cut)
  | _ => write v (mkString dir context)

/-! ### Attribute sets -/

/-- New values with the given contents. -/
def allocValues (vs : List Value) : Eval (List Cell) := .collect (fun w => do
  let c ← allocValue
  write c w
  return c) vs

/-- Model of `prim_attrNames`. -/
def primAttrNames (a v : Cell) : Eval Unit := do
  let attrs ← attrsOf (← forceAttrs a)
  let names : SortedSet Str := .ofList (attrs.map Attr.name)
  let elems ← allocValues (names.toList.map fun name => mkString name ∅)
  write v (.tList elems)

/-- Model of `prim_getAttr`. -/
def primGetAttr (symbols : SymbolTable) (a0 a1 v : Cell) : Eval Unit := do
  let attr ← forceStringNoCtx a0
  let i ← attrOf symbols a1 attr (evalError (str "attribute `" ++ attr ++ str "' missing"))
  invoke (.forceValue i.value)
  copyValue i.value v

/-- Model of `prim_hasAttr`. -/
def primHasAttr (symbols : SymbolTable) (a0 a1 v : Cell) : Eval Unit := do
  let attr ← forceStringNoCtx a0
  let attrs ← attrsOf (← forceAttrs a1)
  write v (.tBool (find symbols attrs attr).isSome)

/-- Model of `prim_removeAttrs`. -/
def primRemoveAttrs (a0 a1 v : Cell) : Eval Unit := do
  let b ← forceAttrs a0
  let elems ← forceList a1
  let names ← .collect forceStringNoCtx elems
  let attrs ← attrsOf b
  discard (mkAttrs v (attrs.filter (·.name ∉ names)))

/-- The loop of `prim_listToAttrs`: the first value for a name counts. -/
def listToAttrsLoop (symbols : SymbolTable) (b : ℕ) : List Str → List Cell → Eval Unit
  | _, [] => return ()
  | seen, v2 :: elems => do
    let b2 ← forceAttrs v2
    match find symbols (← attrsOf b2) (str "name") with
    | none => .fail (evalError (str "`name' attribute missing in a call to `listToAttrs'"))
    | some j => do
      let name ← forceStringNoCtx j.value
      match find symbols (← attrsOf b2) (str "value") with
      | none => .fail (evalError (str "`value' attribute missing in a call to `listToAttrs'"))
      | some j2 =>
        if name ∈ seen then listToAttrsLoop symbols b seen elems
        else do
          pushAttr b ⟨name, j2.value, j2.pos⟩
          listToAttrsLoop symbols b (name :: seen) elems

/-- Model of `prim_listToAttrs`. -/
def primListToAttrs (symbols : SymbolTable) (a v : Cell) : Eval Unit := do
  let elems ← forceList a
  let b ← mkAttrs v []
  listToAttrsLoop symbols b [] elems
  sortAttrs symbols b

/-- Model of `prim_intersectAttrs`. -/
def primIntersectAttrs (symbols : SymbolTable) (a0 a1 v : Cell) : Eval Unit := do
  let b0 ← forceAttrs a0
  let b1 ← forceAttrs a1
  let attrs0 ← attrsOf b0
  let attrs1 ← attrsOf b1
  discard (mkAttrs v (attrs0.filterMap fun i => find symbols attrs1 i.name))

/-- Model of `prim_functionArgs`. -/
def primFunctionArgs (symbols : SymbolTable) (a v : Cell) : Eval Unit := do
  match ← force a with
  | .tLambda _ fn => do
    let b ← mkAttrs v []
    if fn.matchAttrs then do
      .each (fun i => allocAttr b i.name (.tBool i.dflt.isSome)) fn.formals
      sortAttrs symbols b
    else return ()
  | _ => .fail (evalError (str "`functionArgs' requires a function"))

/-! ### Lists -/

/-- Model of `elemAt`. -/
def elemAt (list : Cell) (n : ℤ) (v : Cell) : Eval Unit := do
  let elems ← forceList list
  match if n < 0 then none else elems[n.toNat]? with
  | some e => do
    invoke (.forceValue e)
    copyValue e v
  | none => .fail (evalError (str "list index " ++ int2String n ++ str " is out of bounds"))

/-- Model of `prim_elemAt`. -/
def primElemAt (a0 a1 v : Cell) : Eval Unit := do
  let n ← forceInt a1
  elemAt a0 n v

/-- Model of `prim_head`. -/
def primHead (a v : Cell) : Eval Unit := elemAt a 0 v

/-- Model of `prim_tail`. -/
def primTail (a v : Cell) : Eval Unit := do
  match ← forceList a with
  | [] => .fail (evalError (str "`tail' called on an empty list"))
  | _ :: elems => write v (.tList elems)

/-- Model of `prim_map`. -/
def primMap (a0 a1 v : Cell) : Eval Unit := do
  forceFunction a0
  let elems ← forceList a1
  let results ← allocValues (elems.map fun e => .tApp a0 e)
  write v (.tList results)

/-- The loop of `prim_filter`. -/
def filterLoop (pred : Cell) : List Cell → Eval (List Cell)
  | [] => return []
  | e :: elems => do
    let res ← allocValue
    invoke (.callFunction pred e res)
    let keep ← forceBool res
    let vs ← filterLoop pred elems
    return if keep then e :: vs else vs

/-- Model of `prim_filter`. -/
def primFilter (a0 a1 v : Cell) : Eval Unit := do
  forceFunction a0
  let elems ← forceList a1
  let vs ← filterLoop a0 elems
  if vs.length = elems.length then copyValue a1 v else write v (.tList vs)

/-- The loop of `prim_elem`. -/
def elemLoop (a : Cell) : List Cell → Eval Bool
  | [] => return false
  | e :: elems => do
    let eq : Bool ← invoke (.eqValues a e)
    if eq then return true else elemLoop a elems

/-- Model of `prim_elem`. -/
def primElem (a0 a1 v : Cell) : Eval Unit := do
  let elems ← forceList a1
  write v (.tBool (← elemLoop a0 elems))

/-- Model of `prim_concatLists`. -/
def primConcatLists (a v : Cell) : Eval Unit := do
  let lists ← forceList a
  concatLists v lists

/-- The value of an `int`, where overflow wraps. -/
def toInt (n : ℤ) : ℤ := n.bmod (2 ^ 32)

/-- Model of `prim_length`. -/
def primLength (a v : Cell) : Eval Unit := do
  let elems ← forceList a
  write v (.tInt (toInt elems.length))

/-! ### Integers -/

/-- The functions of two integers. -/
def intOp (f : ℤ → ℤ → Value) (a0 a1 v : Cell) : Eval Unit := do
  let n0 ← forceInt a0
  let n1 ← forceInt a1
  write v (f n0 n1)

/-- Model of `prim_add`. -/
def primAdd : Cell → Cell → Cell → Eval Unit := intOp fun n0 n1 => .tInt (toInt (n0 + n1))

/-- Model of `prim_sub`. -/
def primSub : Cell → Cell → Cell → Eval Unit := intOp fun n0 n1 => .tInt (toInt (n0 - n1))

/-- Model of `prim_mul`. -/
def primMul : Cell → Cell → Cell → Eval Unit := intOp fun n0 n1 => .tInt (toInt (n0 * n1))

/-- Model of `prim_lessThan`. -/
def primLessThan : Cell → Cell → Cell → Eval Unit := intOp fun n0 n1 => .tBool (n0 < n1)

/-- Model of `prim_div`, which looks at the second argument first. -/
def primDiv (a0 a1 v : Cell) : Eval Unit := do
  let i2 ← forceInt a1
  if i2 = 0 then .fail (evalError (str "division by zero"))
  else do
    let i1 ← forceInt a0
    if i1 = -2 ^ 31 ∧ i2 = -1 then undefined .overflow else write v (.tInt (i1.tdiv i2))

/-! ### Strings and versions -/

/-- Model of `prim_toString`. -/
def primToString (a v : Cell) : Eval Unit := do
  let (s, context) ← invoke (.coerceToString a ∅ true false)
  write v (mkString s context)

/-- Model of `prim_substring`. -/
def primSubstring (a0 a1 a2 v : Cell) : Eval Unit := do
  let start ← forceInt a0
  let len ← forceInt a1
  let (s, context) ← coerceArg a2
  if start < 0 then .fail (evalError (str "negative start position in `substring'"))
  else
    -- a negative length is a great one when it is converted
    let rest := s.drop start.toNat
    write v (mkString (if s.length ≤ start.toNat then [] else if len < 0 then rest
      else rest.take len.toNat) context)

/-- Model of `prim_stringLength`. -/
def primStringLength (a v : Cell) : Eval Unit := do
  let (s, _) ← coerceArg a
  write v (.tInt (toInt s.length))

/-- Model of `prim_unsafeDiscardStringContext`. -/
def primUnsafeDiscardStringContext (a v : Cell) : Eval Unit := do
  let (s, _) ← coerceArg a
  write v (mkString s ∅)

/-- Model of `prim_unsafeDiscardOutputDependency`. -/
def primUnsafeDiscardOutputDependency (a v : Cell) : Eval Unit := do
  let (s, context) ← coerceArg a
  write v (mkString s (.ofList (context.toList.map discardOutputDependency)))

/-- Model of `prim_parseDrvName`. -/
def primParseDrvName (symbols : SymbolTable) (a v : Cell) : Eval Unit := do
  let parsed := parseDrvName (← forceStringNoCtx a)
  let b ← mkAttrs v []
  allocAttr b (str "name") (mkString parsed.name ∅)
  allocAttr b (str "version") (mkString parsed.version ∅)
  sortAttrs symbols b

/-- Model of `prim_compareVersions`. -/
def primCompareVersions (a0 a1 v : Cell) : Eval Unit := do
  let version1 ← forceStringNoCtx a0
  let version2 ← forceStringNoCtx a1
  write v (.tInt (compareVersions version1 version2))

end Nix.Lang
