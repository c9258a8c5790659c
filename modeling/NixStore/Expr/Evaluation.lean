import NixStore.Expr.Machine

/-!
# Evaluation

Model of the evaluator in `eval.cc` and `eval-inline.hh`: forcing, the `eval` of every class of expressions,
calls of functions, coercion to strings and equality, and of `createBaseEnv`.  A value is written to the
address that the caller gives, also while its parts are still missing, and what has been written stays
when an exception is thrown; `forceValue` then restores the type of a thunk, but not its contents.
-/

namespace Nix.Lang

/-! ### The outermost environment -/

/-- The number of arguments that a primop takes. -/
def PrimOp.arity : PrimOp → ℕ
  | .addErrorContext | .trace | .toFile | .filterSource | .getAttr | .hasAttr | .removeAttrs
  | .intersectAttrs | .elemAt | .map | .filter | .elem | .add | .sub | .mul | .div | .lessThan
  | .compareVersions => 2
  | .substring => 3
  | _ => 1

/-- The name of a primop in error messages. -/
def PrimOp.name : PrimOp → Str
  | .import => str "import"
  | .isNull => str "isNull"
  | .isFunction => str "isFunction"
  | .isString => str "isString"
  | .isInt => str "isInt"
  | .isBool => str "isBool"
  | .genericClosure => str "genericClosure"
  | .abort => str "abort"
  | .throw => str "throw"
  | .addErrorContext => str "addErrorContext"
  | .tryEval => str "tryEval"
  | .getEnv => str "getEnv"
  | .trace => str "trace"
  | .toPath => str "toPath"
  | .storePath => str "storePath"
  | .pathExists => str "pathExists"
  | .baseNameOf => str "baseNameOf"
  | .dirOf => str "dirOf"
  | .readFile => str "readFile"
  | .toXML => str "toXML"
  | .toFile => str "toFile"
  | .filterSource => str "filterSource"
  | .attrNames => str "attrNames"
  | .getAttr => str "getAttr"
  | .hasAttr => str "hasAttr"
  | .isAttrs => str "isAttrs"
  | .removeAttrs => str "removeAttrs"
  | .listToAttrs => str "listToAttrs"
  | .intersectAttrs => str "intersectAttrs"
  | .functionArgs => str "functionArgs"
  | .isList => str "isList"
  | .elemAt => str "elemAt"
  | .head => str "head"
  | .tail => str "tail"
  | .map => str "map"
  | .filter => str "filter"
  | .elem => str "elem"
  | .concatLists => str "concatLists"
  | .length => str "length"
  | .add => str "add"
  | .sub => str "sub"
  | .mul => str "mul"
  | .div => str "div"
  | .lessThan => str "lessThan"
  | .toString => str "toString"
  | .substring => str "substring"
  | .stringLength => str "stringLength"
  | .unsafeDiscardStringContext => str "unsafeDiscardStringContext"
  | .unsafeDiscardOutputDependency => str "unsafeDiscardOutputDependency"
  | .parseDrvName => str "parseDrvName"
  | .compareVersions => str "compareVersions"
  | .derivationStrict => str "derivationStrict"

/-- The calls of `addPrimOp` in `createBaseEnv`. -/
def primOps : List (Str × PrimOp) :=
  [(str "import", .import), (str "isNull", .isNull), (str "__isFunction", .isFunction),
    (str "__isString", .isString), (str "__isInt", .isInt), (str "__isBool", .isBool),
    (str "__genericClosure", .genericClosure), (str "abort", .abort), (str "throw", .throw),
    (str "__addErrorContext", .addErrorContext), (str "__tryEval", .tryEval), (str "__getEnv", .getEnv),
    (str "__trace", .trace), (str "__toPath", .toPath), (str "__storePath", .storePath),
    (str "__pathExists", .pathExists), (str "baseNameOf", .baseNameOf), (str "dirOf", .dirOf),
    (str "__readFile", .readFile), (str "__toXML", .toXML), (str "__toFile", .toFile),
    (str "__filterSource", .filterSource), (str "__attrNames", .attrNames),
    (str "__getAttr", .getAttr), (str "__hasAttr", .hasAttr), (str "__isAttrs", .isAttrs),
    (str "removeAttrs", .removeAttrs), (str "__listToAttrs", .listToAttrs),
    (str "__intersectAttrs", .intersectAttrs), (str "__functionArgs", .functionArgs),
    (str "__isList", .isList), (str "__elemAt", .elemAt), (str "__head", .head),
    (str "__tail", .tail), (str "map", .map), (str "__filter", .filter), (str "__elem", .elem),
    (str "__concatLists", .concatLists), (str "__length", .length), (str "__add", .add),
    (str "__sub", .sub), (str "__mul", .mul), (str "__div", .div), (str "__lessThan", .lessThan),
    (str "toString", .toString), (str "__substring", .substring),
    (str "__stringLength", .stringLength),
    (str "__unsafeDiscardStringContext", .unsafeDiscardStringContext),
    (str "__unsafeDiscardOutputDependency", .unsafeDiscardOutputDependency),
    (str "__parseDrvName", .parseDrvName), (str "__compareVersions", .compareVersions),
    (str "derivationStrict", .derivationStrict)]

/-- The calls of `addConstant` in `createBaseEnv` before those of `addPrimOp`; the attributes of `builtins`
are at the address 0. -/
def Settings.constants (settings : Settings) : List (Str × Value) :=
  [(str "builtins", .tAttrs 0), (str "true", .tBool true), (str "false", .tBool false),
    (str "null", .tNull), (str "__currentTime", .tInt settings.time),
    (str "__currentSystem", .tString settings.thisSystem.cut ∅),
    (str "__nixVersion", .tString settings.nixVersion.cut ∅), (str "__langVersion", .tInt 1)]

/-- What `createBaseEnv` adds before `derivation`, in the order of the displacements. -/
def Settings.primValues (settings : Settings) : List (Str × Value) :=
  settings.constants ++ primOps.map fun p => (p.1, .tPrimOp p.2)

/-- What `createBaseEnv` adds; the thunk `derivation` is written last. -/
def Settings.baseValues (settings : Settings) : List (Str × Value) :=
  settings.primValues ++ [(str "derivation", .unset)]

/-- The member `staticBaseEnv`, when all is there. -/
def Settings.staticBaseEnv (settings : Settings) : StaticEnv :=
  [scopeOf (settings.baseValues.map Prod.fst)]

/-- The member `staticBaseEnv`, when only `derivation` is missing. -/
def Settings.staticPrimEnv (settings : Settings) : StaticEnv :=
  [scopeOf (settings.primValues.map Prod.fst)]

/-- The member `baseEnv`. -/
def baseEnv : Env := [0]

/-- The member `baseEnv` as it is while `derivation` is missing; the values are those of `baseEnv`, which
nothing writes to later. -/
def primEnv : Env := [1]

/-- The name of a constant in `builtins`. -/
def builtinName (name : Str) : Str := if str "__" <+: name then name.drop 2 else name

/-- An environment for values that are at the first addresses. -/
def valuesFrame (values : List (Str × Value)) : Frame :=
  .slots (values.map Prod.fst) ((List.range values.length).map fun n => some (.heap n))

/-- What `createBaseEnv` makes before it reads `derivation.nix`. -/
def baseHeap (settings : Settings) : Heap where
  values n := ((settings.baseValues.map Prod.snd)[n]?).getD .unset
  nextValue := settings.baseValues.length
  frames n := valuesFrame (if n = 0 then settings.baseValues else settings.primValues)
  nextFrame := 2
  bindings _ := (settings.baseValues.zipIdx.map fun (x : (Str × Value) × ℕ) =>
    (⟨builtinName x.1.1, .heap x.2, ⟨[], 0, 0⟩⟩ : Attr Cell)).mergeSort fun i j =>
      settings.symbols.key i ≤ settings.symbols.key j
  nextBindings := 1
  srcToStore := ∅
  fileEvalCache := ∅
  parseTrees := ∅
  asked := []

/-! ### Reading and writing -/

/-- A call whose failure is thrown. -/
def ofExcept {α : Type} : Except Str α → Eval α
  | .ok a => .ret a
  | .error msg => .fail (evalError msg)

/-- A call of a function that does not evaluate anything. -/
def ofOutcome {α : Type} : Outcome Str α → Eval α
  | .ok a => .ret a
  | .error msg => .fail (evalError msg)
  | .diverge => do
    invoke .diverge
    .fail (evalError [])

/-- Undefined behaviour. -/
def undefined {α : Type} (fault : Fault) : Eval α := .fail (.fault fault)

/-- The answer of the outside, whose failures are thrown. -/
def ask (q : Query) : Eval q.Reply := do
  let r ← perform (.ask q)
  ofExcept r

/-- A new value, which may also be a local variable. -/
def allocValue : Eval Cell := perform .allocValue

/-- The value at an address. -/
def read (c : Cell) : Eval Value := perform (.read c)

/-- Writes a value. -/
def write (c : Cell) (v : Value) : Eval Unit := perform (.write c v)

/-- `dst = *src` -/
def copyValue (src dst : Cell) : Eval Unit := do
  let w ← read src
  write dst w

/-- Model of `mkAttrs`, with the attributes that are there at once. -/
def mkAttrs (v : Cell) (attrs : List (Attr Cell)) : Eval ℕ := do
  let b ← perform (.allocBindings attrs)
  write v (.tAttrs b)
  return b

/-- The attributes in a `Bindings`. -/
def attrsOf (b : ℕ) : Eval (List (Attr Cell)) := perform (.bindings b)

/-- `push_back` -/
def pushAttr (b : ℕ) (a : Attr Cell) : Eval Unit := do
  let attrs ← attrsOf b
  perform (.setBindings b (attrs ++ [a]))

/-- Model of `Bindings::sort`. -/
def sortAttrs (symbols : SymbolTable) (b : ℕ) : Eval Unit := do
  let attrs ← attrsOf b
  perform (.setBindings b (attrs.mergeSort fun i j => symbols.key i ≤ symbols.key j))

/-- The position `noPos`. -/
def noPos : Pos := ⟨[], 0, 0⟩

/-- Model of `allocAttr`, with the value that the attribute gets. -/
def allocAttr (b : ℕ) (name : Str) (v : Value) : Eval Unit := do
  let c ← allocValue
  pushAttr b ⟨name, c, noPos⟩
  write c v

/-- Fills a slot of an environment. -/
def setSlot (f displ : ℕ) (c : Cell) : Eval Unit := perform (.setSlot f displ c)

/-- Model of `allocEnv`: all slots are cleared. -/
def allocEnv (names : List Str) : Eval ℕ :=
  perform (.allocEnv (.slots names (names.map fun _ => none)))

/-- Model of `mkString`: the text and the elements of the context become C strings. -/
def mkString (s : Str) (context : PathSet) : Value :=
  .tString s.cut (.ofList (context.toList.map Str.cut))

/-- `c1 && c2` -/
def andAlso (c1 c2 : Eval Bool) : Eval Bool := do
  if ← c1 then c2 else return false

/-- `c1 || c2` -/
def orElse (c1 c2 : Eval Bool) : Eval Bool := do
  if ← c1 then return true else c2

/-! ### Types -/

/-- Model of `showType`. -/
def Value.showType : Value → Str
  | .tInt _ => str "an integer"
  | .tBool _ => str "a boolean"
  | .tString _ _ => str "a string"
  | .tPath _ => str "a path"
  | .tNull => str "null"
  | .tAttrs _ => str "an attribute set"
  | .tList _ => str "a list"
  | .tThunk _ _ => str "a thunk"
  | .tApp _ _ => str "a function application"
  | .tLambda _ _ => str "a function"
  | .tBlackhole => str "a black hole"
  | .tPrimOp _ => str "a built-in function"
  | .tPrimOpApp _ _ => str "a partially applied built-in function"
  | .unset => []
  | .brokenThunk => str "a thunk"

/-- The integer that a value is. -/
def Value.int? : Value → Option ℤ
  | .tInt n => some n
  | _ => none

/-- The Boolean that a value is. -/
def Value.bool? : Value → Option Bool
  | .tBool b => some b
  | _ => none

/-- The set that a value is. -/
def Value.attrs? : Value → Option ℕ
  | .tAttrs b => some b
  | _ => none

/-- The list that a value is. -/
def Value.list? : Value → Option (List Cell)
  | .tList elems => some elems
  | _ => none

/-- The string that a value is. -/
def Value.string? : Value → Option (Str × PathSet)
  | .tString s context => some (s, context)
  | _ => none

/-- Whether a value is a function. -/
def Value.function? : Value → Option Unit
  | .tLambda _ _ => some ()
  | .tPrimOp _ => some ()
  | .tPrimOpApp _ _ => some ()
  | _ => none

/-- The value seen as a type, or the error of a function that expects that type. -/
def ofType {α : Type} (expected : Str) (type? : Value → Option α) (w : Value) : Eval α :=
  match type? w with
  | some a => return a
  | none => .fail (evalError (str "value is " ++ w.showType ++ str " while " ++ expected ++
      str " was expected"))

/-! ### Forcing -/

/-- `forceValue(*v)`, and what `*v` is then. -/
def force (v : Cell) : Eval Value := do
  invoke (.forceValue v)
  read v

/-- Model of `forceInt`. -/
def forceInt (v : Cell) : Eval ℤ := do
  let w ← force v
  ofType (str "an integer") Value.int? w

/-- Model of `forceBool`. -/
def forceBool (v : Cell) : Eval Bool := do
  let w ← force v
  ofType (str "a Boolean") Value.bool? w

/-- Model of `forceAttrs`. -/
def forceAttrs (v : Cell) : Eval ℕ := do
  let w ← force v
  ofType (str "an attribute set") Value.attrs? w

/-- Model of `forceList`. -/
def forceList (v : Cell) : Eval (List Cell) := do
  let w ← force v
  ofType (str "a list") Value.list? w

/-- Model of `forceFunction`. -/
def forceFunction (v : Cell) : Eval Unit := do
  let w ← force v
  ofType (str "a function") Value.function? w

/-- Model of `forceString`, with the context that `copyContext` finds. -/
def forceString (v : Cell) : Eval (Str × PathSet) := do
  let w ← force v
  ofType (str "a string") Value.string? w

/-- Model of `forceStringNoCtx`. -/
def forceStringNoCtx (v : Cell) : Eval Str := do
  let (s, context) ← forceString v
  match context.toList with
  | [] => return s
  | c :: _ => .fail (evalError (str "the string `" ++ s ++
      str "' is not allowed to refer to a store path (such as `" ++ c ++ str "')"))

/-- Model of `forceValue`. -/
def forceValue (v : Cell) : Eval Unit := do
  match ← read v with
  | .tThunk env expr => do
    write v .tBlackhole
    Code.call (I := evaluator) (.eval expr env v) fun
      | .ok _ => .ret ()
      | .error e => do
        -- the type comes back, and the rest of the thunk if it has not been overwritten
        match ← read v with
        | .tBlackhole => write v (.tThunk env expr)
        | _ => write v .brokenThunk
        .fail e
  | .tApp left right => invoke (.callFunction left right v)
  | .tBlackhole => .fail (evalError (str "infinite recursion encountered"))
  | .brokenThunk => undefined .wrongType
  | _ => return ()

/-- The types in `*v` after evaluation to there, which is what `evalBool` and `evalAttrs` look at. -/
def evalAs {α : Type} (expected : Str) (type? : Value → Option α) (env : Env) (e : Expr) (v : Cell) :
    Eval α := do
  invoke (.eval e env v)
  let w ← read v
  ofType expected type? w

/-- Model of `evalBool`. -/
def evalBool (env : Env) (e : Expr) : Eval Bool := do
  let v ← allocValue
  evalAs (str "a Boolean") Value.bool? env e v

/-- Model of `evalAttrs`. -/
def evalAttrs (env : Env) (e : Expr) (v : Cell) : Eval ℕ :=
  evalAs (str "an attribute set") Value.attrs? env e v

/-- `Value v1; e->eval(state, env, v1);` -/
def evalLocal (env : Env) (e : Expr) : Eval Cell := do
  let v ← allocValue
  invoke (.eval e env v)
  return v

/-! ### Variables and thunks -/

/-- Model of `lookupVar`, where the value is used. -/
def lookupVar (env : Env) (var : VarRef) : Eval Cell := do
  match ← perform (.lookupVar env var) with
  | .ok (some v) => return v
  | .ok none => undefined .nullValue
  | .error e => .fail e

/-- Model of `mkThunk` on a new value. -/
def mkThunk (env : Env) (e : Expr) : Eval Cell := do
  let v ← allocValue
  write v (.tThunk env e)
  return v

/-- Model of `maybeThunk`. -/
def maybeThunk (env : Env) (e : Expr) : Eval Cell :=
  match e with
  | .literal v => return .literal v
  | .var info => do
    match ← perform (.lookupVar env info) with
    | .ok (some v) => return v
    -- the value might not be initialised in the environment yet
    | .ok none => mkThunk env e
    | .error e => .fail e
  | e => mkThunk env e

/-! ### Expressions -/

/-- One round of `ExprAttrs::eval` for a set that is not recursive. -/
def evalAttr (env : Env) (b : ℕ) : AttrDef → Eval Unit
  | .inherited name var pos _ => do
    let v ← lookupVar env var
    pushAttr b ⟨name, v, pos⟩
  | .plain name e pos _ => do
    let v ← maybeThunk env e
    pushAttr b ⟨name, v, pos⟩

/-- The loop of `ExprAttrs::eval` for a recursive set. -/
def evalRecAttrs (env : Env) (f b : ℕ) (hasOverrides : Bool) : ℕ → List AttrDef → Eval Unit
  | _, [] => return ()
  | displ, .inherited name var pos _ :: attrs => do
    let v ← lookupVar env var
    setSlot f displ v
    pushAttr b ⟨name, v, pos⟩
    evalRecAttrs env f b hasOverrides (displ + 1) attrs
  | displ, .plain name e pos _ :: attrs => do
    let v ← (if hasOverrides then mkThunk (f :: env) e else maybeThunk (f :: env) e)
    setSlot f displ v
    pushAttr b ⟨name, v, pos⟩
    evalRecAttrs env f b hasOverrides (displ + 1) attrs

/-- The symbol `sOverrides`. -/
def sOverrides : Str := str "__overrides"

/-- One round of the loop over the overrides. -/
def override (f b : ℕ) (attrs : List AttrDef) (i : Attr Cell) : Eval Unit := do
  match ← perform (.displ attrs i.name) with
  | some displ => do
    let old ← attrsOf b
    perform (.setBindings b (old.set displ i))
    setSlot f displ i.value
  | none => pushAttr b i

/-- The overrides of a recursive set. -/
def evalOverrides (symbols : SymbolTable) (f b : ℕ) (attrs : List AttrDef) : Eval Unit := do
  match ← perform (.displ attrs sOverrides) with
  | none => return ()
  | some displ => do
    match (← attrsOf b)[displ]? with
    | none => undefined .noAttr
    | some a => do
      let overrides ← forceAttrs a.value
      .each (override f b attrs) (← attrsOf overrides)
      sortAttrs symbols b

/-- The loop of `ExprLet::eval`. -/
def evalLetAttrs (env : Env) (f : ℕ) : ℕ → List AttrDef → Eval Unit
  | _, [] => return ()
  | displ, .inherited _ var _ _ :: attrs => do
    let v ← lookupVar env var
    setSlot f displ v
    evalLetAttrs env f (displ + 1) attrs
  | displ, .plain _ e _ _ :: attrs => do
    let v ← maybeThunk (f :: env) e
    setSlot f displ v
    evalLetAttrs env f (displ + 1) attrs

/-- Model of `showAttrPath`. -/
def showAttrPath (attrPath : List Str) : Str :=
  attrPath.foldl (fun s i => (if s = [] then s else s ++ str ".") ++ i) []

/-- The handler of `ExprSelect::eval`, with the position of the last attribute. -/
def atAttr {α : Type} (attrPath : List Str) (pos : Option Pos) (c : Eval α) : Eval α :=
  match pos with
  | none => c
  | some pos => c.mapError (addErrorPrefix (str "while evaluating the attribute `" ++
      showAttrPath attrPath ++ str "' at " ++ pos.print ++ str ":\n"))

/-- The attribute of a value, if it is a set that has it. -/
def attrOf? (symbols : SymbolTable) (v : Cell) (name : Str) : Eval (Option (Attr Cell)) := do
  match ← force v with
  | .tAttrs b => return find symbols (← attrsOf b) name
  | _ => return none

/-- The attribute of a value that must be a set and have it. -/
def attrOf (symbols : SymbolTable) (v : Cell) (name : Str) (missing : Failure) : Eval (Attr Cell) := do
  let b ← forceAttrs v
  match find symbols (← attrsOf b) name with
  | some j => return j
  | none => .fail missing

/-- The loop of `ExprSelect::eval` with a default, which is evaluated where an attribute is missing. -/
def selectOr (symbols : SymbolTable) (env : Env) (attrPath : List Str) (dflt : Expr) (v : Cell) :
    Option Pos → Cell → List Str → Eval Unit
  | pos, vAttrs, [] => do
    atAttr attrPath pos (invoke (.forceValue vAttrs))
    copyValue vAttrs v
  | pos, vAttrs, i :: rest => do
    match ← atAttr attrPath pos (attrOf? symbols vAttrs i) with
    | none => atAttr attrPath pos (invoke (.eval dflt env v))
    | some j => selectOr symbols env attrPath dflt v (some j.pos) j.value rest

/-- The loop of `ExprSelect::eval` without a default. -/
def select (symbols : SymbolTable) (attrPath : List Str) (v : Cell) :
    Option Pos → Cell → List Str → Eval Unit
  | pos, vAttrs, [] => do
    atAttr attrPath pos (invoke (.forceValue vAttrs))
    copyValue vAttrs v
  | pos, vAttrs, i :: rest => do
    let j ← atAttr attrPath pos (attrOf symbols vAttrs i
      (evalError (str "attribute `" ++ showAttrPath attrPath ++ str "' missing")))
    select symbols attrPath v (some j.pos) j.value rest

/-- The loop of `ExprOpHasAttr::eval`. -/
def hasAttrPath (symbols : SymbolTable) : Cell → List Str → Eval Bool
  | _, [] => return true
  | vAttrs, i :: rest => do
    match ← attrOf? symbols vAttrs i with
    | none => return false
    | some j => hasAttrPath symbols j.value rest

/-- Model of `ExprOpUpdate::eval`. -/
def evalUpdate (symbols : SymbolTable) (env : Env) (e1 e2 : Expr) (v : Cell) : Eval Unit := do
  let v1 ← allocValue
  let v2 ← allocValue
  let b1 ← evalAttrs env e1 v1
  let b2 ← evalAttrs env e2 v2
  let attrs1 ← attrsOf b1
  let attrs2 ← attrsOf b2
  if attrs1 = [] then copyValue v2 v
  else if attrs2 = [] then copyValue v1 v
  else discard (mkAttrs v (mergeRight symbols.key attrs1 attrs2))

/-- The last of several lists that is not empty. -/
def lastNonEmpty (lists : List (Cell × List Cell)) : Option (Cell × List Cell) :=
  (lists.filter (·.2 ≠ [])).getLast?

/-- A list that has been forced. -/
def forcedList (v : Cell) : Eval (List Cell) := do
  match ← read v with
  | .tList elems => return elems
  | _ => undefined .wrongType

/-- Model of `concatLists`: the elements are taken from the lists again when all have been forced. -/
def concatLists (v : Cell) (lists : List Cell) : Eval Unit := do
  let ls ← .collect forceList lists
  match lastNonEmpty (lists.zip ls) with
  | none => write v (.tList [])
  | some (nonEmpty, elems) =>
    if (ls.map List.length).sum = elems.length then copyValue nonEmpty v
    else do
      let ls ← .collect forcedList lists
      write v (.tList ls.flatten)

/-- The loop of `ExprConcatStrings::eval`: `isPath` is missing until the first part has been
evaluated. -/
def concatParts (env : Env) : Option Bool → Str → PathSet → List Expr → Eval (Bool × Str × PathSet)
  | isPath, s, context, [] => return (isPath.getD false, s, context)
  | isPath, s, context, e :: es => do
    let vStr ← evalLocal env e
    let isPath := isPath.getD (match ← read vStr with
      | .tPath _ => true
      | _ => false)
    let (part, context) ← invoke (.coerceToString vStr context false !isPath)
    concatParts env (some isPath) (s ++ part) context es

/-- Model of `ExprConcatStrings::eval`. -/
def evalConcatStrings (env : Env) (es : List Expr) (v : Cell) : Eval Unit := do
  let (isPath, s, context) ← concatParts env none [] ∅ es
  if isPath then
    if context = ∅ then write v (.tPath s.cut)
    else .fail (evalError (str "a string that refers to a store path cannot be appended to a path, in `" ++
      s ++ str "'"))
  else write v (mkString s context)

/-- The `eval` of the classes of `MakeBinOp`. -/
def evalBinOp (symbols : SymbolTable) (env : Env) (v : Cell) : BinOp → Expr → Expr → Eval Unit
  | .app, e1, e2 => do
    let vFun ← evalLocal env e1
    let arg ← maybeThunk env e2
    invoke (.callFunction vFun arg v)
  | .opEq, e1, e2 => do
    let v1 ← evalLocal env e1
    let v2 ← evalLocal env e2
    write v (.tBool (← invoke (.eqValues v1 v2)))
  | .opNEq, e1, e2 => do
    let v1 ← evalLocal env e1
    let v2 ← evalLocal env e2
    write v (.tBool !(← invoke (.eqValues v1 v2)))
  | .opAnd, e1, e2 => do
    let b ← andAlso (evalBool env e1) (evalBool env e2)
    write v (.tBool b)
  | .opOr, e1, e2 => do
    let b ← orElse (evalBool env e1) (evalBool env e2)
    write v (.tBool b)
  | .opImpl, e1, e2 => do
    let b ← orElse (not <$> evalBool env e1) (evalBool env e2)
    write v (.tBool b)
  | .opUpdate, e1, e2 => evalUpdate symbols env e1 e2 v
  | .opConcatLists, e1, e2 => do
    let v1 ← evalLocal env e1
    let v2 ← evalLocal env e2
    concatLists v [v1, v2]

/-- Model of `Expr::eval`. -/
def eval (symbols : SymbolTable) (env : Env) (v : Cell) : Expr → Eval Unit
  | .literal lit => copyValue (.literal lit) v
  | .var info => do
    let v2 ← lookupVar env info
    invoke (.forceValue v2)
    copyValue v2 v
  | .select e attrPath dflt => do
    let vTmp ← evalLocal env e
    match dflt with
    | some dflt => selectOr symbols env attrPath dflt v none vTmp attrPath
    | none => select symbols attrPath v none vTmp attrPath
  | .opHasAttr e attrPath => do
    let vTmp ← evalLocal env e
    write v (.tBool (← hasAttrPath symbols vTmp attrPath))
  | .attrs true attrs => do
    let b ← mkAttrs v []
    let f ← allocEnv (attrs.map AttrDef.name)
    evalRecAttrs env f b (attrs.any (·.name = sOverrides)) 0 attrs
    evalOverrides symbols f b attrs
  | .attrs false attrs => do
    let b ← mkAttrs v []
    .each (evalAttr env b) attrs
  | .list elems => do
    let vs ← .collect (maybeThunk env) elems
    write v (.tList vs)
  | .lambda pos arg matchAttrs formals ellipsis body =>
    write v (.tLambda env ⟨pos, arg, matchAttrs, formals, ellipsis, body⟩)
  | .letIn attrs body => do
    let f ← allocEnv (attrs.map AttrDef.name)
    evalLetAttrs env f 0 attrs
    invoke (.eval body (f :: env) v)
  | .withIn _ attrs body prevWith => do
    let vAttrs ← allocValue
    let f ← perform (.allocEnv (.withValue prevWith vAttrs))
    let _ ← evalAttrs env attrs vAttrs
    invoke (.eval body (f :: env) v)
  | .cond cond thenBranch elseBranch => do
    if ← evalBool env cond then invoke (.eval thenBranch env v)
    else invoke (.eval elseBranch env v)
  | .assert pos cond body => do
    if ← evalBool env cond then invoke (.eval body env v)
    else .fail (.thrown .assertionError (str "assertion failed at " ++ pos.print))
  | .opNot e => do write v (.tBool !(← evalBool env e))
  | .binOp op e1 e2 => evalBinOp symbols env v op e1 e2
  | .concatStrings es => evalConcatStrings env es v

/-! ### Calls -/

/-- Model of the body of `primOpOf`: the primop and the arguments that it has got. -/
def primOpOf (fn : Cell) : Eval (PrimOp × List Cell) := do
  match ← read fn with
  | .tPrimOp op => return (op, [])
  | .tPrimOpApp left right => do
    let (op, args) ← invoke (.primOpOf left)
    return (op, args ++ [right])
  | _ => undefined .wrongType

/-- The branch of `callFunction` for primops. -/
def callPrimOpApp (fn arg v : Cell) : Eval Unit := do
  let (op, args) ← invoke (.primOpOf fn)
  if args.length + 1 = op.arity then
    (invoke (.callPrimOp op (args ++ [arg]) v)).mapError (addErrorPrefix
      (str "while evaluating the builtin function `" ++ op.name ++ str "':\n"))
  else do
    let left ← allocValue
    copyValue fn left
    write v (.tPrimOpApp left arg)

/-- The loop of `callFunction` over the formal arguments, which counts the attributes that are used. -/
def matchFormals (symbols : SymbolTable) (pos : Pos) (attrs : List (Attr Cell)) (env2 : Env) (f : ℕ) :
    ℕ → ℕ → List Formal → Eval ℕ
  | _, attrsUsed, [] => return attrsUsed
  | displ, attrsUsed, i :: formals => do
    match find symbols attrs i.name with
    | some j => do
      setSlot f displ j.value
      matchFormals symbols pos attrs env2 f (displ + 1) (attrsUsed + 1) formals
    | none =>
      match i.dflt with
      | none => .fail (evalError (str "function at " ++ pos.print ++
          str " called without required argument `" ++ i.name ++ str "'"))
      | some e => do
        let v ← maybeThunk env2 e
        setSlot f displ v
        matchFormals symbols pos attrs env2 f (displ + 1) attrsUsed formals

/-- The argument in the first slot, if it has a name; returns the next displacement. -/
def bindArg (fn : Lambda) (arg : Cell) (f : ℕ) : Eval ℕ := do
  if fn.arg = [] then return 0
  else do
    setSlot f 0 arg
    return 1

/-- The arguments of a function in its new environment. -/
def bindArgs (symbols : SymbolTable) (fn : Lambda) (arg : Cell) (env2 : Env) (f : ℕ) : Eval Unit := do
  if fn.matchAttrs then do
    let attrs ← attrsOf (← forceAttrs arg)
    let displ ← bindArg fn arg f
    let attrsUsed ← matchFormals symbols fn.pos attrs env2 f displ 0 fn.formals
    if fn.ellipsis = false ∧ attrsUsed ≠ attrs.length then
      .fail (evalError (str "function at " ++ fn.pos.print ++ str " called with unexpected argument"))
    else return ()
  else setSlot f 0 arg

/-- Model of `callFunction`. -/
def callFunction (symbols : SymbolTable) (fn arg v : Cell) : Eval Unit := do
  match ← read fn with
  | .tPrimOp _ => callPrimOpApp fn arg v
  | .tPrimOpApp _ _ => callPrimOpApp fn arg v
  | .tLambda env lambda => do
    let f ← allocEnv (lambdaNames lambda.arg lambda.matchAttrs lambda.formals)
    bindArgs symbols lambda arg (f :: env) f
    (invoke (.eval lambda.body (f :: env) v)).mapError (addErrorPrefix
      (str "while evaluating the function at " ++ lambda.pos.print ++ str ":\n"))
  | w => .fail (evalError (str "attempt to call something which is not a function but " ++ w.showType))

/-- The loop of `autoCallFunction` over the formal arguments. -/
def autoArgs (symbols : SymbolTable) (args : List (Attr Cell)) (b : ℕ) (i : Formal) : Eval Unit :=
  match find symbols args i.name with
  | some j => pushAttr b j
  | none =>
    match i.dflt with
    | some _ => return ()
    | none => .fail (evalError (str "cannot auto-call a function that has an argument without a " ++
        str "default value (`" ++ i.name ++ str "')"))

/-- Model of `autoCallFunction`. -/
def autoCallFunction (symbols : SymbolTable) (args : List (Attr Cell)) (fn res : Cell) : Eval Unit := do
  match ← force fn with
  | .tLambda _ lambda =>
    if lambda.matchAttrs then do
      let actualArgs ← allocValue
      let b ← mkAttrs actualArgs []
      .each (autoArgs symbols args b) lambda.formals
      sortAttrs symbols b
      invoke (.callFunction fn actualArgs res)
    else copyValue fn res
  | _ => copyValue fn res

/-! ### Strings -/

/-- Model of `copyContext`. -/
def copyContext (elems context : PathSet) : PathSet := elems.toList.foldl SortedSet.insert context

/-- The branch of `coerceToString` that copies a source to the store. -/
def copySource (path : Path) (context : PathSet) : Eval (Str × PathSet) :=
  if isDerivation path then
    .fail (evalError (str "file names are not allowed to end in `" ++ drvExtension ++ str "'"))
  else do
    match ← perform (.srcToStore path) with
    | some dstPath => return (dstPath, context.insert dstPath)
    | none => do
      let dstPath ← ask (.addToStore path)
      perform (.setSrcToStore path dstPath)
      return (dstPath, context.insert dstPath)

/-- The loop of `coerceToString` over a list: a space follows an element unless it is the last one or an
empty list. -/
def coerceElems (copyToStore : Bool) : List Cell → Str → PathSet → Eval (Str × PathSet)
  | [], result, context => return (result, context)
  | e :: es, result, context => do
    let (s, context) ← invoke (.coerceToString e context true copyToStore)
    let space := match ← read e with
      | .tList [] => false
      | _ => !es.isEmpty
    coerceElems copyToStore es (result ++ s ++ if space then str " " else []) context

/-- Model of `coerceToString`. -/
def coerceToString (symbols : SymbolTable) (v : Cell) (context : PathSet)
    (coerceMore copyToStore : Bool) : Eval (Str × PathSet) := do
  match ← force v with
  | .tString s elems => return (s, copyContext elems context)
  | .tPath path => do
    let path ← ofOutcome (canonPath path)
    if copyToStore then copySource path context else return (path, context)
  | .tAttrs b =>
    match find symbols (← attrsOf b) (str "outPath") with
    | some i => invoke (.coerceToString i.value context coerceMore copyToStore)
    | none => .fail (evalError
        (str "cannot coerce an attribute set (except a derivation) to a string"))
  | w =>
    match coerceMore, w with
    | true, .tBool b => return (if b then str "1" else [], context)
    | true, .tInt n => return (int2String n, context)
    | true, .tNull => return ([], context)
    | true, .tList elems => coerceElems copyToStore elems [] context
    | _, _ => .fail (evalError (str "cannot coerce " ++ w.showType ++ str " to a string"))

/-- Model of `coerceToPath`. -/
def coerceToPath (v : Cell) : Eval (Path × PathSet) := do
  let (path, context) ← invoke (.coerceToString v ∅ false false)
  if path.head? = some slash then return (path, context)
  else .fail (evalError (str "string `" ++ path ++ str "' doesn't represent an absolute path"))

/-! ### Equality -/

/-- Model of `isDerivation` on a set. -/
def isDerivationSet (symbols : SymbolTable) (b : ℕ) : Eval Bool := do
  match find symbols (← attrsOf b) (str "type") with
  | none => return false
  | some i => do
    match ← force i.value with
    | .tString _ _ => return decide ((← forceStringNoCtx i.value) = str "derivation")
    | _ => return false

/-- The loop of `eqValues` over two lists. -/
def eqElems : List Cell → List Cell → Eval Bool
  | v1 :: elems1, v2 :: elems2 => do
    let eq : Bool ← invoke (.eqValues v1 v2)
    if eq then eqElems elems1 elems2 else return false
  | _, _ => return true

/-- The loop of `eqValues` over two sets. -/
def eqAttrs : List (Attr Cell) → List (Attr Cell) → Eval Bool
  | i :: attrs1, j :: attrs2 => do
    if i.name ≠ j.name then return false
    else do
      let eq : Bool ← invoke (.eqValues i.value j.value)
      if eq then eqAttrs attrs1 attrs2 else return false
  | _, _ => return true

/-- Whether both sets denote derivations, whose output paths are then compared if both have one. -/
def eqOutPaths (symbols : SymbolTable) (b1 b2 : ℕ) : Eval (Option Bool) := do
  let both ← andAlso (isDerivationSet symbols b1) (isDerivationSet symbols b2)
  if both then
    match find symbols (← attrsOf b1) (str "outPath"), find symbols (← attrsOf b2) (str "outPath") with
    | some i, some j => return some (← invoke (.eqValues i.value j.value))
    | _, _ => return none
  else return none

/-- The branch of `eqValues` for sets. -/
def eqSets (symbols : SymbolTable) (b1 b2 : ℕ) : Eval Bool := do
  match ← eqOutPaths symbols b1 b2 with
  | some eq => return eq
  | none => do
    let attrs1 ← attrsOf b1
    let attrs2 ← attrsOf b2
    if attrs1.length ≠ attrs2.length then return false else eqAttrs attrs1 attrs2

/-- Model of `eqValues`. -/
def eqValues (symbols : SymbolTable) (v1 v2 : Cell) : Eval Bool := do
  let _ ← force v1
  let w2 ← force v2
  let w1 ← read v1
  if v1 = v2 then return true
  else
    match w1, w2 with
    | .tInt n1, .tInt n2 => return decide (n1 = n2)
    | .tBool b1, .tBool b2 => return decide (b1 = b2)
    | .tString s1 context1, .tString s2 context2 => return eqStrings s1 context1 s2 context2
    | .tPath path1, .tPath path2 => return decide (path1 = path2)
    | .tNull, .tNull => return true
    | .tList elems1, .tList elems2 =>
      if elems1.length ≠ elems2.length then return false else eqElems elems1 elems2
    | .tAttrs b1, .tAttrs b2 => eqSets symbols b1 b2
    | .tThunk _ _, .tThunk _ _ | .tApp _ _, .tApp _ _ | .tBlackhole, .tBlackhole =>
      .fail (evalError (str "cannot compare " ++ w1.showType ++ str " with " ++ w2.showType))
    -- functions are incomparable, and so are values of different types
    | _, _ => return false

/-! ### Whole values and files -/

/-- Model of `strictForceValue`. -/
def strictForceValue (v : Cell) : Eval Unit := do
  match ← force v with
  | .tAttrs b => .each (fun i => invoke (.strictForceValue i.value)) (← attrsOf b)
  | .tList elems => .each (fun e => invoke (.strictForceValue e)) elems
  | _ => return ()

/-- The handler of `parse` around the binding of variables, for the given file. -/
def inFile (path : Path) : Outcome Str Expr → Outcome Str Expr
  | .error msg => .error (msg ++ str ", in `" ++ path ++ str "'")
  | x => x

/-- Model of `parseExprFromFile`: the tree and the environment in which it has been bound.  New trees are
bound in `env`, whose scopes are `σ`. -/
def parseExprFromFile (σ : StaticEnv) (env : Env) (path : Path) : Eval (Expr × Env) := do
  if path.head? ≠ some slash then undefined .assertion
  else do
    let path ← ask (.exprPath path)
    match ← perform (.parseTree path) with
    | some tree => return tree
    | none => do
      let e ← ask (.parse path)
      let e ← ofOutcome (inFile path (e.bindVars σ))
      perform (.setParseTree path (e, env))
      return (e, env)

/-- Model of `evalFile`. -/
def evalFile (settings : Settings) (path : Path) (v : Cell) : Eval Unit := do
  match ← perform (.fileEvalCache path) with
  | some w => write v w
  | none => do
    let (e, env) ← parseExprFromFile settings.staticBaseEnv baseEnv path
    (invoke (.eval e env v)).mapError
      (addErrorPrefix (str "while evaluating the file `" ++ path ++ str "':\n"))
    let w ← read v
    perform (.setFileEvalCache path w)

/-- The end of `createBaseEnv`: the thunk `derivation`. -/
def addDerivation (settings : Settings) : Eval Unit := do
  let path ← ask (.findFile (str "nix/derivation.nix"))
  let (e, env) ← parseExprFromFile settings.staticPrimEnv primEnv path
  write (.heap settings.primValues.length) (.tThunk env e)

/-- Model of `createBaseEnv`, which can fail when it reads `derivation.nix`. -/
def createBaseEnv (settings : Settings) : Option (Except Failure Unit × Heap) :=
  (addDerivation settings).exec (Op.perform settings .byIndex) (fun _ _ => none) (baseHeap settings)

end Nix.Lang
