import NixStore.Expr.StorePrimOps

/-!
# The evaluator as a whole

`evaluate` runs a procedure of the evaluator with a bound on the depth of its calls, and a `session` is a
run of requests by the commands, which go on also after a request that has failed.
-/

namespace Nix.Lang

section

variable (settings : Settings)

/-- A call of a primop with all of its arguments. -/
def callPrimOp (v : Cell) : PrimOp → List Cell → Eval Unit
  | .import, [a] => primImport settings a v
  | .isNull, [a] => primIsNull a v
  | .isFunction, [a] => primIsFunction a v
  | .isString, [a] => primIsString a v
  | .isInt, [a] => primIsInt a v
  | .isBool, [a] => primIsBool a v
  | .genericClosure, [a] => primGenericClosure settings a v
  | .abort, [a] => primAbort a
  | .throw, [a] => primThrow a
  | .addErrorContext, [a0, a1] => primAddErrorContext a0 a1 v
  | .tryEval, [a] => primTryEval settings.symbols a v
  | .getEnv, [a] => primGetEnv a v
  | .trace, [a0, a1] => primTrace a0 a1 v
  | .toPath, [a] => primToPath a v
  | .storePath, [a] => primStorePath settings a v
  | .pathExists, [a] => primPathExists a v
  | .baseNameOf, [a] => primBaseNameOf a v
  | .dirOf, [a] => primDirOf a v
  | .readFile, [a] => primReadFile a v
  | .toXML, [a] => primToXML a v
  | .toFile, [a0, a1] => primToFile a0 a1 v
  | .filterSource, [a0, a1] => primFilterSource settings a0 a1 v
  | .attrNames, [a] => primAttrNames a v
  | .getAttr, [a0, a1] => primGetAttr settings.symbols a0 a1 v
  | .hasAttr, [a0, a1] => primHasAttr settings.symbols a0 a1 v
  | .isAttrs, [a] => primIsAttrs a v
  | .removeAttrs, [a0, a1] => primRemoveAttrs a0 a1 v
  | .listToAttrs, [a] => primListToAttrs settings.symbols a v
  | .intersectAttrs, [a0, a1] => primIntersectAttrs settings.symbols a0 a1 v
  | .functionArgs, [a] => primFunctionArgs settings.symbols a v
  | .isList, [a] => primIsList a v
  | .elemAt, [a0, a1] => primElemAt a0 a1 v
  | .head, [a] => primHead a v
  | .tail, [a] => primTail a v
  | .map, [a0, a1] => primMap a0 a1 v
  | .filter, [a0, a1] => primFilter a0 a1 v
  | .elem, [a0, a1] => primElem a0 a1 v
  | .concatLists, [a] => primConcatLists a v
  | .length, [a] => primLength a v
  | .add, [a0, a1] => primAdd a0 a1 v
  | .sub, [a0, a1] => primSub a0 a1 v
  | .mul, [a0, a1] => primMul a0 a1 v
  | .div, [a0, a1] => primDiv a0 a1 v
  | .lessThan, [a0, a1] => primLessThan a0 a1 v
  | .toString, [a] => primToString a v
  | .substring, [a0, a1, a2] => primSubstring a0 a1 a2 v
  | .stringLength, [a] => primStringLength a v
  | .unsafeDiscardStringContext, [a] => primUnsafeDiscardStringContext a v
  | .unsafeDiscardOutputDependency, [a] => primUnsafeDiscardOutputDependency a v
  | .parseDrvName, [a] => primParseDrvName settings.symbols a v
  | .compareVersions, [a0, a1] => primCompareVersions a0 a1 v
  | .derivationStrict, [a] => primDerivationStrict settings a v
  | _, _ => undefined .wrongType

/-- What the procedures do. -/
def body : (p : Proc) → Eval p.Result
  | .eval e env v => eval settings.symbols env v e
  | .forceValue v => forceValue v
  | .callFunction fn arg v => callFunction settings.symbols fn arg v
  | .callPrimOp op args v => callPrimOp settings v op args
  | .coerceToString v context coerceMore copyToStore =>
    coerceToString settings.symbols v context coerceMore copyToStore
  | .eqValues v1 v2 => eqValues settings.symbols v1 v2
  | .strictForceValue v => strictForceValue v
  | .evalFile path v => evalFile settings path v
  | .autoCallFunction args fn res => autoCallFunction settings.symbols args fn res
  | .primOpOf fn => primOpOf fn
  | .closureLoop op workSet doneKeys res => closureLoop settings op workSet doneKeys res
  | .printValueAsXML v st => printValueAsXML settings v st
  | .dump filter path => dump filter path
  | .diverge => invoke .diverge

/-- The evaluator, with a bound on the depth of calls; `scoping` says how variables are found. -/
def evaluate (scoping : Scoping) : ℕ → Calls evaluator Heap Failure :=
  run (Op.perform settings scoping) (body settings)

/-- What the commands ask of the evaluator. -/
inductive Request where
  /-- The evaluation of an expression that has been parsed. -/
  | eval (e : Expr) (v : Cell)
  | evalFile (path : Path) (v : Cell)
  | forceValue (v : Cell)
  | strictForceValue (v : Cell)
  | callFunction (fn arg v : Cell)
  | autoCallFunction (args : List (Attr Cell)) (fn res : Cell)

/-- The procedure for a request; variables are bound when an expression has been parsed. -/
def Request.run (scoping : Scoping) (n : ℕ) (h : Heap) :
    Request → Option (Except Failure Unit × Heap)
  | .eval e v =>
    match inFile (str "(string)") (e.bindVars settings.staticBaseEnv) with
    | .ok e => evaluate settings scoping n (.eval e baseEnv v) h
    | .error msg => some (.error (evalError msg), h)
    | .diverge => none
  | .evalFile path v => evaluate settings scoping n (.evalFile path v) h
  | .forceValue v => evaluate settings scoping n (.forceValue v) h
  | .strictForceValue v => evaluate settings scoping n (.strictForceValue v) h
  | .callFunction fn arg v => evaluate settings scoping n (.callFunction fn arg v) h
  | .autoCallFunction args fn res => evaluate settings scoping n (.autoCallFunction args fn res) h

/-- A run of requests, one after the other, also after one that has failed. -/
def session (scoping : Scoping) (n : ℕ) :
    List Request → Heap → Option (List (Except Failure Unit) × Heap)
  | [], h => some ([], h)
  | request :: requests, h => do
    let (r, h) ← request.run settings scoping n h
    let (rs, h) ← session scoping n requests h
    return (r :: rs, h)

end

end Nix.Lang
