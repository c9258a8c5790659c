import NixStore.Expr.EqValues
import NixStore.Expr.Names
import NixStore.Expr.StringOps
import NixStore.Expr.Syntax
import NixStore.Lib.Procedures

/-!
# The state of the evaluator

Model of `value.hh`, of `Env` and `Bindings` in `eval.hh` and of `lookupVar` in `eval.cc`.  Values,
environments and attribute sets have addresses, are written after they have been made and are shared.
A variable is found in two ways: by the level and the displacement that `bindVars` has left in it, which is
what the evaluator does, and by its name, in the innermost scope that declares it or else in the innermost
`with` whose set has it, which is what the variable means.  The names of the slots are kept for the
second way only.

What the evaluator asks of the file system, of the store and of the user's environment is a question,
and the answer can depend on all the questions before it.
-/

namespace Nix.Lang

/-! ### Values -/

/-- The address of a `Value`: one that is allocated, or the one inside a literal of the program. -/
inductive Cell where
  | heap (n : ℕ)
  | literal (v : Literal)
deriving DecidableEq

/-- Model of `Env *`: the environment and those that enclose it, the innermost one first. -/
abbrev Env := List ℕ

/-- The functions of `primops.cc`. -/
inductive PrimOp where
  | import
  | isNull
  | isFunction
  | isString
  | isInt
  | isBool
  | genericClosure
  | abort
  | throw
  | addErrorContext
  | tryEval
  | getEnv
  | trace
  | toPath
  | storePath
  | pathExists
  | baseNameOf
  | dirOf
  | readFile
  | toXML
  | toFile
  | filterSource
  | attrNames
  | getAttr
  | hasAttr
  | isAttrs
  | removeAttrs
  | listToAttrs
  | intersectAttrs
  | functionArgs
  | isList
  | elemAt
  | head
  | tail
  | map
  | filter
  | elem
  | concatLists
  | length
  | add
  | sub
  | mul
  | div
  | lessThan
  | toString
  | substring
  | stringLength
  | unsafeDiscardStringContext
  | unsafeDiscardOutputDependency
  | parseDrvName
  | compareVersions
  | derivationStrict
deriving DecidableEq

/-- Model of `ExprLambda`. -/
structure Lambda where
  pos : Pos
  arg : Str
  matchAttrs : Bool
  formals : List Formal
  ellipsis : Bool
  body : Expr

/-- Model of `Value`. -/
inductive Value where
  /-- Memory that has been allocated and not been written. -/
  | unset
  | tInt (integer : ℤ)
  | tBool (boolean : Bool)
  | tString (s : Str) (context : PathSet)
  | tPath (path : Str)
  | tNull
  /-- The address of the `Bindings`. -/
  | tAttrs (attrs : ℕ)
  | tList (elems : List Cell)
  | tThunk (env : Env) (expr : Expr)
  | tApp (left right : Cell)
  | tLambda (env : Env) (fn : Lambda)
  | tBlackhole
  | tPrimOp (primOp : PrimOp)
  | tPrimOpApp (left right : Cell)
  /-- The type of a thunk over the remains of another value. -/
  | brokenThunk

/-- The value of a literal. -/
def Literal.value : Literal → Value
  | .int n => .tInt n
  | .string s => .tString s.cut ∅
  | .path s => .tPath s.cut

/-- Model of `Env`, less the pointer to the enclosing one. -/
inductive Frame where
  /-- The slots of a function, a `let` or a recursive set, and the names that they are for. -/
  | slots (names : List Str) (values : List (Option Cell))
  /-- The environment of a `with`, whose only slot holds the set. -/
  | withValue (prevWith : ℕ) (v : Cell)

/-! ### The outside -/

/-- What `lstat` says about a file. -/
inductive FileType where
  | regular (executable : Bool) (size : ℕ)
  | directory
  | symlink
  | unknown
deriving DecidableEq

/-- What the evaluator asks of the rest of the program and of the system. -/
inductive Query where
  /-- What the parser makes of the contents of a file, before variables are bound. -/
  | parse (path : Path)
  /-- The file for a path, behind links and with `default.nix` for a directory. -/
  | exprPath (path : Path)
  | findFile (path : Str)
  | getEnv (name : Str)
  | pathExists (path : Path)
  | readFile (path : Path)
  | lstat (path : Path)
  /-- So many bytes of a file. -/
  | readContents (path : Path) (size : ℕ)
  | readDirectory (path : Path)
  | readLink (path : Path)
  /-- `canonPath` with the links resolved. -/
  | canonPath (path : Path)
  | isValidPath (path : Path)
  /-- `queryMissing` and `buildPaths`, for one path. -/
  | buildPaths (path : Path)
  /-- The copy of a source in the store; in read-only mode, here and below, only its path is computed. -/
  | addToStore (path : Path)
  | addToStoreFromDump (name dump : Str)
  | addTextToStore (name contents : Str) (refs : PathSet)
  | computeFSClosure (path : Path)
  | queryDerivationOutputNames (path : Path)
  | hashDerivationModulo (drv : Derivation)
  /-- The assignment to an element of `drvHashes`. -/
  | setDrvHash (path : Path) (h : Hash)
  /-- What is in the array of `expect` when it has not been initialised. -/
  | uninit

/-- What a question is answered with. -/
def Query.Reply : Query → Type
  | parse _ => Expr
  | exprPath _ => Path
  | findFile _ => Path
  | getEnv _ => Str
  | pathExists _ => Bool
  | readFile _ => Str
  | lstat _ => FileType
  | readContents _ _ => Str
  | readDirectory _ => List Str
  | readLink _ => Str
  | canonPath _ => Path
  | isValidPath _ => Bool
  | buildPaths _ => Unit
  | addToStore _ => Path
  | addToStoreFromDump _ _ => Path
  | addTextToStore _ _ _ => Path
  | computeFSClosure _ => PathSet
  | queryDerivationOutputNames _ => SortedSet Str
  | hashDerivationModulo _ => Hash
  | setDrvHash _ _ => Unit
  | uninit => Str → Str

/-- What an evaluation depends on. -/
structure Settings where
  symbols : SymbolTable
  cfg : StoreConfig
  sha256 : Str → Str
  /-- The answer to a question after those that have been asked, the last one first; failures are given
  by their messages. -/
  outside : List Query → (q : Query) → Except Str q.Reply
  readOnlyMode : Bool
  /-- `time(0)` -/
  time : ℤ
  thisSystem : Str
  nixVersion : Str

/-! ### The memory -/

/-- What the memory of the evaluator holds. -/
structure Heap where
  values : ℕ → Value
  nextValue : ℕ
  frames : ℕ → Frame
  nextFrame : ℕ
  bindings : ℕ → List (Attr Cell)
  nextBindings : ℕ
  srcToStore : SortedMap Path Path
  fileEvalCache : SortedMap Path Value
  /-- The table `parseTrees`, with the environment in which a tree has been bound. -/
  parseTrees : SortedMap Path (Expr × Env)
  /-- The questions that have been asked, the last one first. -/
  asked : List Query

namespace Heap

variable (h : Heap)

/-- The value at an address. -/
def read : Cell → Value
  | .heap n => h.values n
  | .literal v => v.value

/-- The memory after a value has been written; the value of a literal is never written. -/
def write : Cell → Value → Heap
  | .heap n, v => { h with values := Function.update h.values n v }
  | .literal _, _ => h

/-- Model of `allocValue`. -/
def allocValue : Cell × Heap :=
  (.heap h.nextValue,
    { h with
      values := Function.update h.values h.nextValue .unset
      nextValue := h.nextValue + 1 })

/-- Makes an environment. -/
def allocEnv (frame : Frame) : ℕ × Heap :=
  (h.nextFrame,
    { h with
      frames := Function.update h.frames h.nextFrame frame
      nextFrame := h.nextFrame + 1 })

/-- Makes a `Bindings`. -/
def allocBindings (attrs : List (Attr Cell)) : ℕ × Heap :=
  (h.nextBindings,
    { h with
      bindings := Function.update h.bindings h.nextBindings attrs
      nextBindings := h.nextBindings + 1 })

/-- Changes a `Bindings`. -/
def setBindings (b : ℕ) (attrs : List (Attr Cell)) : Heap :=
  { h with bindings := Function.update h.bindings b attrs }

end Heap

/-- The frame with one slot filled. -/
def Frame.setSlot (displ : ℕ) (c : Cell) : Frame → Frame
  | .slots names values => .slots names (values.set displ (some c))
  | .withValue prevWith v => .withValue prevWith v

/-- Fills a slot of an environment. -/
def Heap.setSlot (h : Heap) (f displ : ℕ) (c : Cell) : Heap :=
  { h with frames := Function.update h.frames f ((h.frames f).setSlot displ c) }

/-! ### Failures -/

/-- The classes of exceptions that a handler tells apart. -/
inductive ErrorClass where
  | error
  | assertionError
deriving DecidableEq

/-- What the program does that is not defined. -/
inductive Fault where
  /-- Goes up beyond the outermost environment. -/
  | noEnv
  /-- Reads a slot that the environment does not have. -/
  | noSlot
  /-- Takes the set of a `with` for slots, or slots for such a set. -/
  | wrongFrame
  /-- Reads the value at a null pointer. -/
  | nullValue
  /-- Reads an attribute that the vector does not have. -/
  | noAttr
  /-- Takes one type of value for another. -/
  | wrongType
  /-- Divides the least integer by -1. -/
  | overflow
  /-- Violates an assertion. -/
  | assertion
deriving DecidableEq

/-- How an evaluation fails. -/
inductive Failure where
  | thrown (type : ErrorClass) (msg : Str)
  | fault (fault : Fault)
deriving DecidableEq

/-- An `EvalError` or one that no handler tells from it. -/
def evalError (msg : Str) : Failure := .thrown .error msg

/-- Model of `addErrorPrefix`. -/
def addErrorPrefix (pre : Str) : Failure → Failure
  | .thrown type msg => .thrown type (pre ++ msg)
  | .fault fault => .fault fault

/-! ### Variables -/

/-- The error of `lookupVar`. -/
def undefinedVariable (name : Str) : Failure :=
  evalError (str "undefined variable `" ++ name ++ str "'")

section

variable (symbols : SymbolTable)

/-- Model of `Bindings::find`. -/
def find (attrs : List (Attr Cell)) (name : Str) : Option (Attr Cell) :=
  searchBy symbols.key attrs (symbols.address name)

namespace Heap

variable (h : Heap)

/-- The branch of `lookupVar` for a variable of a `with`: go up so many levels, and from there from one
`with` to the next until one has the attribute. -/
def lookupWith (name : Str) : ℕ → Env → Except Failure (Option Cell)
  | _, [] => .error (.fault .noEnv)
  | level + 1, _ :: up => lookupWith name level up
  | 0, f :: up =>
    match h.frames f with
    | .slots _ _ => .error (.fault .wrongFrame)
    | .withValue prevWith v =>
      match h.read v with
      | .tAttrs attrs =>
        match find symbols (h.bindings attrs) name with
        | some j => .ok (some j.value)
        | none =>
          match prevWith with
          | 0 => .error (undefinedVariable name)
          | level + 1 => lookupWith name level up
      | _ => .error (.fault .wrongType)

/-- Model of `lookupVar`; a slot that has not been filled holds a null pointer. -/
def lookupVar (env : Env) (var : VarRef) : Except Failure (Option Cell) :=
  if var.fromWith then h.lookupWith symbols var.name var.level env
  else
    match env.drop var.level with
    | [] => .error (.fault .noEnv)
    | f :: _ =>
      match h.frames f with
      | .withValue _ _ => .error (.fault .wrongFrame)
      | .slots _ values =>
        match values[var.displ]? with
        | some c => .ok c
        | none => .error (.fault .noSlot)

/-- The slot for a name, in the innermost scope that declares it. -/
def declared (name : Str) : Env → Option (Option Cell)
  | [] => none
  | f :: up =>
    match h.frames f with
    | .withValue _ _ => declared name up
    | .slots names values => ((names.zip values).reverse.lookup name).or (declared name up)

/-- The value of a name in the innermost `with` whose set has it. -/
def ofWith (name : Str) : Env → Except Failure (Option Cell)
  | [] => .error (undefinedVariable name)
  | f :: up =>
    match h.frames f with
    | .slots _ _ => ofWith name up
    | .withValue _ v =>
      match h.read v with
      | .tAttrs attrs =>
        match find symbols (h.bindings attrs) name with
        | some j => .ok (some j.value)
        | none => ofWith name up
      | _ => .error (.fault .wrongType)

/-- What a variable means. -/
def lookupName (env : Env) (name : Str) : Except Failure (Option Cell) :=
  match h.declared name env with
  | some c => .ok c
  | none => h.ofWith symbols name env

end Heap

end

/-! ### Operations -/

/-- Whether the annotations of `bindVars` are used. -/
inductive Scoping where
  | byIndex
  | byName
deriving DecidableEq

/-- What the evaluator does to its memory. -/
inductive Op where
  | allocValue
  | read (c : Cell)
  | write (c : Cell) (v : Value)
  | allocBindings (attrs : List (Attr Cell))
  | bindings (b : ℕ)
  | setBindings (b : ℕ) (attrs : List (Attr Cell))
  | allocEnv (frame : Frame)
  | setSlot (f displ : ℕ) (c : Cell)
  | lookupVar (env : Env) (var : VarRef)
  /-- The position of an attribute in the set that the expression makes. -/
  | displ (attrs : List AttrDef) (name : Str)
  | srcToStore (path : Path)
  | setSrcToStore (path dst : Path)
  | fileEvalCache (path : Path)
  | setFileEvalCache (path : Path) (v : Value)
  | parseTree (path : Path)
  | setParseTree (path : Path) (tree : Expr × Env)
  | ask (q : Query)

/-- What an operation answers. -/
def Op.Answer : Op → Type
  | allocValue => Cell
  | read _ => Value
  | write _ _ => Unit
  | allocBindings _ => ℕ
  | bindings _ => List (Attr Cell)
  | setBindings _ _ => Unit
  | allocEnv _ => ℕ
  | setSlot _ _ _ => Unit
  | lookupVar _ _ => Except Failure (Option Cell)
  | displ _ _ => Option ℕ
  | srcToStore _ => Option Path
  | setSrcToStore _ _ => Unit
  | fileEvalCache _ => Option Value
  | setFileEvalCache _ _ => Unit
  | parseTree _ => Option (Expr × Env)
  | setParseTree _ _ => Unit
  | ask q => Except Str q.Reply

/-- The position of an attribute, by the displacement that `bindVars` has left or by its name. -/
def displOf (scoping : Scoping) (attrs : List AttrDef) (name : Str) : Option ℕ :=
  match scoping with
  | .byIndex => (attrs.find? (·.name = name)).map AttrDef.displ
  | .byName => attrs.findIdx? (·.name = name)

/-- What an operation does. -/
def Op.perform (settings : Settings) (scoping : Scoping) : (o : Op) → Heap → o.Answer × Heap
  | .allocValue, h => h.allocValue
  | .read c, h => (h.read c, h)
  | .write c v, h => ((), h.write c v)
  | .allocBindings attrs, h => h.allocBindings attrs
  | .bindings b, h => (h.bindings b, h)
  | .setBindings b attrs, h => ((), h.setBindings b attrs)
  | .allocEnv frame, h => h.allocEnv frame
  | .setSlot f i c, h => ((), h.setSlot f i c)
  | .lookupVar env var, h =>
    (match scoping with
      | .byIndex => h.lookupVar settings.symbols env var
      | .byName => h.lookupName settings.symbols env var.name, h)
  | .displ attrs name, h => (displOf scoping attrs name, h)
  | .srcToStore path, h => (h.srcToStore.find? path, h)
  | .setSrcToStore path dst, h => ((), { h with srcToStore := h.srcToStore.insert path dst })
  | .fileEvalCache path, h => (h.fileEvalCache.find? path, h)
  | .setFileEvalCache path v, h =>
    ((), { h with fileEvalCache := h.fileEvalCache.insert path v })
  | .parseTree path, h => (h.parseTrees.find? path, h)
  | .setParseTree path tree, h => ((), { h with parseTrees := h.parseTrees.insert path tree })
  | .ask q, h => (settings.outside h.asked q, { h with asked := q :: h.asked })

/-- The procedures of the evaluator, which call each other. -/
inductive Proc where
  | eval (e : Expr) (env : Env) (v : Cell)
  | forceValue (v : Cell)
  | callFunction (fn arg v : Cell)
  | callPrimOp (primOp : PrimOp) (args : List Cell) (v : Cell)
  | coerceToString (v : Cell) (context : PathSet) (coerceMore copyToStore : Bool)
  | eqValues (v1 v2 : Cell)
  | strictForceValue (v : Cell)
  | evalFile (path : Path) (v : Cell)
  | autoCallFunction (args : List (Attr Cell)) (fn res : Cell)
  /-- The loops of `callFunction` that follow a partial application to its primop. -/
  | primOpOf (fn : Cell)
  /-- The loop of `prim_genericClosure`; the elements of the result are given by their sets. -/
  | closureLoop (op : Cell) (workSet : List Cell) (doneKeys : List Value) (res : List ℕ)
  | printValueAsXML (v : Cell) (st : XMLState)
  | dump (filter : Cell) (path : Path)
  /-- What never returns. -/
  | diverge

/-- What a procedure returns. -/
def Proc.Result : Proc → Type
  | coerceToString _ _ _ _ => Str × PathSet
  | eqValues _ _ => Bool
  | primOpOf _ => PrimOp × List Cell
  | closureLoop _ _ _ _ => List ℕ
  | printValueAsXML _ _ => XMLState
  | dump _ _ => Str
  | _ => Unit

/-- The evaluator as an interface. -/
abbrev evaluator : Interface := ⟨Op, Op.Answer, Proc, Proc.Result⟩

/-- A program of the evaluator. -/
abbrev Eval (α : Type) := Code evaluator Failure α

/-- The answer to an operation. -/
def perform (o : Op) : Eval o.Answer := Code.perform (I := evaluator) o

/-- The result of a call. -/
def invoke (p : Proc) : Eval p.Result := Code.invoke (I := evaluator) p

end Nix.Lang
