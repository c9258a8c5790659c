import NixStore.Store.StorePaths
import NixStore.Store.TopoSort

/-!
# The store database

Model of the tables of `schema.sql` and of the operations of `local-store.cc` on them.  Tables are
lists of rows; what SQLite does by itself (the uniqueness of paths, the foreign keys with their
cascading and restricting deletes, the trigger `DeleteSelfRefs`, the automatic choice of ids) is
spelled out in the operations that trigger it.  An operation that throws is rolled back, so its
result is the new database only if it returns.  The part of a message that SQLite adds is left out.
Ids are unbounded, and paths are names of files, which have no NUL byte for `SQLiteStmt::bind` to cut
them at.

Whether a derivation file can be read and passes the check of its outputs is decided outside of the
database; `RegisterEnv` has a function for it, which stays arbitrary here.
-/

namespace Nix

/-- A row of `ValidPaths`. -/
structure ValidPathRow where
  id : ℕ
  path : Path
  /-- The hash of the contents, as text. -/
  hash : Str
  registrationTime : ℕ
  deriver : Option Path
  narSize : Option ℕ
deriving DecidableEq

/-- A row of `DerivationOutputs`. -/
structure DerivationOutputRow where
  drv : ℕ
  /-- The symbolic output id, usually `out`. -/
  id : Str
  path : Path
deriving DecidableEq

/-- The tables of the database. -/
structure Database where
  validPaths : List ValidPathRow
  /-- `Refs`: referrer and reference. -/
  refs : List (ℕ × ℕ)
  derivationOutputs : List DerivationOutputRow
  /-- The next id that `autoincrement` gives out. -/
  nextId : ℕ
deriving DecidableEq

/-- The database after its creation. -/
def Database.empty : Database := ⟨[], [], [], 1⟩

/-- A hash as `addValidPath` writes it; the databases in examples have it in all their rows. -/
def sampleHashText : Str := str "sha256:" ++ List.replicate 64 '0'.toUInt8

/-- Model of `ValidPathInfo`; an empty `deriver`, a `registrationTime` of 0 and a `narSize` of 0
stand for unknown values. -/
structure ValidPathInfo where
  path : Path
  deriver : Path
  hash : Hash
  references : PathSet
  registrationTime : ℕ
  narSize : ℕ

/-- What registration depends on besides the database: the clock, and the outcome of reading,
parsing and checking a derivation file. -/
structure RegisterEnv where
  time : ℕ
  loadOutputs : Database → Path → Outcome Str (SortedMap Str DerivationOutput)

namespace Database

/-! ### Queries -/

/-- `select ... from ValidPaths where path = ?` -/
def row? (db : Database) (path : Path) : Option ValidPathRow :=
  db.validPaths.find? fun r => r.path = path

/-- Model of `isValidPath`. -/
def isValidPath (db : Database) (path : Path) : Bool := (db.row? path).isSome

/-- Model of `queryValidPathId`. -/
def queryValidPathId (db : Database) (path : Path) : Outcome Str ℕ :=
  match db.row? path with
  | some r => .ok r.id
  | none => .error (str "path `" ++ path ++ str "' is not valid")

/-- `select path from Refs join ValidPaths on reference = id where referrer = ?` -/
def referencesOf (db : Database) (id : ℕ) : PathSet :=
  .ofList (db.validPaths.filterMap fun r => if (id, r.id) ∈ db.refs then some r.path else none)

/-- `queryReferences` on a valid path, and nothing on others; this is how `dfsVisit` asks for the
references of a path. -/
def references (db : Database) (path : Path) : PathSet :=
  match db.row? path with
  | some r => db.referencesOf r.id
  | none => ∅

/-- Model of `queryReferrers` behind its check of the argument. -/
def queryReferrers (db : Database) (path : Path) : PathSet :=
  match db.row? path with
  | some r =>
    .ofList (db.validPaths.filterMap fun q => if (q.id, r.id) ∈ db.refs then some q.path else none)
  | none => ∅

/-- Model of `queryValidDerivers` behind its check of the argument. -/
def queryValidDerivers (db : Database) (path : Path) : PathSet :=
  .ofList (db.validPaths.filterMap fun r =>
    if db.derivationOutputs.any (fun o => o.drv = r.id ∧ o.path = path) then some r.path else none)

/-- Model of `queryDerivationOutputs`. -/
def queryDerivationOutputs (db : Database) (path : Path) : Outcome Str PathSet := do
  let id ← db.queryValidPathId path
  return .ofList (db.derivationOutputs.filterMap fun o => if o.drv = id then some o.path else none)

/-! ### Registration -/

/-- The insertions of `addValidPath` into `ValidPaths`; `path` is declared unique. -/
def insertValidPath (db : Database) (env : RegisterEnv) (info : ValidPathInfo) :
    Outcome Str (Database × ℕ) :=
  if db.isValidPath info.path then
    .error (str "registering valid path `" ++ info.path ++ str "' in database")
  else
    let row : ValidPathRow :=
      { id := db.nextId
        path := info.path
        hash := str "sha256:" ++ printHash info.hash
        registrationTime := if info.registrationTime = 0 then env.time else info.registrationTime
        deriver := if info.deriver = [] then none else some info.deriver
        narSize := if info.narSize = 0 then none else some info.narSize }
    .ok ({ db with validPaths := db.validPaths ++ [row], nextId := db.nextId + 1 }, row.id)

/-- `insert or replace into DerivationOutputs`, with the primary key `(drv, id)`. -/
def addDerivationOutput (db : Database) (row : DerivationOutputRow) : Database :=
  let others := db.derivationOutputs.filter fun o => ¬ (o.drv = row.drv ∧ o.id = row.id)
  { db with derivationOutputs := others ++ [row] }

/-- Model of `addValidPath`. -/
def addValidPath (db : Database) (env : RegisterEnv) (info : ValidPathInfo) :
    Outcome Str Database := do
  let (db, id) ← db.insertValidPath env info
  if isDerivation info.path then
    let outputs ← env.loadOutputs db info.path
    return outputs.entries.foldl
      (fun db o => db.addDerivationOutput ⟨id, o.1, o.2.path⟩) db
  else return db

/-- Model of `addReference`: `insert or replace into Refs`, with foreign keys on both columns. -/
def addReference (db : Database) (referrer reference : ℕ) : Outcome Str Database :=
  if (∃ r ∈ db.validPaths, r.id = referrer) ∧ ∃ r ∈ db.validPaths, r.id = reference then
    .ok { db with refs := if (referrer, reference) ∈ db.refs then db.refs
                          else db.refs ++ [(referrer, reference)] }
  else .error (str "adding reference to database")

/-- One round of the first loop of `registerValidPaths`: a path that is not valid yet is added. -/
def addPathsStep (env : RegisterEnv) (st : Database × PathSet) (i : ValidPathInfo) :
    Outcome Str (Database × PathSet) :=
  if i.hash.type ≠ .htSHA256 then .error (str "assertion failed: i->hash.type == htSHA256")
  else if st.1.isValidPath i.path then .ok (st.1, st.2.insert i.path)
  else do
    let db ← st.1.addValidPath env i
    return (db, st.2.insert i.path)

/-- The inner loop of the second loop of `registerValidPaths`. -/
def addReferences (db : Database) (i : ValidPathInfo) : Outcome Str Database := do
  let referrer ← db.queryValidPathId i.path
  i.references.toList.foldlM (fun db j => do
    let reference ← db.queryValidPathId j
    db.addReference referrer reference) db

/-- The check of `queryPathInfo`, on each path whose references `topoSortPaths` asks for. -/
def assertStorePaths (cfg : StoreConfig) (paths : PathSet) : Outcome Str Unit :=
  paths.toList.foldlM (fun _ p => assertStorePath cfg p) ()

/-- Model of `registerValidPaths`. -/
def registerValidPaths (db : Database) (cfg : StoreConfig) (env : RegisterEnv)
    (infos : List ValidPathInfo) : Outcome Str Database := do
  let (db, paths) ← infos.foldlM (addPathsStep env) (db, ∅)
  let db ← infos.foldlM addReferences db
  assertStorePaths cfg paths
  let _ ← topoSortPaths db.references paths
  return db

/-! ### Invalidation -/

/-- Model of `invalidatePath` on the database.  The trigger deletes a self-reference of the path;
any other reference to it restricts the deletion; its own references and its outputs go with it. -/
def invalidatePath (db : Database) (path : Path) : Outcome Str Database :=
  match db.row? path with
  | none => .ok db
  | some r =>
    if ∃ e ∈ db.refs, e.2 = r.id ∧ e.1 ≠ r.id then
      .error (str "invalidating path `" ++ path ++ str "' in database")
    else
      .ok { db with
        validPaths := db.validPaths.filter fun q => q.path ≠ path
        refs := db.refs.filter fun e => e.1 ≠ r.id
        derivationOutputs := db.derivationOutputs.filter fun o => o.drv ≠ r.id }

/-- Model of `showPaths`. -/
def showPaths (paths : PathSet) : Str :=
  paths.toList.foldl
    (fun s p => s ++ (if s = [] then [] else str ", ") ++ str "`" ++ p ++ str "'") []

/-- Model of `invalidatePathChecked`. -/
def invalidatePathChecked (db : Database) (cfg : StoreConfig) (path : Path) :
    Outcome Str Database := do
  assertStorePath cfg path
  if db.isValidPath path then
    let referrers := (db.queryReferrers path).erase path
    if referrers.toList ≠ [] then
      .error (str "cannot delete path `" ++ path ++ str "' because it is in use by " ++
        showPaths referrers)
    else db.invalidatePath path
  else return db

end Database

end Nix
