import NixStore.Store.PathForm
import NixStore.Store.Registration
import NixStore.Util.NarRoundTrip

/-!
# Adding dumps to the store

Model of `addToStoreFromDump` of `local-store.cc`.  It restores an archive and registers the hash of
the archive, not of what has been restored, and the parser of archives takes more than `dumpPath`
writes.  So what is registered describes the new path if and only if the archive is one that `dumpPath`
writes, and short enough for the length argument of the hash functions
(`addToStoreFromDump_describes_iff`).

The files of the locks and of the temporary roots are not in the model, and neither are hard links:
`optimisePath` replaces files by links to files with the same contents.
-/

namespace Nix

namespace FileSystem

/-- The tree of files at a location. -/
structure HasTree (fs : FileSystem) (l : Loc) (t : FileTree) : Prop where
  valid : t.Valid
  lookup : ∀ p, fs.entry (l ++ p) = t.lookup p

/-- What `dumpPath` writes for a path. -/
def Dumps (fs : FileSystem) (cwd : Loc) (path : Path) (dump : Str) : Prop :=
  ∃ dir n t, fs.place cwd path = some (dir, n) ∧ fs.HasTree (dir ++ [n]) t ∧
    dump = dumpPath path defaultPathFilter t

end FileSystem

/-- A `LocalStore`: the files and the database. -/
structure LocalStore where
  fs : FileSystem
  db : Database

/-- What adding a file to a store depends on besides the store. -/
structure AddEnv where
  cfg : StoreConfig
  register : RegisterEnv
  /-- The working directory. -/
  cwd : Loc
  preallocates : Bool
  /-- The hash functions. -/
  hash : HashType → Str → Str

/-- Model of `StringSource`. -/
def stringSource (s : Str) : Source := ⟨s, fun _ => s.length, 0, str "end of string reached"⟩

/-- A call that does not change the store. -/
def LocalStore.ofOutcome {α : Type} : Outcome Str α → Prog LocalStore StreamError α
  | .ok a => pure a
  | .error e => .throw (.error e)
  | .diverge => .throw .outOfFuel

namespace AddEnv

variable (env : AddEnv)

/-- Model of `hashString`; `update` has a length of 32 bits. -/
def hashString (ht : HashType) (s : Str) : Hash := ⟨ht, env.hash ht (s.take (s.length % 2 ^ 32))⟩

/-- The result of `hashPath` for SHA-256 on a file with the given dump, which goes to the hash function
in pieces. -/
def hashDump (dump : Str) : Hash × ℕ := (⟨.htSHA256, env.hash .htSHA256 dump⟩, dump.length)

/-- Model of `pathExists` and `deletePathWrapped`. -/
def deleteExisting (path : Path) : Prog LocalStore StreamError Unit :=
  .modify fun s =>
    match s.fs.place env.cwd path with
    | some (dir, n) => { s with fs := s.fs.remove dir n }
    | none => s

/-- `restorePath` from a `StringSource`. -/
def restoreDump (path : Path) (dump : Str) : Prog LocalStore StreamError Unit := fun s =>
  match restorePath env.cwd env.preallocates path ⟨stringSource dump, s.fs⟩ with
  | (r, s') => (r, { s with fs := s'.other })

/-- Model of `writeFile` for a file that does not exist. -/
def writeFile (path : Path) (contents : Str) : Prog LocalStore StreamError Unit := fun s =>
  match s.fs.create env.cwd path (.regular false contents) with
  | some (fs, _) => (.ok (), { s with fs := fs })
  | none => (.error (.sysError (str "opening file `" ++ path ++ str "'")), s)

/-- Model of `canonicalisePathMetaData`.  It changes owners, modes and times, but no owner-execute
bit. -/
def canonicalisePathMetaData (path : Path) : Prog LocalStore StreamError Unit := fun s =>
  match s.fs.fileAt env.cwd path with
  | some _ => (.ok (), s)
  | none => (.error (.sysError (str "getting attributes of path `" ++ path ++ str "'")), s)

/-- `hashPath` for SHA-256 on a path where there is a regular file. -/
def hashRegular (path : Path) : Prog LocalStore StreamError (Hash × ℕ) := fun s =>
  match s.fs.fileAt env.cwd path with
  | some (.regular x c) => (.ok (env.hashDump (dumpPath path defaultPathFilter (.regular x c))), s)
  | _ => (.error (.sysError (str "getting attributes of path `" ++ path ++ str "'")), s)

/-- Model of `registerValidPath`. -/
def registerValidPath (info : ValidPathInfo) : Prog LocalStore StreamError Unit := fun s =>
  match s.db.registerValidPaths env.cfg env.register [info] with
  | .ok db => (.ok (), { s with db := db })
  | .error e => (.error (.error e), s)
  | .diverge => (.error .outOfFuel, s)

/-- The branches of `addToStoreFromDump` that make the file. -/
def addContents (path : Path) (dump : Str) (recursive : Bool) : Prog LocalStore StreamError Unit :=
  if recursive then env.restoreDump path dump else env.writeFile path dump

/-- The branches of `addToStoreFromDump` for the hash and the size; `h` is the hash of the dump. -/
def addedHash (path : Path) (dump : Str) (recursive : Bool) (hashAlgo : HashType) (h : Hash) :
    Prog LocalStore StreamError (Hash × ℕ) :=
  if recursive then
    pure (if hashAlgo = .htSHA256 then h else env.hashString .htSHA256 dump, dump.length)
  else env.hashRegular path

/-- What `addToStoreFromDump` does for a path that is not valid. -/
def addPath (path : Path) (dump : Str) (recursive : Bool) (hashAlgo : HashType) (h : Hash) :
    Prog LocalStore StreamError Unit := do
  env.deleteExisting path
  env.addContents path dump recursive
  env.canonicalisePathMetaData path
  let hash ← env.addedHash path dump recursive hashAlgo h
  env.registerValidPath
    { path := path
      deriver := []
      hash := hash.1
      references := ∅
      registrationTime := 0
      narSize := hash.2 }

/-- Model of `addToStoreFromDump`. -/
def addToStoreFromDump (dump name : Str) (recursive : Bool) (hashAlgo : HashType) (repair : Bool) :
    Prog LocalStore StreamError Path := do
  let h := env.hashString hashAlgo dump
  let dstPath ← LocalStore.ofOutcome
    (makeFixedOutputPath env.cfg (env.hash .htSHA256) recursive hashAlgo h name)
  let s ← Prog.get
  if repair || !s.db.isValidPath dstPath then env.addPath dstPath dump recursive hashAlgo h
  return dstPath

end AddEnv

/-! ### Archives that can be restored -/

section

variable {cwd : Loc} {preallocates : Bool} {dst : Path} {fs : FileSystem} {t : FileTree}

/-- A run of a program that decodes. -/
theorem Decodes.run {κ α : Type} {m : SourceM κ α} {w : Str} {a : α} (hm : Decodes m w a)
    {s : Reading κ} {rest : Str} (hs : s.source.rest = w ++ rest) :
    ∃ s₁, m s = (.ok a, s₁) ∧ s₁.source.rest = rest ∧ s₁.other = s.other := by
  have h := hm s.other s rest hs rfl
  unfold Prog.Ends at h
  rcases hr : m s with ⟨e | b, s₁⟩
  · rw [hr] at h
    exact h.elim
  · rw [hr] at h
    obtain ⟨hrest, rfl, hother⟩ := h
    exact ⟨s₁, rfl, hrest, hother⟩

/-- The parser comes to the type of a file. -/
theorem parse_type {κ : Type} (sink : ParseSink κ) (path : Path) {kind rest : Str} (fuel : ℕ)
    {s : Reading κ} (hkind : kind.length < 2 ^ 32)
    (hs : s.source.rest =
      writeString (str "(") ++ (writeString (str "type") ++ (writeString kind ++ rest))) :
    ∃ s₁, s₁.source.rest = rest ∧ s₁.other = s.other ∧ parse sink (fuel + 2) path s =
      (if kind = str "regular" then do
        SourceM.lift (sink.createRegularFile path)
        parseFields sink fuel path .tpRegular
      else if kind = str "directory" then do
        SourceM.lift (sink.createDirectory path)
        parseFields sink fuel path .tpDirectory
      else if kind = str "symlink" then parseFields sink fuel path .tpSymlink
      else .throw (badArchive (str "unknown file type " ++ kind))) s₁ := by
  have hopen : (str "(").length < 2 ^ 32 := by decide
  have htype : (str "type").length < 2 ^ 32 := by decide
  obtain ⟨s₁, h₁, hrest₁, hother₁⟩ := (decodes_readString hopen).run hs
  obtain ⟨s₂, h₂, hrest₂, hother₂⟩ := (decodes_readString htype).run hrest₁
  obtain ⟨s₃, h₃, hrest₃, hother₃⟩ := (decodes_readString hkind).run hrest₂
  refine ⟨s₃, hrest₃, hother₃.trans (hother₂.trans hother₁), ?_⟩
  rw [parse, Prog.bind_apply, h₁]
  dsimp only
  rw [if_neg (by simp), parseFields, Prog.bind_apply, h₂]
  dsimp only
  rw [if_neg (by decide), if_pos rfl, if_neg (by simp), Prog.bind_apply, h₃]

/-- An operation of a sink that throws. -/
theorem lift_bind_of_error {κ α β : Type} {m : Prog κ StreamError α} {f : α → SourceM κ β}
    {s : Reading κ} {e : StreamError} {k : κ} (h : m s.other = (.error e, k)) :
    ((SourceM.lift m >>= f) s).1 = .error e := by
  rw [Prog.bind_apply, SourceM.lift, h]

/-- Where no file can be created, no file is restored. -/
theorem parse_ne_ok {path : Path} {fuel : ℕ} {s : Reading RestoreState} {rest : Str} (ht : t.Valid)
    (hs : s.source.rest = dump defaultPathFilter path t ++ rest)
    (hnone : ∀ e, s.other.fs.create cwd (dst ++ []) e = none) :
    (parse (RestoreSink cwd preallocates dst) (fuel + 3) [] s).1 ≠ .ok () := by
  cases ht with
  | @regular x c size =>
    rw [dump, List.append_assoc, List.append_assoc, List.append_assoc] at hs
    obtain ⟨s₁, -, hother, hrun⟩ := parse_type (RestoreSink cwd preallocates dst) []
      (fuel + 1) (by decide) hs
    have herror : RestoreSink.createRegularFile cwd dst [] s₁.other = (.error (.sysError
        (str "creating file `" ++ dst ++ [] ++ str "'")), { s₁.other with fd := none }) := by
      rw [RestoreSink.createRegularFile, hother, hnone]
    rw [hrun, if_pos rfl]
    exact fun h => by cases (lift_bind_of_error herror).symm.trans h
  | @directory entries nodup names files =>
    rw [dump, List.append_assoc, List.append_assoc, List.append_assoc] at hs
    obtain ⟨s₁, -, hother, hrun⟩ := parse_type (RestoreSink cwd preallocates dst) []
      (fuel + 1) (by decide) hs
    have herror : RestoreSink.createDirectory cwd dst [] s₁.other = (.error (.sysError
        (str "creating directory `" ++ dst ++ [] ++ str "'")), s₁.other) := by
      rw [RestoreSink.createDirectory, hother, hnone]
    rw [hrun, if_neg (by decide), if_pos rfl]
    exact fun h => by cases (lift_bind_of_error herror).symm.trans h
  | @symlink target nulFree size =>
    rw [dump, List.append_assoc, List.append_assoc, List.append_assoc] at hs
    obtain ⟨s₁, hrest₁, hother, hrun⟩ := parse_type (RestoreSink cwd preallocates dst) []
      (fuel + 1) (by decide) hs
    rw [List.append_assoc, List.append_assoc] at hrest₁
    have htarget : (str "target").length < 2 ^ 32 := by decide
    obtain ⟨s₂, h₂, hrest₂, hother₂⟩ := (decodes_readString htarget).run hrest₁
    obtain ⟨s₃, h₃, -, hother₃⟩ := (decodes_readString size).run hrest₂
    have herror : RestoreSink.createSymlink cwd dst [] target s₃.other = (.error (.sysError
        (str "creating symlink `" ++ dst ++ [] ++ str "'")), s₃.other) := by
      rw [RestoreSink.createSymlink, hother₃.trans (hother₂.trans hother), hnone]
    rw [hrun, if_neg (by decide), if_neg (by decide), if_pos rfl, parseFields, Prog.bind_apply, h₂]
    dsimp only
    rw [if_neg (by decide), if_neg (by decide), if_neg (by decide), if_neg (by decide),
      if_neg (by decide), if_pos ⟨rfl, rfl⟩, Prog.bind_apply, h₃]
    exact fun h => by cases (lift_bind_of_error herror).symm.trans h

/-- A dump is restored only where a file can be created. -/
theorem creatable_of_restorePath {path : Path} {source : Source} {rest : Str} {r : Reading FileSystem}
    (hnul : dst.NulFree) (hslash : dst.getLast? ≠ some slash) (ht : t.Valid)
    (hsource : source.rest = dumpPath path defaultPathFilter t ++ rest)
    (hrun : restorePath cwd preallocates dst ⟨source, fs⟩ = (.ok (), r)) :
    ∃ dir n, fs.Creatable cwd dst dir n := by
  by_contra hno
  have hnone : ∀ e, fs.create cwd (dst ++ []) e = none := by
    intro e
    rw [List.append_nil]
    cases hcreate : fs.create cwd dst e with
    | none => rfl
    | some x =>
      obtain ⟨dir, n, hplace, hl, habsent, -⟩ := FileSystem.create_eq_some hcreate
      exact absurd ⟨dir, n, hnul, hslash, hplace, hl ▸ habsent⟩ hno
  have hversion := le_length_writeString archiveVersion1
  obtain ⟨fuel, hfuel⟩ : ∃ fuel, source.rest.length = fuel + 3 := by
    refine ⟨source.rest.length - 3, ?_⟩
    rw [hsource, dumpPath]
    simp only [List.length_append]
    omega
  have hs : (⟨source, ⟨fs, none⟩⟩ : Reading RestoreState).source.rest =
      writeString archiveVersion1 ++ (dump defaultPathFilter path t ++ rest) := by
    rw [hsource, dumpPath, List.append_assoc]
  obtain ⟨s₁, h₁, hrest₁, hother₁⟩ := decodes_readVersion.run hs
  have hparse : (parseDump (RestoreSink cwd preallocates dst) source.rest.length
      ⟨source, ⟨fs, none⟩⟩).1 ≠ .ok () := by
    rw [parseDump, Prog.bind_apply, h₁]
    dsimp only
    rw [if_neg (by simp), hfuel]
    refine parse_ne_ok ht hrest₁ ?_
    rw [hother₁]
    exact hnone
  unfold restorePath at hrun
  dsimp only at hrun
  exact hparse (Prod.mk.inj hrun).1

/-- What is there after a dump has been restored. -/
theorem hasTree_of_restorePath {path : Path} {source : Source} {rest : Str} {r : Reading FileSystem}
    (hnul : dst.NulFree) (hslash : dst.getLast? ≠ some slash) (ht : t.Valid)
    (hsource : source.rest = dumpPath path defaultPathFilter t ++ rest)
    (hrun : restorePath cwd preallocates dst ⟨source, fs⟩ = (.ok (), r)) :
    ∃ dir n, r.other.place cwd dst = some (dir, n) ∧ r.other.HasTree (dir ++ [n]) t := by
  obtain ⟨dir, n, hc⟩ := creatable_of_restorePath hnul hslash ht hsource hrun
  have hends := restorePath_dumpPath preallocates hc ht path hsource
  unfold Prog.Ends at hends
  rw [hrun] at hends
  obtain ⟨-, hgraft⟩ := hends
  exact ⟨dir, n, FileSystem.place_of_keeps hnul (hgraft.keeps hc.absent) hc.place_eq, ht, hgraft.inside⟩

end

/-! ### Registration -/

namespace Database

/-- The outputs of a derivation are in a table of their own. -/
theorem foldl_addDerivationOutput_validPaths {id : ℕ} (outputs : List (Str × DerivationOutput)) :
    ∀ db : Database, (outputs.foldl (fun db o => db.addDerivationOutput ⟨id, o.1, o.2.path⟩)
      db).validPaths = db.validPaths := by
  induction outputs with
  | nil => exact fun _ => rfl
  | cons o outputs ih => exact fun db => (ih _).trans rfl

/-- The row of a path that has been registered. -/
theorem row?_of_registerValidPaths {db db' : Database} {cfg : StoreConfig} {env : RegisterEnv}
    {info : ValidPathInfo} (hnew : db.isValidPath info.path = false)
    (hrefs : info.references.toList = [])
    (h : db.registerValidPaths cfg env [info] = .ok db') : ∃ r, db'.row? info.path = some r ∧
      r.hash = str "sha256:" ++ printHash info.hash ∧
        r.narSize = if info.narSize = 0 then none else some info.narSize := by
  obtain ⟨⟨db₁, paths⟩, hadd, h⟩ := Outcome.bind_eq_ok.mp h
  obtain ⟨db₂, hreferences, h⟩ := Outcome.bind_eq_ok.mp h
  obtain ⟨_, -, h⟩ := Outcome.bind_eq_ok.mp h
  obtain ⟨_, -, h⟩ := Outcome.bind_eq_ok.mp h
  obtain rfl := Outcome.ok.inj h
  -- no references are added
  obtain rfl : db₁ = db₂ := by
    obtain ⟨db₃, hstep, hnil⟩ := Outcome.bind_eq_ok.mp hreferences
    obtain rfl := Outcome.ok.inj hnil
    obtain ⟨id, -, hfold⟩ := Outcome.bind_eq_ok.mp hstep
    rw [hrefs] at hfold
    exact Outcome.ok.inj hfold
  obtain ⟨⟨db₃, paths₃⟩, hstep, hnil⟩ := Outcome.bind_eq_ok.mp hadd
  obtain ⟨rfl, rfl⟩ := Prod.mk.inj (Outcome.ok.inj hnil)
  unfold addPathsStep at hstep
  dsimp only at hstep
  split_ifs at hstep with htype hvalid
  · rw [hnew] at hvalid
    cases hvalid
  obtain ⟨db₄, hpath, hstep⟩ := Outcome.bind_eq_ok.mp hstep
  obtain ⟨rfl, -⟩ := Prod.mk.inj (Outcome.ok.inj hstep)
  obtain ⟨⟨db₅, id⟩, hinsert, hpath⟩ := Outcome.bind_eq_ok.mp hpath
  unfold insertValidPath at hinsert
  rw [if_neg (by rw [hnew]; exact Bool.false_ne_true)] at hinsert
  obtain ⟨rfl, -⟩ := Prod.mk.inj (Outcome.ok.inj hinsert)
  have hrows : ∃ row : ValidPathRow, db₄.validPaths = db.validPaths ++ [row] ∧ row.path = info.path ∧
      row.hash = str "sha256:" ++ printHash info.hash ∧
        row.narSize = if info.narSize = 0 then none else some info.narSize := by
    dsimp only at hpath
    by_cases hderivation : isDerivation info.path = true
    · rw [if_pos hderivation] at hpath
      obtain ⟨outputs, -, hpath⟩ := Outcome.bind_eq_ok.mp hpath
      obtain rfl := Outcome.ok.inj hpath
      rw [foldl_addDerivationOutput_validPaths]
      exact ⟨_, rfl, rfl, rfl, rfl⟩
    · rw [if_neg hderivation] at hpath
      obtain rfl := Outcome.ok.inj hpath
      exact ⟨_, rfl, rfl, rfl, rfl⟩
  obtain ⟨row, hvalidPaths, hpath, hhash, hsize⟩ := hrows
  refine ⟨row, ?_, hhash, hsize⟩
  have hold : db.validPaths.find? (fun r => r.path = info.path) = none := by
    rw [isValidPath, row?] at hnew
    exact Option.isSome_eq_false_iff.mp hnew |> Option.isNone_iff_eq_none.mp
  rw [row?, hvalidPaths, List.find?_append, hold, Option.none_or,
    List.find?_cons_of_pos (by simpa using hpath)]

end Database

/-! ### What is registered -/

namespace AddEnv

variable {env : AddEnv} {s s' : LocalStore} {dump name : Str} {hashAlgo : HashType} {repair : Bool}
  {path : Path}

/-- What is registered for the path describes what is there: the dump of the files at the path is the
given one, and its hash and its size are in the database. -/
def Describes (env : AddEnv) (s : LocalStore) (path : Path) (dump : Str) : Prop :=
  s.fs.Dumps env.cwd path dump ∧ ∃ r, s.db.row? path = some r ∧
    r.hash = str "sha256:" ++ printHash (env.hashDump dump).1 ∧
      r.narSize = some (env.hashDump dump).2

/-- The steps of `addToStoreFromDump` for an archive and a path that is not valid. -/
theorem of_addToStoreFromDump
    (hrun : env.addToStoreFromDump dump name true hashAlgo repair s = (.ok path, s'))
    (hnew : s.db.isValidPath path = false) :
    makeFixedOutputPath env.cfg (env.hash .htSHA256) true hashAlgo (env.hashString hashAlgo dump) name =
        .ok path ∧
      env.addPath path dump true hashAlgo (env.hashString hashAlgo dump) s = (.ok (), s') := by
  unfold addToStoreFromDump at hrun
  obtain ⟨dstPath, s₁, hpath, hrun⟩ := Prog.bind_eq_ok.mp hrun
  obtain ⟨hfixed, rfl⟩ : makeFixedOutputPath env.cfg (env.hash .htSHA256) true hashAlgo
      (env.hashString hashAlgo dump) name = .ok dstPath ∧ s = s₁ := by
    cases hfixed : makeFixedOutputPath env.cfg (env.hash .htSHA256) true hashAlgo
        (env.hashString hashAlgo dump) name with
    | ok p =>
      rw [hfixed] at hpath
      obtain ⟨hp, hs⟩ := Prod.mk.inj hpath
      exact ⟨congrArg _ (Except.ok.inj hp), hs⟩
    | error e =>
      rw [hfixed] at hpath
      cases hpath
    | diverge =>
      rw [hfixed] at hpath
      cases hpath
  obtain ⟨st, s₁, hget, hrun⟩ := Prog.bind_eq_ok.mp hrun
  obtain ⟨hst, rfl⟩ := Prod.mk.inj hget
  obtain rfl := Except.ok.inj hst
  dsimp only at hrun
  split_ifs at hrun with hadd
  · obtain ⟨⟨⟩, s₂, hadd, hrun⟩ := Prog.bind_eq_ok.mp hrun
    obtain ⟨hp, rfl⟩ := Prod.mk.inj hrun
    obtain rfl := Except.ok.inj hp
    exact ⟨hfixed, hadd⟩
  · obtain ⟨hp, rfl⟩ := Prod.mk.inj hrun
    obtain rfl := Except.ok.inj hp
    rw [hnew] at hadd
    exact absurd (by simp) hadd

/-- The steps that make the new path. -/
theorem of_addPath {h : Hash} (hh : h = env.hashString hashAlgo dump)
    (hrun : env.addPath path dump true hashAlgo h s = (.ok (), s')) :
    (∃ fs r, restorePath env.cwd env.preallocates path ⟨stringSource dump, fs⟩ = (.ok (), r) ∧
      r.other = s'.fs) ∧
      s.db.registerValidPaths env.cfg env.register [⟨path, [], env.hashString .htSHA256 dump, ∅, 0,
        dump.length⟩] = .ok s'.db := by
  unfold addPath at hrun
  obtain ⟨⟨⟩, s₁, hdelete, hrun⟩ := Prog.bind_eq_ok.mp hrun
  obtain ⟨⟨⟩, s₂, hrestore, hrun⟩ := Prog.bind_eq_ok.mp hrun
  obtain ⟨⟨⟩, s₃, hcanonicalise, hrun⟩ := Prog.bind_eq_ok.mp hrun
  obtain ⟨hash, s₄, hhash, hregister⟩ := Prog.bind_eq_ok.mp hrun
  have hdb₁ : s₁.db = s.db := by
    obtain ⟨-, rfl⟩ := Prod.mk.inj hdelete
    dsimp only
    split <;> rfl
  obtain ⟨r, hrestored, hr, hdb₂⟩ : ∃ r, restorePath env.cwd env.preallocates path
      ⟨stringSource dump, s₁.fs⟩ = (.ok (), r) ∧ r.other = s₂.fs ∧ s₂.db = s₁.db := by
    rw [addContents, if_pos rfl, restoreDump] at hrestore
    rcases hcall : restorePath env.cwd env.preallocates path ⟨stringSource dump, s₁.fs⟩ with ⟨e | a, r⟩
    · rw [hcall] at hrestore
      cases hrestore
    · rw [hcall] at hrestore
      obtain ⟨-, rfl⟩ := Prod.mk.inj hrestore
      exact ⟨r, rfl, rfl, rfl⟩
  obtain rfl : s₂ = s₃ := by
    unfold canonicalisePathMetaData at hcanonicalise
    split at hcanonicalise
    · exact (Prod.mk.inj hcanonicalise).2
    · cases hcanonicalise
  obtain ⟨rfl, rfl⟩ : hash = (env.hashString .htSHA256 dump, dump.length) ∧ s₂ = s₄ := by
    rw [addedHash, if_pos rfl] at hhash
    obtain ⟨hpair, hs⟩ := Prod.mk.inj hhash
    refine ⟨(Except.ok.inj hpair).symm.trans ?_, hs⟩
    split_ifs with halgo
    · rw [hh, halgo]
    · rfl
  unfold registerValidPath at hregister
  rw [hdb₂, hdb₁] at hregister
  split at hregister
  · rename_i db hdb
    obtain ⟨-, rfl⟩ := Prod.mk.inj hregister
    exact ⟨⟨s₁.fs, r, hrestored, hr⟩, hdb⟩
  · cases hregister
  · cases hregister

/-- A path for a fixed output ends in a name. -/
theorem getLast?_of_makeFixedOutputPath {cfg : StoreConfig} {sha256 : Str → Str} {recursive : Bool}
    {h : Hash} (hpath : makeFixedOutputPath cfg sha256 recursive hashAlgo h name = .ok path) :
    path.NulFree ∧ path.getLast? ≠ some slash := by
  obtain ⟨hstore, hnul⟩ := makeFixedOutputPath_spec hpath
  obtain ⟨n, hne, hslash, rfl⟩ := isStorePath_iff.mp hstore
  refine ⟨hnul, fun hlast => ?_⟩
  rw [List.getLast?_append, List.getLast?_cons] at hlast
  obtain ⟨c, hc⟩ : ∃ c, n.getLast? = some c :=
    Option.ne_none_iff_exists'.mp fun hnone => hne (List.getLast?_eq_none_iff.mp hnone)
  rw [hc, Option.getD_some, Option.some_or, Option.some.injEq] at hlast
  exact hslash (hlast ▸ List.mem_of_getLast? hc)

end AddEnv

/-- When an archive has been added as a path that was not valid, its hash and size, which are
registered, describe the path if and only if the archive is one that `dumpPath` writes for some tree of
files, and the hash function is given all of it. -/
theorem addToStoreFromDump_describes_iff (env : AddEnv) (s s' : LocalStore) (dump name : Str)
    (hashAlgo : HashType) (repair : Bool) (path : Path)
    (hrun : env.addToStoreFromDump dump name true hashAlgo repair s = (.ok path, s'))
    (hnew : s.db.isValidPath path = false) : env.Describes s' path dump ↔
      (∃ t : FileTree, t.Valid ∧ dump = dumpPath path defaultPathFilter t) ∧
        (dump.length < 2 ^ 32 ∨ env.hash .htSHA256 (dump.take (dump.length % 2 ^ 32)) =
          env.hash .htSHA256 dump) := by
  obtain ⟨hfixed, hadd⟩ := AddEnv.of_addToStoreFromDump hrun hnew
  obtain ⟨⟨fs, r, hrestored, hr⟩, hregister⟩ := AddEnv.of_addPath rfl hadd
  obtain ⟨hnul, hslash⟩ := AddEnv.getLast?_of_makeFixedOutputPath hfixed
  obtain ⟨row, hrow, hhash, hsize⟩ := Database.row?_of_registerValidPaths hnew rfl hregister
  constructor
  · rintro ⟨⟨dir, n, t, -, htree, hdump⟩, row', hrow', hhash', -⟩
    refine ⟨⟨t, htree.valid, hdump⟩, Or.inr ?_⟩
    obtain rfl := Option.some.inj (hrow.symm.trans hrow')
    exact printHash_injective (List.append_cancel_left (hhash.symm.trans hhash'))
  · rintro ⟨⟨t, ht, hdump⟩, hlength⟩
    have hsource : (stringSource dump).rest = dumpPath path defaultPathFilter t ++ [] := by
      rw [List.append_nil]
      exact hdump
    obtain ⟨dir, n, hplace, htree⟩ := hasTree_of_restorePath hnul hslash ht hsource hrestored
    rw [hr] at hplace htree
    refine ⟨⟨dir, n, t, hplace, htree, hdump⟩, row, hrow, ?_, ?_⟩
    · have hsame : env.hash .htSHA256 (dump.take (dump.length % 2 ^ 32)) = env.hash .htSHA256 dump := by
        rcases hlength with hlength | hsame
        · rw [Nat.mod_eq_of_lt hlength, List.take_length]
        · exact hsame
      rw [hhash, AddEnv.hashString, hsame]
      rfl
    · have hne : dump.length ≠ 0 := by
        have hversion := le_length_writeString archiveVersion1
        rw [hdump, dumpPath, List.length_append]
        omega
      rw [hsize, if_neg hne]
      rfl

/-! ### Examples -/

/-- An empty store at `/nix/store`. -/
def emptyStore : LocalStore where
  fs := (FileSystem.empty.add [] (str "nix") .directory rfl rfl).add [str "nix"] (str "store")
    .directory (by decide) (by decide)
  db := .empty

/-- Additions to the store at `/nix/store`, with the first bytes of a string as its hash. -/
def sampleAddEnv : AddEnv where
  cfg := defaultConfig
  register := Database.noDerivations
  cwd := []
  preallocates := true
  hash _ s := leBytes 32 (leValue s)

/-- An archive with an executable file, where something follows the field `executable`. -/
def markedArchive : Str :=
  writeString archiveVersion1 ++ (writeString (str "(") ++ (writeString (str "type") ++
    (writeString (str "regular") ++ (writeString (str "executable") ++ (writeString (str "yes") ++
      (dumpContents (str "hello") ++ writeString (str ")")))))))

/-- The path for an archive. -/
def addedPath (dump : Str) : Path :=
  (makeFixedOutputPath sampleAddEnv.cfg (sampleAddEnv.hash .htSHA256) true .htSHA256
    (sampleAddEnv.hashString .htSHA256 dump) (str "hello")).getD []

/-- The store after an archive has been added. -/
def addedStore (dump : Str) : LocalStore :=
  (sampleAddEnv.addToStoreFromDump dump (str "hello") true .htSHA256 false emptyStore).2

/-- The path of the sample, when it was added. -/
theorem addToStoreFromDump_of_isOk (dump : Str) (path : Path)
    (h : (sampleAddEnv.addToStoreFromDump dump (str "hello") true .htSHA256 false emptyStore).1.toOption =
      some path) :
    sampleAddEnv.addToStoreFromDump dump (str "hello") true .htSHA256 false emptyStore =
      (.ok path, addedStore dump) := by
  unfold addedStore
  rcases hrun : sampleAddEnv.addToStoreFromDump dump (str "hello") true .htSHA256 false emptyStore with
    ⟨e | a, s⟩
  · rw [hrun] at h
    cases h
  · rw [hrun] at h
    obtain rfl := Option.some.inj h
    rfl

/-- A tree with a file, a symbolic link and a directory is described. -/
theorem addToStoreFromDump_describes_smallTree :
    sampleAddEnv.Describes (addedStore (dumpPath (str "/t") defaultPathFilter smallTree))
      (addedPath (dumpPath (str "/t") defaultPathFilter smallTree))
      (dumpPath (str "/t") defaultPathFilter smallTree) := by
  have hrun := addToStoreFromDump_of_isOk (dumpPath (str "/t") defaultPathFilter smallTree)
    (addedPath (dumpPath (str "/t") defaultPathFilter smallTree)) (by decide +kernel)
  refine (addToStoreFromDump_describes_iff _ _ _ _ _ _ _ _ hrun rfl).mpr ⟨⟨smallTree, valid_smallTree,
    by decide +kernel⟩, Or.inl (by decide +kernel)⟩

/-- The length is in front of a string. -/
theorem take_writeString (v rest : Str) : (writeString v ++ rest).take 8 = writeInt v.length := by
  rw [writeString, List.append_assoc, List.append_assoc, List.take_left' (length_writeInt _)]

/-- No tree has the archive as its dump. -/
theorem markedArchive_ne_dumpPath (path : Path) (t : FileTree) :
    markedArchive ≠ dumpPath path defaultPathFilter t := by
  intro h
  have hlength : ∀ {v w rest rest' : Str}, writeString v ++ rest = writeString w ++ rest' →
      writeInt v.length = writeInt w.length := by
    intro v w rest rest' heq
    rw [← take_writeString v rest, heq, take_writeString]
  have hnode := List.append_cancel_left h
  cases t with
  | regular x c =>
    rw [dump] at hnode
    have hfields := List.append_cancel_left (List.append_cancel_left (List.append_cancel_left hnode))
    cases x with
    | true =>
      rw [if_pos rfl, List.append_assoc] at hfields
      exact absurd (hlength (List.append_cancel_left hfields)) (by decide)
    | false =>
      rw [if_neg Bool.false_ne_true, List.nil_append, dumpContents] at hfields
      simp only [List.append_assoc] at hfields
      exact absurd (hlength hfields) (by decide)
  | directory entries =>
    rw [dump] at hnode
    have hkind := List.append_cancel_left (List.append_cancel_left hnode)
    exact absurd (hlength hkind) (by decide)
  | symlink target =>
    rw [dump] at hnode
    have hkind := List.append_cancel_left (List.append_cancel_left hnode)
    have hsame : (writeString (str "regular")).length = (writeString (str "symlink")).length := by
      decide
    exact absurd (List.append_inj hkind hsame).1 (by decide)

/-- The archive is added, and the hash and the size that are registered do not describe the new path. -/
theorem not_describes_markedArchive : ∃ s : LocalStore,
    sampleAddEnv.addToStoreFromDump markedArchive (str "hello") true .htSHA256 false emptyStore =
      (.ok (addedPath markedArchive), s) ∧
    emptyStore.db.isValidPath (addedPath markedArchive) = false ∧
    s.fs.fileAt [] (addedPath markedArchive) = some (.regular true (str "hello")) ∧
    ¬ sampleAddEnv.Describes s (addedPath markedArchive) markedArchive := by
  refine ⟨addedStore markedArchive, addToStoreFromDump_of_isOk _ _ (by decide +kernel), rfl,
    by decide +kernel, ?_⟩
  rintro ⟨⟨dir, n, t, -, -, hdump⟩, -⟩
  exact markedArchive_ne_dumpPath _ t hdump

end Nix
