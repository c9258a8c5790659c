import NixStore.Store.WorkerOps
import NixStore.Util.NarRoundTrip

/-!
# Client and daemon agree on the format of the operations

The daemon reads the operation that the client has sent, and the client reads the result that the
store of the daemon has returned, if the values fit in the format: lengths and times in 32 bits, paths
in the store.  After any number of operations both have read everything that the other has sent,
however the bytes arrive.
-/

namespace Nix

variable {κ : Type}

/-! ### Strings and paths -/

/-- The strings fit in the format. -/
structure FitStrings (ss : List Str) : Prop where
  count : ss.length < 2 ^ 32
  size : ∀ s ∈ ss, s.length < 2 ^ 32

/-- A store path that fits in the format. -/
structure FitPath (cfg : StoreConfig) (path : Path) : Prop where
  size : path.length < 2 ^ 32
  store : isStorePath cfg path = true

/-- The paths fit in the format. -/
structure FitPaths (cfg : StoreConfig) (paths : List Path) : Prop extends FitStrings paths where
  store : ∀ p ∈ paths, isStorePath cfg p = true

/-- A path that fits in the format if there is one. -/
def FitOptionalPath (cfg : StoreConfig) (path : Path) : Prop := path ≠ [] → FitPath cfg path

/-- Something that does not read. -/
theorem decodes_ofOutcome {α : Type} {o : Outcome Str α} {a : α} (h : o = .ok a) :
    Decodes (SourceM.ofOutcome o : SourceM κ α) [] a := by
  rw [h]
  exact Decodes.pure a

/-- Decoding followed by a function. -/
theorem Decodes.map {α β : Type} {m : SourceM κ α} {w : Str} {a : α} (h : Decodes m w a)
    (f : α → β) : Decodes (f <$> m) w (f a) := by
  intro k s rest hs hk
  refine Prog.Ends.map ((h k s rest hs hk).mono (fun b s' hb => ?_) fun _ _ => id)
  exact ⟨hb.1, congrArg f hb.2.1, hb.2.2⟩

theorem Decodes.pure_bind {α β : Type} {f : α → SourceM κ β} {w : Str} {a : α} {b : β}
    (h : Decodes (f a) w b) : Decodes (Pure.pure a >>= f) w b := h

/-- Bytes decode to one value only. -/
theorem Decodes.unique {α : Type} [Inhabited κ] {m : SourceM κ α} {w : Str} {a b : α}
    (ha : Decodes m w a) (hb : Decodes m w b) : a = b := by
  have hboth := (ha default ⟨⟨w, fun _ => 0, 0, []⟩, default⟩ [] (List.append_nil w).symm rfl).and
    (hb default ⟨⟨w, fun _ => 0, 0, []⟩, default⟩ [] (List.append_nil w).symm rfl)
  unfold Prog.Ends at hboth
  split at hboth
  · rw [← hboth.1.2.1, hboth.2.2.1]
  · exact hboth.1.elim

/-- `n` strings are read from `n` encoded strings. -/
theorem decodes_readStringsLoop {ss : List Str} (h : ∀ s ∈ ss, s.length < 2 ^ 32) :
    Decodes (readStringsLoop ss.length : SourceM κ (List Str)) (ss.flatMap writeString) ss := by
  induction ss with
  | nil => exact Decodes.pure []
  | cons s ss ih =>
    have hrest := ih fun t ht => h t (List.mem_cons_of_mem s ht)
    rw [List.flatMap_cons]
    exact (decodes_readString (h s List.mem_cons_self)).seq
      (hrest.seq_nil (Decodes.pure (s :: ss)))

/-- A list of strings is read back, the count first. -/
theorem decodes_readStringList {ss : List Str} (h : FitStrings ss) :
    Decodes (readStringList : SourceM κ (List Str)) (writeStrings ss) ss :=
  (decodes_readInt h.count).seq (decodes_readStringsLoop h.size)

/-- A set of strings is read back. -/
theorem decodes_readStrings {ss : SortedSet Str} (h : FitStrings ss.toList) :
    Decodes (readStrings : SourceM κ (SortedSet Str)) (writeStrings ss.toList) ss := by
  refine (decodes_readStringList h).seq_nil ?_
  rw [SortedSet.ofList_toList]
  exact Decodes.pure ss

section

variable {cfg : StoreConfig}

/-- The assertion about a store path passes. -/
theorem assertStorePath_eq {path : Path} (h : isStorePath cfg path = true) :
    assertStorePath cfg path = .ok () := if_pos h

/-- A store path is read back. -/
theorem decodes_readStorePath {path : Path} (h : FitPath cfg path) :
    Decodes (readStorePath cfg : SourceM κ Path) (writeString path) path :=
  (decodes_readString h.size).seq_nil
    ((decodes_ofOutcome (assertStorePath_eq h.store)).seq_nil (Decodes.pure path))

/-- The assertions about store paths read nothing. -/
theorem decodes_assertStorePaths {paths : List Path} (h : ∀ p ∈ paths, isStorePath cfg p = true) :
    Decodes (assertStorePaths cfg paths : SourceM κ Unit) [] () := by
  induction paths with
  | nil => exact Decodes.pure ()
  | cons p paths ih =>
    have hp := assertStorePath_eq (h p List.mem_cons_self)
    exact (decodes_ofOutcome hp).seq_nil (ih fun q hq => h q (List.mem_cons_of_mem p hq))

/-- A set of store paths is read back. -/
theorem decodes_readStorePaths {paths : PathSet} (h : FitPaths cfg paths.toList) :
    Decodes (readStorePaths cfg : SourceM κ PathSet) (writeStrings paths.toList) paths :=
  (decodes_readStrings h.toFitStrings).seq_nil
    ((decodes_assertStorePaths h.store).seq_nil (Decodes.pure paths))

/-- A list of store paths is read back. -/
theorem decodes_readStorePathList {paths : List Path} (h : FitPaths cfg paths) :
    Decodes (readStorePathList cfg : SourceM κ (List Path)) (writeStrings paths) paths :=
  (decodes_readStringList h.toFitStrings).seq_nil
    ((decodes_assertStorePaths h.store).seq_nil (Decodes.pure paths))

/-- A path that may be empty is read back. -/
theorem decodes_readOptionalPath {path : Path} (h : FitOptionalPath cfg path) :
    Decodes (readOptionalPath cfg : SourceM κ Path) (writeString path) path := by
  unfold readOptionalPath
  by_cases hnil : path = []
  · subst hnil
    refine (decodes_readString (by decide)).seq_nil ?_
    rw [if_neg (by simp)]
    exact Decodes.pure []
  · refine (decodes_readString (h hnil).size).seq_nil ?_
    rw [if_pos hnil]
    exact (decodes_ofOutcome (assertStorePath_eq (h hnil).store)).seq_nil (Decodes.pure path)

end

/-! ### Numbers -/

/-- A boolean arrives as the integer 0 or 1. -/
theorem decodes_readBool (b : Bool) : Decodes (readInt : SourceM κ ℕ) (writeBool b) b.toNat :=
  decodes_readInt (b.toNat_lt.trans (by decide))

/-- A flag is read back. -/
theorem decodes_readFlag (b : Bool) : Decodes (readFlag : SourceM κ Bool) (writeBool b) b := by
  refine (decodes_readBool b).seq_nil ?_
  have hb : (b.toNat ≠ 0 : Bool) = b := by cases b <;> rfl
  rw [hb]
  exact Decodes.pure b

/-- An unsigned integer is read back. -/
theorem decodes_readUInt (n : UInt32) :
    Decodes (readUInt : SourceM κ UInt32) (writeInt n.toNat) n := by
  refine (decodes_readInt n.toNat_lt).seq_nil ?_
  rw [UInt32.ofNat_toNat]
  exact Decodes.pure n

/-- A time between 0 and `2 ^ 32` arrives as it is. -/
theorem decodes_readTime {t : ℤ} (h₀ : 0 ≤ t) (h : t < 2 ^ 32) :
    Decodes (readInt : SourceM κ ℕ) (writeTime t) t.toNat := by
  unfold writeTime
  rw [Int.emod_eq_of_lt h₀ h]
  exact decodes_readInt (by omega)

/-- The integer 1 that ends an operation is read and ignored. -/
theorem decodes_readDone {n : ℕ} (h : n < 2 ^ 32) :
    Decodes (readDone : SourceM κ Unit) (writeInt n) () :=
  (decodes_readInt h).seq_nil (Decodes.pure ())

/-- A 64-bit integer is read back. -/
theorem decodes_readUInt64 (n : UInt64) :
    Decodes (readLongLong : SourceM κ ℕ) (writeLongLong n.toNat) n.toNat :=
  decodes_readLongLong n.toNat_lt

/-! ### Maps -/

/-- Map entries are inserted in the order in which they were written. -/
theorem decodes_readMapEntries_foldl {α β : Type} [LinearOrder α] {item : SourceM κ (α × β)}
    {write : α × β → Str} {es : List (α × β)} (h : ∀ e ∈ es, Decodes item (write e) e)
    (m : SortedMap α β) :
    Decodes (readMapEntries item es.length m) (es.flatMap write)
      (es.foldl (fun m e => m.insert e.1 e.2) m) := by
  induction es generalizing m with
  | nil => exact Decodes.pure m
  | cons e es ih =>
    have hrest := ih (fun a ha => h a (List.mem_cons_of_mem e ha)) (m.insert e.1 e.2)
    rw [List.flatMap_cons]
    exact (h e List.mem_cons_self).seq hrest

/-- A map is read back from its entries. -/
theorem decodes_readMapEntries {α β : Type} [LinearOrder α] {item : SourceM κ (α × β)}
    {write : α × β → Str} {m : SortedMap α β} (h : ∀ e ∈ m.entries, Decodes item (write e) e) :
    Decodes (readMapEntries item m.entries.length ∅) (m.entries.flatMap write) m := by
  have hloop := decodes_readMapEntries_foldl h ∅
  rwa [← SortedMap.ofList, SortedMap.ofList_entries] at hloop

/-- An override of a setting is read back. -/
theorem decodes_readOverride {e : Str × Str} (h₁ : e.1.length < 2 ^ 32)
    (h₂ : e.2.length < 2 ^ 32) :
    Decodes (readOverride : SourceM κ (Str × Str)) (writeString e.1 ++ writeString e.2) e :=
  (decodes_readString h₁).seq ((decodes_readString h₂).seq_nil (Decodes.pure e))

/-- A garbage collector root with its target is read back. -/
theorem decodes_readRoot {cfg : StoreConfig} {e : Path × Path} (h₁ : e.1.length < 2 ^ 32)
    (h₂ : FitPath cfg e.2) :
    Decodes (readRoot cfg : SourceM κ (Path × Path)) (writeString e.1 ++ writeString e.2) e :=
  (decodes_readString h₁).seq ((decodes_readStorePath h₂).seq_nil (Decodes.pure e))

/-- What a substituter says about a path fits in the format. -/
structure SubstitutablePathInfo.Fits (cfg : StoreConfig) (info : SubstitutablePathInfo) : Prop where
  deriver : FitOptionalPath cfg info.deriver
  references : FitPaths cfg info.references.toList

/-- Information about a substitutable path is read back. -/
theorem decodes_readSubstitutablePathInfo {cfg : StoreConfig} {e : Path × SubstitutablePathInfo}
    (h₁ : FitPath cfg e.1) (h₂ : e.2.Fits cfg) :
    Decodes (readSubstitutablePathInfo cfg : SourceM κ (Path × SubstitutablePathInfo))
      (writeSubstitutablePathInfo e) e := by
  refine (decodes_readStorePath h₁).seq ((decodes_readOptionalPath h₂.deriver).seq
    ((decodes_readStorePaths h₂.references).seq ((decodes_readUInt64 e.2.downloadSize).seq
      ((decodes_readUInt64 e.2.narSize).seq_nil ?_))))
  rw [UInt64.ofNat_toNat, UInt64.ofNat_toNat]
  exact Decodes.pure e

/-! ### Archives -/

/-- A sink that ignores everything takes any archive. -/
theorem receives_nullSink : Receives nullSink fun _ _ _ _ => True where
  isExecutable _ := Prog.ends_pure trivial
  preallocateContents _ _ := Prog.ends_pure trivial
  receiveContents _ _ := Prog.ends_pure trivial

/-- The sink for a single file collects its contents. -/
theorem receives_retrieveRegularNARSink :
    Receives retrieveRegularNARSink fun _ done _ k => k = (true, done) where
  isExecutable h := Prog.ends_pure h
  preallocateContents _ h := Prog.ends_pure h
  receiveContents data h := by
    refine Prog.ends_modify ?_
    rw [h]

/-- The null sink takes these bytes as a file. -/
def Parses (w : Str) : Prop :=
  ∀ (fuel : ℕ) (path : Path), w.length ≤ fuel →
    Consumes (parse nullSink fuel path) w (fun _ => True) fun _ _ => True

/-- The entries of a directory are skipped up to the closing parenthesis. -/
theorem consumes_entries_nullSink {es : List (Str × Str)}
    (h : ∀ e ∈ es, e.1.length < 2 ^ 32 ∧ Parses e.2) {fuel : ℕ} {path : Path}
    (hfuel : (es.flatMap dumpEntry ++ writeString (str ")")).length ≤ fuel) :
    Consumes (parseFields nullSink fuel path .tpDirectory)
      (es.flatMap dumpEntry ++ writeString (str ")")) (fun _ => True) fun _ _ => True := by
  induction es generalizing fuel with
  | nil =>
    have hlen := le_length_writeString (str ")")
    rw [List.flatMap_nil, List.nil_append] at hfuel ⊢
    obtain ⟨fuel, rfl⟩ : ∃ f, fuel = f + 1 := ⟨fuel - 1, by omega⟩
    exact consumes_close
  | cons e es ih =>
    obtain ⟨name, w⟩ := e
    obtain ⟨hname, hparses⟩ := h (name, w) List.mem_cons_self
    have hlen := le_length_dumpEntry (name, w)
    dsimp only at hname hparses hlen
    rw [List.flatMap_cons, List.append_assoc] at hfuel ⊢
    rw [List.length_append] at hfuel
    obtain ⟨fuel, rfl⟩ : ∃ f, fuel = f + 5 := ⟨fuel - 5, by omega⟩
    exact consumes_entry hname (hparses (fuel + 1) _ (by omega))
      (ih (fun e he => h e (List.mem_cons_of_mem _ he)) (by omega))

/-- The dumped entries are dumps of entries. -/
theorem mem_dumpEntries {filter : PathFilter} {path : Path} {entries : List (Str × FileTree)}
    {e : Str × Str} (he : e ∈ dumpEntries filter path entries) :
    ∃ file, (e.1, file) ∈ entries ∧ e.2 = dump filter (path ++ str "/" ++ e.1) file := by
  induction entries with
  | nil => simp [dumpEntries] at he
  | cons a entries ih =>
    obtain ⟨name, file⟩ := a
    rw [dumpEntries] at he
    have hrest : e ∈ dumpEntries filter path entries →
        ∃ file', (e.1, file') ∈ (name, file) :: entries ∧
          e.2 = dump filter (path ++ str "/" ++ e.1) file' := by
      intro he
      obtain ⟨file', hmem, heq⟩ := ih he
      exact ⟨file', List.mem_cons_of_mem _ hmem, heq⟩
    split_ifs at he
    · rcases List.mem_cons.mp he with rfl | he
      · exact ⟨file, List.mem_cons_self, rfl⟩
      · exact hrest he
    · exact hrest he

/-- The null sink takes the dump of every tree, whatever the filter. -/
theorem parses_dump (filter : PathFilter) (path : Path) {t : FileTree} (ht : t.Valid) :
    Parses (dump filter path t) := by
  have hopen := le_length_writeString (str "(")
  have htype := le_length_writeString (str "type")
  have hclose := le_length_writeString (str ")")
  have hreturns : ∀ k : Unit, True → (pure () : Prog Unit StreamError Unit).Ends k
      (fun _ _ => True) fun _ _ => False := fun _ _ => Prog.ends_pure trivial
  induction ht generalizing path with
  | @regular x c size =>
    intro fuel q hfuel
    rw [dump] at hfuel ⊢
    simp only [List.length_append] at hfuel
    obtain ⟨fuel, rfl⟩ : ∃ f, fuel = f + 5 := ⟨fuel - 5, by omega⟩
    exact consumes_open (consumes_type_regular hreturns (receives_nullSink.consumes_regular size))
  | @symlink target nulFree size =>
    intro fuel q hfuel
    rw [dump] at hfuel ⊢
    simp only [List.length_append] at hfuel
    obtain ⟨fuel, rfl⟩ : ∃ f, fuel = f + 4 := ⟨fuel - 4, by omega⟩
    exact consumes_open (consumes_type_symlink (consumes_target size hreturns consumes_close))
  | @directory entries nodup names files ih =>
    intro fuel q hfuel
    rw [dump] at hfuel ⊢
    simp only [List.length_append] at hfuel
    obtain ⟨fuel, rfl⟩ : ∃ f, fuel = f + 2 := ⟨fuel - 2, by omega⟩
    refine consumes_open (consumes_type_directory hreturns (consumes_entries_nullSink ?_ ?_))
    · intro e he
      have hmem := (List.perm_insertionSort nameLE _).mem_iff.mp he
      obtain ⟨file, hfile, heq⟩ := mem_dumpEntries hmem
      rw [heq]
      exact ⟨(names _ hfile).2, ih _ hfile _⟩
    · rw [List.length_append]
      omega

/-- Reading an archive with a sink of its own. -/
theorem decodes_parseDumpWith {ρ : Type} {sink : ParseSink ρ} {init final : ρ} {w : Str}
    (h : ∀ fuel, w.length ≤ fuel → Consumes (parse sink fuel []) w (· = init)
      fun _ k => k = final) :
    Decodes (parseDumpWith sink init : SourceM κ ρ) (writeString archiveVersion1 ++ w) final := by
  intro k s rest hs hk
  have hlen : w.length ≤ s.source.rest.length := by
    rw [hs, List.length_append, List.length_append]
    omega
  have hparse : Consumes (parseDump sink s.source.rest.length) (writeString archiveVersion1 ++ w)
      (· = init) fun _ k => k = final := by
    refine decodes_readVersion.bind ?_
    rw [if_neg (by simp)]
    exact h _ hlen
  have hrun := hparse ⟨s.source, init⟩ rest hs rfl
  unfold Prog.Ends parseDumpWith at *
  rcases hr : parseDump sink s.source.rest.length ⟨s.source, init⟩ with ⟨e | a, s'⟩
  · simp [hr] at hrun
  · simp only [hr] at hrun ⊢
    exact ⟨hrun.1, hrun.2, hk⟩

/-- The bytes that are read are saved. -/
theorem decodes_saving {m : SourceM κ Unit} {w : Str} (h : Decodes m w ()) :
    Decodes (saving m) w w := by
  intro k s rest hs hk
  have hrun := h k s rest hs hk
  unfold Prog.Ends saving at *
  rcases hr : m s with ⟨e | a, s'⟩
  · simp [hr] at hrun
  · simp only [hr] at hrun ⊢
    refine ⟨hrun.1, ?_, hrun.2.2⟩
    rw [hs, hrun.1, List.length_append, Nat.add_sub_cancel, List.take_left']
    rfl

/-- A parser that saves what it reads gets the archive back. -/
theorem decodes_savedNAR (path : Path) (filter : PathFilter) {t : FileTree} (ht : t.Valid) :
    Decodes (saving (do
      parseDumpWith nullSink ()
      return ()) : SourceM κ Str) (dumpPath path filter t) (dumpPath path filter t) := by
  refine decodes_saving (Decodes.seq_nil (a := ()) ?_ (Decodes.pure ()))
  refine decodes_parseDumpWith fun fuel hfuel => ?_
  exact (parses_dump filter path ht fuel [] hfuel).mono (fun _ _ => trivial) fun _ _ _ => rfl

/-- The archive of a single file gives its contents. -/
theorem decodes_savedRegular (path : Path) (filter : PathFilter) {x : Bool} {c : Str}
    (hc : c.length < 2 ^ 64) :
    Decodes (parseDumpWith retrieveRegularNARSink (true, []) : SourceM κ (Bool × Str))
      (dumpPath path filter (.regular x c)) (true, c) := by
  refine decodes_parseDumpWith fun fuel hfuel => ?_
  have hopen := le_length_writeString (str "(")
  have htype := le_length_writeString (str "type")
  have hclose := le_length_writeString (str ")")
  rw [dump] at hfuel ⊢
  simp only [List.length_append] at hfuel
  obtain ⟨fuel, rfl⟩ : ∃ f, fuel = f + 5 := ⟨fuel - 5, by omega⟩
  exact consumes_open (consumes_type_regular (fun k hk => Prog.ends_pure hk)
    (receives_retrieveRegularNARSink.consumes_regular hc))

/-! ### Requests -/

/-- The contents of a regular file. -/
def FileTree.contents : FileTree → Str
  | .regular _ c => c
  | _ => []

/-- The file that the daemon is to get. -/
def SourceFile.dumped (file : SourceFile) (recursive : Bool) : Outcome Str DumpedFile := do
  let baseName ← baseNameOf file.path
  return ⟨if recursive then dumpPath file.path file.filter file.tree else file.tree.contents, baseName⟩

/-- The request that the daemon is to get: the dump of a file instead of the file, and a path seen from
the directory of the daemon. -/
def WorkerRequest.received (dir : Path) :
    WorkerRequest SourceFile → Outcome Str (WorkerRequest DumpedFile)
  | .isValidPath path => .ok (.isValidPath path)
  | .queryValidPaths paths => .ok (.queryValidPaths paths)
  | .querySubstitutablePaths paths => .ok (.querySubstitutablePaths paths)
  | .queryPathHash path => .ok (.queryPathHash path)
  | .queryReferences path => .ok (.queryReferences path)
  | .queryReferrers path => .ok (.queryReferrers path)
  | .queryDerivationOutputs path => .ok (.queryDerivationOutputs path)
  | .queryDerivationOutputNames path => .ok (.queryDerivationOutputNames path)
  | .queryDeriver path => .ok (.queryDeriver path)
  | .queryPathFromHashPart hashPart => .ok (.queryPathFromHashPart hashPart)
  | .addToStore file recursive hashAlgo => do
    let file ← file.dumped recursive
    return .addToStore file recursive hashAlgo
  | .addTextToStore name s references => .ok (.addTextToStore name s references)
  | .exportPath path sign => .ok (.exportPath path sign)
  | .importPaths => .ok .importPaths
  | .buildPaths drvPaths => .ok (.buildPaths drvPaths)
  | .ensurePath path => .ok (.ensurePath path)
  | .addTempRoot path => .ok (.addTempRoot path)
  | .addIndirectRoot path => do
    let path ← absPath dir path
    return .addIndirectRoot path
  | .syncWithGC => .ok .syncWithGC
  | .findRoots => .ok .findRoots
  | .collectGarbage options => .ok (.collectGarbage options)
  | .setOptions options => .ok (.setOptions options)
  | .querySubstitutablePathInfos paths => .ok (.querySubstitutablePathInfos paths)
  | .queryAllValidPaths => .ok .queryAllValidPaths
  | .queryFailedPaths => .ok .queryFailedPaths
  | .clearFailedPaths paths => .ok (.clearFailedPaths paths)
  | .queryPathInfo path => .ok (.queryPathInfo path)

/-- A file that can be sent. -/
structure SourceFile.Fits (file : SourceFile) : Prop where
  absolute : isAbsolute file.path = true
  size : file.path.length < 2 ^ 32
  valid : file.tree.Valid

/-- Settings that can be sent. -/
structure WorkerOptions.Fits (o : WorkerOptions) : Prop where
  nonneg : 0 ≤ o.maxSilentTime
  time : o.maxSilentTime < 2 ^ 32
  count : o.overrides.entries.length < 2 ^ 32
  size : ∀ e ∈ o.overrides.entries, e.1.length < 2 ^ 32 ∧ e.2.length < 2 ^ 32

/-- The arguments of an operation fit in the format, and the paths that have to be in the store are
there. -/
def WorkerRequest.Fits (cfg : StoreConfig) : WorkerRequest SourceFile → Prop
  | .isValidPath path => FitPath cfg path
  | .queryValidPaths paths => FitPaths cfg paths.toList
  | .querySubstitutablePaths paths => FitPaths cfg paths.toList
  | .queryPathHash path => FitPath cfg path
  | .queryReferences path => FitPath cfg path
  | .queryReferrers path => FitPath cfg path
  | .queryDerivationOutputs path => FitPath cfg path
  | .queryDerivationOutputNames path => FitPath cfg path
  | .queryDeriver path => FitPath cfg path
  | .queryPathFromHashPart hashPart => hashPart.length < 2 ^ 32
  | .addToStore file recursive hashAlgo =>
    file.Fits ∧ hashAlgo ≠ .htUnknown ∧ (recursive = false → ∃ x c, file.tree = .regular x c)
  | .addTextToStore name s references =>
    name.length < 2 ^ 32 ∧ s.length < 2 ^ 32 ∧ FitPaths cfg references.toList
  | .exportPath path _ => FitPath cfg path
  | .importPaths => True
  | .buildPaths drvPaths => FitPaths cfg drvPaths.toList
  | .ensurePath path => FitPath cfg path
  | .addTempRoot path => FitPath cfg path
  | .addIndirectRoot path => path.length < 2 ^ 32
  | .syncWithGC => True
  | .findRoots => True
  | .collectGarbage options => FitPaths cfg options.pathsToDelete.toList
  | .setOptions options => options.Fits
  | .querySubstitutablePathInfos paths => FitPaths cfg paths.toList
  | .queryAllValidPaths => True
  | .queryFailedPaths => True
  | .clearFailedPaths paths => FitStrings paths.toList
  | .queryPathInfo path => FitPath cfg path

/-- An element of a list is no longer than the joined list. -/
theorem length_le_length_intercalate (sep : Str) {s : Str} {ss : List Str} (h : s ∈ ss) :
    s.length ≤ (sep.intercalate ss).length := by
  induction ss with
  | nil => simp at h
  | cons t ss ih =>
    by_cases hnil : ss = []
    · subst hnil
      rw [List.mem_singleton.mp h, List.intercalate_singleton]
    · rw [List.intercalate_cons_of_ne_nil hnil, List.length_append, List.length_append]
      rcases List.mem_cons.mp h with rfl | h
      · omega
      · have := ih h
        omega

/-- An absolute path has a base name, and it is no longer than the path. -/
theorem baseNameOf_eq {path : Path} (h : isAbsolute path = true) :
    ∃ baseName, baseNameOf path = .ok baseName ∧ baseName.length ≤ path.length := by
  have hslash : '/'.toUInt8 ∈ path := by
    cases path with
    | nil => simp [isAbsolute] at h
    | cons c path =>
      simp [isAbsolute] at h
      simp [h]
  have hne : path.splitOn '/'.toUInt8 ≠ [] := List.splitOn_ne_nil _ _
  have hmem : (path.splitOn '/'.toUInt8).getLastD [] ∈ path.splitOn '/'.toUInt8 := by
    rw [List.getLastD_eq_getLast?, List.getLast?_eq_some_getLast hne]
    exact List.getLast_mem hne
  refine ⟨_, if_pos hslash, ?_⟩
  have hlen := length_le_length_intercalate ['/'.toUInt8] hmem
  rwa [List.intercalate_splitOn] at hlen

/-- A path below an absolute directory can be made absolute. -/
theorem absPath_eq {dir : Path} (h : isAbsolute dir = true) (path : Path) :
    ∃ path', absPath dir path = .ok path' := by
  have habs : isAbsolute (if isAbsolute path then path else dir ++ str "/" ++ path) = true := by
    split_ifs with hpath
    · exact hpath
    · cases dir with
      | nil => simp [isAbsolute] at h
      | cons c dir => simpa [isAbsolute] using h
  exact ⟨_, if_pos habs⟩

/-- A known hash type has a name that reads back to it. -/
theorem printHashType_eq {ht : HashType} (h : ht ≠ .htUnknown) :
    ∃ s, printHashType ht = .ok s ∧ parseHashType s = ht ∧ s.length < 2 ^ 32 := by
  cases ht with
  | htUnknown => exact absurd rfl h
  | htMD5 => exact ⟨_, rfl, by decide, by decide⟩
  | htSHA1 => exact ⟨_, rfl, by decide, by decide⟩
  | htSHA256 => exact ⟨_, rfl, by decide, by decide⟩

/-- The arguments of `addToStore` are read back, with the archive or the single file. -/
theorem decodes_readAddToStore {file : SourceFile} {recursive : Bool} {hashAlgo : HashType}
    {baseName algo : Str} (hfile : file.Fits) (hbase : baseName.length < 2 ^ 32)
    (halgo : algo.length < 2 ^ 32) (hparse : parseHashType algo = hashAlgo)
    (hregular : recursive = false → ∃ x c, file.tree = .regular x c) :
    Decodes (readAddToStore : SourceM κ (WorkerRequest DumpedFile))
      (writeString baseName ++
        (writeInt (if hashAlgo = .htSHA256 ∧ recursive = true then 0 else 1) ++
        (writeInt (if recursive then 1 else 0) ++ (writeString algo ++
        dumpPath file.path file.filter file.tree))))
      (.addToStore ⟨if recursive then dumpPath file.path file.filter file.tree else
        file.tree.contents, baseName⟩ recursive hashAlgo) := by
  refine (decodes_readString hbase).seq ?_
  have hnar := decodes_savedNAR (κ := κ) file.path file.filter hfile.valid
  by_cases hcompat : hashAlgo = .htSHA256 ∧ recursive = true
  · rw [if_pos hcompat, hcompat.1, hcompat.2]
    refine (decodes_readInt (n := 0) (by decide)).seq ((decodes_readInt (n := 1) (by decide)).seq
      ((decodes_readString halgo).seq ?_))
    exact hnar.seq_nil (Decodes.pure _)
  · rw [if_neg hcompat, ← hparse]
    refine (decodes_readInt (n := 1) (by decide)).seq ?_
    cases recursive with
    | true =>
      refine (decodes_readInt (n := 1) (by decide)).seq ((decodes_readString halgo).seq ?_)
      exact hnar.seq_nil (Decodes.pure _)
    | false =>
      obtain ⟨x, c, htree⟩ := hregular rfl
      have hsize : c.length < 2 ^ 64 := by
        have hvalid := hfile.valid
        rw [htree] at hvalid
        cases hvalid with
        | regular size => exact size
      refine (decodes_readInt (n := 0) (by decide)).seq ((decodes_readString halgo).seq ?_)
      rw [htree]
      exact (decodes_savedRegular file.path file.filter hsize).seq_nil (Decodes.pure _)

/-- The options are read back in the newest version of the protocol, whatever they were before. -/
theorem decodes_readOptions {o : WorkerOptions} (h : o.Fits) (old : WorkerOptions) :
    Decodes (readOptions PROTOCOL_VERSION old : SourceM κ WorkerOptions)
      (writeOptions PROTOCOL_VERSION o) o := by
  have hminor : GET_PROTOCOL_MINOR PROTOCOL_VERSION = 12 := by decide
  have hentries := decodes_readMapEntries (κ := κ) fun e he =>
    decodes_readOverride (h.size e he).1 (h.size e he).2
  unfold readOptions writeOptions writeMapEntries
  rw [hminor]
  simp only [ge_iff_le, Nat.reduceLeDiff, if_true, List.append_assoc]
  refine (decodes_readFlag o.keepFailed).seq ((decodes_readFlag o.keepGoing).seq
    ((decodes_readFlag o.tryFallback).seq ((decodes_readUInt o.verbosity).seq
    ((decodes_readUInt o.maxBuildJobs).seq ((decodes_readTime h.nonneg h.time).seq
    ((decodes_readFlag o.useBuildHook).seq ((decodes_readUInt o.buildVerbosity).seq
    ((decodes_readUInt o.logType).seq ((decodes_readFlag o.printBuildTrace).seq
    (Decodes.pure_bind ((decodes_readUInt o.buildCores).seq
    ((decodes_readFlag o.useSubstitutes).seq ((decodes_readInt h.count).seq
    (hentries.seq_nil ?_))))))))))))))
  rw [Int.toNat_of_nonneg h.nonneg]
  exact Decodes.pure o

/-- The options of the garbage collector are read back. -/
theorem decodes_readGCOptions {cfg : StoreConfig} {options : GCOptions}
    (h : FitPaths cfg options.pathsToDelete.toList) :
    Decodes (readGCOptions cfg PROTOCOL_VERSION : SourceM κ GCOptions)
      (writeGCOptions PROTOCOL_VERSION options) options := by
  have hminor : GET_PROTOCOL_MINOR PROTOCOL_VERSION ≥ 5 := by decide
  have haction : options.action.toNat < 2 ^ 32 ∧ gcAction options.action.toNat = options.action := by
    cases options.action <;> decide
  unfold readGCOptions writeGCOptions
  rw [if_pos hminor]
  refine (decodes_readInt haction.1).seq ((decodes_readStorePaths h).seq
    ((decodes_readFlag options.ignoreLiveness).seq ((decodes_readUInt64 options.maxFreed).seq
    ((decodes_readDone (by decide)).seq ?_))))
  rw [if_pos hminor, haction.2, UInt64.ofNat_toNat]
  exact (decodes_readDone (by decide)).seq ((decodes_readDone (by decide)).seq_nil (Decodes.pure _))

/-- The number of an operation reads back to it. -/
theorem WorkerOp.ofNat?_toNat (op : WorkerOp) : WorkerOp.ofNat? op.toNat = some op := by
  cases op <;> rfl

/-- The numbers of operations are small. -/
theorem WorkerOp.toNat_lt (op : WorkerOp) : op.toNat < 2 ^ 32 := by
  cases op <;> decide

section

variable {env : DaemonEnv}

/-- The operation in front of its arguments. -/
theorem decodes_readRequest_of (op : WorkerOp) {w : Str} {r : WorkerRequest DumpedFile}
    (h : Decodes (readArguments env PROTOCOL_VERSION op : SourceM κ _) w r) :
    Decodes (readRequest env PROTOCOL_VERSION : SourceM κ _) (writeInt op.toNat ++ w) r := by
  refine (decodes_readInt op.toNat_lt).seq ?_
  rw [op.ofNat?_toNat]
  exact h

/-- An operation without arguments. -/
theorem decodes_readRequest_nil (op : WorkerOp) {r : WorkerRequest DumpedFile}
    (h : readArguments env PROTOCOL_VERSION op = (pure r : SourceM κ _)) :
    Decodes (readRequest env PROTOCOL_VERSION : SourceM κ _) (writeInt op.toNat) r := by
  have hpure : Decodes (readArguments env PROTOCOL_VERSION op : SourceM κ _) [] r := by
    rw [h]
    exact Decodes.pure r
  have hnil := decodes_readRequest_of op hpure
  rwa [List.append_nil] at hnil

/-- The daemon reads the request that the client has sent. -/
theorem decodes_readRequest {r : WorkerRequest SourceFile} (h : r.Fits env.cfg) :
    ∃ w r', writeRequest PROTOCOL_VERSION r = .ok w ∧ r.received env.dir = .ok r' ∧
      ∀ κ : Type, Decodes (readRequest env PROTOCOL_VERSION : SourceM κ _) w r' := by
  cases r with
  | isValidPath path =>
    exact ⟨_, _, rfl, rfl, fun κ => decodes_readRequest_of .wopIsValidPath
      ((decodes_readStorePath h).map _)⟩
  | queryValidPaths paths =>
    exact ⟨_, _, rfl, rfl, fun κ => decodes_readRequest_of .wopQueryValidPaths
      ((decodes_readStorePaths h).map _)⟩
  | querySubstitutablePaths paths =>
    exact ⟨_, _, rfl, rfl, fun κ => decodes_readRequest_of .wopQuerySubstitutablePaths
      ((decodes_readStorePaths h).map _)⟩
  | queryPathHash path =>
    exact ⟨_, _, rfl, rfl, fun κ => decodes_readRequest_of .wopQueryPathHash
      ((decodes_readStorePath h).map _)⟩
  | queryReferences path =>
    exact ⟨_, _, rfl, rfl, fun κ => decodes_readRequest_of .wopQueryReferences
      ((decodes_readStorePath h).map _)⟩
  | queryReferrers path =>
    exact ⟨_, _, rfl, rfl, fun κ => decodes_readRequest_of .wopQueryReferrers
      ((decodes_readStorePath h).map _)⟩
  | queryDerivationOutputs path =>
    exact ⟨_, _, rfl, rfl, fun κ => decodes_readRequest_of .wopQueryDerivationOutputs
      ((decodes_readStorePath h).map _)⟩
  | queryDerivationOutputNames path =>
    exact ⟨_, _, rfl, rfl, fun κ => decodes_readRequest_of .wopQueryDerivationOutputNames
      ((decodes_readStorePath h).map _)⟩
  | queryDeriver path =>
    exact ⟨_, _, rfl, rfl, fun κ => decodes_readRequest_of .wopQueryDeriver
      ((decodes_readStorePath h).map _)⟩
  | queryPathFromHashPart hashPart =>
    exact ⟨_, _, rfl, rfl, fun κ => decodes_readRequest_of .wopQueryPathFromHashPart
      ((decodes_readString h).map _)⟩
  | addToStore file recursive hashAlgo =>
    obtain ⟨hfile, htype, hregular⟩ := h
    obtain ⟨baseName, hbase, hlen⟩ := baseNameOf_eq hfile.absolute
    obtain ⟨algo, halgo, hparse, halgoLen⟩ := printHashType_eq htype
    refine ⟨_, _, ?_, ?_, fun κ => decodes_readRequest_of .wopAddToStore
      (decodes_readAddToStore hfile (hlen.trans_lt hfile.size) halgoLen hparse hregular)⟩
    · rw [writeRequest, hbase, halgo]
      rfl
    · rw [WorkerRequest.received, SourceFile.dumped, hbase]
      rfl
  | addTextToStore name s references =>
    obtain ⟨hname, hs, hrefs⟩ := h
    exact ⟨_, _, rfl, rfl, fun κ => decodes_readRequest_of .wopAddTextToStore
      ((decodes_readString hname).seq ((decodes_readString hs).seq
        ((decodes_readStorePaths hrefs).seq_nil (Decodes.pure _))))⟩
  | exportPath path sign =>
    refine ⟨_, _, rfl, rfl, fun κ => decodes_readRequest_of .wopExportPath
      ((decodes_readStorePath h).seq ?_)⟩
    cases sign with
    | true => exact (decodes_readInt (n := 1) (by decide)).seq_nil (Decodes.pure _)
    | false => exact (decodes_readInt (n := 0) (by decide)).seq_nil (Decodes.pure _)
  | importPaths =>
    exact ⟨_, _, rfl, rfl, fun κ => decodes_readRequest_nil .wopImportPaths rfl⟩
  | buildPaths drvPaths =>
    exact ⟨_, _, rfl, rfl, fun κ => decodes_readRequest_of .wopBuildPaths
      ((decodes_readStorePaths h).map _)⟩
  | ensurePath path =>
    exact ⟨_, _, rfl, rfl, fun κ => decodes_readRequest_of .wopEnsurePath
      ((decodes_readStorePath h).map _)⟩
  | addTempRoot path =>
    exact ⟨_, _, rfl, rfl, fun κ => decodes_readRequest_of .wopAddTempRoot
      ((decodes_readStorePath h).map _)⟩
  | addIndirectRoot path =>
    obtain ⟨path', hpath⟩ := absPath_eq env.absolute path
    refine ⟨_, .addIndirectRoot path', rfl, ?_, fun κ =>
      decodes_readRequest_of .wopAddIndirectRoot ((decodes_readString h).seq_nil
        ((decodes_ofOutcome hpath).seq_nil (Decodes.pure _)))⟩
    rw [WorkerRequest.received, hpath]
    rfl
  | syncWithGC =>
    exact ⟨_, _, rfl, rfl, fun κ => decodes_readRequest_nil .wopSyncWithGC rfl⟩
  | findRoots =>
    exact ⟨_, _, rfl, rfl, fun κ => decodes_readRequest_nil .wopFindRoots rfl⟩
  | collectGarbage options =>
    exact ⟨_, _, rfl, rfl, fun κ => decodes_readRequest_of .wopCollectGarbage
      ((decodes_readGCOptions h).map _)⟩
  | setOptions options =>
    exact ⟨_, _, rfl, rfl, fun κ => decodes_readRequest_of .wopSetOptions
      ((decodes_readOptions h env.options).map _)⟩
  | querySubstitutablePathInfos paths =>
    exact ⟨_, _, rfl, rfl, fun κ => decodes_readRequest_of .wopQuerySubstitutablePathInfos
      ((decodes_readStorePaths h).map _)⟩
  | queryAllValidPaths =>
    exact ⟨_, _, rfl, rfl, fun κ => decodes_readRequest_nil .wopQueryAllValidPaths rfl⟩
  | queryFailedPaths =>
    exact ⟨_, _, rfl, rfl, fun κ => decodes_readRequest_nil .wopQueryFailedPaths rfl⟩
  | clearFailedPaths paths =>
    exact ⟨_, _, rfl, rfl, fun κ => decodes_readRequest_of .wopClearFailedPaths
      ((decodes_readStrings h).map _)⟩
  | queryPathInfo path =>
    exact ⟨_, _, rfl, rfl, fun κ => decodes_readRequest_of .wopQueryPathInfo
      ((decodes_readStorePath h).map _)⟩

end

/-! ### Replies -/

/-- A hash that the client can parse. -/
structure FitHash (hash : Hash) : Prop where
  type : hash.type = .htSHA256
  size : hash.hash.length = 32

/-- The printed hash reads back. -/
theorem FitHash.parseHash_eq {hash : Hash} (h : FitHash hash) :
    parseHash .htSHA256 (printHash hash) = .ok hash := by
  rw [← h.type]
  refine parseHash_printHash ?_
  rw [h.type, h.size]
  rfl

/-- The printed hash is short. -/
theorem FitHash.length_printHash {hash : Hash} (h : FitHash hash) :
    (printHash hash).length < 2 ^ 32 := by
  rw [Nix.length_printHash, h.size]
  decide

/-- What the store of the daemon returns about a path fits in the format. -/
structure ValidPathInfo.Fits (cfg : StoreConfig) (path : Path) (info : ValidPathInfo) : Prop where
  path : info.path = path
  deriver : FitOptionalPath cfg info.deriver
  hash : FitHash info.hash
  references : FitPaths cfg info.references.toList
  registrationTime : info.registrationTime < 2 ^ 32
  narSize : info.narSize < 2 ^ 64

/-- The result of an operation fits in the format, and the paths are in the store. -/
def WorkerRequest.FitsReply (cfg : StoreConfig) : (r : WorkerRequest SourceFile) → r.Reply → Prop
  | .isValidPath _, _ => True
  | .queryValidPaths _, paths => FitPaths cfg (SortedSet.toList paths)
  | .querySubstitutablePaths _, paths => FitPaths cfg (SortedSet.toList paths)
  | .queryPathHash _, hash => FitHash hash
  | .queryReferences _, paths => FitPaths cfg (SortedSet.toList paths)
  | .queryReferrers _, paths => FitPaths cfg (SortedSet.toList paths)
  | .queryDerivationOutputs _, paths => FitPaths cfg (SortedSet.toList paths)
  | .queryDerivationOutputNames _, names => FitStrings (SortedSet.toList names)
  | .queryDeriver _, path => FitOptionalPath cfg path
  | .queryPathFromHashPart _, path => FitOptionalPath cfg path
  | .addToStore _ _ _, path => FitPath cfg path
  | .addTextToStore _ _ _, path => FitPath cfg path
  | .exportPath _ _, _ => True
  | .importPaths, paths => FitPaths cfg paths
  | .buildPaths _, _ => True
  | .ensurePath _, _ => True
  | .addTempRoot _, _ => True
  | .addIndirectRoot _, _ => True
  | .syncWithGC, _ => True
  | .findRoots, roots =>
    (SortedMap.entries roots).length < 2 ^ 32 ∧
      ∀ e ∈ SortedMap.entries (κ := Path) (β := Path) roots,
        e.1.length < 2 ^ 32 ∧ FitPath cfg e.2
  | .collectGarbage _, results => FitStrings (SortedSet.toList (GCResults.paths results))
  | .setOptions _, _ => True
  | .querySubstitutablePathInfos _, infos =>
    (SortedMap.entries infos).length < 2 ^ 32 ∧
      ∀ e ∈ SortedMap.entries (κ := Path) (β := SubstitutablePathInfo) infos,
        FitPath cfg e.1 ∧ e.2.Fits cfg
  | .queryAllValidPaths, paths => FitPaths cfg (SortedSet.toList paths)
  | .queryFailedPaths, paths => FitPaths cfg (SortedSet.toList paths)
  | .clearFailedPaths _, _ => True
  | .queryPathInfo path, info => ValidPathInfo.Fits cfg path info

/-- The answer to `queryPathInfo` is read back when its time fits. -/
theorem ValidPathInfo.Fits.decodes {cfg : StoreConfig} {path : Path} {info : ValidPathInfo}
    (h : info.Fits cfg path) :
    Decodes (readReply cfg (.queryPathInfo path) : SourceM κ ValidPathInfo)
      (writeReply (.queryPathInfo path) info) info := by
  obtain ⟨rfl, hderiver, hhash, hrefs, htime, hsize⟩ := h
  have hparse := decodes_ofOutcome (κ := κ) hhash.parseHash_eq
  exact (decodes_readOptionalPath hderiver).seq ((decodes_readString hhash.length_printHash).seq
    (hparse.seq ((decodes_readStorePaths hrefs).seq ((decodes_readInt htime).seq
    ((decodes_readLongLong hsize).seq_nil (Decodes.pure _))))))

/-- The client reads the result that the store of the daemon has returned. -/
theorem decodes_readReply {cfg : StoreConfig} {r : WorkerRequest SourceFile} {reply : r.Reply}
    (h : r.FitsReply cfg reply) :
    Decodes (readReply cfg r : SourceM κ r.Reply) (writeReply r reply) reply := by
  have hdone := decodes_readDone (κ := κ) (n := 1) (by decide)
  cases r with
  | isValidPath path =>
    refine (decodes_readBool reply).seq_nil ?_
    cases reply <;> exact Decodes.pure _
  | queryValidPaths paths => exact decodes_readStorePaths h
  | querySubstitutablePaths paths => exact decodes_readStorePaths h
  | queryPathHash path =>
    exact (decodes_readString h.length_printHash).seq_nil (decodes_ofOutcome h.parseHash_eq)
  | queryReferences path => exact decodes_readStorePaths h
  | queryReferrers path => exact decodes_readStorePaths h
  | queryDerivationOutputs path => exact decodes_readStorePaths h
  | queryDerivationOutputNames path => exact decodes_readStrings h
  | queryDeriver path => exact decodes_readOptionalPath h
  | queryPathFromHashPart hashPart => exact decodes_readOptionalPath h
  | addToStore file recursive hashAlgo => exact decodes_readStorePath h
  | addTextToStore name s references => exact decodes_readStorePath h
  | exportPath path sign => exact hdone
  | importPaths => exact decodes_readStorePathList h
  | buildPaths drvPaths => exact hdone
  | ensurePath path => exact hdone
  | addTempRoot path => exact hdone
  | addIndirectRoot path => exact hdone
  | syncWithGC => exact hdone
  | findRoots =>
    exact (decodes_readInt h.1).seq (decodes_readMapEntries fun e he =>
      decodes_readRoot (h.2 e he).1 (h.2 e he).2)
  | collectGarbage options =>
    refine (decodes_readStrings h).seq ((decodes_readUInt64 _).seq
      ((decodes_readLongLong (by decide)).seq_nil ?_))
    rw [UInt64.ofNat_toNat]
    exact Decodes.pure reply
  | setOptions options => exact Decodes.pure ()
  | querySubstitutablePathInfos paths =>
    exact (decodes_readInt h.1).seq (decodes_readMapEntries fun e he =>
      decodes_readSubstitutablePathInfo (h.2 e he).1 (h.2 e he).2)
  | queryAllValidPaths => exact decodes_readStorePaths h
  | queryFailedPaths => exact decodes_readStorePaths h
  | clearFailedPaths paths => exact hdone
  | queryPathInfo path => exact ValidPathInfo.Fits.decodes h

/-! ### Sessions -/

section

variable {k k' : ClientState} {frames : List Frame}

/-- The client is done with the messages of an operation that has succeeded. -/
theorem Accepts.consumes_stopWork (h : Accepts k frames k') :
    Consumes (processStderr PROTOCOL_VERSION) (frames.flatMap Frame.bytes ++ stopWork true [] 0)
      (· = k) fun r k₁ => r = .ok () ∧ k₁ = k' := by
  intro s rest hs hk
  rw [List.append_assoc] at hs
  refine h.ends_processStderr hs hk fun s₁ fuel hs₁ hk₁ => ?_
  rw [stopWork, if_pos rfl] at hs₁
  rw [processStderrLoop]
  refine (decodes_readInt (by decide)).ends hs₁ fun s₂ hs₂ hk₂ => ?_
  rw [if_neg (by decide), if_neg (by decide), if_neg (by decide), if_neg (by decide),
    if_neg (by simp)]
  exact Prog.ends_pure ⟨hs₂, rfl, by rw [hk₂, hk₁]⟩

/-- A piece of data that is not longer than what was asked for is read back. -/
theorem decodes_readData {len : ℕ} {data : Str} (hne : data ≠ []) (hlen : data.length ≤ len)
    (hsize : data.length < 2 ^ 32) :
    Decodes (readData len : SourceM κ Str) (writeString data) data := by
  have hpos := List.length_pos_iff.mpr hne
  unfold writeString
  rw [List.append_assoc]
  refine (decodes_readInt hsize).seq ?_
  rw [if_neg (by omega)]
  refine (decodes_get rfl).seq ((decodes_readPadding data.length).seq_nil ?_)
  rw [if_neg (by omega)]
  exact Decodes.pure data

/-- `source->read` returns the next bytes of the source. -/
theorem ClientState.sendData_ok {k k' : ClientState} {len : ℕ} {src : Source} (hlen : 0 < len)
    (h : ClientState.sendData len src k = (.ok (), k')) :
    ∃ data src', data ≠ [] ∧ data.length ≤ len ∧ src.rest = data ++ src'.rest ∧
      k' = { k with source := some src', sent := k.sent ++ writeString data } := by
  unfold ClientState.sendData Source.read at h
  by_cases hnil : src.rest = []
  · simp [hnil] at h
  · simp only [hnil, if_false, Prod.mk.injEq, true_and] at h
    refine ⟨_, _, ?_, ?_, ?_, h.symm⟩
    · rw [ne_eq, List.take_eq_nil_iff]
      simp [hnil]
      omega
    · rw [List.length_take]
      omega
    · exact (List.take_append_drop _ _).symm

/-- The daemon reads the data that it has asked for, in the order in which it is in the source. -/
theorem Accepts.data (h : Accepts k frames k') (hpos : ∀ len, .read len ∈ frames → 0 < len) :
    ∃ pieces : List Str, k'.sent = k.sent ++ pieces.flatMap writeString ∧
      (∀ κ : Type, Decodes (readFrames frames : SourceM κ (List Str))
        (pieces.flatMap writeString) pieces) ∧
      ∀ src, k.source = some src → pieces.flatten <+: src.rest := by
  induction h with
  | nil => exact ⟨[], by simp, fun κ => Decodes.pure [], fun src _ => List.nil_prefix⟩
  | next size rest ih => exact ih fun len hlen => hpos len (List.mem_cons_of_mem _ hlen)
  | write size sink rest ih => exact ih fun len hlen => hpos len (List.mem_cons_of_mem _ hlen)
  | @read k k₁ k' len src frames size source data rest ih =>
    obtain ⟨pieces, hsent, hdec, hsource⟩ :=
      ih fun len hlen => hpos len (List.mem_cons_of_mem _ hlen)
    obtain ⟨piece, src', hne, hle, hrest, rfl⟩ :=
      ClientState.sendData_ok (hpos len List.mem_cons_self) data
    refine ⟨piece :: pieces, ?_, fun κ => ?_, fun src₀ hsrc₀ => ?_⟩
    · rw [hsent, List.flatMap_cons, List.append_assoc]
    · rw [List.flatMap_cons]
      exact (decodes_readData hne hle (hle.trans_lt size)).seq
        ((hdec κ).seq_nil (Decodes.pure _))
    · rw [source, Option.some.injEq] at hsrc₀
      rw [← hsrc₀, hrest, List.flatten_cons, List.prefix_append_right_inj]
      exact hsource src' rfl

end

/-- An operation that asks the daemon and succeeds: its arguments and its result fit in the format, and
the client accepts the messages of the daemon. -/
structure Exchange.Succeeds (env : DaemonEnv) (k : ClientState) (x : Exchange) (k' : ClientState) :
    Prop where
  asks : x.request.early? = none
  request : x.request.Fits env.cfg
  reply : x.request.FitsReply env.cfg x.reply
  /-- A `TunnelSource` asks for as much as its buffer holds. -/
  positive : ∀ len, .read len ∈ x.frames → 0 < len
  frames : ∀ w, writeRequest PROTOCOL_VERSION x.request = .ok w →
    Accepts (k.begin x.toCall w) x.frames k'

/-- Operations that succeed, one after the other. -/
inductive Session (env : DaemonEnv) : ClientState → List Exchange → ClientState → Prop
  | nil {k : ClientState} : Session env k [] k
  /-- The client answers without the daemon. -/
  | early {k k' : ClientState} {x : Exchange} {xs : List Exchange}
      (reply : x.request.early? = some x.reply) (rest : Session env k xs k') :
      Session env k (x :: xs) k'
  | cons {k k₁ k' : ClientState} {x : Exchange} {xs : List Exchange} (first : x.Succeeds env k k₁)
      (rest : Session env k₁ xs k') : Session env k (x :: xs) k'

/-- What the daemon has got for an operation: the request, and data of the source. -/
structure Exchange.Arrives (env : DaemonEnv) (x : Exchange)
    (p : WorkerRequest DumpedFile × List Str) : Prop where
  request : x.request.received env.dir = .ok p.1
  data : x.request.hasSource = true → p.2.flatten <+: x.source.rest

section

variable {env : DaemonEnv} {k k' : ClientState} {x : Exchange} {xs : List Exchange}

/-- An operation that the client answers without the daemon reads and writes nothing. -/
theorem consumes_clientCall_of_early (h : x.request.early? = some x.reply) :
    Consumes (clientCall env.cfg x.toCall) x.answer (· = k)
      fun r k₁ => r = .ok x.reply ∧ k₁ = k := by
  have hanswer : x.answer = [] := by
    rw [Exchange.answer, Exchange.asks, h]
    rfl
  rw [hanswer, clientCall, h]
  exact Consumes.pure fun k₀ hk₀ => ⟨rfl, hk₀⟩

/-- The client consumes the answer of the daemon and returns the result of its store. -/
theorem Exchange.Succeeds.consumes_clientCall (h : x.Succeeds env k k') :
    Consumes (clientCall env.cfg x.toCall) x.answer (· = k)
      fun r k₁ => r = .ok x.reply ∧ k₁ = k' := by
  have hanswer : x.answer =
      x.frames.flatMap Frame.bytes ++ (stopWork true [] 0 ++ writeReply x.request x.reply) := by
    rw [Exchange.answer, Exchange.asks, h.asks]
    rfl
  rw [hanswer, clientCall, h.asks]
  obtain ⟨w, -, hw, -⟩ := decodes_readRequest h.request
  have hbegin : Consumes (SourceM.lift (Prog.modify fun k => k.begin x.toCall w)) [] (· = k)
      fun _ k₁ => k₁ = k.begin x.toCall w := by
    refine Consumes.lift fun k₀ hk₀ => Prog.ends_modify ?_
    rw [hk₀]
  unfold remoteCall
  rw [← List.append_assoc]
  refine (decodes_ofOutcome hw).bind (hbegin.bind fun _ =>
    (h.frames w hw).consumes_stopWork.bind fun r => ?_)
  cases r with
  | error e =>
    intro s rest hs hk
    exact absurd hk.1 (by simp)
  | ok u =>
    refine ((decodes_readReply h.reply).seq_nil (Decodes.pure (Except.ok x.reply))).consumes ?_
    intro k₁ hk₁
    exact ⟨rfl, hk₁.2⟩

/-- In an exchange that succeeds, the bytes that the client sends are those that the daemon reads. -/
theorem Exchange.Succeeds.arrives (h : x.Succeeds env k k') :
    ∃ sent p, k'.sent = k.sent ++ sent ∧ x.Arrives env p ∧
      ∀ κ : Type, Decodes (daemonCall env x.frames : SourceM κ _) sent p := by
  obtain ⟨w, r, hw, hr, hdec⟩ := decodes_readRequest h.request
  obtain ⟨pieces, hsent, hpieces, hsource⟩ := (h.frames w hw).data h.positive
  refine ⟨w ++ pieces.flatMap writeString, (r, pieces), ?_, ⟨hr, fun hhas => ?_⟩, fun κ => ?_⟩
  · rw [hsent, ClientState.begin, List.append_assoc]
  · exact hsource x.source (if_pos hhas)
  · exact (hdec κ).seq ((hpieces κ).seq_nil (Decodes.pure _))

/-- A call that consumes its answer can be put in front of a session. -/
theorem consumes_clientSession_cons {k₁ : ClientState}
    (hcall : Consumes (clientCall env.cfg x.toCall) x.answer (· = k)
      fun r k₂ => r = .ok x.reply ∧ k₂ = k₁)
    (hrest : Consumes (clientSession env.cfg (xs.map Exchange.toCall)) (xs.flatMap Exchange.answer)
      (· = k₁) fun r k₂ => r = .ok (xs.map Exchange.result) ∧ k₂ = k') :
    Consumes (clientSession env.cfg ((x :: xs).map Exchange.toCall))
      ((x :: xs).flatMap Exchange.answer) (· = k)
      fun r k₂ => r = .ok ((x :: xs).map Exchange.result) ∧ k₂ = k' := by
  rw [List.flatMap_cons]
  refine hcall.bind fun r => ?_
  cases r with
  | error e =>
    intro s rest hs hk
    exact absurd hk.1 (by simp)
  | ok reply =>
    refine Consumes.of_state fun k₀ hk₀ => ?_
    obtain ⟨hreply, rfl⟩ := hk₀
    cases hreply
    refine Consumes.congr (hrest.bind fun r => ?_) (List.append_nil _)
    cases r with
    | error e =>
      intro s rest hs hk
      exact absurd hk.1 (by simp)
    | ok replies =>
      refine Consumes.pure fun k₂ hk₂ => ⟨?_, hk₂.2⟩
      cases hk₂.1
      rfl

/-- After operations that have succeeded, both sides have read what the other side has sent: the client
has returned the results of the store of the daemon, and the daemon has got the requests that the
client has not answered without it. -/
theorem session_inStep (h : Session env k xs k') :
    Consumes (clientSession env.cfg (xs.map Exchange.toCall)) (xs.flatMap Exchange.answer) (· = k)
        (fun r k₁ => r = .ok (xs.map Exchange.result) ∧ k₁ = k') ∧
      ∃ sent received, k'.sent = k.sent ++ sent ∧
        (∀ κ : Type, Decodes (daemonSession env ((xs.filter Exchange.asks).map Exchange.frames) :
          SourceM κ _) sent received) ∧
        List.Forall₂ (Exchange.Arrives env) (xs.filter Exchange.asks) received := by
  induction h with
  | nil =>
    exact ⟨Consumes.pure fun k hk => ⟨rfl, hk⟩, [], [], by simp, fun κ => Decodes.pure [], .nil⟩
  | @early k k' x xs reply rest ih =>
    have hasks : x.asks = false := by rw [Exchange.asks, reply]; rfl
    rw [List.filter_cons_of_neg (by simp [hasks])]
    exact ⟨consumes_clientSession_cons (consumes_clientCall_of_early reply) ih.1, ih.2⟩
  | @cons k k₁ k' x xs first rest ih =>
    obtain ⟨hclient, sent, received, hsent, hdaemon, hreceived⟩ := ih
    obtain ⟨sent₁, p, hsent₁, harrives, hfirst⟩ := first.arrives
    have hasks : x.asks = true := by rw [Exchange.asks, first.asks]; rfl
    rw [List.filter_cons_of_pos hasks]
    refine ⟨consumes_clientSession_cons first.consumes_clientCall hclient, sent₁ ++ sent,
      p :: received, ?_, fun κ => ?_, .cons harrives hreceived⟩
    · rw [hsent, hsent₁, List.append_assoc]
    · exact (hfirst κ).seq ((hdaemon κ).seq_nil (Decodes.pure _))

end

/-- A daemon in the root directory. -/
def sampleDaemon : DaemonEnv where
  cfg := defaultConfig
  dir := str "/"
  absolute := by decide
  options := ⟨false, false, false, 0, 1, 0, true, 0, 0, false, 0, true, ∅⟩

/-- A store path. -/
def samplePath : Path := str "/nix/store/00000000000000000000000000000000-hello"

/-- The sample path fits. -/
theorem fitPath_samplePath : FitPath defaultConfig samplePath := ⟨by decide, by decide⟩

/-- The client asks whether a path is valid. -/
def checkExchange : Exchange :=
  ⟨⟨.isValidPath samplePath, ⟨[], fun _ => 0, 0, []⟩⟩, [.next (str "checking")], true⟩

/-- The client imports something, of which one byte has arrived. -/
def importExchange : Exchange :=
  ⟨⟨.importPaths, ⟨str "data", fun _ => 0, 0, []⟩⟩, [.read 32768], []⟩

/-- The client asks about the substitutes of no paths. -/
def nothingExchange : Exchange :=
  ⟨⟨.querySubstitutablePathInfos ∅, ⟨[], fun _ => 0, 0, []⟩⟩, [],
    (∅ : SortedMap Path SubstitutablePathInfo)⟩

/-- An exchange that asks for validity succeeds from every state. -/
theorem succeeds_checkExchange (k : ClientState) :
    ∃ k', checkExchange.Succeeds sampleDaemon k k' := by
  obtain ⟨w, hw⟩ : ∃ w, writeRequest PROTOCOL_VERSION checkExchange.request = .ok w := ⟨_, rfl⟩
  refine ⟨{ k.begin checkExchange.toCall w with stderr := k.stderr ++ str "checking" },
    rfl, fitPath_samplePath, trivial, by simp [checkExchange], fun w' hw' => ?_⟩
  rw [hw, Outcome.ok.injEq] at hw'
  subst hw'
  exact .next (by decide) .nil

/-- An exchange that imports an archive succeeds from every state. -/
theorem succeeds_importExchange (k : ClientState) :
    ∃ k', importExchange.Succeeds sampleDaemon k k' := by
  obtain ⟨w, hw⟩ : ∃ w, writeRequest PROTOCOL_VERSION importExchange.request = .ok w := ⟨_, rfl⟩
  refine ⟨(ClientState.sendData 32768 importExchange.source
    (k.begin importExchange.toCall w)).2, rfl, trivial, ⟨⟨by decide, by simp [importExchange]⟩,
    by simp [importExchange]⟩, by simp [importExchange], fun w' hw' => ?_⟩
  rw [hw, Outcome.ok.injEq] at hw'
  subst hw'
  exact .read (by decide) rfl rfl .nil

/-- Three operations, of which the daemon sees two. -/
def sampleSession : List Exchange := [checkExchange, nothingExchange, importExchange]

/-- The sample session, from a client that has just connected. -/
theorem session_sampleSession : ∃ k', Session sampleDaemon plainClient sampleSession k' := by
  obtain ⟨k₁, h₁⟩ := succeeds_checkExchange plainClient
  obtain ⟨k₂, h₂⟩ := succeeds_importExchange k₁
  exact ⟨k₂, .cons h₁ (.early rfl (.cons h₂ .nil))⟩

/-- In the sample session the two sides stay in step. -/
theorem session_inStep_sampleSession :
    ∃ k', Consumes (clientSession sampleDaemon.cfg (sampleSession.map Exchange.toCall))
        (sampleSession.flatMap Exchange.answer) (· = plainClient)
        (fun r k₁ => r = .ok (sampleSession.map Exchange.result) ∧ k₁ = k') ∧
      ∃ sent received, k'.sent = plainClient.sent ++ sent ∧
        (∀ κ : Type, Decodes (daemonSession sampleDaemon
          ((sampleSession.filter Exchange.asks).map Exchange.frames) : SourceM κ _) sent received) ∧
        List.Forall₂ (Exchange.Arrives sampleDaemon) (sampleSession.filter Exchange.asks)
          received := by
  obtain ⟨k', hsession⟩ := session_sampleSession
  exact ⟨k', session_inStep hsession⟩

/-- A path that was registered in the year 2106. -/
def lateInfo : ValidPathInfo :=
  ⟨samplePath, [], ⟨.htSHA256, List.replicate 32 0⟩, ∅, 2 ^ 32, 0⟩

/-- A registration time below zero is not read back. -/
theorem not_decodes_lateInfo :
    ¬ Decodes (readReply defaultConfig (.queryPathInfo samplePath) : SourceM Unit ValidPathInfo)
      (writeReply (.queryPathInfo samplePath) lateInfo) lateInfo := by
  intro hdec
  have hfits : ({ lateInfo with registrationTime := 0 } : ValidPathInfo).Fits defaultConfig
      samplePath :=
    ⟨rfl, fun hne => absurd rfl hne, ⟨rfl, rfl⟩, ⟨⟨by decide, by decide⟩, by decide⟩, by decide,
      by decide⟩
  have hcut : writeInt (2 ^ 32) = writeInt 0 := by decide
  have hsame : writeReply (.queryPathInfo samplePath) lateInfo =
      writeReply (.queryPathInfo samplePath) { lateInfo with registrationTime := 0 } := by
    simp only [writeReply, lateInfo, hcut]
  rw [hsame] at hdec
  have heq : lateInfo.registrationTime = 0 :=
    congrArg ValidPathInfo.registrationTime (hdec.unique hfits.decodes)
  exact absurd heq (by decide)

/-- The client rejects a path outside of the store. -/
theorem not_decodes_readOptionalPath {cfg : StoreConfig} {path : Path} (hsize : path.length < 2 ^ 32)
    (hne : path ≠ []) (hstore : isStorePath cfg path = false) :
    ¬ Decodes (readOptionalPath cfg : SourceM Unit Path) (writeString path) path := by
  intro hdec
  have hassert : assertStorePath cfg path =
      .error (str "path `" ++ path ++ str "' is not in the Nix store") := by
    rw [assertStorePath, hstore, if_neg (by decide)]
  have hends : ∀ s : Reading Unit, s.source.rest = writeString path ++ [] →
      (readOptionalPath cfg : SourceM Unit Path).Ends s (fun _ _ => False) fun _ _ => True := by
    intro s hs
    refine (decodes_readString hsize).ends hs fun s' _ _ => ?_
    rw [if_pos hne, hassert]
    exact (Prog.ends_throw (Q := fun _ _ => False) trivial).bind (fun _ _ h => h.elim) fun _ _ => id
  obtain ⟨s, hs⟩ : ∃ s : Reading Unit, s.source.rest = writeString path ++ [] :=
    ⟨⟨⟨_, fun _ => 0, 0, []⟩, ()⟩, rfl⟩
  have hboth := (hdec () s [] hs rfl).and (hends s hs)
  unfold Prog.Ends at hboth
  split at hboth
  · exact hboth.2
  · exact hboth.1

/-- The daemon completes a relative path. -/
theorem not_decodes_relativePath {w : Str}
    (hw : writeRequest PROTOCOL_VERSION (.addIndirectRoot (str "result")) = .ok w) :
    ¬ Decodes (readRequest sampleDaemon PROTOCOL_VERSION : SourceM Unit _) w
      (.addIndirectRoot (str "result")) := by
  intro hdec
  have hfits : (WorkerRequest.addIndirectRoot (str "result")).Fits sampleDaemon.cfg := by
    change (str "result").length < 2 ^ 32
    decide
  obtain ⟨w', r, hw', hr, hdec'⟩ := decodes_readRequest hfits
  have hpath : absPath sampleDaemon.dir (str "result") = .ok (str "/result") := by decide +kernel
  rw [WorkerRequest.received, hpath] at hr
  rw [hw, Outcome.ok.injEq] at hw'
  subst hw'
  have heq : WorkerRequest.addIndirectRoot (str "/result") = .addIndirectRoot (str "result") :=
    (Outcome.ok.inj hr).trans ((hdec' Unit).unique hdec)
  rw [WorkerRequest.addIndirectRoot.injEq] at heq
  exact absurd heq (by decide)

/-- What arrives need not be what was sent: a time is cut to 32 bits, the client rejects a deriver
outside of the store, and the daemon completes a relative path. -/
theorem not_decodes_request_or_reply :
    ¬ Decodes (readReply defaultConfig (.queryPathInfo samplePath) : SourceM Unit ValidPathInfo)
        (writeReply (.queryPathInfo samplePath) lateInfo) lateInfo ∧
      ¬ Decodes (readReply defaultConfig (.queryDeriver samplePath) : SourceM Unit Path)
        (writeReply (.queryDeriver samplePath) (str "unknown-deriver")) (str "unknown-deriver") ∧
      ∃ w, writeRequest PROTOCOL_VERSION (.addIndirectRoot (str "result")) = .ok w ∧
        ¬ Decodes (readRequest sampleDaemon PROTOCOL_VERSION : SourceM Unit _) w
          (.addIndirectRoot (str "result")) :=
  ⟨not_decodes_lateInfo, not_decodes_readOptionalPath (by decide) (by decide) (by decide), _, rfl,
    not_decodes_relativePath rfl⟩

end Nix
