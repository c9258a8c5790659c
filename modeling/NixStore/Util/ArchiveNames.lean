import NixStore.Util.Archive

/-!
# The names in an archive

`parseEntry` compares the wrong string with the empty one, and so it takes entries without a name and
with any name.  `scanNode` reads an archive as `parse` does, without a sink, and stops at a node whose
entry has no proper name; as long as it does not stop there, `parse` passes to its sink the paths that
consist of proper names (`SinkInvariant.safe_parse`).
-/

namespace Nix

/-! ### Reading without a sink -/

/-- The exception at a node whose entry has no proper name. -/
def illegalName : StreamError := .error (str "illegal name")

instance (n : Str) : Decidable (IsFileName n) :=
  decidable_of_iff (n ≠ [] ∧ n.NulFree ∧ slash ∉ n ∧ n ≠ str "." ∧ n ≠ str "..")
    ⟨fun h => ⟨h.1, h.2.1, h.2.2.1, h.2.2.2.1, h.2.2.2.2⟩,
      fun h => ⟨h.ne_nil, h.nulFree, h.noSlash, h.ne_dot, h.ne_dotdot⟩⟩

/-- The bytes of a file, in pieces. -/
def scanChunks : ℕ → ℕ → SourceM Unit Unit
  | 0, _ => pure ()
  | k + 1, left =>
    if left = 0 then pure ()
    else do
      let n := if bufferSize > left then left else bufferSize
      let _ ← Source.get n
      scanChunks k (left - n)

/-- The contents of a file. -/
def scanContents : SourceM Unit Unit := do
  let size ← readLongLong
  scanChunks size size
  readPadding size

mutual

/-- A file. -/
def scanNode : ℕ → SourceM Unit Unit
  | 0 => .throw .outOfFuel
  | fuel + 1 => do
    let s ← readString
    if s ≠ str "(" then .throw (badArchive (str "expected open tag"))
    else scanFields fuel .tpUnknown

/-- The fields of a file. -/
def scanFields : ℕ → NodeType → SourceM Unit Unit
  | 0, _ => .throw .outOfFuel
  | fuel + 1, type => do
    let s ← readString
    if s = str ")" then pure ()
    else if s = str "type" then
      if type ≠ .tpUnknown then .throw (badArchive (str "multiple type fields"))
      else do
        let t ← readString
        if t = str "regular" then scanFields fuel .tpRegular
        else if t = str "directory" then scanFields fuel .tpDirectory
        else if t = str "symlink" then scanFields fuel .tpSymlink
        else .throw (badArchive (str "unknown file type " ++ t))
    else if s = str "contents" ∧ type = .tpRegular then do
      scanContents
      scanFields fuel type
    else if s = str "executable" ∧ type = .tpRegular then do
      let _ ← readString
      scanFields fuel type
    else if s = str "entry" ∧ type = .tpDirectory then do
      scanEntry fuel
      scanFields fuel type
    else if s = str "target" ∧ type = .tpSymlink then do
      let _ ← readString
      scanFields fuel type
    else .throw (badArchive (str "unknown field " ++ s))

/-- An entry of a directory. -/
def scanEntry : ℕ → SourceM Unit Unit
  | 0 => .throw .outOfFuel
  | fuel + 1 => do
    let s ← readString
    if s ≠ str "(" then .throw (badArchive (str "expected open tag"))
    else scanEntryFields fuel []

/-- The fields of an entry, with the name read so far. -/
def scanEntryFields : ℕ → Str → SourceM Unit Unit
  | 0, _ => .throw .outOfFuel
  | fuel + 1, name => do
    let s ← readString
    if s = str ")" then pure ()
    else if s = str "name" then do
      let name ← readString
      scanEntryFields fuel name
    else if s = str "node" then
      if ¬ IsFileName name then .throw illegalName
      else do
        scanNode fuel
        scanEntryFields fuel name
    else .throw (badArchive (str "unknown field " ++ s))

end

/-- An archive. -/
def scanDump (fuel : ℕ) : SourceM Unit Unit := do
  let version ← readVersion
  if version ≠ archiveVersion1 then
    .throw (badArchive (str "input doesn't look like a Nix archive"))
  else scanNode fuel

/-- Wherever an entry of the archive comes to its node, the last name that it had is the name of a
file. -/
def NamesChecked (source : Source) : Prop :=
  (scanDump source.rest.length ⟨source, ()⟩).1 ≠ .error illegalName

/-! ### Programs that read the same -/

section

variable {κ α β : Type}

/-- Two programs read the same and have the same result, and the second one does nothing else. -/
def SameReads (m₁ : SourceM Unit α) (m₂ : SourceM κ α) : Prop :=
  ∀ s₁ s₂, s₁.source = s₂.source → (m₁ s₁).1 = (m₂ s₂).1 ∧ (m₁ s₁).2.source = (m₂ s₂).2.source ∧
    (m₂ s₂).2.other = s₂.other

namespace SameReads

variable {m₁ : SourceM Unit α} {m₂ : SourceM κ α} {f₁ : α → SourceM Unit β} {f₂ : α → SourceM κ β}

/-- Returning a value reads nothing. -/
theorem pure (a : α) : SameReads (Pure.pure a : SourceM Unit α) (Pure.pure a : SourceM κ α) :=
  fun _ _ h => ⟨rfl, h, rfl⟩

/-- Throwing reads nothing. -/
theorem throw (e : StreamError) :
    SameReads (Prog.throw e : SourceM Unit α) (Prog.throw e : SourceM κ α) :=
  fun _ _ h => ⟨rfl, h, rfl⟩

/-- Two computations in a row read the same if each does. -/
theorem bind (hm : SameReads m₁ m₂) (hf : ∀ a, SameReads (f₁ a) (f₂ a)) :
    SameReads (m₁ >>= f₁) (m₂ >>= f₂) := by
  intro s₁ s₂ hs
  obtain ⟨hres, hsource, hother⟩ := hm s₁ s₂ hs
  rw [Prog.bind_apply, Prog.bind_apply]
  rcases h₁ : m₁ s₁ with ⟨r₁, t₁⟩
  rcases h₂ : m₂ s₂ with ⟨r₂, t₂⟩
  rw [h₁, h₂] at hres hsource
  rw [h₂] at hother
  dsimp only at hres hsource hother
  subst hres
  cases r₁ with
  | error e => exact ⟨rfl, hsource, hother⟩
  | ok a =>
    obtain ⟨hres', hsource', hother'⟩ := hf a t₁ t₂ hsource
    exact ⟨hres', hsource', hother'.trans hother⟩

/-- A test reads the same on both sides if the branches do. -/
theorem ite {c : Prop} [Decidable c] {m₁' : SourceM Unit α} {m₂' : SourceM κ α}
    (h : SameReads m₁ m₂) (h' : SameReads m₁' m₂') :
    SameReads (if c then m₁ else m₁') (if c then m₂ else m₂') := by
  split_ifs
  · exact h
  · exact h'

end SameReads

/-- One read from the source does not depend on the rest of the state. -/
theorem sameReads_read (len : ℕ) :
    SameReads (Source.read len : SourceM Unit Str) (Source.read len : SourceM κ Str) := by
  intro s₁ s₂ hs
  unfold Source.read
  rw [hs]
  split_ifs
  · exact ⟨rfl, hs, rfl⟩
  · exact ⟨rfl, rfl, rfl⟩

/-- The loop that fills a buffer reads the same. -/
theorem sameReads_getLoop (k len : ℕ) (data : Str) :
    SameReads (Source.getLoop k len data : SourceM Unit Str)
      (Source.getLoop k len data : SourceM κ Str) := by
  induction k generalizing len data with
  | zero => exact .pure _
  | succ k ih => exact .ite (.pure _) ((sameReads_read len).bind fun _ => ih _ _)

/-- Reading a number of bytes. -/
theorem sameReads_get (len : ℕ) :
    SameReads (Source.get len : SourceM Unit Str) (Source.get len : SourceM κ Str) :=
  sameReads_getLoop len len []

/-- Reading the padding behind a string. -/
theorem sameReads_readPadding (len : ℕ) :
    SameReads (readPadding len : SourceM Unit Unit) (readPadding len : SourceM κ Unit) :=
  .ite ((sameReads_get _).bind fun _ => .ite (.throw _) (.pure _)) (.pure _)

/-- Reading an integer. -/
theorem sameReads_readInt : SameReads (readInt : SourceM Unit ℕ) (readInt : SourceM κ ℕ) :=
  (sameReads_get 8).bind fun _ => .ite (.throw _) (.pure _)

/-- Reading a long integer. -/
theorem sameReads_readLongLong :
    SameReads (readLongLong : SourceM Unit ℕ) (readLongLong : SourceM κ ℕ) :=
  (sameReads_get 8).bind fun _ => .pure _

/-- Reading a string. -/
theorem sameReads_readString : SameReads (readString : SourceM Unit Str) (readString : SourceM κ Str) :=
  sameReads_readInt.bind fun len => (sameReads_get len).bind fun _ =>
    (sameReads_readPadding len).bind fun _ => .pure _

/-- Reading the version of the archive. -/
theorem sameReads_readVersion :
    SameReads (readVersion : SourceM Unit Str) (readVersion : SourceM κ Str) := by
  intro s₁ s₂ hs
  obtain ⟨hres, hsource, hother⟩ := sameReads_readString s₁ s₂ hs
  unfold readVersion
  rcases h₁ : (readString : SourceM Unit Str) s₁ with ⟨r₁, t₁⟩
  rcases h₂ : (readString : SourceM κ Str) s₂ with ⟨r₂, t₂⟩
  rw [h₁, h₂] at hres hsource
  rw [h₂] at hother
  dsimp only at hres hsource hother
  subst hres
  rcases r₁ with (_ | _ | _ | _ | _) | a
  all_goals exact ⟨rfl, hsource, hother⟩

/-- The second program does what the first one does and more, unless the first one comes to an illegal
name: then `Q` holds when it returns, and `E` when it throws. -/
def Follows (E : κ → Prop) (m₁ : SourceM Unit α) (m₂ : SourceM κ α) (P Q : κ → Prop) : Prop :=
  ∀ s₁ s₂, s₁.source = s₂.source → (m₁ s₁).1 ≠ .error illegalName → P s₂.other →
    m₂.Ends s₂ (fun a t₂ => Q t₂.other ∧ ∃ t₁, m₁ s₁ = (.ok a, t₁) ∧ t₁.source = t₂.source)
      fun _ t₂ => E t₂.other

namespace Follows

variable {E P Q R : κ → Prop} {m₁ : SourceM Unit α} {m₂ : SourceM κ α} {f₁ : α → SourceM Unit β}
  {f₂ : α → SourceM κ β}

/-- A parser may return when the invariant holds. -/
theorem pure {a : α} (h : ∀ k, P k → Q k) : Follows E (Pure.pure a) (Pure.pure a) P Q :=
  fun s₁ _ hs _ hP => Prog.ends_pure ⟨h _ hP, s₁, rfl, hs⟩

/-- A parser may throw when the invariant allows to stop there. -/
theorem throw {e : StreamError} (h : ∀ k, P k → E k) : Follows E m₁ (Prog.throw e) P Q :=
  fun _ _ _ _ hP => Prog.ends_throw (h _ hP)

/-- Nothing is said about what comes after an illegal name. -/
theorem illegalName : Follows E (Prog.throw illegalName) m₂ P Q :=
  fun _ _ _ hne _ => absurd rfl hne

/-- A parser that only reads follows its scanner. -/
theorem of_sameReads (h : SameReads m₁ m₂) (hE : ∀ k, P k → E k) : Follows E m₁ m₂ P P := by
  intro s₁ s₂ hs _ hP
  obtain ⟨hres, hsource, hother⟩ := h s₁ s₂ hs
  unfold Prog.Ends
  rcases h₁ : m₁ s₁ with ⟨r₁, t₁⟩
  rcases h₂ : m₂ s₂ with ⟨r₂, t₂⟩
  rw [h₁, h₂] at hres hsource
  rw [h₂] at hother
  dsimp only at hres hsource hother
  subst hres
  cases r₁ with
  | error e => exact hE _ (hother ▸ hP)
  | ok a => exact ⟨hother ▸ hP, t₁, rfl, hsource⟩

/-- Following goes from a computation to the next. -/
theorem bind (hm : Follows E m₁ m₂ P R) (hf : ∀ a, Follows E (f₁ a) (f₂ a) R Q) :
    Follows E (m₁ >>= f₁) (m₂ >>= f₂) P Q := by
  intro s₁ s₂ hs hne hP
  have hne₁ : (m₁ s₁).1 ≠ .error Nix.illegalName := by
    intro h
    refine hne ?_
    rw [Prog.bind_apply]
    rcases h₁ : m₁ s₁ with ⟨r₁, t₁⟩
    rw [h₁] at h
    dsimp only at h
    rw [h]
  refine (hm s₁ s₂ hs hne₁ hP).bind (fun a t₂ h => ?_) fun _ _ h => h
  obtain ⟨hR, t₁, h₁, hsource⟩ := h
  rw [Prog.bind_apply, h₁] at hne ⊢
  exact hf a t₁ t₂ hsource hne hR

/-- An operation of the sink in between. -/
theorem lift_bind {m : Prog κ StreamError β} {n₁ : SourceM Unit α} {f : β → SourceM κ α}
    (hm : ∀ k, P k → m.Ends k (fun _ => R) fun _ => E) (hf : ∀ b, Follows E n₁ (f b) R Q) :
    Follows E n₁ (SourceM.lift m >>= f) P Q := by
  intro s₁ s₂ hs hne hP
  have hends := hm _ hP
  unfold Prog.Ends at hends ⊢
  rw [Prog.bind_apply, SourceM.lift]
  rcases hr : m s₂.other with ⟨e | b, k⟩
  · rw [hr] at hends
    exact hends
  · rw [hr] at hends
    exact hf b s₁ { s₂ with other := k } hs hne hends

/-- Following with a stronger condition before and a weaker one after. -/
theorem mono {P' Q' : κ → Prop} (h : Follows E m₁ m₂ P Q) (hP : ∀ k, P' k → P k)
    (hQ : ∀ k, Q k → Q' k) : Follows E m₁ m₂ P' Q' :=
  fun s₁ s₂ hs hne hP' => (h s₁ s₂ hs hne (hP _ hP')).mono (fun _ _ h => ⟨hQ _ h.1, h.2⟩) fun _ _ h => h

/-- Following in each branch of a test. -/
theorem ite {c : Prop} [Decidable c] {m₁' : SourceM Unit α} {m₂' : SourceM κ α}
    (h : c → Follows E m₁ m₂ P Q) (h' : ¬ c → Follows E m₁' m₂' P Q) :
    Follows E (if c then m₁ else m₁') (if c then m₂ else m₂') P Q := by
  split_ifs with hc
  · exact h hc
  · exact h' hc

end Follows

end

/-! ### What the parser passes to its sink -/

/-- The names of a file, when the files with the names in `dirs` are directories that the parser has
made. -/
structure IsPlace (dirs : List (List Str)) (names : List Str) : Prop where
  isFileName : ∀ n ∈ names, IsFileName n
  parent : names = [] ∨ names.dropLast ∈ dirs

/-- What the operations of a sink keep, when they are called for proper names; the first argument of the
invariant has the directories that have been made. -/
structure SinkInvariant {κ : Type} (sink : ParseSink κ) (J : List (List Str) → κ → Prop) : Prop where
  mono : ∀ {dirs names k}, J (names :: dirs) k → J dirs k
  createDirectory : ∀ {dirs names k}, IsPlace dirs names → J dirs k →
    (sink.createDirectory (subPath names)).Ends k (fun _ => J (names :: dirs)) fun _ => J dirs
  createRegularFile : ∀ {dirs names k}, IsPlace dirs names → J dirs k →
    (sink.createRegularFile (subPath names)).Ends k (fun _ => J dirs) fun _ => J dirs
  createSymlink : ∀ {dirs names k} (target : Str), IsPlace dirs names → J dirs k →
    (sink.createSymlink (subPath names) target).Ends k (fun _ => J dirs) fun _ => J dirs
  isExecutable : ∀ {dirs k}, J dirs k → sink.isExecutable.Ends k (fun _ => J dirs) fun _ => J dirs
  preallocateContents : ∀ {dirs k} (len : ℕ), J dirs k →
    (sink.preallocateContents len).Ends k (fun _ => J dirs) fun _ => J dirs
  receiveContents : ∀ {dirs k} (data : Str), J dirs k →
    (sink.receiveContents data).Ends k (fun _ => J dirs) fun _ => J dirs

namespace SinkInvariant

variable {κ : Type} {sink : ParseSink κ} {J : List (List Str) → κ → Prop} {dirs : List (List Str)}
  {names : List Str} {k : κ}

/-- An invariant that knows directories holds without knowing them. -/
theorem nil (h : SinkInvariant sink J) (hk : J dirs k) : J [] k := by
  induction dirs with
  | nil => exact hk
  | cons names dirs ih => exact ih (h.mono hk)

/-- What the sink does keeps the invariant, also when it throws. -/
theorem of_ends {m : Prog κ StreamError Unit} (h : SinkInvariant sink J)
    {Q : Unit → κ → Prop} (hm : m.Ends k Q fun _ => J dirs) : m.Ends k Q fun _ => J [] :=
  hm.mono (fun _ _ => id) fun _ _ => h.nil

/-- The chunks of a file are handed to the sink one by one. -/
theorem follows_chunks (h : SinkInvariant sink J) (n left : ℕ) :
    Follows (J []) (scanChunks n left) (parseChunks sink n left) (J dirs) (J dirs) := by
  induction n generalizing left with
  | zero => exact .pure fun _ => id
  | succ n ih =>
    refine .ite (fun _ => .pure fun _ => id) fun _ => ?_
    refine (Follows.of_sameReads (sameReads_get _) fun _ => h.nil).bind fun buf => ?_
    exact .lift_bind (fun _ hk => h.of_ends (h.receiveContents buf hk)) fun _ => ih _

/-- The contents of a file are handed to the sink. -/
theorem follows_contents (h : SinkInvariant sink J) :
    Follows (J []) scanContents (parseContents sink) (J dirs) (J dirs) := by
  refine (Follows.of_sameReads sameReads_readLongLong fun _ => h.nil).bind fun size => ?_
  refine .lift_bind (fun _ hk => h.of_ends (h.preallocateContents size hk)) fun _ => ?_
  refine (h.follows_chunks size size).bind fun _ => ?_
  exact .of_sameReads (sameReads_readPadding size) fun _ => h.nil

/-- The parser at a file, at the fields of a file, at an entry and at the fields of an entry. -/
structure Following (sink : ParseSink κ) (J : List (List Str) → κ → Prop) (fuel : ℕ) : Prop where
  node : ∀ {dirs names}, IsPlace dirs names →
    Follows (J []) (scanNode fuel) (parse sink fuel (subPath names)) (J dirs) (J dirs)
  fields : ∀ {dirs names type}, IsPlace dirs names → (type = .tpDirectory → names ∈ dirs) →
    Follows (J []) (scanFields fuel type) (parseFields sink fuel (subPath names) type) (J dirs) (J dirs)
  entry : ∀ {dirs names}, IsPlace dirs names → names ∈ dirs →
    Follows (J []) (scanEntry fuel) (parseEntry sink fuel (subPath names)) (J dirs) (J dirs)
  entryFields : ∀ {dirs names name}, IsPlace dirs names → names ∈ dirs →
    Follows (J []) (scanEntryFields fuel name) (parseEntryFields sink fuel (subPath names) name)
      (J dirs) (J dirs)

/-- A string is read without the sink. -/
theorem follows_readString (h : SinkInvariant sink J) :
    Follows (J []) readString (readString : SourceM κ Str) (J dirs) (J dirs) :=
  .of_sameReads sameReads_readString fun _ => h.nil

/-- Without fuel a parser throws. -/
theorem following_zero (h : SinkInvariant sink J) : Following sink J 0 where
  node _ := .throw fun _ => h.nil
  fields _ _ := .throw fun _ => h.nil
  entry _ _ := .throw fun _ => h.nil
  entryFields _ _ := .throw fun _ => h.nil

/-- A node: its parenthesis and its fields. -/
theorem follows_node_succ (h : SinkInvariant sink J) {fuel : ℕ} (ih : Following sink J fuel)
    (hplace : IsPlace dirs names) :
    Follows (J []) (scanNode (fuel + 1)) (parse sink (fuel + 1) (subPath names)) (J dirs) (J dirs) := by
  rw [scanNode, parse]
  refine h.follows_readString.bind fun s => .ite (fun _ => .throw fun _ => h.nil) fun _ => ?_
  exact ih.fields hplace fun htype => by cases htype

/-- A field of a node, by cases on its tag and on the type so far. -/
theorem follows_fields_succ (h : SinkInvariant sink J) {fuel : ℕ} (ih : Following sink J fuel)
    (hplace : IsPlace dirs names) {type : NodeType} (htype : type = .tpDirectory → names ∈ dirs) :
    Follows (J []) (scanFields (fuel + 1) type) (parseFields sink (fuel + 1) (subPath names) type)
      (J dirs) (J dirs) := by
  have hmore : Follows (J []) (scanFields fuel type) (parseFields sink fuel (subPath names) type)
      (J dirs) (J dirs) := ih.fields hplace htype
  rw [scanFields, parseFields]
  refine h.follows_readString.bind fun s => .ite (fun _ => .pure fun _ => id) fun _ => ?_
  refine .ite (fun _ => .ite (fun _ => .throw fun _ => h.nil) fun _ => ?_) fun _ => ?_
  · refine h.follows_readString.bind fun t => .ite (fun _ => ?_) fun _ => .ite (fun _ => ?_) fun _ => ?_
    · refine .lift_bind (fun _ hk => h.of_ends (h.createRegularFile hplace hk)) fun _ => ?_
      exact ih.fields hplace fun htype => by cases htype
    · refine .lift_bind (fun _ hk => h.of_ends (h.createDirectory hplace hk)) fun _ => ?_
      have hplace' : IsPlace (names :: dirs) names :=
        ⟨hplace.isFileName, hplace.parent.imp_right (List.mem_cons_of_mem names)⟩
      exact (ih.fields hplace' fun _ => List.mem_cons_self).mono (fun _ => id) fun _ => h.mono
    · refine .ite (fun _ => ?_) fun _ => .throw fun _ => h.nil
      exact ih.fields hplace fun htype => by cases htype
  refine .ite (fun _ => h.follows_contents.bind fun _ => hmore) fun _ => ?_
  refine .ite (fun _ => ?_) fun _ => .ite (fun hentry => ?_) fun _ => .ite (fun _ => ?_) fun _ => ?_
  · refine h.follows_readString.bind fun _ => ?_
    exact .lift_bind (fun _ hk => h.of_ends (h.isExecutable hk)) fun _ => hmore
  · exact (ih.entry hplace (htype hentry.2)).bind fun _ => hmore
  · refine h.follows_readString.bind fun target => ?_
    exact .lift_bind (fun _ hk => h.of_ends (h.createSymlink target hplace hk)) fun _ => hmore
  · exact .throw fun _ => h.nil

/-- An entry of a directory: its parenthesis and its fields. -/
theorem follows_entry_succ (h : SinkInvariant sink J) {fuel : ℕ} (ih : Following sink J fuel)
    (hplace : IsPlace dirs names) (hdir : names ∈ dirs) :
    Follows (J []) (scanEntry (fuel + 1)) (parseEntry sink (fuel + 1) (subPath names)) (J dirs)
      (J dirs) := by
  rw [scanEntry, parseEntry]
  refine h.follows_readString.bind fun s => .ite (fun _ => .throw fun _ => h.nil) fun _ => ?_
  exact ih.entryFields hplace hdir

/-- A field of an entry; the name is checked before the node is parsed. -/
theorem follows_entryFields_succ (h : SinkInvariant sink J) {fuel : ℕ} (ih : Following sink J fuel)
    (hplace : IsPlace dirs names) (hdir : names ∈ dirs) {name : Str} :
    Follows (J []) (scanEntryFields (fuel + 1) name)
      (parseEntryFields sink (fuel + 1) (subPath names) name) (J dirs) (J dirs) := by
  rw [scanEntryFields, parseEntryFields]
  refine h.follows_readString.bind fun s => .ite (fun _ => .pure fun _ => id) fun _ => ?_
  refine .ite (fun _ => ?_) fun _ => .ite (fun hnode => ?_) fun _ => .throw fun _ => h.nil
  · exact h.follows_readString.bind fun name => ih.entryFields hplace hdir
  · have hs : s ≠ [] := by
      rw [hnode]
      decide
    rw [if_neg hs]
    by_cases hname : IsFileName name
    · rw [if_neg (not_not.mpr hname)]
      have hplace' : IsPlace dirs (names ++ [name]) := by
        refine ⟨fun n hn => ?_, Or.inr ?_⟩
        · rcases List.mem_append.mp hn with hn | hn
          · exact hplace.isFileName n hn
          · rwa [List.mem_singleton.mp hn]
        · rwa [List.dropLast_concat]
      have hpath : subPath names ++ str "/" ++ name = subPath (names ++ [name]) := by
        rw [subPath_concat, List.append_assoc]
        rfl
      rw [hpath]
      exact (ih.node hplace').bind fun _ => ih.entryFields hplace hdir
    · rw [if_pos hname]
      exact .illegalName

/-- As long as there is no illegal name, the operations of a sink are called for proper names only. -/
theorem following (h : SinkInvariant sink J) (fuel : ℕ) : Following sink J fuel := by
  induction fuel with
  | zero => exact h.following_zero
  | succ fuel ih =>
    exact ⟨h.follows_node_succ ih, fun hplace htype => h.follows_fields_succ ih hplace htype,
      h.follows_entry_succ ih, fun hplace hdir => h.follows_entryFields_succ ih hplace hdir⟩

/-- The whole archive: its version and its root. -/
theorem follows_dump (h : SinkInvariant sink J) (fuel : ℕ) :
    Follows (J []) (scanDump fuel) (parseDump sink fuel) (J []) (J []) := by
  refine (Follows.of_sameReads sameReads_readVersion fun _ => id).bind fun version => ?_
  refine .ite (fun _ => .throw fun _ => id) fun _ => ?_
  exact (h.following fuel).node ⟨fun _ hn => absurd hn List.not_mem_nil, Or.inl rfl⟩

/-- What a sink keeps is kept by `parseDump` on an archive with proper names. -/
theorem of_namesChecked (h : SinkInvariant sink J) {source : Source} (hnames : NamesChecked source)
    (hk : J [] k) : J [] (parseDump sink source.rest.length ⟨source, k⟩).2.other := by
  have hends := h.follows_dump source.rest.length ⟨source, ()⟩ ⟨source, k⟩ rfl hnames hk
  unfold Prog.Ends at hends
  rcases hrun : parseDump sink source.rest.length ⟨source, k⟩ with ⟨e | a, s⟩
  · rw [hrun] at hends
    exact hends
  · rw [hrun] at hends
    exact hends.1

end SinkInvariant

end Nix
