import NixStore.Lib.SortedMap
import NixStore.Util.Archive

/-!
# The round trip of archives

`restorePath` recreates the tree of files whose dump it reads, for every way in which the source cuts
the bytes into pieces.  The file system is compared location by location: `Grafted fs l t fs'` says
that `fs'` is `fs` with the tree `t` at the location `l`.
-/

namespace Nix

/-! ### Trees of files -/

/-- What is at a location in a tree. -/
def FileTree.lookup : Loc → FileTree → Option FileEntry
  | [], .regular x c => some (.regular x c)
  | [], .directory _ => some .directory
  | [], .symlink target => some (.symlink target)
  | n :: l, .directory entries =>
    match entries.lookup n with
    | some file => FileTree.lookup l file
    | none => none
  | _ :: _, .regular _ _ => none
  | _ :: _, .symlink _ => none

/-- The trees of files that can exist and whose sizes an archive has room for. -/
inductive FileTree.Valid : FileTree → Prop
  | regular {x : Bool} {c : Str} (size : c.length < 2 ^ 64) : Valid (.regular x c)
  | directory {entries : List (Str × FileTree)} (nodup : (entries.map Prod.fst).Nodup)
      (names : ∀ e ∈ entries, IsFileName e.1 ∧ e.1.length < 2 ^ 32)
      (files : ∀ e ∈ entries, Valid e.2) : Valid (.directory entries)
  | symlink {target : Str} (nulFree : target.NulFree) (size : target.length < 2 ^ 32) :
      Valid (.symlink target)

/-- The order in which the entries of a directory are listed does not matter. -/
theorem FileTree.lookup_perm {entries entries' : List (Str × FileTree)}
    (hperm : entries.Perm entries') (hnodup : (entries.map Prod.fst).Nodup) (l : Loc) :
    (FileTree.directory entries).lookup l = (FileTree.directory entries').lookup l := by
  cases l with
  | nil => rfl
  | cons n l =>
    have heq : entries.lookup n = entries'.lookup n := by
      apply Option.ext
      intro t
      rw [SortedMap.lookup_eq_some_iff_of_nodup hnodup,
        SortedMap.lookup_eq_some_iff_of_nodup ((hperm.map _).nodup_iff.mp hnodup)]
      exact hperm.mem_iff
    unfold FileTree.lookup
    rw [heq]

/-- The second file system is the first one with a tree at a location. -/
structure Grafted (fs : FileSystem) (l : Loc) (t : FileTree) (fs' : FileSystem) : Prop where
  inside : ∀ p, fs'.entry (l ++ p) = t.lookup p
  outside : ∀ k, ¬ l <+: k → fs'.entry k = fs.entry k

namespace Grafted

variable {fs fs' fs'' : FileSystem} {l : Loc}

/-- There is nothing below a location where there is nothing. -/
theorem entry_eq_none (habsent : fs.entry l = none) (p : Loc) : fs.entry (l ++ p) = none := by
  by_cases hp : p = []
  · rw [hp, List.append_nil, habsent]
  · by_contra h
    rw [FileSystem.entry_of_append hp h] at habsent
    exact absurd habsent (by simp)

/-- Grafting keeps the files that were there. -/
theorem keeps {t : FileTree} (h : Grafted fs l t fs') (habsent : fs.entry l = none) :
    fs.Keeps fs' := by
  intro k e hk
  rw [h.outside k, hk]
  rintro ⟨p, rfl⟩
  rw [entry_eq_none habsent p] at hk
  exact absurd hk (by simp)

/-- A new file without anything below it. -/
theorem of_create {t : FileTree} {e : FileEntry} (habsent : fs.entry l = none)
    (hentry : ∀ k, fs'.entry k = if k = l then some e else fs.entry k) (hnil : t.lookup [] = some e)
    (hcons : ∀ n p, t.lookup (n :: p) = none) : Grafted fs l t fs' where
  inside p := by
    rw [hentry]
    cases p with
    | nil => rw [List.append_nil, if_pos rfl, hnil]
    | cons n p => rw [if_neg (by simp), entry_eq_none habsent, hcons]
  outside k hk := by
    rw [hentry, if_neg]
    rintro rfl
    exact hk List.prefix_rfl

/-- Another file at the same location. -/
theorem of_set {x x' : Bool} {c c' : Str} (h : Grafted fs l (.regular x c) fs')
    (hentry : ∀ k, fs''.entry k = if k = l then some (.regular x' c') else fs'.entry k) :
    Grafted fs l (.regular x' c') fs'' where
  inside p := by
    rw [hentry]
    cases p with
    | nil => rw [List.append_nil, if_pos rfl, FileTree.lookup]
    | cons n p => rw [if_neg (by simp), h.inside, FileTree.lookup, FileTree.lookup]
  outside k hk := by
    rw [hentry, if_neg, h.outside k hk]
    rintro rfl
    exact hk List.prefix_rfl

/-- One more entry in a directory. -/
theorem snoc {done : List (Str × FileTree)} {n : Str} {t : FileTree}
    (h : Grafted fs l (.directory done) fs') (h' : Grafted fs' (l ++ [n]) t fs'')
    (hn : n ∉ done.map Prod.fst) : Grafted fs l (.directory (done ++ [(n, t)])) fs'' where
  inside p := by
    cases p with
    | nil =>
      rw [h'.outside, h.inside]
      · rfl
      · intro hp
        have := hp.length_le
        simp at this
    | cons m p =>
      by_cases hm : m = n
      · subst hm
        have hlookup : (done ++ [(m, t)]).lookup m = some t := by
          rw [List.lookup_append, List.lookup_eq_none_iff.mpr]
          · simp
          · intro e he
            simpa using fun heq : m = e.1 => hn (heq ▸ List.mem_map_of_mem he)
        rw [List.append_cons, h'.inside, FileTree.lookup, hlookup]
      · have hlookup : (done ++ [(n, t)]).lookup m = done.lookup m := by
          rw [List.lookup_append]
          simp [List.lookup_cons, beq_eq_false_iff_ne.mpr hm]
        rw [h'.outside, h.inside, FileTree.lookup, FileTree.lookup, hlookup]
        rw [List.prefix_append_right_inj]
        intro hp
        exact hm (List.cons_prefix_cons.mp hp).1.symm
  outside k hk := by
    rw [h'.outside k fun hp => hk ((List.prefix_append l [n]).trans hp), h.outside k hk]

/-- Only what is at the locations of a tree matters. -/
theorem congr {t t' : FileTree} (h : Grafted fs l t fs') (ht : ∀ p, t.lookup p = t'.lookup p) :
    Grafted fs l t' fs' where
  inside p := by rw [h.inside, ht]
  outside := h.outside

end Grafted

/-! ### The operations of the sink -/

section

variable {cwd : Loc} {dst : Path} {fs : FileSystem} {path : Path} {dir : Loc} {n : Str}
  {k : RestoreState}

/-- `mkdir` grafts an empty directory. -/
theorem ends_createDirectory (h : fs.Creatable cwd (dst ++ path) dir n) (hk : k.fs = fs) :
    (RestoreSink.createDirectory cwd dst path).Ends k
      (fun _ k' => Grafted fs (dir ++ [n]) (.directory []) k'.fs) fun _ _ => False := by
  obtain ⟨fs', hcreate, hentry⟩ := h.create .directory
  unfold Prog.Ends RestoreSink.createDirectory
  rw [hk, hcreate]
  exact Grafted.of_create h.absent hentry rfl fun _ _ => rfl

/-- `symlink` grafts the link. -/
theorem ends_createSymlink (h : fs.Creatable cwd (dst ++ path) dir n) {target : Str}
    (htarget : target.NulFree) (hk : k.fs = fs) :
    (RestoreSink.createSymlink cwd dst path target).Ends k
      (fun _ k' => Grafted fs (dir ++ [n]) (.symlink target) k'.fs) fun _ _ => False := by
  obtain ⟨fs', hcreate, hentry⟩ := h.create (.symlink target)
  unfold Prog.Ends RestoreSink.createSymlink
  rw [hk, Str.cut_eq_self htarget, hcreate]
  exact Grafted.of_create h.absent hentry rfl fun _ _ => rfl

/-- A regular file is being written: this much of its contents is there, followed by at most `left`
bytes of which nothing is known. -/
def Writing (fs : FileSystem) (l : Loc) (x : Bool) (done : Str) (left : ℕ) (k : RestoreState) :
    Prop :=
  k.fd = some (l, done.length) ∧
    ∃ z : Str, z.length ≤ left ∧ Grafted fs l (.regular x (done ++ z)) k.fs

/-- `open` grafts an empty file, which is then written. -/
theorem ends_createRegularFile (h : fs.Creatable cwd (dst ++ path) dir n) (hk : k.fs = fs) :
    (RestoreSink.createRegularFile cwd dst path).Ends k
      (fun _ k' => Writing fs (dir ++ [n]) false [] 0 k') fun _ _ => False := by
  obtain ⟨fs', hcreate, hentry⟩ := h.create (.regular false [])
  unfold Prog.Ends RestoreSink.createRegularFile
  rw [hk, hcreate]
  exact ⟨rfl, [], le_refl _, Grafted.of_create h.absent hentry rfl fun _ _ => rfl⟩

/-- An update of the open file, as a run of the sink. -/
theorem update_apply {l : Loc} {offset : ℕ} (hfd : k.fd = some (l, offset)) {x : Bool} {c : Str}
    (hentry : k.fs.entry l = some (.regular x c)) (err : Str)
    (f : Bool → Str → ℕ → Bool × Str × ℕ) :
    RestoreSink.update err f k = (.ok (), ⟨k.fs.setRegular l (f x c offset).1 (f x c offset).2.1
      ⟨x, c, hentry⟩, some (l, (f x c offset).2.2)⟩) := by
  unfold RestoreSink.update
  rw [hfd]
  dsimp only
  split
  next x' c' heq =>
    have hsame := hentry.symm.trans heq
    rw [Option.some.injEq, FileEntry.regular.injEq] at hsame
    obtain ⟨rfl, rfl⟩ := hsame
    rfl
  next hne => exact absurd hentry (hne x c)

/-- A change to the open file. -/
theorem ends_update {l : Loc} {x : Bool} {c : Str} {offset : ℕ}
    (h : Grafted fs l (.regular x c) k.fs) (hfd : k.fd = some (l, offset)) (err : Str)
    (f : Bool → Str → ℕ → Bool × Str × ℕ) :
    (RestoreSink.update err f).Ends k
      (fun _ k' => k'.fd = some (l, (f x c offset).2.2) ∧
        Grafted fs l (.regular (f x c offset).1 (f x c offset).2.1) k'.fs) fun _ _ => False := by
  have hentry : k.fs.entry l = some (.regular x c) := by
    have h0 := h.inside []
    rwa [List.append_nil] at h0
  unfold Prog.Ends
  rw [update_apply hfd hentry]
  exact ⟨rfl, h.of_set fun _ => rfl⟩

/-- `fchmod` makes the open file executable. -/
theorem ends_isExecutable {l : Loc} {x : Bool} {done : Str} {left : ℕ}
    (h : Writing fs l x done left k) :
    RestoreSink.isExecutable.Ends k (fun _ k' => Writing fs l true done left k')
      fun _ _ => False := by
  obtain ⟨hfd, z, hz, hgraft⟩ := h
  refine (ends_update hgraft hfd _ _).mono (fun _ k' h' => ?_) fun _ _ => id
  exact ⟨h'.1, z, hz, h'.2⟩

/-- Preallocation makes room for the contents, or does nothing. -/
theorem ends_preallocateContents {l : Loc} {x : Bool} (preallocates : Bool) (size : ℕ)
    (h : Writing fs l x [] 0 k) :
    (RestoreSink.preallocateContents preallocates size).Ends k
      (fun _ k' => Writing fs l x [] size k') fun _ _ => False := by
  obtain ⟨hfd, z, hz, hgraft⟩ := h
  obtain rfl : z = [] := List.length_eq_zero_iff.mp (Nat.le_zero.mp hz)
  unfold RestoreSink.preallocateContents
  split_ifs
  · refine (ends_update hgraft hfd _ _).mono (fun _ k' h' => ?_) fun _ _ => id
    refine ⟨h'.1, List.replicate size 0, by simp, ?_⟩
    simpa [FileSystem.allocate] using h'.2
  · exact Prog.ends_pure ⟨hfd, [], by simp, hgraft⟩

/-- A chunk overwrites the beginning of the room that is left. -/
theorem overwrite_append (done z data : Str) :
    FileSystem.overwrite (done ++ z) done.length data = done ++ data ++ z.drop data.length := by
  unfold FileSystem.overwrite
  rw [List.take_left', List.length_append, Nat.sub_eq_zero_of_le (by omega), List.replicate_zero,
    List.append_nil, ← List.drop_drop, List.drop_left']
  · rfl
  · rfl

/-- A chunk is appended to what was received. -/
theorem ends_receiveContents {l : Loc} {x : Bool} {done data : Str} {left : ℕ}
    (h : Writing fs l x done (data.length + left) k) :
    (RestoreSink.receiveContents data).Ends k
      (fun _ k' => Writing fs l x (done ++ data) left k') fun _ _ => False := by
  obtain ⟨hfd, z, hz, hgraft⟩ := h
  refine (ends_update hgraft hfd _ _).mono (fun _ k' h' => ?_) fun _ _ => id
  rw [overwrite_append] at h'
  refine ⟨?_, z.drop data.length, ?_, h'.2⟩
  · rw [List.length_append]
    exact h'.1
  · rw [List.length_drop]
    omega

end

/-! ### Regular files -/

/-- A file that fits in one chunk is dumped as it is. -/
theorem dumpChunks_eq {k : ℕ} {data : Str} (h : data.length ≤ k) : dumpChunks k data = data := by
  induction k generalizing data with
  | zero => rw [List.length_eq_zero_iff.mp (Nat.le_zero.mp h), dumpChunks]
  | succ k ih =>
    unfold dumpChunks
    split_ifs with hnil
    · exact hnil.symm
    · have hpos := List.length_pos_iff.mpr hnil
      rw [ih, List.take_append_drop]
      rw [List.length_drop, bufferSize]
      omega

/-- A sink takes the contents of a regular file: `I x done left` says that the file is executable if
`x`, that `done` has been received, and that there is room for `left` more bytes. -/
structure Receives {κ : Type} (sink : ParseSink κ) (I : Bool → Str → ℕ → κ → Prop) : Prop where
  isExecutable : ∀ {x done left k}, I x done left k →
    sink.isExecutable.Ends k (fun _ => I true done left) fun _ _ => False
  preallocateContents : ∀ {x k} (size : ℕ), I x [] 0 k →
    (sink.preallocateContents size).Ends k (fun _ => I x [] size) fun _ _ => False
  receiveContents : ∀ {x done left k} (data : Str), I x done (data.length + left) k →
    (sink.receiveContents data).Ends k (fun _ => I x (done ++ data) left) fun _ _ => False

/-- The sink that restores receives a file as the parser hands it over. -/
theorem receives_restoreSink (cwd : Loc) (preallocates : Bool) (dst : Path) (fs : FileSystem)
    (l : Loc) : Receives (RestoreSink cwd preallocates dst) (Writing fs l) where
  isExecutable h := ends_isExecutable h
  preallocateContents size h := ends_preallocateContents preallocates size h
  receiveContents _ h := ends_receiveContents h

section

variable {κ : Type} {sink : ParseSink κ} {I : Bool → Str → ℕ → κ → Prop}

/-- The chunks of the contents arrive one behind the other. -/
theorem Receives.consumes_parseChunks (hsink : Receives sink I) {x : Bool} {k : ℕ} (done data : Str)
    (h : data.length ≤ k) :
    Consumes (parseChunks sink k data.length) data (I x done data.length)
      fun _ => I x (done ++ data) 0 := by
  induction k generalizing done data with
  | zero =>
    obtain rfl : data = [] := List.length_eq_zero_iff.mp (Nat.le_zero.mp h)
    rw [List.append_nil]
    exact Consumes.pure fun _ => id
  | succ k ih =>
    unfold parseChunks
    by_cases hlen : data.length = 0
    · obtain rfl : data = [] := List.length_eq_zero_iff.mp hlen
      rw [if_pos hlen, List.append_nil]
      exact Consumes.pure fun _ => id
    · rw [if_neg hlen]
      set n := if bufferSize > data.length then data.length else bufferSize with hn
      have hpos : 0 < n := by
        rw [hn, bufferSize]
        split_ifs <;> omega
      have hle : n ≤ data.length := by
        rw [hn]
        split_ifs <;> omega
      have htake : (data.take n).length = n := by
        rw [List.length_take]
        omega
      have hdrop : data.length - n = (data.drop n).length := by rw [List.length_drop]
      have hrest := ih (done ++ data.take n) (data.drop n) (by rw [List.length_drop]; omega)
      rw [List.append_assoc, List.take_append_drop] at hrest
      dsimp only
      rw [hdrop]
      refine Consumes.congr ((decodes_get htake).bind
        (Consumes.bind (Consumes.lift fun s hs => ?_) fun _ => hrest)) (by simp)
      apply hsink.receiveContents
      rwa [htake, List.length_drop, Nat.add_sub_cancel' hle]

/-- The contents of a file are consumed from its size to its padding. -/
theorem Receives.consumes_parseContents (hsink : Receives sink I) {x : Bool} {c : Str}
    (hc : c.length < 2 ^ 64) :
    Consumes (parseContents sink)
      (writeLongLong c.length ++ (dumpChunks c.length c ++ writePadding c.length))
      (I x [] 0) fun _ => I x c 0 := by
  unfold parseContents
  rw [dumpChunks_eq (le_refl _)]
  refine (decodes_readLongLong hc).bind (Consumes.congr (Consumes.bind (Consumes.lift fun k hk =>
    hsink.preallocateContents c.length hk) fun _ => Consumes.bind
      (hsink.consumes_parseChunks [] c (le_refl _)) fun _ => ?_) (List.nil_append _))
  exact (decodes_readPadding c.length).consumes fun _ => id

end

/-! ### The fields of the archive format -/

section

variable {κ : Type} {sink : ParseSink κ} {fuel : ℕ} {path : Path} {type : NodeType} {w v : Str}
  {P R : κ → Prop} {Q : Unit → κ → Prop}

/-- The opening parenthesis of a node. -/
theorem consumes_open (h : Consumes (parseFields sink fuel path .tpUnknown) w P Q) :
    Consumes (parse sink (fuel + 1) path) (writeString (str "(") ++ w) P Q := by
  rw [parse]
  refine (decodes_readString (by decide)).bind ?_
  rw [if_neg (by simp)]
  exact h

/-- The closing parenthesis of a node. -/
theorem consumes_close :
    Consumes (parseFields sink (fuel + 1) path type) (writeString (str ")")) P fun _ => P := by
  rw [parseFields]
  refine Consumes.congr ((decodes_readString (by decide)).bind ?_) (List.append_nil _)
  rw [if_pos rfl]
  exact Consumes.pure fun _ => id

/-- The type of a file, which creates it. -/
theorem consumes_type_regular
    (hcreate : ∀ k, P k → (sink.createRegularFile path).Ends k (fun _ => R) fun _ _ => False)
    (h : Consumes (parseFields sink fuel path .tpRegular) w R Q) :
    Consumes (parseFields sink (fuel + 1) path .tpUnknown)
      (writeString (str "type") ++ (writeString (str "regular") ++ w)) P Q := by
  rw [parseFields]
  refine (decodes_readString (by decide)).bind ?_
  rw [if_neg (by decide), if_pos rfl, if_neg (by simp)]
  refine (decodes_readString (by decide)).bind ?_
  rw [if_pos rfl]
  exact Consumes.bind (Consumes.lift hcreate) fun _ => h

/-- The type of a directory, which creates it. -/
theorem consumes_type_directory
    (hcreate : ∀ k, P k → (sink.createDirectory path).Ends k (fun _ => R) fun _ _ => False)
    (h : Consumes (parseFields sink fuel path .tpDirectory) w R Q) :
    Consumes (parseFields sink (fuel + 1) path .tpUnknown)
      (writeString (str "type") ++ (writeString (str "directory") ++ w)) P Q := by
  rw [parseFields]
  refine (decodes_readString (by decide)).bind ?_
  rw [if_neg (by decide), if_pos rfl, if_neg (by simp)]
  refine (decodes_readString (by decide)).bind ?_
  rw [if_neg (by decide), if_pos rfl]
  exact Consumes.bind (Consumes.lift hcreate) fun _ => h

/-- The type of a link, which creates nothing yet. -/
theorem consumes_type_symlink (h : Consumes (parseFields sink fuel path .tpSymlink) w P Q) :
    Consumes (parseFields sink (fuel + 1) path .tpUnknown)
      (writeString (str "type") ++ (writeString (str "symlink") ++ w)) P Q := by
  rw [parseFields]
  refine (decodes_readString (by decide)).bind ?_
  rw [if_neg (by decide), if_pos rfl, if_neg (by simp)]
  refine (decodes_readString (by decide)).bind ?_
  rw [if_neg (by decide), if_neg (by decide), if_pos rfl]
  exact h

/-- The field with the contents. -/
theorem consumes_contents (hcontents : Consumes (parseContents sink) v P fun _ => R)
    (h : Consumes (parseFields sink fuel path .tpRegular) w R Q) :
    Consumes (parseFields sink (fuel + 1) path .tpRegular)
      (writeString (str "contents") ++ (v ++ w)) P Q := by
  rw [parseFields]
  refine (decodes_readString (by decide)).bind ?_
  rw [if_neg (by decide), if_neg (by decide), if_pos ⟨rfl, rfl⟩]
  exact hcontents.bind fun _ => h

/-- The field that makes the file executable. -/
theorem consumes_executable
    (hexec : ∀ k, P k → sink.isExecutable.Ends k (fun _ => R) fun _ _ => False)
    (h : Consumes (parseFields sink fuel path .tpRegular) w R Q) :
    Consumes (parseFields sink (fuel + 1) path .tpRegular)
      (writeString (str "executable") ++ (writeString [] ++ w)) P Q := by
  rw [parseFields]
  refine (decodes_readString (by decide)).bind ?_
  rw [if_neg (by decide), if_neg (by decide), if_neg (by decide), if_pos ⟨rfl, rfl⟩]
  exact (decodes_readString (by decide)).bind (Consumes.bind (Consumes.lift hexec) fun _ => h)

/-- The field with the target, which creates the link. -/
theorem consumes_target {target : Str} (htarget : target.length < 2 ^ 32)
    (hcreate : ∀ k, P k → (sink.createSymlink path target).Ends k (fun _ => R) fun _ _ => False)
    (h : Consumes (parseFields sink fuel path .tpSymlink) w R Q) :
    Consumes (parseFields sink (fuel + 1) path .tpSymlink)
      (writeString (str "target") ++ (writeString target ++ w)) P Q := by
  rw [parseFields]
  refine (decodes_readString (by decide)).bind ?_
  rw [if_neg (by decide), if_neg (by decide), if_neg (by decide), if_neg (by decide),
    if_neg (by decide), if_pos ⟨rfl, rfl⟩]
  exact (decodes_readString htarget).bind (Consumes.bind (Consumes.lift hcreate) fun _ => h)

/-- One entry of a directory: its name, then its file. -/
theorem consumes_entry {name : Str} (hname : name.length < 2 ^ 32)
    (hfile : Consumes (parse sink (fuel + 1) (path ++ str "/" ++ name)) v P fun _ => R)
    (h : Consumes (parseFields sink (fuel + 4) path .tpDirectory) w R Q) :
    Consumes (parseFields sink (fuel + 5) path .tpDirectory) (dumpEntry (name, v) ++ w) P Q := by
  have hclose : Consumes (parseEntryFields sink (fuel + 1) path name) (writeString (str ")")) R
      fun _ => R := by
    rw [parseEntryFields]
    refine Consumes.congr ((decodes_readString (by decide)).bind ?_) (List.append_nil _)
    rw [if_pos rfl]
    exact Consumes.pure fun _ => id
  have hnode : Consumes (parseEntryFields sink (fuel + 2) path name)
      (writeString (str "node") ++ (v ++ writeString (str ")"))) P fun _ => R := by
    rw [parseEntryFields]
    refine (decodes_readString (by decide)).bind ?_
    rw [if_neg (by decide), if_neg (by decide), if_pos rfl, if_neg (by decide)]
    exact hfile.bind fun _ => hclose
  have hentry : Consumes (parseEntry sink (fuel + 4) path) (writeString (str "(") ++
      (writeString (str "name") ++ (writeString name ++
      (writeString (str "node") ++ (v ++ writeString (str ")")))))) P fun _ => R := by
    rw [parseEntry]
    refine (decodes_readString (by decide)).bind ?_
    rw [if_neg (by simp), parseEntryFields]
    refine (decodes_readString (by decide)).bind ?_
    rw [if_neg (by decide), if_pos rfl]
    exact (decodes_readString hname).bind hnode
  have heq : dumpEntry (name, v) ++ w = writeString (str "entry") ++ ((writeString (str "(") ++
      (writeString (str "name") ++ (writeString name ++ (writeString (str "node") ++
      (v ++ writeString (str ")")))))) ++ w) := by
    simp only [dumpEntry, List.append_assoc]
  rw [heq, parseFields]
  refine (decodes_readString (by decide)).bind ?_
  rw [if_neg (by decide), if_neg (by decide), if_neg (by decide), if_neg (by decide),
    if_pos ⟨rfl, rfl⟩]
  exact hentry.bind fun _ => h

end

/-- The fields of a regular file behind its type. -/
theorem Receives.consumes_regular {κ : Type} {sink : ParseSink κ} {I : Bool → Str → ℕ → κ → Prop}
    (hsink : Receives sink I) {fuel : ℕ} {path : Path} {x : Bool} {c : Str}
    (hc : c.length < 2 ^ 64) :
    Consumes (parseFields sink (fuel + 3) path .tpRegular)
      ((if x then writeString (str "executable") ++ writeString [] else []) ++
        (dumpContents c ++ writeString (str ")"))) (I false [] 0) fun _ => I x c 0 := by
  have hcontents : ∀ (x : Bool) (fuel : ℕ), Consumes (parseFields sink (fuel + 2) path .tpRegular)
      (dumpContents c ++ writeString (str ")")) (I x [] 0) fun _ => I x c 0 := by
    intro x fuel
    refine Consumes.congr (consumes_contents (hsink.consumes_parseContents hc) consumes_close) ?_
    simp only [dumpContents, List.append_assoc]
  cases x with
  | false => exact hcontents false (fuel + 1)
  | true =>
    rw [if_pos rfl, List.append_assoc]
    exact consumes_executable (fun k hk => hsink.isExecutable hk) (hcontents true fuel)

/-- A file with nothing left to write is grafted. -/
theorem Writing.grafted {fs : FileSystem} {l : Loc} {x : Bool} {c : Str} {k : RestoreState}
    (h : Writing fs l x c 0 k) : Grafted fs l (.regular x c) k.fs := by
  obtain ⟨-, z, hz, hgraft⟩ := h
  obtain rfl : z = [] := List.length_eq_zero_iff.mp (Nat.le_zero.mp hz)
  rwa [List.append_nil] at hgraft

/-! ### Trees at their places -/

/-- A file can be created under the destination at the place with the given names, and everything
from before the run is still there. -/
structure Ready (cwd : Loc) (dst : Path) (base : Loc) (fs₀ fs : FileSystem) (names : List Str) :
    Prop where
  keeps : fs₀.Keeps fs
  isFileName : ∀ n ∈ names, IsFileName n
  creatable : ∃ dir n, dir ++ [n] = base ++ names ∧ fs.Creatable cwd (dst ++ subPath names) dir n

/-- A name that is not there is not found. -/
theorem lookup_eq_none_of_notMem {es : List (Str × FileTree)} {m : Str}
    (hm : m ∉ es.map Prod.fst) : es.lookup m = none := by
  rw [List.lookup_eq_none_iff]
  intro e he
  simpa using fun heq : m = e.1 => hm (heq ▸ List.mem_map_of_mem he)

namespace Ready

variable {cwd : Loc} {dst : Path} {base : Loc} {fs₀ fs fs' : FileSystem} {names : List Str}

/-- Where the sink is about to create something, nothing is. -/
theorem absent (h : Ready cwd dst base fs₀ fs names) : fs.entry (base ++ names) = none := by
  obtain ⟨dir, n, heq, hcreatable⟩ := h.creatable
  rw [← heq]
  exact hcreatable.absent

/-- The place of a new entry of a directory. -/
theorem sub {dir : Loc} {n : Str} (h₀ : fs₀.Creatable cwd dst dir n)
    (h : Ready cwd dst (dir ++ [n]) fs₀ fs names) {es : List (Str × FileTree)}
    (hgraft : Grafted fs (dir ++ [n] ++ names) (.directory es) fs') {m : Str} (hm : IsFileName m)
    (hnew : m ∉ es.map Prod.fst) : Ready cwd dst (dir ++ [n]) fs₀ fs' (names ++ [m]) := by
  have hkeeps : fs₀.Keeps fs' := by
    intro k e hk
    exact hgraft.keeps h.absent k e (h.keeps k e hk)
  have hdir : fs'.entry (dir ++ [n] ++ names) = some .directory := by
    have h0 := hgraft.inside []
    rwa [List.append_nil] at h0
  have habsent : fs'.entry (dir ++ [n] ++ names ++ [m]) = none := by
    rw [hgraft.inside, FileTree.lookup, lookup_eq_none_of_notMem hnew]
  refine ⟨hkeeps, ?_, dir ++ [n] ++ names, m, by simp, ?_⟩
  · intro k hk
    rcases List.mem_append.mp hk with hk | hk
    · exact h.isFileName k hk
    · rwa [List.mem_singleton.mp hk]
  · exact h₀.sub hkeeps h.isFileName hm hdir habsent

end Ready

/-- Without a filter every entry is dumped. -/
theorem dumpEntries_default (path : Path) (entries : List (Str × FileTree)) :
    dumpEntries defaultPathFilter path entries =
      entries.map fun e => (e.1, dump defaultPathFilter (path ++ str "/" ++ e.1) e.2) := by
  induction entries with
  | nil => rw [dumpEntries, List.map_nil]
  | cons e entries ih => rw [dumpEntries, if_pos (by rfl), ih, List.map_cons]

/-- The text of an entry is longer than its contents. -/
theorem le_length_dumpEntry (e : Str × Str) : 48 + e.2.length ≤ (dumpEntry e).length := by
  have h₁ := le_length_writeString (str "entry")
  have h₂ := le_length_writeString (str "(")
  have h₃ := le_length_writeString (str "name")
  have h₄ := le_length_writeString e.1
  have h₅ := le_length_writeString (str "node")
  have h₆ := le_length_writeString (str ")")
  unfold dumpEntry
  simp only [List.length_append]
  omega

section

variable {cwd : Loc} {preallocates : Bool} {dst : Path} {fs₀ : FileSystem} {dir : Loc} {n : Str}

/-- The parser recreates a tree wherever a file can be created. -/
def Restores (cwd : Loc) (preallocates : Bool) (dst : Path) (base : Loc) (fs₀ : FileSystem)
    (t : FileTree) : Prop :=
  ∀ (fuel : ℕ) (path : Path) (names : List Str) (fs : FileSystem),
    Ready cwd dst base fs₀ fs names → (dump defaultPathFilter path t).length ≤ fuel →
    Consumes (parse (RestoreSink cwd preallocates dst) fuel (subPath names))
      (dump defaultPathFilter path t) (fun k => k.fs = fs)
      fun _ k => Grafted fs (base ++ names) t k.fs

/-- The bytes for the entries of a directory, in the given order. -/
def entriesText (path : Path) (entries : List (Str × FileTree)) : Str :=
  entries.flatMap fun e => dumpEntry (e.1, dump defaultPathFilter (path ++ str "/" ++ e.1) e.2)

/-- The text of the entries, from the first to the last. -/
theorem entriesText_cons (path : Path) (name : Str) (file : FileTree)
    (entries : List (Str × FileTree)) :
    entriesText path ((name, file) :: entries) =
      dumpEntry (name, dump defaultPathFilter (path ++ str "/" ++ name) file) ++
        entriesText path entries := by
  rw [entriesText, List.flatMap_cons, ← entriesText]

/-- The loop over the entries of a directory: those in `done` are there already. -/
theorem consumes_entries (h₀ : fs₀.Creatable cwd dst dir n) {names : List Str} {fs : FileSystem}
    (hready : Ready cwd dst (dir ++ [n]) fs₀ fs names) (path : Path)
    (todo done : List (Str × FileTree)) (fuel : ℕ)
    (hnames : ∀ e ∈ todo, IsFileName e.1 ∧ e.1.length < 2 ^ 32)
    (hfiles : ∀ e ∈ todo, Restores cwd preallocates dst (dir ++ [n]) fs₀ e.2)
    (hnodup : ((done ++ todo).map Prod.fst).Nodup)
    (hfuel : (entriesText path todo ++ writeString (str ")")).length ≤ fuel) :
    Consumes (parseFields (RestoreSink cwd preallocates dst) fuel (subPath names) .tpDirectory)
      (entriesText path todo ++ writeString (str ")"))
      (fun k => Grafted fs (dir ++ [n] ++ names) (.directory done) k.fs)
      fun _ k => Grafted fs (dir ++ [n] ++ names) (.directory (done ++ todo)) k.fs := by
  induction todo generalizing done fuel with
  | nil =>
    have hlen := le_length_writeString (str ")")
    rw [entriesText, List.flatMap_nil, List.nil_append] at hfuel ⊢
    obtain ⟨fuel, rfl⟩ : ∃ f, fuel = f + 1 := ⟨fuel - 1, by omega⟩
    rw [List.append_nil]
    exact consumes_close
  | cons e todo ih =>
    obtain ⟨name, file⟩ := e
    obtain ⟨hname, hsize⟩ := hnames (name, file) List.mem_cons_self
    have hlen := le_length_dumpEntry
      (name, dump defaultPathFilter (path ++ str "/" ++ name) file)
    dsimp only at hname hsize hlen
    rw [entriesText_cons, List.append_assoc] at hfuel ⊢
    rw [List.length_append] at hfuel
    obtain ⟨fuel, rfl⟩ : ∃ f, fuel = f + 5 := ⟨fuel - 5, by omega⟩
    have hrest := ih (done ++ [(name, file)]) (fuel + 4)
      (fun e he => hnames e (List.mem_cons_of_mem _ he))
      (fun e he => hfiles e (List.mem_cons_of_mem _ he))
      (by simpa using hnodup) (by omega)
    rw [List.append_assoc done, List.singleton_append] at hrest
    have hnew : name ∉ done.map Prod.fst := by
      rw [List.map_append, List.nodup_append] at hnodup
      intro hmem
      exact hnodup.2.2 name hmem name (by simp) rfl
    refine consumes_entry hsize (Consumes.of_state fun k₀ hk₀ => ?_) hrest
    have hpath : subPath names ++ str "/" ++ name = subPath (names ++ [name]) := by
      rw [subPath_concat, List.append_assoc]
      rfl
    have hfile := hfiles (name, file) List.mem_cons_self (fuel + 1) (path ++ str "/" ++ name)
      (names ++ [name]) k₀.fs (hready.sub h₀ hk₀ hname hnew) (by dsimp only; omega)
    rw [hpath]
    refine hfile.mono (fun k hk => by rw [hk]) fun _ k hk => ?_
    rw [← List.append_assoc] at hk
    exact hk₀.snoc hk hnew

/-- The dump of a directory, with its entries in order. -/
theorem dump_directory (path : Path) (entries : List (Str × FileTree)) :
    dump defaultPathFilter path (.directory entries) =
      writeString (str "(") ++ (writeString (str "type") ++ (writeString (str "directory") ++
        (entriesText path (entries.insertionSort nameLE) ++ writeString (str ")")))) := by
  rw [dump, dumpEntries_default, ← List.map_insertionSort nameLE nameLE _ entries]
  · rw [List.flatMap_map]
    rfl
  · intro a _ b _
    exact Iff.rfl

/-- The parser recreates every valid tree. -/
theorem restores (preallocates : Bool) (h₀ : fs₀.Creatable cwd dst dir n) {t : FileTree}
    (ht : t.Valid) : Restores cwd preallocates dst (dir ++ [n]) fs₀ t := by
  have hopen := le_length_writeString (str "(")
  have htype := le_length_writeString (str "type")
  have hclose := le_length_writeString (str ")")
  induction ht with
  | @regular x c size =>
    intro fuel path names fs hready hfuel
    obtain ⟨dir', n', heq, hc⟩ := hready.creatable
    rw [dump] at hfuel ⊢
    simp only [List.length_append] at hfuel
    obtain ⟨fuel, rfl⟩ : ∃ f, fuel = f + 5 := ⟨fuel - 5, by omega⟩
    rw [← heq]
    have hsink := receives_restoreSink cwd preallocates dst fs (dir' ++ [n'])
    refine consumes_open (consumes_type_regular (fun k hk => ends_createRegularFile hc hk) ?_)
    exact (hsink.consumes_regular size).mono (fun _ => id) fun _ _ hk => hk.grafted
  | @symlink target nulFree size =>
    intro fuel path names fs hready hfuel
    obtain ⟨dir', n', heq, hc⟩ := hready.creatable
    rw [dump] at hfuel ⊢
    simp only [List.length_append] at hfuel
    obtain ⟨fuel, rfl⟩ : ∃ f, fuel = f + 4 := ⟨fuel - 4, by omega⟩
    rw [← heq]
    exact consumes_open (consumes_type_symlink (consumes_target size
      (fun k hk => ends_createSymlink hc nulFree hk) consumes_close))
  | @directory entries nodup isFileName files ih =>
    intro fuel path names fs hready hfuel
    obtain ⟨dir', n', heq, hc⟩ := hready.creatable
    have hperm := List.perm_insertionSort nameLE entries
    rw [dump_directory] at hfuel ⊢
    simp only [List.length_append] at hfuel
    obtain ⟨fuel, rfl⟩ : ∃ f, fuel = f + 2 := ⟨fuel - 2, by omega⟩
    have hentries := consumes_entries h₀ hready path (entries.insertionSort nameLE) [] fuel
      (fun e he => isFileName e (hperm.mem_iff.mp he)) (fun e he => ih e (hperm.mem_iff.mp he))
      ((hperm.map _).nodup_iff.mpr nodup) (by rw [List.length_append]; omega)
    have hdirectory : ∀ k : RestoreState, k.fs = fs →
        (RestoreSink.createDirectory cwd dst (subPath names)).Ends k
          (fun _ k' => Grafted fs (dir ++ [n] ++ names) (.directory []) k'.fs) fun _ _ => False := by
      intro k hk
      rw [← heq]
      exact ends_createDirectory hc hk
    refine (consumes_open (consumes_type_directory hdirectory hentries)).mono (fun _ => id) ?_
    intro _ k hk
    exact hk.congr (FileTree.lookup_perm hperm ((hperm.map _).nodup_iff.mpr nodup))

end

/-! ### The round trip -/

/-- The version is read back. -/
theorem decodes_readVersion {κ : Type} :
    Decodes (readVersion : SourceM κ Str) (writeString archiveVersion1) archiveVersion1 := by
  intro k s rest hs hk
  have hread : Decodes (readString : SourceM κ Str) (writeString archiveVersion1)
    archiveVersion1 := decodes_readString (by decide)
  have h := hread k s rest hs hk
  unfold Prog.Ends readVersion at *
  rcases hr : (readString : SourceM κ Str) s with ⟨e | a, s'⟩
  · simp [hr] at h
  · simp only [hr] at h ⊢
    exact h

/-- `restorePath` recreates a tree from its dump and consumes the bytes of the dump. -/
theorem restorePath_dumpPath {cwd : Loc} (preallocates : Bool) {dst : Path} {fs : FileSystem}
    {dir : Loc} {n : Str} (h : fs.Creatable cwd dst dir n) {t : FileTree} (ht : t.Valid)
    (path : Path) {source : Source} {rest : Str}
    (hsource : source.rest = dumpPath path defaultPathFilter t ++ rest) :
    (restorePath cwd preallocates dst).Ends ⟨source, fs⟩
      (fun _ s' => s'.source.rest = rest ∧ Grafted fs (dir ++ [n]) t s'.other)
      fun _ _ => False := by
  have hready : Ready cwd dst (dir ++ [n]) fs fs [] := by
    refine ⟨fun _ _ => id, by simp, dir, n, by simp, ?_⟩
    rwa [subPath_nil, List.append_nil]
  have hfuel : (dump defaultPathFilter path t).length ≤ source.rest.length := by
    rw [hsource, dumpPath]
    simp only [List.length_append]
    omega
  have hparse : Consumes (parseDump (RestoreSink cwd preallocates dst) source.rest.length)
      (dumpPath path defaultPathFilter t) (fun k => k.fs = fs)
      fun _ k => Grafted fs (dir ++ [n]) t k.fs := by
    unfold parseDump dumpPath
    refine decodes_readVersion.bind ?_
    rw [if_neg (by simp)]
    have hrestores := restores preallocates h ht source.rest.length path [] fs hready hfuel
    rwa [subPath_nil, List.append_nil] at hrestores
  have hrun := hparse ⟨source, ⟨fs, none⟩⟩ rest hsource rfl
  unfold Prog.Ends restorePath at *
  rcases hr : parseDump (RestoreSink cwd preallocates dst) source.rest.length
    ⟨source, ⟨fs, none⟩⟩ with ⟨e | a, s'⟩
  · simp [hr] at hrun
  · simp only [hr] at hrun ⊢
    exact hrun

/-- A file can be created in the root directory of the empty file system. -/
theorem creatable_empty : FileSystem.empty.Creatable [] (str "/x") [] (str "x") where
  nulFree := by decide
  noSlash := by decide
  place_eq := by decide +kernel
  absent := rfl

/-- Trees with the same dump are the same. -/
theorem lookup_eq_of_dumpPath_eq {t t' : FileTree} (ht : t.Valid) (ht' : t'.Valid)
    {path path' : Path}
    (h : dumpPath path defaultPathFilter t = dumpPath path' defaultPathFilter t') (l : Loc) :
    t.lookup l = t'.lookup l := by
  obtain ⟨source, hsource⟩ : ∃ s : Source, s.rest = dumpPath path defaultPathFilter t ++ [] :=
    ⟨⟨_, fun _ => 0, 0, []⟩, rfl⟩
  have hsource' : source.rest = dumpPath path' defaultPathFilter t' ++ [] := by rw [hsource, h]
  have hrun := restorePath_dumpPath false creatable_empty ht path hsource
  have hrun' := restorePath_dumpPath false creatable_empty ht' path' hsource'
  have hboth := hrun.and hrun'
  unfold Prog.Ends at hboth
  split at hboth
  · rw [← hboth.1.2.inside l, hboth.2.2.inside l]
  · exact absurd hboth.1 id

/-- Restoring the dump of a tree recreates the tree and consumes the dump, whatever the sizes of the
pieces in which the bytes arrive; trees with the same dump are the same. -/
theorem nar_roundTrip :
    (∀ (cwd : Loc) (preallocates : Bool) (dst : Path) (fs : FileSystem) (dir : Loc) (n : Str)
      (t : FileTree) (path : Path) (source : Source) (rest : Str), fs.Creatable cwd dst dir n →
      t.Valid → source.rest = dumpPath path defaultPathFilter t ++ rest →
      ∃ s', restorePath cwd preallocates dst ⟨source, fs⟩ = (.ok (), s') ∧ s'.source.rest = rest ∧
        (∀ l, s'.other.entry (dir ++ [n] ++ l) = t.lookup l) ∧
        ∀ k, ¬ dir ++ [n] <+: k → s'.other.entry k = fs.entry k) ∧
    (∀ (t t' : FileTree) (path path' : Path), t.Valid → t'.Valid →
      dumpPath path defaultPathFilter t = dumpPath path' defaultPathFilter t' →
      ∀ l, t.lookup l = t'.lookup l) := by
  constructor
  · intro cwd preallocates dst fs dir n t path source rest h ht hsource
    have hrun := restorePath_dumpPath preallocates h ht path hsource
    unfold Prog.Ends at hrun
    rcases hr : restorePath cwd preallocates dst ⟨source, fs⟩ with ⟨e | a, s'⟩
    · simp [hr] at hrun
    · simp only [hr] at hrun
      exact ⟨s', rfl, hrun.1, hrun.2.inside, hrun.2.outside⟩
  · intro t t' path path' ht ht' h
    exact lookup_eq_of_dumpPath_eq ht ht' h

/-- A directory with an executable file, a symbolic link and an empty directory. -/
def smallTree : FileTree :=
  .directory [(str "run", .regular true (str "#! /bin/sh")), (str "link", .symlink (str "../run")),
    (str "(", .directory [])]

/-- The sample tree is valid. -/
theorem valid_smallTree : smallTree.Valid := by
  refine .directory (by decide) (fun e he => ?_) fun e he => ?_
  · simp only [List.mem_cons, List.not_mem_nil, or_false] at he
    rcases he with rfl | rfl | rfl
    all_goals exact ⟨⟨by decide, by decide, by decide, by decide, by decide⟩, by decide⟩
  · simp only [List.mem_cons, List.not_mem_nil, or_false] at he
    rcases he with rfl | rfl | rfl
    · exact .regular (by decide)
    · exact .symlink (by decide) (by decide)
    · exact .directory (by simp) (by simp) (by simp)

/-- The sample tree is restored from a stream with more behind it, read in pieces. -/
theorem nar_roundTrip_smallTree :
    (∃ s', restorePath [] true (str "/x") ⟨⟨dumpPath (str "/t") defaultPathFilter smallTree ++
        str "more", fun k => k % 3, 0, []⟩, .empty⟩ = (.ok (), s') ∧
      s'.source.rest = str "more" ∧
      (∀ l, s'.other.entry ([] ++ [str "x"] ++ l) = smallTree.lookup l) ∧
      ∀ k, ¬ [] ++ [str "x"] <+: k → s'.other.entry k = FileSystem.empty.entry k) ∧
    ∀ l, smallTree.lookup l = smallTree.lookup l :=
  ⟨nar_roundTrip.1 [] true (str "/x") .empty [] (str "x") smallTree (str "/t") _ (str "more")
    creatable_empty valid_smallTree rfl,
    nar_roundTrip.2 smallTree smallTree (str "/t") (str "/u") valid_smallTree valid_smallTree
      (by decide +kernel)⟩

end Nix
