import NixStore.Util.ArchiveNames
import NixStore.Util.NarRoundTrip

/-!
# What an archive can write to

If every entry of an archive has a proper name when it comes to its node, then the paths that the parser
passes to its sink consist of proper names, and `restorePath` changes nothing outside of its destination
(`restore_inside`).  Symbolic links of the archive do not matter: a directory below which something is
created has been created as a directory before.
-/

namespace Nix

/-! ### The paths that are passed to a sink -/

/-- A path that consists of names of files, each one behind a slash. -/
def ProperPath (path : Path) : Prop := ∃ names, (∀ n ∈ names, IsFileName n) ∧ path = subPath names

/-- An operation of a sink on a path, which is written down first. -/
def logPath {κ : Type} (path : Path) (m : Prog κ StreamError Unit) :
    Prog (κ × List Path) StreamError Unit := fun k =>
  match m k.1 with
  | (r, k') => (r, (k', k.2 ++ [path]))

/-- An operation of a sink that is not for a path. -/
def logNone {κ : Type} (m : Prog κ StreamError Unit) : Prog (κ × List Path) StreamError Unit :=
  fun k =>
    match m k.1 with
    | (r, k') => (r, (k', k.2))

/-- A sink that writes down the paths that it is passed. -/
def ParseSink.logged {κ : Type} (sink : ParseSink κ) : ParseSink (κ × List Path) where
  createDirectory path := logPath path (sink.createDirectory path)
  createRegularFile path := logPath path (sink.createRegularFile path)
  isExecutable := logNone sink.isExecutable
  preallocateContents len := logNone (sink.preallocateContents len)
  receiveContents data := logNone (sink.receiveContents data)
  createSymlink path target := logPath path (sink.createSymlink path target)

section

variable {κ : Type} {m : Prog κ StreamError Unit} {k : κ × List Path} {names : List Str}

/-- A call with a proper path keeps the log proper. -/
theorem ends_logPath (hnames : ∀ n ∈ names, IsFileName n) (hk : ∀ p ∈ k.2, ProperPath p) :
    (logPath (subPath names) m).Ends k (fun _ k' => ∀ p ∈ k'.2, ProperPath p)
      fun _ k' => ∀ p ∈ k'.2, ProperPath p := by
  have hlog : ∀ p ∈ k.2 ++ [subPath names], ProperPath p := by
    intro p hp
    rcases List.mem_append.mp hp with hp | hp
    · exact hk p hp
    · exact ⟨names, hnames, List.mem_singleton.mp hp⟩
  unfold Prog.Ends logPath
  rcases m k.1 with ⟨_ | _, k'⟩
  · exact hlog
  · exact hlog

/-- A call without path keeps the log proper. -/
theorem ends_logNone (hk : ∀ p ∈ k.2, ProperPath p) :
    (logNone m).Ends k (fun _ k' => ∀ p ∈ k'.2, ProperPath p) fun _ k' => ∀ p ∈ k'.2, ProperPath p := by
  unfold Prog.Ends logNone
  rcases m k.1 with ⟨_ | _, k'⟩
  · exact hk
  · exact hk

/-- That the log is proper is an invariant of the sink. -/
theorem sinkInvariant_logged (sink : ParseSink κ) :
    SinkInvariant sink.logged fun _ k => ∀ p ∈ k.2, ProperPath p where
  mono h := h
  createDirectory hplace hk := ends_logPath hplace.isFileName hk
  createRegularFile hplace hk := ends_logPath hplace.isFileName hk
  createSymlink _ hplace hk := ends_logPath hplace.isFileName hk
  isExecutable hk := ends_logNone hk
  preallocateContents _ hk := ends_logNone hk
  receiveContents _ hk := ends_logNone hk

end

/-! ### The files that are created -/

section

variable {cwd : Loc} {dst : Path} {fs₀ fs fs' : FileSystem} {k : RestoreState} {l : Loc}
  {names : List Str} {dirs : List (List Str)}

/-- The locations at and below a destination. -/
def Inside (fs₀ : FileSystem) (cwd : Loc) (dst : Path) (l : Loc) : Prop :=
  ∃ dir n, fs₀.place cwd dst = some (dir, n) ∧ dir ++ [n] <+: l

/-- Only the destination is changed; the directories that have been made are there. -/
structure Confined (fs₀ : FileSystem) (cwd : Loc) (dst : Path) (dirs : List (List Str))
    (k : RestoreState) : Prop where
  outside : ∀ l, ¬ Inside fs₀ cwd dst l → k.fs.entry l = fs₀.entry l
  fd : ∀ l offset, k.fd = some (l, offset) → Inside fs₀ cwd dst l
  directory : ∀ names ∈ dirs, ∃ dir n, fs₀.place cwd dst = some (dir, n) ∧
    k.fs.entry (dir ++ [n] ++ names) = some .directory

/-- A file system is determined by its entries. -/
theorem FileSystem.eq_of_entry (h : ∀ l, fs.entry l = fs'.entry l) : fs = fs' := by
  obtain ⟨entry, root, parent⟩ := fs
  obtain ⟨entry', root', parent'⟩ := fs'
  obtain rfl : entry = entry' := funext h
  rfl

/-- Behind a NUL nothing is seen. -/
theorem cut_append_of_nul (hnul : ¬ dst.NulFree) (s : Str) : Str.cut (dst ++ s) = dst.cut := by
  obtain ⟨a, b, rfl⟩ := List.append_of_mem (not_not.mp hnul)
  induction a with
  | nil => rfl
  | cons c a ih =>
    unfold Str.cut at ih ⊢
    rw [List.cons_append, List.cons_append, List.takeWhile_cons, List.takeWhile_cons]
    split_ifs
    · rw [ih fun h => h (List.mem_append_right a List.mem_cons_self)]
    · rfl

/-- Where a file is created below a destination. -/
theorem place_subPath (hnul : dst.NulFree) {dir : Loc} {n : Str} (hkeep : fs₀.Keeps fs)
    (hplace : fs₀.place cwd dst = some (dir, n)) {m : Str} (hnames : ∀ n ∈ names, IsFileName n)
    (hm : IsFileName m) (hmade : fs.entry (dir ++ [n] ++ names) = some .directory) :
    fs.place cwd (dst ++ subPath (names ++ [m])) = some (dir ++ [n] ++ names, m) := by
  obtain ⟨ns, hc, hn, hwalk, hdir⟩ := (FileSystem.place_eq_some_iff hnul).mp hplace
  have hall : ∀ k ∈ names ++ [m], IsFileName k := by
    intro k hk
    rcases List.mem_append.mp hk with hk | hk
    · exact hnames k hk
    · rwa [List.mem_singleton.mp hk]
  have hnul' : Str.NulFree (dst ++ subPath (names ++ [m])) :=
    nulFree_append.mpr ⟨hnul, nulFree_subPath hall⟩
  have hne : dst ≠ [] := by
    rintro rfl
    exact absurd hc (by simp [components, componentsFrom, endName])
  have habs : isAbsolute (dst ++ subPath (names ++ [m])) = isAbsolute dst := by
    unfold isAbsolute
    rw [List.head?_append_of_ne_nil _ hne]
  refine (FileSystem.place_eq_some_iff hnul').mpr ⟨ns ++ ([n] ++ names), ?_, hm, ?_, hmade⟩
  · rw [components_append_subPath dst hall, hc]
    simp only [List.append_assoc]
  · rw [habs, List.append_assoc dir]
    rw [List.append_assoc] at hmade
    exact FileSystem.walk_append hkeep (by simpa using ⟨hn, hnames⟩) hmade hwalk

namespace Confined

/-- Nothing from before the run is lost. -/
theorem keeps (h : Confined fs₀ cwd dst dirs k) (habsent : fs₀.fileAt cwd dst = none) :
    fs₀.Keeps k.fs := by
  intro l e hl
  rw [h.outside l, hl]
  rintro ⟨dir, n, hplace, p, rfl⟩
  rw [FileSystem.fileAt, hplace] at habsent
  rw [Grafted.entry_eq_none habsent p] at hl
  cases hl

/-- A file that is created for proper names is at the place with these names. -/
theorem of_create (h : Confined fs₀ cwd dst dirs k) (habsent : fs₀.fileAt cwd dst = none)
    (hnames : IsPlace dirs names) {e : FileEntry}
    (hcreate : k.fs.create cwd (dst ++ subPath names) e = some (fs', l)) :
    ∃ dir n, fs₀.place cwd dst = some (dir, n) ∧ l = dir ++ [n] ++ names ∧ k.fs.entry l = none ∧
      ∀ m, fs'.entry m = if m = l then some e else k.fs.entry m := by
  obtain ⟨dir', n', hplace', rfl, hfree, hentry⟩ := FileSystem.create_eq_some hcreate
  have hkeep := h.keeps habsent
  have hparent : names ≠ [] → ∃ dir n, fs₀.place cwd dst = some (dir, n) ∧
      k.fs.entry (dir ++ [n] ++ names.dropLast) = some .directory :=
    fun hne => h.directory _ (hnames.parent.resolve_left hne)
  cases hplace : fs₀.place cwd dst with
  | none =>
    -- nothing has been created
    have hnil : names = [] := by
      by_contra hne
      obtain ⟨dir, n, hplace', -⟩ := hparent hne
      rw [hplace] at hplace'
      cases hplace'
    have hsame : k.fs = fs₀ := by
      refine FileSystem.eq_of_entry fun l => h.outside l ?_
      rintro ⟨dir, n, hplace', -⟩
      rw [hplace] at hplace'
      cases hplace'
    rw [hnil, subPath_nil, List.append_nil, hsame, hplace] at hplace'
    cases hplace'
  | some x =>
    obtain ⟨dir, n⟩ := x
    refine ⟨dir, n, rfl, ?_, hfree, hentry⟩
    by_cases hnul : dst.NulFree
    · rcases List.eq_nil_or_concat names with rfl | ⟨names', m, rfl⟩
      · rw [subPath_nil, List.append_nil, FileSystem.place_of_keeps hnul hkeep hplace] at hplace'
        obtain ⟨rfl, rfl⟩ := Prod.mk.inj (Option.some.inj hplace')
        rw [List.append_nil]
      · rw [List.concat_eq_append] at hnames hparent hplace' ⊢
        obtain ⟨dir₁, n₁, hplace₁, hdir⟩ := hparent (by simp)
        rw [hplace] at hplace₁
        obtain ⟨rfl, rfl⟩ := Prod.mk.inj (Option.some.inj hplace₁)
        rw [List.dropLast_concat] at hdir
        rw [place_subPath hnul hkeep hplace
          (fun n hn => hnames.isFileName n (List.mem_append_left _ hn))
          (hnames.isFileName m (List.mem_append_right _ List.mem_cons_self)) hdir] at hplace'
        obtain ⟨rfl, rfl⟩ := Prod.mk.inj (Option.some.inj hplace')
        rw [List.append_assoc]
    · rw [← FileSystem.place_cut, cut_append_of_nul hnul] at hplace'
      rw [← FileSystem.place_cut] at hplace
      rw [FileSystem.place_of_keeps (Str.nulFree_cut dst) hkeep hplace] at hplace'
      obtain ⟨rfl, rfl⟩ := Prod.mk.inj (Option.some.inj hplace')
      by_cases hne : names = []
      · rw [hne, List.append_nil]
      · obtain ⟨dir₁, n₁, hplace₁, hdir⟩ := hparent hne
        rw [← FileSystem.place_cut, hplace] at hplace₁
        obtain ⟨rfl, rfl⟩ := Prod.mk.inj (Option.some.inj hplace₁)
        exact absurd hdir (by rw [Grafted.entry_eq_none hfree]; exact fun h => by cases h)

/-- A new file at the destination or below it. -/
theorem create (h : Confined fs₀ cwd dst dirs k) (habsent : fs₀.fileAt cwd dst = none)
    (hnames : IsPlace dirs names) {e : FileEntry}
    (hcreate : k.fs.create cwd (dst ++ subPath names) e = some (fs', l))
    {fd : Option (Loc × ℕ)} (hfd : ∀ l' offset, fd = some (l', offset) → l' = l ∨ k.fd = fd) :
    Confined fs₀ cwd dst dirs ⟨fs', fd⟩ ∧
      (e = .directory → Confined fs₀ cwd dst (names :: dirs) ⟨fs', fd⟩) := by
  obtain ⟨dir, n, hplace, hl, hfree, hentry⟩ := h.of_create habsent hnames hcreate
  have hinside : Inside fs₀ cwd dst l := ⟨dir, n, hplace, names, hl.symm⟩
  have hconfined : Confined fs₀ cwd dst dirs ⟨fs', fd⟩ := by
    refine ⟨fun m hm => ?_, fun l' offset hfd' => ?_, fun names' hnames' => ?_⟩
    · have hne : m ≠ l := by
        rintro rfl
        exact hm hinside
      rw [hentry, if_neg hne]
      exact h.outside m hm
    · rcases hfd l' offset hfd' with rfl | hold
      · exact hinside
      · exact h.fd l' offset (hold.trans hfd')
    · obtain ⟨dir', n', hplace', hdir⟩ := h.directory names' hnames'
      refine ⟨dir', n', hplace', ?_⟩
      have hne : dir' ++ [n'] ++ names' ≠ l := by
        intro heq
        rw [heq, hfree] at hdir
        cases hdir
      rw [hentry, if_neg hne]
      exact hdir
  refine ⟨hconfined, fun he => ⟨hconfined.outside, hconfined.fd, fun names' hnames' => ?_⟩⟩
  rcases List.mem_cons.mp hnames' with rfl | hnames'
  · refine ⟨dir, n, hplace, ?_⟩
    rw [hentry, if_pos hl.symm, he]
  · exact hconfined.directory names' hnames'

/-- A change of the open file. -/
theorem update (h : Confined fs₀ cwd dst dirs k) (err : Str)
    (f : Bool → Str → ℕ → Bool × Str × ℕ) : (RestoreSink.update err f).Ends k
      (fun _ => Confined fs₀ cwd dst dirs) fun _ => Confined fs₀ cwd dst dirs := by
  unfold Prog.Ends
  cases hfd : k.fd with
  | none =>
    rw [RestoreSink.update, hfd]
    exact h
  | some x =>
    obtain ⟨l, offset⟩ := x
    by_cases hregular : ∃ x c, k.fs.entry l = some (.regular x c)
    · obtain ⟨x, c, hentry⟩ := hregular
      rw [update_apply hfd hentry]
      refine ⟨fun m hm => ?_, fun l' offset' hfd' => ?_, fun names hnames => ?_⟩
      · have hne : m ≠ l := by
          rintro rfl
          exact hm (h.fd m offset hfd)
        exact (if_neg hne).trans (h.outside m hm)
      · cases hfd'
        exact h.fd l offset hfd
      · obtain ⟨dir, n, hplace, hdir⟩ := h.directory names hnames
        have hne : dir ++ [n] ++ names ≠ l := by
          intro heq
          rw [heq, hentry] at hdir
          cases hdir
        exact ⟨dir, n, hplace, (if_neg hne).trans hdir⟩
    · rw [RestoreSink.update, hfd]
      dsimp only
      split
      next r s heq =>
        split at heq
        next x c hentry => exact absurd ⟨x, c, hentry⟩ hregular
        next => cases heq
      next e s heq =>
        split at heq
        next x c hentry => exact absurd ⟨x, c, hentry⟩ hregular
        next =>
          cases heq
          exact h

end Confined

/-- The operations of a `RestoreSink` change nothing outside of the destination. -/
theorem sinkInvariant_restoreSink (preallocates : Bool) (habsent : fs₀.fileAt cwd dst = none) :
    SinkInvariant (RestoreSink cwd preallocates dst) (Confined fs₀ cwd dst) where
  mono h := ⟨h.outside, h.fd, fun names hnames => h.directory names (List.mem_cons_of_mem _ hnames)⟩
  createDirectory {dirs names k} hplace h := by
    unfold Prog.Ends
    dsimp only [RestoreSink]
    unfold RestoreSink.createDirectory
    cases hcreate : k.fs.create cwd (dst ++ subPath names) .directory with
    | none => exact h
    | some x => exact (h.create habsent hplace hcreate fun _ _ _ => Or.inr rfl).2 rfl
  createRegularFile {dirs names k} hplace h := by
    unfold Prog.Ends
    dsimp only [RestoreSink]
    unfold RestoreSink.createRegularFile
    cases hcreate : k.fs.create cwd (dst ++ subPath names) (.regular false []) with
    | none => exact ⟨h.outside, fun _ _ hfd => (by cases hfd), h.directory⟩
    | some x =>
      refine (h.create habsent hplace hcreate fun l' offset hfd => Or.inl ?_).1
      exact (Prod.mk.inj (Option.some.inj hfd)).1.symm
  createSymlink {dirs names k} target hplace h := by
    unfold Prog.Ends
    dsimp only [RestoreSink]
    unfold RestoreSink.createSymlink
    cases hcreate : k.fs.create cwd (dst ++ subPath names) (.symlink target.cut) with
    | none => exact h
    | some x => exact (h.create habsent hplace hcreate fun _ _ _ => Or.inr rfl).1
  isExecutable h := h.update _ _
  preallocateContents len h := by
    dsimp only [RestoreSink]
    unfold RestoreSink.preallocateContents
    split_ifs
    · exact h.update _ _
    · exact h
  receiveContents data h := h.update _ _

end

/-- If wherever an entry of an archive comes to its node, it has the name of a file, then the paths that
the parser passes to a sink consist of such names, and `restorePath` to a destination where nothing
exists changes nothing outside of it. -/
theorem restore_inside (source : Source) (hnames : NamesChecked source) :
    (∀ {κ : Type} (sink : ParseSink κ) (k : κ),
      ∀ p ∈ (parseDump sink.logged source.rest.length ⟨source, (k, [])⟩).2.other.2, ProperPath p) ∧
    ∀ (cwd : Loc) (preallocates : Bool) (dst : Path) (fs : FileSystem), fs.fileAt cwd dst = none →
      ∀ l, ¬ Inside fs cwd dst l →
        (restorePath cwd preallocates dst ⟨source, fs⟩).2.other.entry l = fs.entry l := by
  constructor
  · intro κ sink k
    exact (sinkInvariant_logged sink).of_namesChecked hnames fun p hp => absurd hp List.not_mem_nil
  · intro cwd preallocates dst fs habsent l hl
    have hstart : Confined fs cwd dst [] ⟨fs, none⟩ :=
      ⟨fun _ _ => rfl, fun _ _ hfd => (by cases hfd), fun _ h => absurd h List.not_mem_nil⟩
    have hend := (sinkInvariant_restoreSink preallocates habsent).of_namesChecked hnames hstart
    exact hend.outside l hl

/-- A dump whose bytes arrive in pieces of at most three bytes. -/
def smallSource : Source :=
  ⟨dumpPath (str "/t") defaultPathFilter smallTree, fun k => k % 3, 0, str "end of string reached"⟩

/-- The names in the sample were checked. -/
theorem namesChecked_smallSource : NamesChecked smallSource := by
  have hok : (scanDump smallSource.rest.length ⟨smallSource, ()⟩).1.toBool = true := by
    decide +kernel
  intro h
  rw [h] at hok
  cases hok

/-- The sample is restored inside. -/
theorem restore_inside_smallSource :
    (∀ p ∈ (parseDump (RestoreSink [] true (str "/x")).logged smallSource.rest.length
      ⟨smallSource, (⟨.empty, none⟩, [])⟩).2.other.2, ProperPath p) ∧
    ∀ l, ¬ Inside .empty [] (str "/x") l →
      (restorePath [] true (str "/x") ⟨smallSource, .empty⟩).2.other.entry l =
        FileSystem.empty.entry l :=
  ⟨(restore_inside smallSource namesChecked_smallSource).1 _ _,
    (restore_inside smallSource namesChecked_smallSource).2 [] true (str "/x") .empty
      (by decide +kernel)⟩

end Nix
