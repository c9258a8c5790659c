import NixStore.Lib.Bytes

/-!
# File systems

A file system is a map from locations, the lists of names that lead to a file from the root, to what
is there.  Path names are byte strings; `place` resolves one the way the system calls do that create
a file: `.` and `..` are interpreted, symbolic links in front of the last name are followed, and the
string ends at its first NUL byte.  The only reasons for a system call to fail are missing or
existing files, files that are not directories, and too many symbolic links.
-/

namespace Nix

/-- The names that lead to a file from the root. -/
abbrev Loc := List Str

/-- What is at a location. -/
inductive FileEntry where
  /-- A regular file, with its owner-execute bit. -/
  | regular (executable : Bool) (contents : Str)
  | directory
  | symlink (target : Str)
deriving DecidableEq

/-- A file system: everything is in a directory. -/
structure FileSystem where
  /-- What is at a location. -/
  entry : Loc → Option FileEntry
  root : entry [] = some .directory
  parent : ∀ l n, entry (l ++ [n]) ≠ none → entry l = some .directory

/-- The file system without files. -/
def FileSystem.empty : FileSystem where
  entry l := if l = [] then some .directory else none
  root := rfl
  parent l n h := by simp at h

/-- The byte that separates names. -/
def slash : UInt8 := '/'.toUInt8

/-- The names that a directory can have for its entries. -/
structure IsFileName (n : Str) : Prop where
  ne_nil : n ≠ []
  nulFree : n.NulFree
  noSlash : slash ∉ n
  ne_dot : n ≠ str "."
  ne_dotdot : n ≠ str ".."

/-! ### Path names -/

/-- A name that ends here, unless it is empty. -/
def endName (acc : Str) : List Str := if acc = [] then [] else [acc]

/-- The names in a path name, when `acc` has been read of the current one. -/
def componentsFrom (acc : Str) : Str → List Str
  | [] => endName acc
  | c :: s => if c = slash then endName acc ++ componentsFrom [] s else componentsFrom (acc ++ [c]) s

/-- The names in a path name; empty ones do not count. -/
def components (path : Str) : List Str := componentsFrom [] path

/-- A text without slash is the end of a name. -/
theorem componentsFrom_of_noSlash {acc s : Str} (h : slash ∉ s) :
    componentsFrom acc s = endName (acc ++ s) := by
  induction s generalizing acc with
  | nil => simp [componentsFrom]
  | cons c s ih =>
    rw [List.mem_cons, not_or] at h
    rw [componentsFrom, if_neg (Ne.symm h.1), ih h.2, List.append_assoc, List.singleton_append]

/-- A slash ends a name. -/
theorem componentsFrom_append_slash (acc s t : Str) :
    componentsFrom acc (s ++ slash :: t) = componentsFrom acc s ++ componentsFrom [] t := by
  induction s generalizing acc with
  | nil => simp [componentsFrom]
  | cons c s ih =>
    rw [List.cons_append, componentsFrom, componentsFrom]
    split_ifs with h
    · rw [ih, List.append_assoc]
    · exact ih _

/-- The components on the two sides of a slash. -/
theorem components_append_slash (s t : Str) :
    components (s ++ slash :: t) = components s ++ components t :=
  componentsFrom_append_slash [] s t

/-- A file name is its own component. -/
theorem components_of_isFileName {n : Str} (h : IsFileName n) : components n = [n] := by
  rw [components, componentsFrom_of_noSlash h.noSlash, List.nil_append, endName, if_neg h.ne_nil]

/-- A name that ends is not empty. -/
theorem of_mem_endName {acc n : Str} (h : n ∈ endName acc) : n = acc ∧ n ≠ [] := by
  unfold endName at h
  split_ifs at h with hacc
  · exact absurd h (by simp)
  · rw [List.mem_singleton] at h
    exact ⟨h, h ▸ hacc⟩

/-- Names are nonempty, without slash, and made of characters of the text. -/
theorem of_mem_componentsFrom {acc s n : Str} (h : n ∈ componentsFrom acc s) (hacc : slash ∉ acc) :
    n ≠ [] ∧ slash ∉ n ∧ ∀ c ∈ n, c ∈ acc ++ s := by
  induction s generalizing acc with
  | nil =>
    obtain ⟨rfl, hn⟩ := of_mem_endName h
    exact ⟨hn, hacc, by simp⟩
  | cons c s ih =>
    rw [componentsFrom] at h
    split_ifs at h with hc
    · rcases List.mem_append.mp h with h | h
      · obtain ⟨rfl, hn⟩ := of_mem_endName h
        exact ⟨hn, hacc, fun b hb => List.mem_append_left _ hb⟩
      · obtain ⟨hn, hslash, hsub⟩ := ih h (by simp)
        refine ⟨hn, hslash, fun b hb => ?_⟩
        exact List.mem_append_right _ (List.mem_cons_of_mem _ (hsub b hb))
    · obtain ⟨hn, hslash, hsub⟩ := ih h (by simp [hacc, Ne.symm hc])
      exact ⟨hn, hslash, fun b hb => by simpa using hsub b hb⟩

/-- A list of names written behind a path name. -/
def subPath (names : List Str) : Str := names.flatMap fun n => slash :: n

@[simp] theorem subPath_nil : subPath [] = [] := rfl

/-- One more name. -/
theorem subPath_concat (names : List Str) (n : Str) :
    subPath (names ++ [n]) = subPath names ++ slash :: n := by
  simp [subPath]

/-- Components of a path with names behind it. -/
theorem components_append_subPath (path : Str) {names : List Str}
    (h : ∀ n ∈ names, IsFileName n) :
    components (path ++ subPath names) = components path ++ names := by
  induction names using List.reverseRecOn with
  | nil => simp
  | append_singleton names n ih =>
    rw [subPath_concat, ← List.append_assoc, components_append_slash,
      ih fun m hm => h m (List.mem_append_left _ hm),
      components_of_isFileName (h n (by simp)), List.append_assoc]

/-- Two texts have no NUL when their concatenation has none. -/
theorem nulFree_append {s t : Str} : Str.NulFree (s ++ t) ↔ s.NulFree ∧ t.NulFree := by
  simp [Str.NulFree, not_or]

/-- A path of file names has no NUL. -/
theorem nulFree_subPath {names : List Str} (h : ∀ n ∈ names, IsFileName n) :
    (subPath names).NulFree := by
  intro h0
  obtain ⟨n, hn, h0⟩ := List.mem_flatMap.mp h0
  rcases List.mem_cons.mp h0 with h0 | h0
  · exact absurd h0 (by decide)
  · exact (h n hn).nulFree h0

namespace FileSystem

/-! ### Walks -/

section

variable (fs : FileSystem)

/-- A walk from a location along some names, with a function for what to do at symbolic links. -/
def walkVia (follow : Loc → List Str → Option Loc) : Loc → List Str → Option Loc
  | cur, [] => some cur
  | cur, n :: names =>
    if fs.entry cur = some .directory then
      if n = str "." then walkVia follow cur names
      else if n = str ".." then walkVia follow cur.dropLast names
      else
        match fs.entry (cur ++ [n]) with
        | none => none
        | some (.symlink target) =>
          follow (if isAbsolute target then [] else cur) (components target ++ names)
        | some _ => walkVia follow (cur ++ [n]) names
    else none

/-- A walk that follows at most the given number of symbolic links. -/
def walk : ℕ → Loc → List Str → Option Loc
  | 0 => fs.walkVia fun _ _ => none
  | k + 1 => fs.walkVia (walk k)

/-- The number of symbolic links after which a system call gives up. -/
def maxSymlinks : ℕ := 40

/-- The directory and the name that a path name stands for when a file is to be created. -/
def place (cwd : Loc) (path : Str) : Option (Loc × Str) :=
  match (components path.cut).getLast? with
  | none => none
  | some n =>
    if n = str "." ∨ n = str ".." then none
    else
      match fs.walk maxSymlinks (if isAbsolute path.cut then [] else cwd)
          (components path.cut).dropLast with
      | none => none
      | some dir => if fs.entry dir = some .directory then some (dir, n) else none

end

/-- Nothing is lost from the first file system to the second. -/
def Keeps (fs fs' : FileSystem) : Prop := ∀ l e, fs.entry l = some e → fs'.entry l = some e

variable {fs fs' : FileSystem}

/-- Everything above an existing file is a directory. -/
theorem entry_of_append {l : Loc} : ∀ {names : List Str}, names ≠ [] →
    fs.entry (l ++ names) ≠ none → fs.entry l = some .directory := by
  intro names
  induction names using List.reverseRecOn with
  | nil => exact fun h => absurd rfl h
  | append_singleton names n ih =>
    intro _ h
    rw [← List.append_assoc] at h
    have hdir := fs.parent _ _ h
    by_cases hnil : names = []
    · simpa [hnil] using hdir
    · exact ih hnil (by simp [hdir])

/-- A walk along directories. -/
theorem walkVia_of_directory (follow : Loc → List Str → Option Loc) {l : Loc} {names : List Str}
    (hnames : ∀ n ∈ names, IsFileName n) (hdir : fs.entry (l ++ names) = some .directory) :
    fs.walkVia follow l names = some (l ++ names) := by
  induction names generalizing l with
  | nil => simp [walkVia]
  | cons n names ih =>
    have hn := hnames n List.mem_cons_self
    have heq : l ++ n :: names = (l ++ [n]) ++ names := by simp
    have hl : fs.entry l = some .directory := entry_of_append (List.cons_ne_nil n names) (by simp [hdir])
    have hln : fs.entry (l ++ [n]) = some .directory := by
      by_cases hnil : names = []
      · simpa [hnil] using hdir
      · exact entry_of_append hnil (by rw [← heq, hdir]; simp)
    rw [heq] at hdir ⊢
    rw [walkVia, if_pos hl, if_neg hn.ne_dot, if_neg hn.ne_dotdot, hln]
    exact ih (fun m hm => hnames m (List.mem_cons_of_mem _ hm)) hdir

/-- A walk can be made in a file system with more files in it, and continued along directories. -/
theorem walkVia_append {follow follow' : Loc → List Str → Option Loc} (hkeep : fs.Keeps fs')
    {names : List Str} {l : Loc} (hnames : ∀ n ∈ names, IsFileName n)
    (hdir : fs'.entry (l ++ names) = some .directory)
    (hfollow : ∀ cur ns, follow cur ns = some l → follow' cur (ns ++ names) = some (l ++ names))
    {cur : Loc} {ns : List Str} (h : fs.walkVia follow cur ns = some l) :
    fs'.walkVia follow' cur (ns ++ names) = some (l ++ names) := by
  induction ns generalizing cur with
  | nil =>
    rw [walkVia, Option.some.injEq] at h
    rw [h, List.nil_append]
    exact walkVia_of_directory follow' hnames hdir
  | cons n ns ih =>
    rw [walkVia] at h
    rw [List.cons_append, walkVia]
    by_cases hcur : fs.entry cur = some .directory
    · rw [if_pos hcur] at h
      rw [if_pos (hkeep _ _ hcur)]
      split_ifs at h ⊢ with h₁ h₂
      · exact ih h
      · exact ih h
      · rcases he : fs.entry (cur ++ [n]) with _ | e
        · simp [he] at h
        · rw [he] at h
          rw [hkeep _ _ he]
          cases e with
          | regular x c => exact ih h
          | directory => exact ih h
          | symlink target =>
            dsimp only at h ⊢
            rw [← List.append_assoc]
            exact hfollow _ _ h
    · rw [if_neg hcur] at h
      exact absurd h (by simp)

/-- A walk to a place goes on to a directory below it. -/
theorem walk_append (hkeep : fs.Keeps fs') {names : List Str} {l : Loc}
    (hnames : ∀ n ∈ names, IsFileName n) (hdir : fs'.entry (l ++ names) = some .directory) {k : ℕ}
    {cur : Loc} {ns : List Str} (h : fs.walk k cur ns = some l) :
    fs'.walk k cur (ns ++ names) = some (l ++ names) := by
  induction k generalizing cur ns with
  | zero => exact walkVia_append hkeep hnames hdir (by simp) h
  | succ k ih =>
    unfold walk at h ⊢
    exact walkVia_append hkeep hnames hdir (fun _ _ hk => ih hk) h

/-! ### Creating and changing files -/

/-- A new file in a directory. -/
def add (fs : FileSystem) (l : Loc) (n : Str) (e : FileEntry) (hl : fs.entry l = some .directory)
    (hn : fs.entry (l ++ [n]) = none) : FileSystem where
  entry k := if k = l ++ [n] then some e else fs.entry k
  root := by rw [if_neg (by simp), fs.root]
  parent k m h := by
    by_cases hk : k ++ [m] = l ++ [n]
    · obtain ⟨rfl, -⟩ := List.append_inj' hk rfl
      rw [if_neg (by simp), hl]
    · rw [if_neg hk] at h
      have hdir := fs.parent k m h
      rw [if_neg, hdir]
      intro hkl
      rw [hkl, hn] at hdir
      exact absurd hdir (by simp)

/-- Change a regular file. -/
def setRegular (fs : FileSystem) (l : Loc) (x : Bool) (c : Str)
    (h : ∃ x₀ c₀, fs.entry l = some (.regular x₀ c₀)) : FileSystem where
  entry k := if k = l then some (.regular x c) else fs.entry k
  root := by
    obtain ⟨x₀, c₀, h⟩ := h
    rw [if_neg, fs.root]
    intro hl
    rw [← hl, fs.root] at h
    exact absurd h (by simp)
  parent k m hk := by
    obtain ⟨x₀, c₀, h⟩ := h
    have hdir : fs.entry k = some .directory := by
      apply fs.parent k m
      by_cases hkl : k ++ [m] = l
      · rw [hkl, h]
        simp
      · rwa [if_neg hkl] at hk
    rw [if_neg, hdir]
    intro hkl
    rw [← hkl, hdir] at h
    exact absurd h (by simp)

/-- Nothing is left of a file and what is below it. -/
def remove (fs : FileSystem) (l : Loc) (n : Str) : FileSystem where
  entry k := if l ++ [n] <+: k then none else fs.entry k
  root := by
    rw [if_neg, fs.root]
    intro h
    have hlen := h.length_le
    simp at hlen
  parent k m h := by
    by_cases hk : l ++ [n] <+: k
    · exact absurd (if_pos (hk.trans (List.prefix_append k [m]))) h
    · rw [if_neg hk]
      refine fs.parent k m fun hnone => h ?_
      split_ifs
      · rfl
      · exact hnone

/-- What the system call `lstat` finds. -/
def fileAt (fs : FileSystem) (cwd : Loc) (path : Path) : Option FileEntry :=
  match fs.place cwd path with
  | some (l, n) => fs.entry (l ++ [n])
  | none => none

/-- The system calls `mkdir`, `symlink` and `open` with `O_CREAT | O_EXCL`. -/
def create (fs : FileSystem) (cwd : Loc) (path : Str) (e : FileEntry) : Option (FileSystem × Loc) :=
  match fs.place cwd path with
  | none => none
  | some (l, n) =>
    -- only a directory can be created under a name with a slash at its end
    if e ≠ .directory ∧ path.cut.getLast? = some slash then none
    else if h : fs.entry l = some .directory ∧ fs.entry (l ++ [n]) = none then
      some (fs.add l n e h.1 h.2, l ++ [n])
    else none

/-- What `create` does. -/
theorem create_eq_some {cwd : Loc} {path : Str} {e : FileEntry} {l : Loc}
    (h : fs.create cwd path e = some (fs', l)) :
    ∃ dir n, fs.place cwd path = some (dir, n) ∧ l = dir ++ [n] ∧ fs.entry l = none ∧
      ∀ k, fs'.entry k = if k = l then some e else fs.entry k := by
  unfold create at h
  split at h
  · cases h
  · rename_i dir n hplace
    split_ifs at h with hlast hfree
    obtain ⟨rfl, rfl⟩ := Prod.mk.inj (Option.some.inj h)
    exact ⟨dir, n, hplace, rfl, hfree.2, fun _ => rfl⟩

/-- A path name ends at its first NUL byte. -/
theorem place_cut (fs : FileSystem) (cwd : Loc) (path : Str) :
    fs.place cwd path.cut = fs.place cwd path := by
  unfold place
  rw [Str.cut_eq_self (Str.nulFree_cut path)]

/-- A file can be created under a path name, and this is where it will be. -/
structure Creatable (fs : FileSystem) (cwd : Loc) (path : Str) (l : Loc) (n : Str) : Prop where
  nulFree : path.NulFree
  noSlash : path.getLast? ≠ some slash
  place_eq : fs.place cwd path = some (l, n)
  absent : fs.entry (l ++ [n]) = none

/-- What `place` does, in terms of the names in the path name. -/
theorem place_eq_some_iff {cwd : Loc} {path : Str} (hnul : path.NulFree) {l : Loc} {n : Str} :
    fs.place cwd path = some (l, n) ↔ ∃ names, components path = names ++ [n] ∧ IsFileName n ∧
      fs.walk maxSymlinks (if isAbsolute path then [] else cwd) names = some l ∧
      fs.entry l = some .directory := by
  unfold place
  rw [Str.cut_eq_self hnul]
  rcases List.eq_nil_or_concat (components path) with hc | ⟨names, m, hc⟩
  · simp [hc]
  · rw [List.concat_eq_append] at hc
    have hm : m ∈ components path := by simp [hc]
    obtain ⟨hne, hslash, hsub⟩ := of_mem_componentsFrom hm (by simp)
    rw [hc, List.getLast?_concat, List.dropLast_concat]
    generalize (if isAbsolute path then [] else cwd) = start
    dsimp only
    constructor
    · intro h
      split_ifs at h with hdots
      rw [not_or] at hdots
      rcases hw : fs.walk maxSymlinks start names with _ | dir
      · simp [hw] at h
      · simp only [hw] at h
        split_ifs at h with hdir
        rw [Option.some.injEq, Prod.mk.injEq] at h
        obtain ⟨rfl, rfl⟩ := h
        exact ⟨names, rfl, ⟨hne, fun h0 => hnul (hsub 0 h0), hslash, hdots.1, hdots.2⟩, hw, hdir⟩
    · rintro ⟨names', hc', hn, hw, hdir⟩
      obtain ⟨rfl, heq⟩ := List.append_inj' hc' rfl
      rw [List.singleton_inj] at heq
      subst heq
      rw [if_neg (by simp [hn.ne_dot, hn.ne_dotdot]), hw]
      simp [hdir]

/-- The place where a file is created stays the same while nothing is lost. -/
theorem place_of_keeps {cwd : Loc} {path : Str} (hnul : path.NulFree) {l : Loc} {n : Str}
    (hkeep : fs.Keeps fs') (h : fs.place cwd path = some (l, n)) : fs'.place cwd path = some (l, n) := by
  obtain ⟨ns, hc, hn, hwalk, hdir⟩ := (place_eq_some_iff hnul).mp h
  have hdir' := hkeep _ _ hdir
  have hnil : ∀ m ∈ ([] : List Str), IsFileName m := fun _ h => absurd h List.not_mem_nil
  have hwalk' := walk_append hkeep hnil (by rwa [List.append_nil]) hwalk
  rw [List.append_nil, List.append_nil] at hwalk'
  exact (place_eq_some_iff hnul).mpr ⟨ns, hc, hn, hwalk', hdir'⟩

/-- The creation of a file where one can be created. -/
theorem Creatable.create {cwd : Loc} {path : Str} {l : Loc} {n : Str}
    (h : fs.Creatable cwd path l n) (e : FileEntry) :
    ∃ fs', fs.create cwd path e = some (fs', l ++ [n]) ∧
      ∀ k, fs'.entry k = if k = l ++ [n] then some e else fs.entry k := by
  obtain ⟨_, _, _, _, hdir⟩ := (place_eq_some_iff h.nulFree).mp h.place_eq
  refine ⟨fs.add l n e hdir h.absent, ?_, fun k => rfl⟩
  rw [FileSystem.create, h.place_eq, Str.cut_eq_self h.nulFree]
  simp [h.noSlash, hdir, h.absent]

/-- A file can be created in a directory below a location where a file could be created before. -/
theorem Creatable.sub {cwd : Loc} {path : Str} {l : Loc} {n : Str}
    (h : fs.Creatable cwd path l n) (hkeep : fs.Keeps fs') {names : List Str} {m : Str}
    (hnames : ∀ k ∈ names, IsFileName k) (hm : IsFileName m)
    (hdir : fs'.entry (l ++ [n] ++ names) = some .directory)
    (habsent : fs'.entry (l ++ [n] ++ names ++ [m]) = none) :
    fs'.Creatable cwd (path ++ subPath (names ++ [m])) (l ++ [n] ++ names) m := by
  obtain ⟨ns, hc, hn, hw, -⟩ := (place_eq_some_iff h.nulFree).mp h.place_eq
  have hall : ∀ k ∈ names ++ [m], IsFileName k := by
    intro k hk
    rcases List.mem_append.mp hk with hk | hk
    · exact hnames k hk
    · rwa [List.mem_singleton.mp hk]
  have hnul : Str.NulFree (path ++ subPath (names ++ [m])) :=
    nulFree_append.mpr ⟨h.nulFree, nulFree_subPath hall⟩
  have hpath : path ≠ [] := by
    intro hnil
    rw [hnil] at hc
    exact absurd hc (by simp [components, componentsFrom, endName])
  refine ⟨hnul, ?_, (place_eq_some_iff hnul).mpr ⟨ns ++ ([n] ++ names), ?_, hm, ?_, hdir⟩, habsent⟩
  · rw [subPath_concat, ← List.append_assoc, List.getLast?_append]
    obtain ⟨a, ha⟩ : ∃ a, m.getLast? = some a :=
      Option.ne_none_iff_exists'.mp (by simp [List.getLast?_eq_none_iff, hm.ne_nil])
    rw [List.getLast?_cons, ha]
    intro heq
    simp only [Option.getD_some, Option.some_or, Option.some.injEq] at heq
    exact hm.noSlash (heq ▸ List.mem_of_getLast? ha)
  · rw [components_append_subPath path hall, hc]
    simp
  · have habs : isAbsolute (path ++ subPath (names ++ [m])) = isAbsolute path := by
      unfold isAbsolute
      rw [List.head?_append_of_ne_nil _ hpath]
    rw [habs, List.append_assoc l]
    exact walk_append hkeep (by simpa using ⟨hn, hnames⟩) (by simpa using hdir) hw

/-- The bytes of a file after a write at an offset. -/
def overwrite (contents : Str) (offset : ℕ) (data : Str) : Str :=
  contents.take offset ++ List.replicate (offset - contents.length) 0 ++ data ++
    contents.drop (offset + data.length)

/-- The bytes of a file after the allocation of space for a number of bytes. -/
def allocate (contents : Str) (len : ℕ) : Str :=
  contents ++ List.replicate (len - contents.length) 0

end FileSystem

end Nix
