import NixStore.Lib.FileSystem

/-!
# The links on a walk

A walk in a file system goes on without links up to its first symbolic link (`firstLink`), and then
from the directory of the link along the names of the target.  So a walk that may follow one more link
is such a beginning and a walk that may follow one less (`walk_succ_of_firstLink`), and a walk that
meets links for ever (`Loops`) ends nowhere.  `Walks` is a walk with the links that it meets; a walk
along two lists of names is one along the first list and then one along the second.
-/

namespace Nix

/-- Where the target of a link in a directory is looked up. -/
def linkStart (dir : Loc) (target : Str) : Loc := if isAbsolute target then [] else dir

/-- A name in a path name. -/
structure IsComponent (n : Str) : Prop where
  ne_nil : n ≠ []
  nulFree : n.NulFree
  noSlash : slash ∉ n

/-- A file name is a component. -/
theorem IsFileName.isComponent {n : Str} (h : IsFileName n) : IsComponent n :=
  ⟨h.ne_nil, h.nulFree, h.noSlash⟩

/-- The components of a path without NUL are proper. -/
theorem isComponent_of_mem_components {path n : Str} (hpath : path.NulFree)
    (h : n ∈ components path) : IsComponent n := by
  obtain ⟨hne, hslash, hsub⟩ := of_mem_componentsFrom h List.not_mem_nil
  exact ⟨hne, fun h0 => hpath (hsub 0 h0), hslash⟩

namespace FileSystem

variable (fs : FileSystem)

/-- The first symbolic link on a walk: its directory, its target, and the names behind it. -/
def firstLink : Loc → List Str → Option (Loc × Str × List Str)
  | _, [] => none
  | cur, n :: names =>
    if fs.entry cur = some .directory then
      if n = str "." then firstLink cur names
      else if n = str ".." then firstLink cur.dropLast names
      else
        match fs.entry (cur ++ [n]) with
        | none => none
        | some (.symlink target) => some (cur, target, names)
        | some _ => firstLink (cur ++ [n]) names
    else none

/-- A walk meets at least the given number of links. -/
def follows : ℕ → Loc → List Str → Prop
  | 0, _, _ => True
  | k + 1, cur, names => ∃ dir target rest, fs.firstLink cur names = some (dir, target, rest) ∧
      follows k (linkStart dir target) (components target ++ rest)

/-- A walk meets links for ever. -/
def Loops (cur : Loc) (names : List Str) : Prop := ∀ k, fs.follows k cur names

/-- There is a file at a location of file names, and it is not a symbolic link. -/
structure IsFileAt (l : Loc) : Prop where
  exists_entry : ∃ e, fs.entry l = some e ∧ ∀ target, e ≠ .symlink target
  isFileName : ∀ n ∈ l, IsFileName n

/-- Targets of symbolic links are C strings. -/
def NulFreeTargets : Prop := ∀ l target, fs.entry l = some (.symlink target) → target.NulFree

variable {fs} {cur dir : Loc} {names rest : List Str} {target : Str} {m : Loc}

/-! ### Walks up to the first link -/

/-- A walk goes to the first link, and on by what follows it. -/
theorem walkVia_eq_firstLink (follow : Loc → List Str → Option Loc) (cur : Loc)
    (names : List Str) :
    fs.walkVia follow cur names =
      match fs.firstLink cur names with
      | some (dir, target, rest) => follow (linkStart dir target) (components target ++ rest)
      | none => fs.walkVia (fun _ _ => none) cur names := by
  fun_induction fs.firstLink cur names with
  | case1 cur => rfl
  | case2 cur names hcur ih => simpa only [walkVia, if_pos hcur, if_pos] using ih
  | case3 cur names hcur hne ih => simpa only [walkVia, if_pos hcur, if_neg hne, if_pos] using ih
  | case4 cur n names hcur hdot hdotdot he =>
    simp only [walkVia, if_pos hcur, if_neg hdot, if_neg hdotdot, he]
  | case5 cur n names hcur hdot hdotdot target he =>
    simp only [walkVia, if_pos hcur, if_neg hdot, if_neg hdotdot, he, linkStart]
  | case6 cur n names hcur hdot hdotdot e hfile he ih =>
    have hwalk : ∀ f, fs.walkVia f cur (n :: names) = fs.walkVia f (cur ++ [n]) names := fun f => by
      cases e with
      | symlink target => exact absurd rfl (hfile target)
      | regular x c => simp only [walkVia, if_pos hcur, if_neg hdot, if_neg hdotdot, he]
      | directory => simp only [walkVia, if_pos hcur, if_neg hdot, if_neg hdotdot, he]
    rw [hwalk, hwalk, ih]
  | case7 cur n names hcur => simp only [walkVia, if_neg hcur]

/-- A walk that may follow no link ends at the first one. -/
theorem walk_zero_of_firstLink (h : fs.firstLink cur names = some (dir, target, rest)) :
    fs.walk 0 cur names = none := by
  rw [walk, walkVia_eq_firstLink, h]

/-- One more link. -/
theorem walk_succ_of_firstLink (h : fs.firstLink cur names = some (dir, target, rest)) (k : ℕ) :
    fs.walk (k + 1) cur names =
      fs.walk k (linkStart dir target) (components target ++ rest) := by
  rw [walk, walkVia_eq_firstLink, h]

/-- Without links the number of links to follow does not matter. -/
theorem walk_of_firstLink_eq_none (h : fs.firstLink cur names = none) (k : ℕ) :
    fs.walk k cur names = fs.walk 0 cur names := by
  cases k with
  | zero => rfl
  | succ k => rw [walk, walk, walkVia_eq_firstLink, h]

/-- Every walk has a first link or needs none. -/
theorem firstLink_cases (fs : FileSystem) (cur : Loc) (names : List Str) :
    fs.firstLink cur names = none ∨
      ∃ dir target rest, fs.firstLink cur names = some (dir, target, rest) := by
  rcases fs.firstLink cur names with _ | ⟨dir, target, rest⟩
  · exact Or.inl rfl
  · exact Or.inr ⟨dir, target, rest, rfl⟩

/-- What the first link is made of. -/
theorem firstLink_spec (h : fs.firstLink cur names = some (dir, target, rest))
    (hcur : ∀ n ∈ cur, IsFileName n) (hnames : ∀ n ∈ names, IsComponent n) :
    (∀ n ∈ dir, IsFileName n) ∧ (∀ n ∈ rest, n ∈ names) ∧ fs.entry dir = some .directory ∧
      ∃ l, fs.entry l = some (.symlink target) := by
  fun_induction fs.firstLink cur names with
  | case1 cur => cases h
  | case2 cur names hdir ih =>
    obtain ⟨h₁, h₂, h₃⟩ := ih h hcur fun n hn => hnames n (List.mem_cons_of_mem _ hn)
    exact ⟨h₁, fun n hn => List.mem_cons_of_mem _ (h₂ n hn), h₃⟩
  | case3 cur names hdir hne ih =>
    obtain ⟨h₁, h₂, h₃⟩ := ih h (fun n hn => hcur n (List.mem_of_mem_dropLast hn)) fun n hn =>
      hnames n (List.mem_cons_of_mem _ hn)
    exact ⟨h₁, fun n hn => List.mem_cons_of_mem _ (h₂ n hn), h₃⟩
  | case4 cur n names hdir hdot hdotdot he => cases h
  | case5 cur n names hdir hdot hdotdot target he =>
    cases h
    exact ⟨hcur, fun n hn => List.mem_cons_of_mem _ hn, hdir, _, he⟩
  | case6 cur n names hdir hdot hdotdot e hfile he ih =>
    obtain ⟨hne, hnul, hslash⟩ := hnames n List.mem_cons_self
    obtain ⟨h₁, h₂, h₃⟩ := ih h (fun k hk => by
      rcases List.mem_append.mp hk with hk | hk
      · exact hcur k hk
      · exact List.mem_singleton.mp hk ▸ ⟨hne, hnul, hslash, hdot, hdotdot⟩) fun k hk =>
      hnames k (List.mem_cons_of_mem _ hk)
    exact ⟨h₁, fun n hn => List.mem_cons_of_mem _ (h₂ n hn), h₃⟩
  | case7 cur n names hdir => cases h

/-! ### Walks without an end -/

/-- A loop goes on behind its first link. -/
theorem Loops.next (h : fs.Loops cur names) : ∃ dir target rest,
    fs.firstLink cur names = some (dir, target, rest) ∧
      fs.Loops (linkStart dir target) (components target ++ rest) := by
  obtain ⟨dir, target, rest, hlink, -⟩ := h 1
  refine ⟨dir, target, rest, hlink, fun k => ?_⟩
  obtain ⟨dir', target', rest', hlink', hk⟩ := h (k + 1)
  rw [hlink] at hlink'
  cases hlink'
  exact hk

/-- A walk whose first link leads into a loop is a loop. -/
theorem Loops.of_next (hlink : fs.firstLink cur names = some (dir, target, rest))
    (h : fs.Loops (linkStart dir target) (components target ++ rest)) : fs.Loops cur names := by
  intro k
  cases k with
  | zero => trivial
  | succ k => exact ⟨dir, target, rest, hlink, h k⟩

/-- A loop has no end, however many links may be followed. -/
theorem Loops.walk_eq_none {k : ℕ} (h : fs.Loops cur names) : fs.walk k cur names = none := by
  induction k generalizing cur names with
  | zero =>
    obtain ⟨dir, target, rest, hlink, -⟩ := h.next
    exact walk_zero_of_firstLink hlink
  | succ k ih =>
    obtain ⟨dir, target, rest, hlink, hnext⟩ := h.next
    rw [walk_succ_of_firstLink hlink, ih hnext]

/-! ### Where a walk ends -/

/-- A directory with proper names is a file. -/
theorem isFileAt_of_directory (h : fs.entry cur = some .directory)
    (hcur : ∀ n ∈ cur, IsFileName n) : fs.IsFileAt cur :=
  ⟨⟨.directory, h, by simp⟩, hcur⟩

/-- The root is a file. -/
theorem isFileAt_root (fs : FileSystem) : fs.IsFileAt [] :=
  isFileAt_of_directory fs.root (List.forall_mem_nil _)

/-- The parent of a directory is one, that of the root included. -/
theorem directory_dropLast (h : fs.entry cur = some .directory) :
    fs.entry cur.dropLast = some .directory := by
  rcases List.eq_nil_or_concat' cur with rfl | ⟨l, n, rfl⟩
  · exact fs.root
  · rw [List.dropLast_concat]
    exact fs.parent l n (by simp [h])

/-- A walk ends at a file that is not a link. -/
theorem isFileAt_of_walkVia {follow : Loc → List Str → Option Loc} (htargets : fs.NulFreeTargets)
    (hfollow : ∀ dir ns m, fs.IsFileAt dir → (∀ n ∈ ns, IsComponent n) → follow dir ns = some m →
      fs.IsFileAt m)
    (hcur : fs.IsFileAt cur) (hnames : ∀ n ∈ names, IsComponent n)
    (h : fs.walkVia follow cur names = some m) : fs.IsFileAt m := by
  induction cur, names using firstLink.induct fs with
  | case1 cur => exact Option.some.inj h ▸ hcur
  | case2 cur names hdir ih =>
    rw [walkVia, if_pos hdir, if_pos rfl] at h
    exact ih hcur (fun n hn => hnames n (List.mem_cons_of_mem _ hn)) h
  | case3 cur names hdir hne ih =>
    rw [walkVia, if_pos hdir, if_neg hne, if_pos rfl] at h
    exact ih (isFileAt_of_directory (directory_dropLast hdir) fun n hn =>
      hcur.isFileName n (List.mem_of_mem_dropLast hn))
      (fun n hn => hnames n (List.mem_cons_of_mem _ hn)) h
  | case4 cur n names hdir hdot hdotdot he => simp [walkVia, hdir, hdot, hdotdot, he] at h
  | case5 cur n names hdir hdot hdotdot target he =>
    simp only [walkVia, hdir, hdot, hdotdot, he, if_true, if_false] at h
    refine hfollow _ _ _ ?_ (fun k hk => ?_) h
    · split_ifs
      · exact isFileAt_root fs
      · exact hcur
    · rcases List.mem_append.mp hk with hk | hk
      · exact isComponent_of_mem_components (htargets _ _ he) hk
      · exact hnames k (List.mem_cons_of_mem _ hk)
  | case6 cur n names hdir hdot hdotdot e hfile he ih =>
    obtain ⟨hne, hnul, hslash⟩ := hnames n List.mem_cons_self
    refine ih ⟨⟨e, he, hfile⟩, fun k hk => ?_⟩
      (fun k hk => hnames k (List.mem_cons_of_mem _ hk)) ?_
    · rcases List.mem_append.mp hk with hk | hk
      · exact hcur.isFileName k hk
      · exact List.mem_singleton.mp hk ▸ ⟨hne, hnul, hslash, hdot, hdotdot⟩
    · cases e with
      | symlink target => exact absurd rfl (hfile target)
      | regular x c => simpa only [walkVia, hdir, hdot, hdotdot, he, if_true, if_false] using h
      | directory => simpa only [walkVia, hdir, hdot, hdotdot, he, if_true, if_false] using h
  | case7 cur n names hdir => simp [walkVia, hdir] at h

/-- A walk ends at a file. -/
theorem isFileAt_of_walk {k : ℕ} (htargets : fs.NulFreeTargets) (hcur : fs.IsFileAt cur)
    (hnames : ∀ n ∈ names, IsComponent n) (h : fs.walk k cur names = some m) : fs.IsFileAt m := by
  induction k generalizing cur names m with
  | zero => exact isFileAt_of_walkVia htargets (by simp) hcur hnames h
  | succ k ih =>
    exact isFileAt_of_walkVia htargets (fun _ _ _ hdir hns hk => ih hdir hns hk) hcur hnames h

/-- Nothing on the way to a file that is not a link is a link. -/
theorem IsFileAt.noLinks (h : fs.IsFileAt cur) {l : Loc} (hl : l <+: cur) (target : Str) :
    fs.entry l ≠ some (.symlink target) := by
  obtain ⟨⟨e, he, hfile⟩, -⟩ := h
  obtain ⟨names, rfl⟩ := hl
  by_cases hnil : names = []
  · rw [hnil, List.append_nil] at he
    exact fun hlink => hfile target (Option.some.inj (he ▸ hlink))
  · rw [entry_of_append hnil (by simp [he])]
    simp

/-- A walk from the root along a directory. -/
theorem walk_append_names {k : ℕ} (hdir : fs.entry dir = some .directory)
    (hnames : ∀ n ∈ dir, IsFileName n) (rest : List Str) :
    fs.walk k [] (dir ++ rest) = fs.walk k dir rest := by
  have hvia : ∀ (follow : Loc → List Str → Option Loc) (names cur : List Str),
      (∀ n ∈ names, IsFileName n) → fs.entry (cur ++ names) = some .directory →
        fs.walkVia follow cur (names ++ rest) = fs.walkVia follow (cur ++ names) rest := by
    intro follow names
    induction names with
    | nil => exact fun cur _ _ => by rw [List.nil_append, List.append_nil]
    | cons n names ih =>
      intro cur hnames hdir
      have hn := hnames n List.mem_cons_self
      have heq : cur ++ n :: names = (cur ++ [n]) ++ names := by simp
      have hcur : fs.entry cur = some .directory :=
        entry_of_append (List.cons_ne_nil n names) (by simp [hdir])
      have hsub : fs.entry (cur ++ [n]) = some .directory := by
        by_cases hnil : names = []
        · simpa [hnil] using hdir
        · exact entry_of_append hnil (by rw [← heq, hdir]; simp)
      rw [heq] at hdir ⊢
      rw [← ih (cur ++ [n]) (fun k hk => hnames k (List.mem_cons_of_mem _ hk)) hdir]
      simp only [List.cons_append, walkVia, if_pos hcur, if_neg hn.ne_dot, if_neg hn.ne_dotdot, hsub]
  cases k with
  | zero => exact hvia _ dir [] hnames (by simpa using hdir)
  | succ k => exact hvia _ dir [] hnames (by simpa using hdir)

/-- A walk from the root to a file that is not a link. -/
theorem IsFileAt.walk_eq (h : fs.IsFileAt cur) (k : ℕ) : fs.walk k [] cur = some cur := by
  obtain ⟨⟨e, he, hfile⟩, hnames⟩ := h
  rcases List.eq_nil_or_concat' cur with rfl | ⟨dir, n, rfl⟩
  · cases k <;> rfl
  · have hdir : fs.entry dir = some .directory := fs.parent dir n (by simp [he])
    have hn := hnames n (by simp)
    rw [walk_append_names hdir fun m hm => hnames m (List.mem_append_left _ hm)]
    cases e with
    | symlink target => exact absurd rfl (hfile target)
    | regular x c =>
      cases k <;> simp only [walk, walkVia, if_pos hdir, if_neg hn.ne_dot, if_neg hn.ne_dotdot, he]
    | directory =>
      cases k <;> simp only [walk, walkVia, if_pos hdir, if_neg hn.ne_dot, if_neg hn.ne_dotdot, he]

/-! ### Walks with the links that they meet -/

/-- A walk along some names meets certain links, given by their directories and targets, and ends at a
location. -/
inductive Walks (fs : FileSystem) : Loc → List Str → List (Loc × Str) → Loc → Prop
  | last {cur l : Loc} {names : List Str} : fs.walk 0 cur names = some l → Walks fs cur names [] l
  | link {cur dir l : Loc} {names rest : List Str} {target : Str} {met : List (Loc × Str)} :
      fs.firstLink cur names = some (dir, target, rest) →
      Walks fs (linkStart dir target) (components target ++ rest) met l →
      Walks fs cur names ((dir, target) :: met) l

/-- A walk along some names meets a link, whether it ends or not. -/
inductive Meets (fs : FileSystem) : Loc → List Str → Loc → Str → Prop
  | here {cur dir : Loc} {names rest : List Str} {target : Str} :
      fs.firstLink cur names = some (dir, target, rest) → Meets fs cur names dir target
  | later {cur dir d : Loc} {names rest : List Str} {target t : Str} :
      fs.firstLink cur names = some (dir, target, rest) →
      Meets fs (linkStart dir target) (components target ++ rest) d t → Meets fs cur names d t

variable {a b : List Str} {met met' : List (Loc × Str)} {l l' d : Loc} {t : Str}

/-- A walk without links meets none. -/
theorem firstLink_eq_none_of_walk_zero (h : fs.walk 0 cur names = some l) :
    fs.firstLink cur names = none := by
  rcases fs.firstLink_cases cur names with hnone | ⟨dir, target, rest, hlink⟩
  · exact hnone
  · rw [walk_zero_of_firstLink hlink] at h
    cases h

/-- A walk may follow as many links as it meets. -/
theorem walk_eq_some_iff {k : ℕ} :
    fs.walk k cur names = some l ↔ ∃ met, met.length ≤ k ∧ fs.Walks cur names met l := by
  constructor
  · intro h
    induction k generalizing cur names with
    | zero => exact ⟨[], le_rfl, .last h⟩
    | succ k ih =>
      rcases fs.firstLink_cases cur names with hnone | ⟨dir, target, rest, hlink⟩
      · exact ⟨[], Nat.zero_le _, .last (walk_of_firstLink_eq_none hnone (k + 1) ▸ h)⟩
      · rw [walk_succ_of_firstLink hlink] at h
        obtain ⟨met, hlen, hwalks⟩ := ih h
        exact ⟨_ :: met, Nat.succ_le_succ hlen, .link hlink hwalks⟩
  · rintro ⟨met, hlen, h⟩
    induction h generalizing k with
    | last h => rwa [walk_of_firstLink_eq_none (firstLink_eq_none_of_walk_zero h)]
    | link hlink _ ih =>
      obtain ⟨k, rfl⟩ : ∃ j, k = j + 1 := ⟨k - 1, by simp at hlen; omega⟩
      rw [walk_succ_of_firstLink hlink]
      exact ih (Nat.le_of_succ_le_succ hlen)

/-- There is one walk along some names. -/
theorem Walks.unique (h : fs.Walks cur names met l) (h' : fs.Walks cur names met' l') :
    met = met' ∧ l = l' := by
  induction h generalizing met' with
  | last h =>
    cases h' with
    | last h' => exact ⟨rfl, Option.some.inj (h.symm.trans h')⟩
    | link hlink _ => rw [firstLink_eq_none_of_walk_zero h] at hlink; cases hlink
  | link hlink _ ih =>
    cases h' with
    | last h' => rw [firstLink_eq_none_of_walk_zero h'] at hlink; cases hlink
    | link hlink' h' =>
      rw [hlink] at hlink'
      cases hlink'
      obtain ⟨rfl, rfl⟩ := ih h'
      exact ⟨rfl, rfl⟩

/-- The way to the first link, along two lists of names, if the first list has a link. -/
theorem firstLink_append_of_some (h : fs.firstLink cur a = some (dir, target, rest)) :
    fs.firstLink cur (a ++ b) = some (dir, target, rest ++ b) := by
  fun_induction fs.firstLink cur a with
  | case1 cur => cases h
  | case2 cur names hcur ih => simpa only [List.cons_append, firstLink, if_pos hcur, if_pos] using ih h
  | case3 cur names hcur hne ih =>
    simpa only [List.cons_append, firstLink, if_pos hcur, if_neg hne, if_pos] using ih h
  | case4 cur n names hcur hdot hdotdot he => cases h
  | case5 cur n names hcur hdot hdotdot target he =>
    cases h
    simp only [List.cons_append, firstLink, if_pos hcur, if_neg hdot, if_neg hdotdot, he]
  | case6 cur n names hcur hdot hdotdot e hfile he ih =>
    rw [List.cons_append, firstLink, if_pos hcur, if_neg hdot, if_neg hdotdot, he]
    cases e with
    | symlink target => exact absurd rfl (hfile target)
    | regular x c => exact ih h
    | directory => exact ih h
  | case7 cur n names hcur => cases h

/-- The walk goes on from where the first list ends without a link, or not at all. -/
theorem firstLink_append_of_none (h : fs.firstLink cur a = none) :
    (∀ m, fs.walk 0 cur a = some m →
      fs.firstLink cur (a ++ b) = fs.firstLink m b ∧ fs.walk 0 cur (a ++ b) = fs.walk 0 m b) ∧
    (fs.walk 0 cur a = none → fs.firstLink cur (a ++ b) = none ∧ fs.walk 0 cur (a ++ b) = none) := by
  simp only [walk]
  fun_induction fs.firstLink cur a with
  | case1 cur => simp [walkVia]
  | case2 cur names hcur ih =>
    simpa only [List.cons_append, firstLink, walkVia, if_pos hcur, if_pos] using ih h
  | case3 cur names hcur hne ih =>
    simpa only [List.cons_append, firstLink, walkVia, if_pos hcur, if_neg hne, if_pos] using ih h
  | case4 cur n names hcur hdot hdotdot he => simp [firstLink, walkVia, hcur, hdot, hdotdot, he]
  | case5 cur n names hcur hdot hdotdot target he => cases h
  | case6 cur n names hcur hdot hdotdot e hfile he ih =>
    simp only [List.cons_append, firstLink, walkVia, if_pos hcur, if_neg hdot, if_neg hdotdot, he]
    cases e with
    | symlink target => exact absurd rfl (hfile target)
    | regular x c => exact ih h
    | directory => exact ih h
  | case7 cur n names hcur => simp [firstLink, walkVia, hcur]

/-- Walks one after the other. -/
theorem Walks.append (h : fs.Walks cur a met m) (h' : fs.Walks m b met' l) :
    fs.Walks cur (a ++ b) (met ++ met') l := by
  induction h with
  | last h =>
    obtain ⟨hlink, hwalk⟩ :=
      (firstLink_append_of_none (b := b) (firstLink_eq_none_of_walk_zero h)).1 _ h
    cases h' with
    | last h' => exact .last (hwalk.trans h')
    | link hlink' h' => exact .link (hlink.trans hlink') h'
  | link hlink _ ih =>
    refine .link (firstLink_append_of_some hlink) ?_
    rw [← List.append_assoc]
    exact ih h'

/-- A walk along two lists of names is one along the first and one along the second. -/
theorem Walks.of_append (h : fs.Walks cur (a ++ b) met l) :
    ∃ met₁ met₂ m, met = met₁ ++ met₂ ∧ fs.Walks cur a met₁ m ∧ fs.Walks m b met₂ l := by
  generalize hnames : a ++ b = names at h
  induction h generalizing a with
  | @last cur _ _ h =>
    subst hnames
    rcases fs.firstLink_cases cur a with hnone | ⟨dir, target, rest, hlink⟩
    · have hsplit := firstLink_append_of_none (b := b) hnone
      rcases ha : fs.walk 0 cur a with _ | m
      · rw [(hsplit.2 ha).2] at h
        cases h
      · exact ⟨[], [], m, rfl, .last ha, .last ((hsplit.1 m ha).2.symm.trans h)⟩
    · rw [walk_zero_of_firstLink (firstLink_append_of_some hlink)] at h
      cases h
  | @link cur _ dir target rest met _ hlink hwalks ih =>
    subst hnames
    rcases fs.firstLink_cases cur a with hnone | ⟨dir', target', rest', hlink'⟩
    · have hsplit := firstLink_append_of_none (b := b) hnone
      rcases ha : fs.walk 0 cur a with _ | m
      · rw [(hsplit.2 ha).1] at hlink
        cases hlink
      · exact ⟨[], _, m, rfl, .last ha, .link ((hsplit.1 m ha).1.symm.trans hlink) hwalks⟩
    · rw [firstLink_append_of_some hlink'] at hlink
      cases hlink
      obtain ⟨met₁, met₂, m, rfl, h₁, h₂⟩ := ih (List.append_assoc _ _ _)
      exact ⟨_ :: met₁, met₂, m, rfl, .link hlink' h₁, h₂⟩

/-! ### The links that a walk meets -/

/-- A walk that ends meets the links in its list. -/
theorem Walks.meets_iff (h : fs.Walks cur names met l) : fs.Meets cur names d t ↔ (d, t) ∈ met := by
  induction h with
  | last h =>
    have hnone := firstLink_eq_none_of_walk_zero h
    refine ⟨fun hmeets => ?_, fun hmem => absurd hmem List.not_mem_nil⟩
    cases hmeets with
    | here hlink => rw [hnone] at hlink; cases hlink
    | later hlink _ => rw [hnone] at hlink; cases hlink
  | link hlink _ ih =>
    rw [List.mem_cons, ← ih]
    constructor
    · intro hmeets
      cases hmeets with
      | here hlink' => rw [hlink] at hlink'; cases hlink'; exact Or.inl rfl
      | later hlink' h' => rw [hlink] at hlink'; cases hlink'; exact Or.inr h'
    · rintro (heq | hmeets)
      · cases heq
        exact .here hlink
      · exact .later hlink hmeets

/-- A longer walk meets what a shorter one does. -/
theorem Meets.append (h : fs.Meets cur a d t) (b : List Str) : fs.Meets cur (a ++ b) d t := by
  induction h with
  | here hlink => exact .here (firstLink_append_of_some hlink)
  | later hlink _ ih =>
    refine .later (firstLink_append_of_some hlink) ?_
    rwa [← List.append_assoc]

/-- A walk meets what its second part meets. -/
theorem Walks.meets_append (h : fs.Walks cur a met m) (hb : fs.Meets m b d t) :
    fs.Meets cur (a ++ b) d t := by
  induction h with
  | last h =>
    have hlink := ((firstLink_append_of_none (b := b) (firstLink_eq_none_of_walk_zero h)).1 _ h).1
    cases hb with
    | here hlink' => exact .here (hlink.trans hlink')
    | later hlink' h' => exact .later (hlink.trans hlink') h'
  | link hlink _ ih =>
    refine .later (firstLink_append_of_some hlink) ?_
    rw [← List.append_assoc]
    exact ih hb

/-- A link that is met along two lists of names is met along the first, or along the second. -/
theorem Meets.of_append (h : fs.Meets cur (a ++ b) d t) :
    fs.Meets cur a d t ∨ ∃ met m, fs.Walks cur a met m ∧ fs.Meets m b d t := by
  generalize hnames : a ++ b = names at h
  have hsplit : ∀ {cur a dir target rest}, fs.firstLink cur (a ++ b) = some (dir, target, rest) →
      (∃ rest', fs.firstLink cur a = some (dir, target, rest') ∧ rest = rest' ++ b) ∨
        ∃ m, fs.walk 0 cur a = some m ∧ fs.firstLink m b = some (dir, target, rest) := by
    intro cur a dir target rest hlink
    rcases fs.firstLink_cases cur a with hnone | ⟨dir', target', rest', hlink'⟩
    · have hsplit := firstLink_append_of_none (b := b) hnone
      rcases ha : fs.walk 0 cur a with _ | m
      · rw [(hsplit.2 ha).1] at hlink
        cases hlink
      · exact Or.inr ⟨m, rfl, (hsplit.1 m ha).1.symm.trans hlink⟩
    · rw [firstLink_append_of_some hlink'] at hlink
      cases hlink
      exact Or.inl ⟨rest', hlink', rfl⟩
  induction h generalizing a with
  | here hlink =>
    subst hnames
    rcases hsplit hlink with ⟨rest', hlink', -⟩ | ⟨m, ha, hlink'⟩
    · exact Or.inl (.here hlink')
    · exact Or.inr ⟨[], m, .last ha, .here hlink'⟩
  | later hlink hmeets ih =>
    subst hnames
    rcases hsplit hlink with ⟨rest', hlink', rfl⟩ | ⟨m, ha, hlink'⟩
    · rcases ih (List.append_assoc _ _ _) with h | ⟨met, m, h₁, h₂⟩
      · exact Or.inl (.later hlink' h)
      · exact Or.inr ⟨_, m, .link hlink' h₁, h₂⟩
    · exact Or.inr ⟨[], m, .last ha, .later hlink' hmeets⟩

/-! ### Walks without an end, along two lists of names -/

/-- A walk that ends is no loop. -/
theorem Walks.not_loops (h : fs.Walks cur names met l) : ¬ fs.Loops cur names := fun hloops => by
  have hwalk := walk_eq_some_iff.mpr ⟨met, le_rfl, h⟩
  rw [hloops.walk_eq_none] at hwalk
  cases hwalk

/-- A walk that begins with a loop is one. -/
theorem Loops.append (h : fs.Loops cur a) (b : List Str) : fs.Loops cur (a ++ b) := by
  intro k
  induction k generalizing cur a with
  | zero => trivial
  | succ k ih =>
    obtain ⟨dir, target, rest, hlink, hnext⟩ := h.next
    refine ⟨dir, target, rest ++ b, firstLink_append_of_some hlink, ?_⟩
    rw [← List.append_assoc]
    exact ih hnext

/-- A walk whose second part is a loop is one. -/
theorem Walks.loops (h : fs.Walks cur a met m) (hb : fs.Loops m b) : fs.Loops cur (a ++ b) := by
  induction h with
  | last h =>
    obtain ⟨dir, target, rest, hlink, hnext⟩ := hb.next
    have hsplit := (firstLink_append_of_none (b := b) (firstLink_eq_none_of_walk_zero h)).1 _ h
    exact .of_next (hsplit.1.trans hlink) hnext
  | link hlink _ ih =>
    refine .of_next (firstLink_append_of_some hlink) ?_
    rw [← List.append_assoc]
    exact ih hb

/-- A walk without an end has none along the first list, or it comes to the end of that and has none
along the second. -/
theorem Loops.of_append (h : fs.Loops cur (a ++ b)) :
    (∃ met m, fs.Walks cur a met m ∧ fs.Loops m b) ∨ fs.Loops cur a := by
  by_cases hwalks : ∃ met m, fs.Walks cur a met m
  · obtain ⟨met, m, hm⟩ := hwalks
    refine Or.inl ⟨met, m, hm, ?_⟩
    induction hm with
    | last hm =>
      obtain ⟨dir, target, rest, hlink, hnext⟩ := h.next
      have hsplit := (firstLink_append_of_none (b := b) (firstLink_eq_none_of_walk_zero hm)).1 _ hm
      exact .of_next (hsplit.1.symm.trans hlink) hnext
    | link hlink _ ih =>
      obtain ⟨dir, target, rest, hlink', hnext⟩ := h.next
      rw [firstLink_append_of_some hlink] at hlink'
      cases hlink'
      rw [← List.append_assoc] at hnext
      exact ih hnext
  · refine Or.inr fun k => ?_
    induction k generalizing cur a with
    | zero => trivial
    | succ k ih =>
      obtain ⟨dir, target, rest, hlink, hnext⟩ := h.next
      rcases fs.firstLink_cases cur a with hnone | ⟨dir', target', rest', hlink'⟩
      · have hsplit := firstLink_append_of_none (b := b) hnone
        rcases ha : fs.walk 0 cur a with _ | m
        · rw [(hsplit.2 ha).1] at hlink
          cases hlink
        · exact absurd ⟨[], m, .last ha⟩ hwalks
      · rw [firstLink_append_of_some hlink'] at hlink
        cases hlink
        rw [← List.append_assoc] at hnext
        refine ⟨dir, target, rest', hlink', ih hnext ?_⟩
        rintro ⟨met, m, hm⟩
        exact hwalks ⟨_, m, .link hlink' hm⟩

end FileSystem

end Nix
