import NixStore.Env.UserEnv

/-!
# The links of user environments

What `createLinks` leaves: the merged tree of the packages that have been linked, in which a directory
is a link as long as one package has it.  It throws if and only if a file has the same priority as the
best of the files that it collides with (`createLinks_spec`).
-/

namespace Nix

/-! ### Ends of calls -/

namespace Outcome

variable {ε α β : Type} {P Q : α → Prop} {E F : Prop} {x : Outcome ε α}

/-- A call ends: what holds if it returns, and what holds if it throws. -/
def Ends (P : α → Prop) (E : Prop) : Outcome ε α → Prop
  | .ok a => P a
  | .error _ => E
  | .diverge => False

/-- Weaker conditions at the end. -/
theorem Ends.imp (h : x.Ends P E) (hP : ∀ a, P a → Q a) (hE : E → F) : x.Ends Q F := by
  cases x with
  | ok a => exact hP a h
  | error e => exact hE h
  | diverge => exact h.elim

/-- The rule for two computations in a row. -/
theorem Ends.bind {R : β → Prop} {f : α → Outcome ε β} (h : x.Ends P E) (hE : E → F)
    (hf : ∀ a, P a → (f a).Ends R F) : (x >>= f).Ends R F := by
  cases x with
  | ok a => exact hf a h
  | error e => exact hE h
  | diverge => exact h.elim

end Outcome

/-! ### Packages as trees -/

namespace EnvFiles

variable (files : EnvFiles)

/-- The files of packages that can be linked. -/
def view : TreeView Path Str where
  isDir := files.isDir
  child dir n :=
    if n ∈ files.names dir ∧ isHidden n = false ∧ isSpecial (dir ++ slash :: n) = false then
      some (dir ++ slash :: n)
    else none
  isDir_of_child := by
    intro dir n path h
    split_ifs at h with hchild
    have hmem := hchild.1
    rw [names] at hmem
    rw [isDir]
    split at hmem
    next => rfl
    next => exact absurd hmem List.not_mem_nil

/-- The files in a directory are matched, unless they are hidden, and `s/^.*\///` strips its path. -/
structure Lists (dir : Path) : Prop where
  glob : (files.glob (dir ++ str "/*")).Perm
    (((files.names dir).filter fun n => !isHidden n).map fun n => dir ++ slash :: n)
  noLine : 10 ∉ dir

/-- Packages are read as they are: `glob` lists their directories and the directories that several of them
have, and their numbers are compared as integers. -/
structure Reads (ps : List (Path × ℤ)) : Prop where
  lists : ∀ r, ∀ y ∈ files.view.providers ps r,
    (r = [] ∨ 2 ≤ (files.view.providers ps r).length ∧ files.isDir y.1 = true) → files.Lists y.1
  compares : ∀ x ∈ ps, ∀ y ∈ ps, files.compareNumbers x.2 y.2 = compare x.2 y.2

variable {files} {ps : List (Path × ℤ)} {dir path : Path} {k : Str} {r : List Str}

/-- What the view of a directory has: the names that are neither hidden nor special. -/
theorem child_view_eq_some : files.view.child dir k = some path ↔ path = dir ++ slash :: k ∧
    k ∈ files.names dir ∧ isHidden k = false ∧ isSpecial (dir ++ slash :: k) = false := by
  simp only [view]
  split_ifs with h
  · exact ⟨fun hpath => ⟨(Option.some.inj hpath).symm, h⟩, fun hpath => congrArg some hpath.1.symm⟩
  · refine ⟨fun hpath => ?_, fun hpath => absurd hpath.2 h⟩
    cases hpath

/-- The path of a file in a package. -/
theorem eq_of_walk_view (h : files.view.walk dir r = some path) : path = dir ++ subPath r := by
  induction r generalizing dir with
  | nil =>
    cases h
    exact (List.append_nil path).symm
  | cons k r ih =>
    obtain ⟨p, hp, hwalk⟩ := Option.bind_eq_some_iff.mp h
    rw [ih hwalk, (child_view_eq_some.mp hp).1, List.append_assoc]
    rfl

/-- The entries of a directory that several packages have are read like packages. -/
theorem Reads.sub (h : files.Reads ps) (hcompat : files.view.Compatible ps)
    (hlength : 2 ≤ (files.view.providers ps [k]).length)
    (hdir : ∃ y ∈ files.view.providers ps [k], files.isDir y.1 = true) :
    files.Reads (files.view.providers ps [k]) := by
  constructor
  · intro r y hy hread
    rcases hread with rfl | ⟨htwo, hisDir⟩
    · rw [TreeView.providers_nil] at hy
      obtain ⟨z, hz, hzdir⟩ := hdir
      exact h.lists [k] y hy (.inr ⟨hlength, (hcompat [k] y hy z hz).trans hzdir⟩)
    · rw [← TreeView.providers_cons] at hy htwo
      exact h.lists (k :: r) y hy (.inr ⟨htwo, hisDir⟩)
  · intro x hx y hy
    obtain ⟨p, hp, -, hprank⟩ := TreeView.mem_providers.mp hx
    obtain ⟨q, hq, -, hqrank⟩ := TreeView.mem_providers.mp hy
    rw [← hprank, ← hqrank]
    exact h.compares p hp q hq

/-- Part of a list of directories can be read when the list can. -/
theorem Reads.sublist {qs : List (Path × ℤ)} (h : files.Reads qs) (hsub : ps.Sublist qs) :
    files.Reads ps := by
  constructor
  · intro r y hy hread
    have hproviders : (files.view.providers ps r).Sublist (files.view.providers qs r) :=
      hsub.filterMap _
    refine h.lists r y (hproviders.subset hy) (hread.imp_right fun h => ?_)
    exact ⟨h.1.trans hproviders.length_le, h.2⟩
  · exact fun x hx y hy => h.compares x (hsub.subset hx) y (hsub.subset hy)

/-- The number of the best file is compared as an integer. -/
theorem Reads.compare_best {x b : Path × ℤ} (h : files.Reads (ps ++ [x]))
    (hb : best (files.view.providers ps [k]) = some b) :
    (files.compareNumbers b.2 x.2 = .eq ↔ b.2 = x.2) ∧
      (files.compareNumbers b.2 x.2 = .lt ↔ b.2 < x.2) := by
  obtain ⟨p, hp, -, hrank⟩ := TreeView.mem_providers.mp (mem_of_best hb)
  have hcompare := h.compares p (List.mem_append_left _ hp) x
    (List.mem_append_right _ (List.mem_singleton_self x))
  rw [hrank] at hcompare
  rw [hcompare]
  exact ⟨compare_eq_iff_eq, compare_lt_iff_lt⟩

/-- The base name of an entry is its name. -/
theorem baseName_append (hdir : 10 ∉ dir) (hk : slash ∉ k) : baseName (dir ++ slash :: k) = k := by
  have hline : ∀ c ∈ dir ++ [slash], decide (c ≠ 10) = true := by
    intro c hc
    rcases List.mem_append.mp hc with hc | hc
    · exact decide_eq_true fun h => hdir (h ▸ hc)
    · rw [List.mem_singleton.mp hc]
      decide
  have hname : ∀ c ∈ (k.takeWhile (· ≠ 10)).reverse, decide (c ≠ slash) = true := by
    intro c hc
    refine decide_eq_true fun h => hk ?_
    rw [← h]
    exact (List.takeWhile_sublist _).subset (List.mem_reverse.mp hc)
  have hsplit : dir ++ slash :: k = (dir ++ [slash]) ++ k := by simp
  rw [baseName, hsplit, List.takeWhile_append_of_pos hline, List.dropWhile_append_of_pos hline,
    List.rtakeWhile, List.reverse_append, List.takeWhile_append_of_pos hname, List.reverse_concat,
    List.takeWhile_cons_of_neg (by decide), List.append_nil, List.reverse_reverse,
    List.takeWhile_append_dropWhile]

/-- Names of entries have no slash. -/
theorem notMem_slash (hk : k ∈ files.names dir) : slash ∉ k := by
  rw [names] at hk
  split at hk
  next names hfile => exact (files.isFileName hfile k hk).noSlash
  next => exact absurd hk List.not_mem_nil

/-- Names of entries occur once. -/
theorem nodup_names (dir : Path) : (files.names dir).Nodup := by
  rw [names]
  split
  next names hfile => exact files.names_nodup hfile
  next => exact List.nodup_nil

end EnvFiles

/-! ### What links show -/

namespace EnvState

/-- What is at a place. -/
def entry (st : EnvState) (l : Loc) : Option (MergedEntry Path ℤ) :=
  match st.out.find? l with
  | none => none
  | some .directory => some .directory
  | some (.symlink target) => some (.link target (st.priority l))

variable {st : EnvState} {srcFile : Path} {dstFile l : Loc} {priority : ℤ} {target : Path}

/-- The new link is there. -/
@[simp] theorem entry_symlink_self :
    (st.symlink srcFile dstFile priority).entry dstFile = some (.link srcFile priority) := by
  simp [entry, symlink, EnvState.priority]

/-- The other entries stay. -/
theorem entry_symlink_of_ne (h : l ≠ dstFile) :
    (st.symlink srcFile dstFile priority).entry l = st.entry l := by
  simp [entry, symlink, EnvState.priority, h]

/-- The new directory is there. -/
@[simp] theorem entry_mkdir_self : (st.mkdir dstFile).entry dstFile = some .directory := by
  simp [entry, mkdir]

/-- The other entries stay. -/
theorem entry_mkdir_of_ne (h : l ≠ dstFile) : (st.mkdir dstFile).entry l = st.entry l := by
  simp [entry, mkdir, EnvState.priority, h]

/-- Where there is no entry, nothing is written. -/
theorem find?_of_entry_none (h : st.entry l = none) : st.out.find? l = none := by
  rw [entry] at h
  split at h
  next hfind => exact hfind
  next => cases h
  next => cases h

/-- A directory is written as one. -/
theorem find?_of_entry_directory (h : st.entry l = some .directory) :
    st.out.find? l = some .directory := by
  rw [entry] at h
  split at h
  next => cases h
  next hfind => exact hfind
  next => cases h

/-- A link is written with its target, and its priority remembered. -/
theorem find?_of_entry_link (h : st.entry l = some (.link target priority)) :
    st.out.find? l = some (.symlink target) ∧ st.priority l = priority := by
  rw [entry] at h
  split at h
  next => cases h
  next => cases h
  next t hfind =>
    cases h
    exact ⟨hfind, rfl⟩

end EnvState

/-! ### One file -/

section

variable {files : EnvFiles} {links : Path → Loc → ℤ → EnvState → Outcome Str EnvState} {n : ℕ}
  {dst : Loc} {k : Str} {ps : List (Path × ℤ)} {x : Path × ℤ} {st st' : EnvState} {src : Path}

/-- A package has been linked into a directory in which others were linked. -/
structure Linked (files : EnvFiles) (dst : Loc) (ps : List (Path × ℤ)) (x : Path × ℤ)
    (st st' : EnvState) : Prop where
  noClash : ¬ files.view.Clashes ps x
  entry : ∀ r, r ≠ [] → st'.entry (dst ++ r) = files.view.merged (ps ++ [x]) r
  frame : ∀ l, (∀ r, r ≠ [] → l ≠ dst ++ r) → st'.entry l = st.entry l

/-- The entry of a package with the given name has been linked. -/
structure LinkedAt (files : EnvFiles) (dst : Loc) (k : Str) (ps : List (Path × ℤ)) (x : Path × ℤ)
    (st st' : EnvState) : Prop where
  noClash : ¬ files.view.ClashesAt ps x k
  entry : ∀ r, st'.entry (dst ++ k :: r) = files.view.merged (ps ++ [x]) (k :: r)
  frame : ∀ l, (∀ r, l ≠ dst ++ k :: r) → st'.entry l = st.entry l

/-- What a call of `createLinks` has to do: link the tree of a package into a directory. -/
def LinksTrees (files : EnvFiles) (n : ℕ) (links : Path → Loc → ℤ → EnvState → Outcome Str EnvState) :
    Prop :=
  ∀ {dir dst priority st ps}, (∀ r, r ≠ [] → st.entry (dst ++ r) = files.view.merged ps r) →
    files.view.Compatible (ps ++ [(dir, priority)]) → files.view.Bounded n (ps ++ [(dir, priority)]) →
    files.Reads (ps ++ [(dir, priority)]) →
    (links dir dst priority st).Ends (Linked files dst ps (dir, priority) st)
      (files.view.Clashes ps (dir, priority))

/-- An entry of a directory, or something further down. -/
theorem append_ne_of_ne {r : List Str} : dst ++ k :: r ≠ dst ++ [k] ↔ r ≠ [] := by
  rw [ne_eq, List.append_cancel_left_eq, List.cons.injEq, and_iff_right rfl]

/-- An entry that the package does not show changes nothing. -/
theorem linkedAt_of_child_none (hchild : files.view.child x.1 k = none)
    (hentry : ∀ r, st.entry (dst ++ k :: r) = files.view.merged ps (k :: r)) :
    LinkedAt files dst k ps x st st := by
  have hwalk : ∀ r, files.view.walk x.1 (k :: r) = none := fun r => by
    rw [TreeView.walk, hchild, Option.bind_none]
  have hproviders : files.view.providers (ps ++ [x]) [k] = files.view.providers ps [k] := by
    rw [TreeView.providers_append, TreeView.providers_singleton, hchild]
    exact List.append_nil _
  refine ⟨?_, fun r => ?_, fun l _ => rfl⟩
  · rintro ⟨r, b, y, -, hy, -⟩
    rw [hwalk r] at hy
    cases hy
  · rw [TreeView.merged_congr hproviders r]
    exact hentry r

/-- A link is created, and nothing is below it. -/
theorem linkedAt_symlink (hnoClash : ¬ files.view.ClashesAt ps x k)
    (hentry : ∀ r, st.entry (dst ++ k :: r) = files.view.merged ps (k :: r))
    (hhead : files.view.merged (ps ++ [x]) [k] = some (.link src x.2))
    (hbelow : ∀ r, r ≠ [] → files.view.merged ps (k :: r) = none ∧
      files.view.merged (ps ++ [x]) (k :: r) = none) :
    LinkedAt files dst k ps x st (st.symlink src (dst ++ [k]) x.2) := by
  refine ⟨hnoClash, fun r => ?_, fun l hl => EnvState.entry_symlink_of_ne (hl [])⟩
  by_cases hr : r = []
  · rw [hr, EnvState.entry_symlink_self, hhead]
  · rw [EnvState.entry_symlink_of_ne (append_ne_of_ne.mpr hr), hentry r, (hbelow r hr).1,
      (hbelow r hr).2]

/-- A package is the first one with the entry. -/
theorem linkedAt_first (hchild : files.view.child x.1 k = some src)
    (hnone : files.view.providers ps [k] = [])
    (hentry : ∀ r, st.entry (dst ++ k :: r) = files.view.merged ps (k :: r)) :
    st.out.find? (dst ++ [k]) = none ∧
      LinkedAt files dst k ps x st (st.symlink src (dst ++ [k]) x.2) := by
  have hproviders : files.view.providers (ps ++ [x]) [k] = [(src, x.2)] := by
    rw [TreeView.providers_append, hnone, TreeView.providers_singleton, hchild]
    rfl
  refine ⟨EnvState.find?_of_entry_none ?_, linkedAt_symlink ?_ hentry ?_ fun r hr => ⟨?_, ?_⟩⟩
  · rw [hentry [], TreeView.merged_singleton, hnone, TreeView.entryOf_nil]
  · rintro ⟨r, b, y, hbest, -⟩
    rw [TreeView.providers_cons, hnone] at hbest
    cases hbest
  · rw [TreeView.merged_singleton, hproviders, TreeView.entryOf_singleton]
  · rw [TreeView.merged_cons hr, hnone, if_neg (by simp)]
  · rw [TreeView.merged_cons hr, hproviders, if_neg (by simp)]

/-- The providers of an entry, and the package itself. -/
theorem providers_concat (ps : List (Path × ℤ)) (hchild : files.view.child x.1 k = some src) :
    files.view.providers (ps ++ [x]) [k] = files.view.providers ps [k] ++ [(src, x.2)] := by
  rw [TreeView.providers_append, TreeView.providers_singleton, hchild]
  rfl

/-- A file collides with the best of others, or one of them is linked. -/
theorem createLink_file (hchild : files.view.child x.1 k = some src) (hsrc : files.isDir src = false)
    (hsome : files.view.providers ps [k] ≠ []) (hcompat : files.view.Compatible (ps ++ [x]))
    (hentry : ∀ r, st.entry (dst ++ k :: r) = files.view.merged ps (k :: r)) :
    ∃ b, best (files.view.providers ps [k]) = some b ∧
      st.out.find? (dst ++ [k]) = some (.symlink b.1) ∧ st.priority (dst ++ [k]) = b.2 ∧
      (b.2 = x.2 → files.view.ClashesAt ps x k) ∧
      (b.2 < x.2 → LinkedAt files dst k ps x st st) ∧
      (¬b.2 ≤ x.2 → LinkedAt files dst k ps x st (st.symlink src (dst ++ [k]) x.2)) := by
  have hproviders := providers_concat ps hchild
  have hmem : (src, x.2) ∈ files.view.providers (ps ++ [x]) [k] := by
    rw [hproviders]
    exact List.mem_append_right _ (List.mem_singleton_self _)
  have hfiles : ∀ y ∈ files.view.providers (ps ++ [x]) [k], files.view.isDir y.1 = false :=
    fun y hy => (hcompat [k] y hy _ hmem).trans hsrc
  have hold : ∀ y ∈ files.view.providers ps [k], files.view.isDir y.1 = false := fun y hy =>
    hfiles y (by rw [hproviders]; exact List.mem_append_left _ hy)
  obtain ⟨b, hb⟩ := exists_best hsome
  have hhead : st.entry (dst ++ [k]) = some (.link b.1 b.2) := by
    rw [hentry [], TreeView.merged_singleton, TreeView.entryOf_of_files hold hb]
  obtain ⟨hfind, hpriority⟩ := EnvState.find?_of_entry_link hhead
  have hbelow : ∀ r, r ≠ [] → files.view.merged ps (k :: r) = none ∧
      files.view.merged (ps ++ [x]) (k :: r) = none := by
    intro r hr
    rw [TreeView.merged_cons hr, TreeView.merged_cons hr, TreeView.merged_eq_none hold hr,
      TreeView.merged_eq_none hfiles hr]
    exact ⟨ite_self none, ite_self none⟩
  have hwalk : files.view.walk x.1 [k] = some src := by
    rw [TreeView.walk, hchild]
    rfl
  -- the only file of the package with the name is the entry itself
  have hnoClash : b.2 ≠ x.2 → ¬ files.view.ClashesAt ps x k := by
    rintro hne ⟨r, b', y, hbest, hy, -, hrank⟩
    cases r with
    | nil =>
      rw [hb] at hbest
      cases hbest
      exact hne hrank
    | cons j r =>
      rw [TreeView.walk, hchild, Option.bind_some, TreeView.walk] at hy
      obtain ⟨z, hz, -⟩ := Option.bind_eq_some_iff.mp hy
      have hdir := files.view.isDir_of_child hz
      rw [show files.view.isDir src = files.isDir src from rfl, hsrc] at hdir
      cases hdir
  have hmerged : files.view.merged (ps ++ [x]) [k] =
      some (.link (if b.2 < x.2 then b else (src, x.2)).1 (if b.2 < x.2 then b else (src, x.2)).2) := by
    have hbest : best (files.view.providers (ps ++ [x]) [k]) =
        some (if b.2 < x.2 then b else (src, x.2)) := by
      rw [hproviders]
      exact best_concat hb (src, x.2)
    rw [TreeView.merged_singleton, TreeView.entryOf_of_files hfiles hbest]
  refine ⟨b, hb, hfind, hpriority, fun heq => ?_, fun hlt => ?_, fun hle => ?_⟩
  · exact ⟨[], b, src, hb, hwalk, hsrc, heq⟩
  · refine ⟨hnoClash hlt.ne, fun r => ?_, fun l _ => rfl⟩
    by_cases hr : r = []
    · rw [hr, hhead, hmerged, if_pos hlt]
    · rw [hentry r, (hbelow r hr).1, (hbelow r hr).2]
  · have hne : b.2 ≠ x.2 := fun heq => hle heq.le
    refine linkedAt_symlink (hnoClash hne) hentry ?_ hbelow
    rw [hmerged, if_neg fun hlt => hle hlt.le]

/-- A directory collides where its files do. -/
theorem clashesAt_iff (hchild : files.view.child x.1 k = some src) (hsrc : files.isDir src = true) :
    files.view.ClashesAt ps x k ↔ files.view.Clashes (files.view.providers ps [k]) (src, x.2) := by
  have hwalk : ∀ r, files.view.walk x.1 (k :: r) = files.view.walk src r := fun r => by
    rw [TreeView.walk, hchild]
    rfl
  constructor
  · rintro ⟨r, b, y, hbest, hy, hfile, hrank⟩
    rw [hwalk] at hy
    cases r with
    | nil =>
      cases hy
      rw [show files.view.isDir src = files.isDir src from rfl, hsrc] at hfile
      cases hfile
    | cons j r =>
      rw [TreeView.providers_cons] at hbest
      exact ⟨j, r, b, y, hbest, hy, hfile, hrank⟩
  · rintro ⟨j, r, b, y, hbest, hy, hfile, hrank⟩
    rw [← TreeView.providers_cons] at hbest
    exact ⟨j :: r, b, y, hbest, (hwalk _).trans hy, hfile, hrank⟩

/-- The entries of a directory have been linked into one that is there already. -/
theorem linkedAt_of_linked {st₁ : EnvState} (hchild : files.view.child x.1 k = some src)
    (hsrc : files.isDir src = true) (hsome : files.view.providers ps [k] ≠ [])
    (hhead : st₁.entry (dst ++ [k]) = some .directory)
    (hframe : ∀ l, (∀ r, l ≠ dst ++ k :: r) → st₁.entry l = st.entry l)
    (h : Linked files (dst ++ [k]) (files.view.providers ps [k]) (src, x.2) st₁ st') :
    LinkedAt files dst k ps x st st' := by
  have hproviders := providers_concat ps hchild
  have hlength : 2 ≤ (files.view.providers (ps ++ [x]) [k]).length := by
    have hpos : 0 < (files.view.providers ps [k]).length := List.length_pos_iff.mpr hsome
    rw [hproviders, List.length_append, List.length_singleton]
    omega
  refine ⟨mt (clashesAt_iff hchild hsrc).mp h.noClash, fun r => ?_, fun l hl => ?_⟩
  · by_cases hr : r = []
    · have hmem : (src, x.2) ∈ files.view.providers (ps ++ [x]) [k] := by
        rw [hproviders]
        exact List.mem_append_right _ (List.mem_singleton_self _)
      rw [hr, TreeView.merged_singleton, TreeView.entryOf_of_isDir hmem hsrc hlength, ← hhead]
      exact h.frame _ fun s hs heq => hs (List.self_eq_append_right.mp heq)
    · have hbelow := h.entry r hr
      rw [List.append_assoc, List.singleton_append] at hbelow
      rw [hbelow, TreeView.merged_cons hr, if_pos hlength, hproviders]
  · rw [← hframe l hl]
    refine h.frame l fun r _ heq => hl r ?_
    rw [heq, List.append_assoc, List.singleton_append]

/-- A directory is merged with those of other packages; the link to a single one becomes a directory
first. -/
theorem createLink_directory (hlinks : LinksTrees files n links)
    (hchild : files.view.child x.1 k = some src) (hsrc : files.isDir src = true)
    (hsome : files.view.providers ps [k] ≠ []) (hcompat : files.view.Compatible (ps ++ [x]))
    (hbounded : files.view.Bounded (n + 1) (ps ++ [x])) (hreads : files.Reads (ps ++ [x]))
    (hentry : ∀ r, st.entry (dst ++ k :: r) = files.view.merged ps (k :: r)) :
    (st.out.find? (dst ++ [k]) = some .directory ∧
      (links src (dst ++ [k]) x.2 st).Ends (LinkedAt files dst k ps x st)
        (files.view.ClashesAt ps x k)) ∨
    ∃ q : Path × ℤ, st.out.find? (dst ++ [k]) = some (.symlink q.1) ∧ files.isDir q.1 = true ∧
      st.priority (dst ++ [k]) = q.2 ∧
      (links q.1 (dst ++ [k]) q.2 (st.mkdir (dst ++ [k])) >>= fun st₁ =>
        links src (dst ++ [k]) x.2 st₁).Ends (LinkedAt files dst k ps x st)
          (files.view.ClashesAt ps x k) := by
  have hproviders := providers_concat ps hchild
  have hmem : (src, x.2) ∈ files.view.providers (ps ++ [x]) [k] := by
    rw [hproviders]
    exact List.mem_append_right _ (List.mem_singleton_self _)
  have hlength : 2 ≤ (files.view.providers (ps ++ [x]) [k]).length := by
    have hpos : 0 < (files.view.providers ps [k]).length := List.length_pos_iff.mpr hsome
    rw [hproviders, List.length_append, List.length_singleton]
    omega
  have hdirs : ∀ y ∈ files.view.providers ps [k], files.isDir y.1 = true := fun y hy =>
    (hcompat [k] y (by rw [hproviders]; exact List.mem_append_left _ hy) _ hmem).trans hsrc
  -- the trees of the directory
  have hcompat' := hcompat.sub k
  have hbounded' := hbounded.sub k
  have hreads' := hreads.sub hcompat hlength ⟨_, hmem, hsrc⟩
  rw [hproviders] at hcompat' hbounded' hreads'
  by_cases htwo : 2 ≤ (files.view.providers ps [k]).length
  · obtain ⟨y, hy⟩ := List.exists_mem_of_ne_nil _ hsome
    have hhead : st.entry (dst ++ [k]) = some .directory := by
      rw [hentry [], TreeView.merged_singleton, TreeView.entryOf_of_isDir hy (hdirs y hy) htwo]
    have hbelow : ∀ r, r ≠ [] → st.entry (dst ++ [k] ++ r) =
        files.view.merged (files.view.providers ps [k]) r := by
      intro r hr
      rw [List.append_assoc, List.singleton_append, hentry r, TreeView.merged_cons hr, if_pos htwo]
    refine .inl ⟨EnvState.find?_of_entry_directory hhead, ?_⟩
    refine (hlinks hbelow hcompat' hbounded' hreads').imp (fun st' h => ?_)
      (clashesAt_iff hchild hsrc).mpr
    exact linkedAt_of_linked hchild hsrc hsome hhead (fun _ _ => rfl) h
  · obtain ⟨q, hq⟩ : ∃ q, files.view.providers ps [k] = [q] :=
      List.length_eq_one_iff.mp (by
        have hpos : 0 < (files.view.providers ps [k]).length := List.length_pos_iff.mpr hsome
        omega)
    have hqdir : files.isDir q.1 = true := hdirs q (by rw [hq]; exact List.mem_singleton_self q)
    have hhead : st.entry (dst ++ [k]) = some (.link q.1 q.2) := by
      rw [hentry [], TreeView.merged_singleton, hq, TreeView.entryOf_singleton]
    obtain ⟨hfind, hpriority⟩ := EnvState.find?_of_entry_link hhead
    rw [hq] at hcompat' hbounded' hreads'
    have hsub : ∀ y ∈ ([] : List (Path × ℤ)) ++ [q], y ∈ [q] ++ [(src, x.2)] := fun y hy =>
      List.mem_append_left _ hy
    have hqreads : files.Reads ([] ++ [q]) := hreads'.sublist (List.sublist_append_left [q] _)
    have hempty : ∀ r, r ≠ [] → (st.mkdir (dst ++ [k])).entry (dst ++ [k] ++ r) =
        files.view.merged ([] : List (Path × ℤ)) r := by
      intro r hr
      rw [List.append_assoc, List.singleton_append,
        EnvState.entry_mkdir_of_ne (append_ne_of_ne.mpr hr), hentry r, TreeView.merged_cons hr, hq,
        if_neg (by simp), TreeView.merged_eq_none (fun y hy => absurd hy List.not_mem_nil) hr]
    refine .inr ⟨q, hfind, hqdir, hpriority, ?_⟩
    refine (hlinks hempty (hcompat'.mono hsub) (hbounded'.mono hsub) hqreads).bind ?_ ?_
    · rintro ⟨j, r, b, y, hbest, -⟩
      cases hbest
    · intro st₁ h₁
      refine (hlinks h₁.entry hcompat' hbounded' hreads').imp (fun st' h => ?_) fun hclash => ?_
      · refine linkedAt_of_linked hchild hsrc hsome ?_ (fun l hl => ?_) (hq ▸ h)
        · rw [h₁.frame _ fun r hr heq => hr (List.self_eq_append_right.mp heq),
            EnvState.entry_mkdir_self]
        · have hne : ∀ r, l ≠ dst ++ [k] ++ r := fun r heq => hl r (by
            rw [heq, List.append_assoc, List.singleton_append])
          rw [h₁.frame l fun r _ => hne r, EnvState.entry_mkdir_of_ne (hl [])]
      · refine (clashesAt_iff hchild hsrc).mpr ?_
        rw [hq]
        exact hclash

/-- What the body of the loop does for a file in a package. -/
theorem createLink_spec (hlinks : LinksTrees files n links) (hk : k ∈ files.names x.1)
    (hhidden : isHidden k = false) (hdir : 10 ∉ x.1)
    (hcompat : files.view.Compatible (ps ++ [x])) (hbounded : files.view.Bounded (n + 1) (ps ++ [x]))
    (hreads : files.Reads (ps ++ [x]))
    (hentry : ∀ r, st.entry (dst ++ k :: r) = files.view.merged ps (k :: r)) :
    (createLink files links dst x.2 st (x.1 ++ slash :: k)).Ends (LinkedAt files dst k ps x st)
      (files.view.ClashesAt ps x k) := by
  rw [createLink, EnvFiles.baseName_append hdir (EnvFiles.notMem_slash hk)]
  by_cases hspecial : isSpecial (x.1 ++ slash :: k) = true
  · have hchild : files.view.child x.1 k = none := if_neg fun h => by
      rw [hspecial] at h
      cases h.2.2
    rw [if_pos hspecial]
    exact linkedAt_of_child_none hchild hentry
  · have hchild : files.view.child x.1 k = some (x.1 ++ slash :: k) :=
      EnvFiles.child_view_eq_some.mpr ⟨rfl, hk, hhidden, Bool.eq_false_iff.mpr hspecial⟩
    rw [if_neg hspecial]
    generalize x.1 ++ slash :: k = src at hchild
    by_cases hnone : files.view.providers ps [k] = []
    · obtain ⟨hfind, hlinked⟩ := linkedAt_first hchild hnone hentry
      rw [hfind]
      dsimp only
      split_ifs
      · exact hlinked
      · exact hlinked
    · by_cases hsrc : files.isDir src = true
      · rw [if_pos hsrc]
        rcases createLink_directory hlinks hchild hsrc hnone hcompat hbounded hreads hentry with
          ⟨hfind, hends⟩ | ⟨q, hfind, hqdir, hpriority, hends⟩
        · rw [hfind]
          exact hends
        · rw [hfind, hpriority]
          dsimp only
          rw [if_pos hqdir]
          exact hends
      · obtain ⟨b, hb, hfind, hpriority, hclash, hkeep, hreplace⟩ :=
          createLink_file hchild (Bool.eq_false_iff.mpr hsrc) hnone hcompat hentry
        have hnumbers := hreads.compare_best hb
        rw [if_neg hsrc, hfind, hpriority]
        dsimp only
        split_ifs with heq hlt
        · exact hclash (hnumbers.1.mp heq)
        · exact hkeep (hnumbers.2.mp hlt)
        · refine hreplace fun hle => (lt_or_eq_of_le hle).elim ?_ ?_
          · exact fun h => hlt (hnumbers.2.mpr h)
          · exact fun h => heq (hnumbers.1.mpr h)

/-! ### The loop -/

/-- What the loop does for names in a package. -/
theorem foldlM_createLink {names : List Str} (hlinks : LinksTrees files n links)
    (hnames : ∀ k ∈ names, k ∈ files.names x.1 ∧ isHidden k = false) (hnodup : names.Nodup)
    (hdir : 10 ∉ x.1) (hcompat : files.view.Compatible (ps ++ [x]))
    (hbounded : files.view.Bounded (n + 1) (ps ++ [x])) (hreads : files.Reads (ps ++ [x]))
    (hentry : ∀ k ∈ names, ∀ r, st.entry (dst ++ k :: r) = files.view.merged ps (k :: r)) :
    ((names.map fun k => x.1 ++ slash :: k).foldlM (createLink files links dst x.2) st).Ends
      (fun st' => (∀ k ∈ names, ¬ files.view.ClashesAt ps x k ∧
          ∀ r, st'.entry (dst ++ k :: r) = files.view.merged (ps ++ [x]) (k :: r)) ∧
        ∀ l, (∀ k ∈ names, ∀ r, l ≠ dst ++ k :: r) → st'.entry l = st.entry l)
      (files.view.Clashes ps x) := by
  induction names generalizing st with
  | nil => exact ⟨fun k hk => absurd hk List.not_mem_nil, fun l _ => rfl⟩
  | cons k names ih =>
    obtain ⟨hk, hhidden⟩ := hnames k List.mem_cons_self
    obtain ⟨hnotMem, hnodup⟩ := List.nodup_cons.mp hnodup
    have hne : ∀ j ∈ names, ∀ r s, dst ++ j :: r ≠ dst ++ k :: s := by
      intro j hj r s heq
      obtain ⟨rfl, -⟩ := List.cons.inj (List.append_cancel_left heq)
      exact hnotMem hj
    rw [List.map_cons, List.foldlM_cons]
    refine (createLink_spec hlinks hk hhidden hdir hcompat hbounded hreads
      (hentry k List.mem_cons_self)).bind (fun hclash => ⟨k, hclash⟩) fun st₁ h₁ => ?_
    have hentry₁ : ∀ j ∈ names, ∀ r, st₁.entry (dst ++ j :: r) = files.view.merged ps (j :: r) := by
      intro j hj r
      rw [h₁.frame _ fun s => hne j hj r s]
      exact hentry j (List.mem_cons_of_mem k hj) r
    refine (ih (fun j hj => hnames j (List.mem_cons_of_mem k hj)) hnodup hentry₁).imp
      (fun st' h => ⟨?_, ?_⟩) fun hclash => hclash
    · refine List.forall_mem_cons.mpr ⟨⟨h₁.noClash, fun r => ?_⟩, h.1⟩
      rw [h.2 _ fun j hj s heq => hne j hj s r heq.symm, h₁.entry r]
    · intro l hl
      rw [h.2 l fun j hj => hl j (List.mem_cons_of_mem k hj), h₁.frame l (hl k List.mem_cons_self)]

/-- A list with the members of an image is itself an image. -/
theorem exists_map_of_perm {α β : Type*} {f : α → β} {g : β → α} (hg : ∀ a, g (f a) = a) {l : List β}
    {m : List α} (h : l.Perm (m.map f)) : ∃ m' : List α, l = m'.map f ∧ m'.Perm m := by
  refine ⟨l.map g, ?_, ?_⟩
  · rw [List.map_map]
    refine ((List.map_congr_left fun b hb => ?_).trans (List.map_id l)).symm
    obtain ⟨a, -, rfl⟩ := List.mem_map.mp (h.mem_iff.mp hb)
    exact congrArg f (hg a)
  · have hperm := h.map g
    have hsame : (m.map f).map g = m := by
      rw [List.map_map]
      exact (List.map_congr_left fun a _ => hg a).trans (List.map_id m)
    rwa [hsame] at hperm

/-- `createLinks` links the tree of a package, or it throws because of a collision. -/
theorem createLinks_spec (files : EnvFiles) (n : ℕ) :
    LinksTrees files n (createLinks files n) := by
  induction n with
  | zero =>
    intro dir dst priority st ps _ _ hbounded _
    have hne : files.view.providers (ps ++ [(dir, priority)]) [] ≠ [] := by
      rw [TreeView.providers_nil]
      exact List.append_ne_nil_of_right_ne_nil ps (List.cons_ne_nil _ _)
    exact absurd (hbounded [] hne) (Nat.not_lt_zero _)
  | succ n ih =>
    intro dir dst priority st ps hentry hcompat hbounded hreads
    have hdir : files.Lists dir := by
      refine hreads.lists [] (dir, priority) ?_ (.inl rfl)
      rw [TreeView.providers_nil]
      exact List.mem_append_right _ (List.mem_singleton_self _)
    -- the loop goes over the names in some order
    obtain ⟨names, hglob, hperm⟩ : ∃ names : List Str, files.glob (dir ++ str "/*") =
        (names.map fun k => dir ++ slash :: k) ∧
          names.Perm ((files.names dir).filter fun n => !isHidden n) :=
      exists_map_of_perm (g := fun s => s.drop (dir.length + 1)) (fun k => by simp) hdir.glob
    have hmem : ∀ k, k ∈ names ↔ k ∈ files.names dir ∧ isHidden k = false := by
      intro k
      rw [hperm.mem_iff, List.mem_filter, Bool.not_eq_true']
    have hnodup : names.Nodup := hperm.nodup_iff.mpr ((EnvFiles.nodup_names dir).filter _)
    rw [createLinks, hglob]
    refine (foldlM_createLink (x := (dir, priority)) ih (fun k hk => (hmem k).mp hk) hnodup hdir.noLine
      hcompat hbounded hreads fun k _ r => hentry (k :: r) (List.cons_ne_nil k r)).imp (fun st' h => ?_)
      fun hclash => hclash
    have hchild : ∀ k, k ∉ names → files.view.child dir k = none := fun k hk =>
      if_neg fun hk' => hk ((hmem k).mpr ⟨hk'.1, hk'.2.1⟩)
    refine ⟨?_, ?_, ?_⟩
    · rintro ⟨k, hclash⟩
      by_cases hk : k ∈ names
      · exact (h.1 k hk).1 hclash
      · exact (linkedAt_of_child_none (x := (dir, priority)) (hchild k hk) fun r =>
          hentry (k :: r) (List.cons_ne_nil k r)).noClash hclash
    · intro r hr
      obtain ⟨k, r, rfl⟩ := List.exists_cons_of_ne_nil hr
      by_cases hk : k ∈ names
      · exact (h.1 k hk).2 r
      · rw [h.2 _ fun j hj s heq => hk (by
          rw [(List.cons.inj (List.append_cancel_left heq)).1]
          exact hj)]
        exact (linkedAt_of_child_none (x := (dir, priority)) (hchild k hk) fun r =>
          hentry (k :: r) (List.cons_ne_nil k r)).entry r
    · exact fun l hl => h.2 l fun k _ r => hl (k :: r) (List.cons_ne_nil k r)

end

end Nix
