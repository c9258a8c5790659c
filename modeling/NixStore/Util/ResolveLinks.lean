import NixStore.Util.LinkTargets

/-!
# Canonical path names with links resolved

`canonPath` with `resolveSymlinks`, on a file system.  At a symbolic link the scanner goes on with the
target, made canonical lexically in the directory of the link, and so before a link in the target is
looked at: `a/../b` becomes `b`, whatever `a` links to.  The result is the file that the operating
system finds if the targets of all links on the way are straight (`canonPath_resolves`); and a link
whose target is not gives another file.
-/

namespace Nix

namespace FileSystem

/-- Model of the system call `lstat`, for an absolute path. -/
def lstat (fs : FileSystem) (path : Path) : Option FileEntry :=
  match fs.place [] path with
  | none => none
  | some (dir, n) => fs.entry (dir ++ [n])

/-- Models of `isLink` and `readLink`. -/
def linkAt (fs : FileSystem) (path : Path) : Outcome Str (Option Str) :=
  match fs.lstat path with
  | none => .error (str "getting status of `" ++ path ++ str "'")
  | some (.symlink target) => .ok (some target)
  | some _ => .ok none

/-- The targets of all links that the operating system meets are straight, if it finds a file within the
limit or if there is no end of links. -/
def StraightWay (fs : FileSystem) (path : Path) : Prop :=
  ((∃ l, fs.walk (maxFollow - 1) [] (components path) = some l) ∨ fs.Loops [] (components path)) →
    ∀ dir target, fs.Meets [] (components path) dir target → fs.Straight dir target

/-- What `canonPath` is for: it finds the file that the operating system finds if that follows less
than `maxFollow` links, under a path without links, and it throws if there is no end of links. -/
def Resolves (fs : FileSystem) (path : Path) : Prop :=
  (∀ l, fs.walk (maxFollow - 1) [] (components path) = some l →
    (∃ N, ∀ fuel ≥ N, canonPathScan fs.linkAt fuel path = .ok (joinComponents l)) ∧
      ∀ m, m <+: l → ∀ target, fs.entry m ≠ some (.symlink target)) ∧
  (fs.Loops [] (components path) →
    ∃ e N, ∀ fuel ≥ N, canonPathScan fs.linkAt fuel path = .error e)

end FileSystem

/-! ### What the loop returns -/

section

variable {links : Path → Outcome Str (Option Str)} {path : Path} {followCount : ℕ}
  {names kept : List Str} {n target : Str} {r : Outcome Str Path}

/-- What the loop returns, with enough rounds. -/
def Returns (links : Path → Outcome Str (Option Str)) (path : Path) (followCount : ℕ)
    (names kept : List Str) (r : Outcome Str Path) : Prop :=
  ∃ N, ∀ fuel ≥ N, resolveNames links path fuel followCount names kept = r

/-- The loop has one result. -/
theorem Returns.unique {r' : Outcome Str Path} (h : Returns links path followCount names kept r)
    (h' : Returns links path followCount names kept r') : r = r' := by
  obtain ⟨N, hN⟩ := h
  obtain ⟨N', hN'⟩ := h'
  rw [← hN (max N N') (le_max_left _ _), hN' (max N N') (le_max_right _ _)]

/-- What is returned with one more unit of fuel is returned. -/
theorem returns_of_succ
    (h : ∃ N, ∀ fuel ≥ N, resolveNames links path (fuel + 1) followCount names kept = r) :
    Returns links path followCount names kept r := by
  obtain ⟨N, hN⟩ := h
  refine ⟨N + 1, fun fuel hfuel => ?_⟩
  obtain ⟨fuel, rfl⟩ : ∃ k, fuel = k + 1 := ⟨fuel - 1, by omega⟩
  exact hN fuel (by omega)

/-- Without names left, the path is returned. -/
theorem returns_nil : Returns links path followCount [] kept (.ok (joinComponents kept)) :=
  returns_of_succ ⟨0, fun _ _ => rfl⟩

/-- A dot is passed over. -/
theorem Returns.dot (h : Returns links path followCount names kept r) :
    Returns links path followCount (str "." :: names) kept r := by
  obtain ⟨N, hN⟩ := h
  exact returns_of_succ ⟨N, fun fuel hfuel => by rw [resolveNames, if_pos rfl, hN fuel hfuel]⟩

/-- Two dots drop the last name. -/
theorem Returns.dotdot (h : Returns links path followCount names kept.dropLast r) :
    Returns links path followCount (str ".." :: names) kept r := by
  obtain ⟨N, hN⟩ := h
  exact returns_of_succ ⟨N, fun fuel hfuel => by
    rw [resolveNames, if_neg (by decide), if_pos rfl, hN fuel hfuel]⟩

/-- A name that is no link is kept. -/
theorem Returns.file (hdot : n ≠ str ".") (hdotdot : n ≠ str "..")
    (hlinks : links (subPath (kept ++ [n])) = .ok none)
    (h : Returns links path followCount names (kept ++ [n]) r) :
    Returns links path followCount (n :: names) kept r := by
  obtain ⟨N, hN⟩ := h
  exact returns_of_succ ⟨N, fun fuel hfuel => by
    rw [resolveNames, if_neg hdot, if_neg hdotdot, hlinks, Outcome.ok_bind, hN fuel hfuel]⟩

/-- A link within the limit goes on with the names that it leads to. -/
theorem Returns.link (hdot : n ≠ str ".") (hdotdot : n ≠ str "..")
    (hlinks : links (subPath (kept ++ [n])) = .ok (some target))
    (hcount : followCount + 1 < maxFollow)
    (h : Returns links path (followCount + 1) (lexicalNames kept target ++ names) [] r) :
    Returns links path followCount (n :: names) kept r := by
  obtain ⟨N, hN⟩ := h
  exact returns_of_succ ⟨N, fun fuel hfuel => by
    rw [resolveNames, if_neg hdot, if_neg hdotdot, hlinks, Outcome.ok_bind]
    dsimp only
    rw [if_neg (by omega), hN fuel hfuel]⟩

/-- The link that exceeds the limit is an error. -/
theorem returns_recursion (hdot : n ≠ str ".") (hdotdot : n ≠ str "..")
    (hlinks : links (subPath (kept ++ [n])) = .ok (some target))
    (hcount : maxFollow ≤ followCount + 1) :
    Returns links path followCount (n :: names) kept
      (.error (str "infinite symlink recursion in path `" ++ path ++ str "'")) :=
  returns_of_succ ⟨0, fun fuel _ => by
    rw [resolveNames, if_neg hdot, if_neg hdotdot, hlinks, Outcome.ok_bind]
    exact if_pos hcount⟩

/-- An error of the file system is returned. -/
theorem returns_error {e : Str} (hdot : n ≠ str ".") (hdotdot : n ≠ str "..")
    (hlinks : links (subPath (kept ++ [n])) = .error e) :
    Returns links path followCount (n :: names) kept (.error e) :=
  returns_of_succ ⟨0, fun fuel _ => by
    rw [resolveNames, if_neg hdot, if_neg hdotdot, hlinks, Outcome.error_bind]⟩

/-- The loop ends: links are followed less than `maxFollow` times, and between two of them the
components get fewer. -/
theorem exists_returns (hlinks : ∀ p, links p ≠ .diverge) (followCount : ℕ)
    (names kept : List Str) : ∃ r, r ≠ .diverge ∧ Returns links path followCount names kept r := by
  induction hleft : maxFollow - followCount using Nat.strong_induction_on
    generalizing followCount names kept with
  | _ left ihleft =>
    induction names generalizing kept with
    | nil => exact ⟨_, by simp, returns_nil⟩
    | cons n names ih =>
      by_cases hdot : n = str "."
      · obtain ⟨r, hr, h⟩ := ih kept
        exact ⟨r, hr, hdot ▸ h.dot⟩
      by_cases hdotdot : n = str ".."
      · obtain ⟨r, hr, h⟩ := ih kept.dropLast
        exact ⟨r, hr, hdotdot ▸ h.dotdot⟩
      rcases hlink : links (subPath (kept ++ [n])) with link | e | _
      · cases link with
        | none =>
          obtain ⟨r, hr, h⟩ := ih (kept ++ [n])
          exact ⟨r, hr, h.file hdot hdotdot hlink⟩
        | some target =>
          by_cases hcount : followCount + 1 < maxFollow
          · obtain ⟨r, hr, h⟩ := ihleft _ (by omega) (followCount + 1)
              (lexicalNames kept target ++ names) [] rfl
            exact ⟨r, hr, h.link hdot hdotdot hlink hcount⟩
          · exact ⟨_, by simp, returns_recursion hdot hdotdot hlink (by omega)⟩
      · exact ⟨_, by simp, returns_error hdot hdotdot hlink⟩
      · exact absurd hlink (hlinks _)

/-- The names after a link are names again. -/
theorem isComponent_of_mem_lexicalNames {dir : Loc} (hdir : ∀ n ∈ dir, IsFileName n)
    (htarget : target.NulFree) {n : Str} (h : n ∈ lexicalNames dir target) : IsComponent n := by
  have hfold : ∀ (cs kept : List Str), (∀ m ∈ cs, IsComponent m) → (∀ m ∈ kept, IsComponent m) →
      ∀ m ∈ cs.foldl followComponent kept, IsComponent m := by
    intro cs
    induction cs with
    | nil => exact fun kept _ hkept => hkept
    | cons c cs ih =>
      intro kept hcs hkept
      refine ih _ (fun m hm => hcs m (List.mem_cons_of_mem _ hm)) fun m hm => ?_
      rw [followComponent] at hm
      split_ifs at hm
      · exact hkept m (List.mem_of_mem_dropLast hm)
      · rcases List.mem_append.mp hm with hm | hm
        · exact hkept m hm
        · exact List.mem_singleton.mp hm ▸ hcs c List.mem_cons_self
  refine hfold _ _ (fun m hm => ?_) (fun m hm => ?_) n h
  · exact isComponent_of_mem_components htarget (List.mem_filter.mp hm).1
  · split_ifs at hm
    · cases hm
    · exact (hdir m hm).isComponent

/-- The loop keeps proper names, so the result has no others. -/
theorem isFileName_of_resolveNames (hlinks : ∀ p t, links p = .ok (some t) → t.NulFree) {fuel : ℕ}
    {p : Path} (hnames : ∀ n ∈ names, IsComponent n) (hkept : ∀ n ∈ kept, IsFileName n)
    (h : resolveNames links path fuel followCount names kept = .ok p) :
    ∃ l, p = joinComponents l ∧ ∀ n ∈ l, IsFileName n := by
  induction fuel generalizing followCount names kept with
  | zero => cases h
  | succ fuel ih =>
    cases names with
    | nil =>
      cases h
      exact ⟨kept, rfl, hkept⟩
    | cons n names =>
      have htail : ∀ m ∈ names, IsComponent m := fun m hm => hnames m (List.mem_cons_of_mem _ hm)
      rw [resolveNames] at h
      by_cases hdot : n = str "."
      · rw [if_pos hdot] at h
        exact ih htail hkept h
      by_cases hdotdot : n = str ".."
      · rw [if_neg hdot, if_pos hdotdot] at h
        exact ih htail (fun m hm => hkept m (List.mem_of_mem_dropLast hm)) h
      rw [if_neg hdot, if_neg hdotdot] at h
      obtain ⟨link, hlink, h⟩ := Outcome.bind_eq_ok.mp h
      cases link with
      | none =>
        refine ih htail (fun m hm => ?_) h
        rcases List.mem_append.mp hm with hm | hm
        · exact hkept m hm
        · obtain ⟨hne, hnul, hslash⟩ := hnames n List.mem_cons_self
          exact List.mem_singleton.mp hm ▸ ⟨hne, hnul, hslash, hdot, hdotdot⟩
      | some target =>
        dsimp only at h
        split_ifs at h
        refine ih (fun m hm => ?_) (List.forall_mem_nil _) h
        rcases List.mem_append.mp hm with hm | hm
        · exact isComponent_of_mem_lexicalNames hkept (hlinks _ _ hlink) hm
        · exact htail m hm

/-- The resolved path has proper names. -/
theorem isFileName_of_canonPathScan (hlinks : ∀ p t, links p = .ok (some t) → t.NulFree)
    (hpath : path.NulFree) {fuel : ℕ} {p : Path} (h : canonPathScan links fuel path = .ok p) :
    ∃ l, p = joinComponents l ∧ ∀ n ∈ l, IsFileName n := by
  by_cases habs : isAbsolute path = true
  · rw [canonPathScan_eq_resolveNames links fuel habs] at h
    exact isFileName_of_resolveNames hlinks (fun n hn => isComponent_of_mem_components hpath hn)
      (List.forall_mem_nil _) h
  · rw [canonPathScan, if_neg habs] at h
    cases h

end

/-! ### The loop and the operating system -/

namespace FileSystem

variable {fs : FileSystem} {path : Path} {followCount : ℕ} {names kept rest : List Str} {dir l : Loc}
  {target : Str} {r : Outcome Str Path}

/-- Asking about a link always ends. -/
theorem linkAt_ne_diverge (fs : FileSystem) (path : Path) : fs.linkAt path ≠ .diverge := by
  rw [linkAt]
  split <;> simp

/-- What `lstat` finds in a directory. -/
theorem lstat_subPath {n : Str} (hkept : ∀ m ∈ kept, IsFileName m) (hn : IsFileName n)
    (hdir : fs.entry kept = some .directory) :
    fs.lstat (subPath (kept ++ [n])) = fs.entry (kept ++ [n]) := by
  have hall : ∀ m ∈ kept ++ [n], IsFileName m := fun m hm => by
    rcases List.mem_append.mp hm with hm | hm
    · exact hkept m hm
    · exact List.mem_singleton.mp hm ▸ hn
  have hwalk : fs.walk maxSymlinks [] kept = some kept := by
    have hnil := walk_append_names hdir hkept [] (k := maxSymlinks)
    rw [List.append_nil] at hnil
    exact hnil.trans rfl
  have hplace : fs.place [] (subPath (kept ++ [n])) = some (kept, n) :=
    (place_eq_some_iff (nulFree_subPath hall)).mpr
      ⟨kept, components_subPath hall, hn, by rw [ite_self]; exact hwalk, hdir⟩
  rw [lstat, hplace]

/-- There is nothing in a file that is not a directory. -/
theorem lstat_subPath_of_ne {n : Str} (hkept : fs.IsFileAt kept) (hn : IsFileName n)
    (hdir : fs.entry kept ≠ some .directory) : fs.lstat (subPath (kept ++ [n])) = none := by
  have hall : ∀ m ∈ kept ++ [n], IsFileName m := fun m hm => by
    rcases List.mem_append.mp hm with hm | hm
    · exact hkept.isFileName m hm
    · exact List.mem_singleton.mp hm ▸ hn
  have hplace : fs.place [] (subPath (kept ++ [n])) = none := by
    rcases hplace : fs.place [] (subPath (kept ++ [n])) with _ | ⟨dir, m⟩
    · rfl
    · obtain ⟨names, hnames, -, hwalk, hentry⟩ := (place_eq_some_iff (nulFree_subPath hall)).mp hplace
      rw [components_subPath hall] at hnames
      obtain ⟨rfl, -⟩ := List.append_inj' hnames rfl
      rw [ite_self, hkept.walk_eq] at hwalk
      cases hwalk
      exact absurd hentry hdir
  rw [lstat, hplace]

/-- Where nothing is, asking about a link is an error. -/
theorem linkAt_of_lstat (h : fs.lstat path = none) :
    fs.linkAt path = .error (str "getting status of `" ++ path ++ str "'") := by
  rw [linkAt, h]

/-- A file that is no link is reported as no link. -/
theorem linkAt_of_file {n : Str} (hkept : ∀ m ∈ kept, IsFileName m) (hn : IsFileName n)
    (hdir : fs.entry kept = some .directory) {e : FileEntry} (he : fs.entry (kept ++ [n]) = some e)
    (hfile : ∀ target, e ≠ .symlink target) : fs.linkAt (subPath (kept ++ [n])) = .ok none := by
  rw [linkAt, lstat_subPath hkept hn hdir, he]
  cases e with
  | symlink target => exact absurd rfl (hfile target)
  | regular x c => rfl
  | directory => rfl

/-- A link is reported with its target. -/
theorem linkAt_of_link {n : Str} (hkept : ∀ m ∈ kept, IsFileName m) (hn : IsFileName n)
    (hdir : fs.entry kept = some .directory) (he : fs.entry (kept ++ [n]) = some (.symlink target)) :
    fs.linkAt (subPath (kept ++ [n])) = .ok (some target) := by
  rw [linkAt, lstat_subPath hkept hn hdir, he]

/-- What there is for the loop to do at the first link. -/
def AtLink (fs : FileSystem) (path : Path) (followCount : ℕ) (dir : Loc) (target : Str)
    (rest : List Str) (r : Outcome Str Path) : Prop :=
  (maxFollow ≤ followCount + 1 ∧
    r = .error (str "infinite symlink recursion in path `" ++ path ++ str "'")) ∨
  (followCount + 1 < maxFollow ∧
    Returns fs.linkAt path (followCount + 1) (lexicalNames dir target ++ rest) [] r)

/-- The loop goes where the operating system goes, up to the first link or to the end. -/
theorem returns_of_walk_beginning
    (h : (∃ dir target rest, fs.firstLink kept names = some (dir, target, rest) ∧
        AtLink fs path followCount dir target rest r) ∨
      ∃ l, fs.walk 0 kept names = some l ∧ r = .ok (joinComponents l))
    (hkept : ∀ n ∈ kept, IsFileName n) (hnames : ∀ n ∈ names, IsComponent n) :
    Returns fs.linkAt path followCount names kept r := by
  rw [walk] at h
  induction kept, names using firstLink.induct fs with
  | case1 kept =>
    obtain ⟨dir, target, rest, hlink, -⟩ | ⟨l, hwalk, rfl⟩ := h
    · cases hlink
    · cases hwalk
      exact returns_nil
  | case2 kept names hdir ih =>
    rw [firstLink, walkVia, if_pos hdir, if_pos hdir, if_pos rfl, if_pos rfl] at h
    exact (ih h hkept fun n hn => hnames n (List.mem_cons_of_mem _ hn)).dot
  | case3 kept names hdir hne ih =>
    rw [firstLink, walkVia, if_pos hdir, if_pos hdir, if_neg hne, if_neg hne, if_pos rfl,
      if_pos rfl] at h
    exact (ih h (fun n hn => hkept n (List.mem_of_mem_dropLast hn)) fun n hn =>
      hnames n (List.mem_cons_of_mem _ hn)).dotdot
  | case4 kept n names hdir hdot hdotdot he =>
    simp [firstLink, walkVia, hdir, hdot, hdotdot, he] at h
  | case5 kept n names hdir hdot hdotdot target' he =>
    obtain ⟨dir, target, rest, hlink, hat⟩ | ⟨l, hwalk, -⟩ := h
    · simp only [firstLink, hdir, hdot, hdotdot, he, if_true, if_false, Option.some.injEq,
        Prod.mk.injEq] at hlink
      obtain ⟨rfl, rfl, rfl⟩ := hlink
      obtain ⟨hne, hnul, hslash⟩ := hnames n List.mem_cons_self
      have hlinks := linkAt_of_link hkept ⟨hne, hnul, hslash, hdot, hdotdot⟩ hdir he
      obtain ⟨hmany, rfl⟩ | ⟨hfew, hreturns⟩ := hat
      · exact returns_recursion hdot hdotdot hlinks hmany
      · exact hreturns.link hdot hdotdot hlinks hfew
    · simp [walkVia, hdir, hdot, hdotdot, he] at hwalk
  | case6 kept n names hdir hdot hdotdot e hfile he ih =>
    obtain ⟨hne, hnul, hslash⟩ := hnames n List.mem_cons_self
    have hn : IsFileName n := ⟨hne, hnul, hslash, hdot, hdotdot⟩
    have hlink : fs.firstLink kept (n :: names) = fs.firstLink (kept ++ [n]) names := by
      cases e with
      | symlink target => exact absurd rfl (hfile target)
      | regular x c => simp only [firstLink, hdir, hdot, hdotdot, he, if_true, if_false]
      | directory => simp only [firstLink, hdir, hdot, hdotdot, he, if_true, if_false]
    have hwalk : fs.walkVia (fun _ _ => none) kept (n :: names) =
        fs.walkVia (fun _ _ => none) (kept ++ [n]) names := by
      cases e with
      | symlink target => exact absurd rfl (hfile target)
      | regular x c => simp only [walkVia, hdir, hdot, hdotdot, he, if_true, if_false]
      | directory => simp only [walkVia, hdir, hdot, hdotdot, he, if_true, if_false]
    rw [hlink, hwalk] at h
    refine (ih h (fun m hm => ?_) fun m hm => hnames m (List.mem_cons_of_mem _ hm)).file hdot
      hdotdot (linkAt_of_file hkept hn hdir he hfile)
    rcases List.mem_append.mp hm with hm | hm
    · exact hkept m hm
    · exact List.mem_singleton.mp hm ▸ hn
  | case7 kept n names hdir => simp [firstLink, walkVia, hdir] at h

/-- A walk without links ends at the path that it has walked. -/
theorem returns_of_walk_zero (hwalk : fs.walk 0 [] names = some l)
    (hnames : ∀ n ∈ names, IsComponent n) :
    Returns fs.linkAt path followCount names [] (.ok (joinComponents l)) :=
  returns_of_walk_beginning (Or.inr ⟨l, hwalk, rfl⟩) (List.forall_mem_nil _) hnames

/-- A walk to the first link goes on from there. -/
theorem returns_of_firstLink (hlink : fs.firstLink [] names = some (dir, target, rest))
    (hnames : ∀ n ∈ names, IsComponent n) (h : AtLink fs path followCount dir target rest r) :
    Returns fs.linkAt path followCount names [] r :=
  returns_of_walk_beginning (Or.inl ⟨dir, target, rest, hlink, h⟩) (List.forall_mem_nil _) hnames

/-- The names that are left after the first link. -/
theorem isComponent_of_firstLink (htargets : fs.NulFreeTargets)
    (hlink : fs.firstLink [] names = some (dir, target, rest))
    (hnames : ∀ n ∈ names, IsComponent n) {n : Str} (h : n ∈ lexicalNames dir target ++ rest) :
    IsComponent n := by
  obtain ⟨hdir, hrest, -, l, hl⟩ := firstLink_spec hlink (List.forall_mem_nil _) hnames
  rcases List.mem_append.mp h with h | h
  · exact isComponent_of_mem_lexicalNames hdir (htargets l target hl) h
  · exact hnames n (hrest n h)

/-- The loop returns the file that the operating system finds. -/
theorem returns_of_walks (htargets : fs.NulFreeTargets) {k : ℕ} {met : List (Loc × Str)}
    (hstraight : ∀ link ∈ met, fs.Straight link.1 link.2) (hlen : met.length ≤ k)
    (hcount : followCount + k + 1 = maxFollow) (hnames : ∀ n ∈ names, IsComponent n)
    (hwalks : fs.Walks [] names met l) :
    Returns fs.linkAt path followCount names [] (.ok (joinComponents l)) := by
  induction k generalizing followCount names met with
  | zero =>
    obtain rfl := List.length_eq_zero_iff.mp (Nat.le_zero.mp hlen)
    cases hwalks with
    | last hwalk => exact returns_of_walk_zero hwalk hnames
  | succ k ih =>
    cases hwalks with
    | last hwalk => exact returns_of_walk_zero hwalk hnames
    | link hlink hnext =>
      obtain ⟨hdir, -, hentry, -⟩ := firstLink_spec hlink (List.forall_mem_nil _) hnames
      obtain ⟨met', hlex, hsub⟩ := (hstraight _ List.mem_cons_self).walks hentry hdir hnext
      refine returns_of_firstLink hlink hnames (Or.inr ⟨by omega, ?_⟩)
      exact ih (fun link hmem => hstraight link (List.mem_cons_of_mem _ (hsub.subset hmem)))
        (hsub.length_le.trans (Nat.le_of_succ_le_succ hlen)) (by omega)
        (fun n hn => isComponent_of_firstLink htargets hlink hnames hn) hlex

/-- The loop throws where the operating system meets links for ever. -/
theorem returns_of_loops (htargets : fs.NulFreeTargets) {k : ℕ}
    (hstraight : ∀ dir target, fs.Meets [] names dir target → fs.Straight dir target)
    (hcount : followCount + k + 1 = maxFollow) (hnames : ∀ n ∈ names, IsComponent n)
    (hloops : fs.Loops [] names) :
    Returns fs.linkAt path followCount names []
      (.error (str "infinite symlink recursion in path `" ++ path ++ str "'")) := by
  induction k generalizing followCount names with
  | zero =>
    obtain ⟨dir, target, rest, hlink, -⟩ := hloops.next
    exact returns_of_firstLink hlink hnames (Or.inl ⟨by omega, rfl⟩)
  | succ k ih =>
    obtain ⟨dir, target, rest, hlink, hnext⟩ := hloops.next
    obtain ⟨hdir, -, hentry, -⟩ := firstLink_spec hlink (List.forall_mem_nil _) hnames
    obtain ⟨hlex, hmeets⟩ := (hstraight dir target (.here hlink)).loops hentry hdir hnext
    refine returns_of_firstLink hlink hnames (Or.inr ⟨by omega, ?_⟩)
    exact ih (fun d t hd => hstraight d t (.later hlink (hmeets d t hd))) (by omega)
      (fun n hn => isComponent_of_firstLink htargets hlink hnames hn) hlex

/-- `canonPath` returns what the resolution of its components returns. -/
theorem canonPathScan_returns (hpath : isAbsolute path = true) :
    (∃ N, ∀ fuel ≥ N, canonPathScan fs.linkAt fuel path = r) ↔
      Returns fs.linkAt path 0 (components path) [] r := by
  simp only [Returns, canonPathScan_eq_resolveNames _ _ hpath]

/-- What has to be shown for a resolution to be right. -/
theorem resolves_iff (htargets : fs.NulFreeTargets) (hpath : isAbsolute path = true)
    (hnul : path.NulFree) : fs.Resolves path ↔
      (∀ l, fs.walk (maxFollow - 1) [] (components path) = some l →
        Returns fs.linkAt path 0 (components path) [] (.ok (joinComponents l))) ∧
      (fs.Loops [] (components path) →
        ∃ e, Returns fs.linkAt path 0 (components path) [] (.error e)) := by
  simp only [Resolves, canonPathScan_returns hpath]
  refine and_congr_left fun _ => forall₂_congr fun l hl => and_iff_left fun m hm target => ?_
  exact (isFileAt_of_walk htargets (isFileAt_root fs)
    (fun n hn => isComponent_of_mem_components hnul hn) hl).noLinks hm target

/-- The names of files are read back from their paths. -/
theorem joinComponents_injective {l l' : Loc} (hl : fs.IsFileAt l) (hl' : fs.IsFileAt l')
    (h : joinComponents l = joinComponents l') : l = l' := by
  have hcanon : ∀ {m}, fs.IsFileAt m → ∀ n ∈ m, IsCanonName n := fun hm n hn =>
    let hn := hm.isFileName n hn
    ⟨hn.ne_nil, hn.noSlash, hn.ne_dot, hn.ne_dotdot⟩
  rw [← components_joinComponents (hcanon hl), h, components_joinComponents (hcanon hl')]

/-- If the targets on the way are straight, the file is found. -/
theorem StraightWay.resolves (htargets : fs.NulFreeTargets) (hpath : isAbsolute path = true)
    (hnul : path.NulFree) (h : fs.StraightWay path) : fs.Resolves path := by
  have hnames : ∀ n ∈ components path, IsComponent n := fun n hn =>
    isComponent_of_mem_components hnul hn
  refine (resolves_iff htargets hpath hnul).mpr ⟨fun l hl => ?_, fun hloops => ?_⟩
  · obtain ⟨met, hlen, hwalks⟩ := walk_eq_some_iff.mp hl
    exact returns_of_walks htargets (fun link hmem => h (Or.inl ⟨l, hl⟩) link.1 link.2
      (hwalks.meets_iff.mpr hmem)) hlen rfl hnames hwalks
  · exact ⟨_, returns_of_loops htargets (h (Or.inr hloops)) (k := maxFollow - 1) rfl hnames hloops⟩

/-- The loop throws where the names lead nowhere and there is no link on the way. -/
theorem exists_returns_error (hkept : fs.IsFileAt kept) (hnames : ∀ n ∈ names, IsFileName n)
    (hlink : fs.firstLink kept names = none) (hwalk : fs.walk 0 kept names = none) :
    ∃ e, Returns fs.linkAt path followCount names kept (.error e) := by
  induction names generalizing kept with
  | nil => cases hwalk
  | cons n names ih =>
    have hn := hnames n List.mem_cons_self
    by_cases hdir : fs.entry kept = some .directory
    · rw [firstLink, if_pos hdir, if_neg hn.ne_dot, if_neg hn.ne_dotdot] at hlink
      rw [walk, walkVia, if_pos hdir, if_neg hn.ne_dot, if_neg hn.ne_dotdot] at hwalk
      rcases he : fs.entry (kept ++ [n]) with _ | e
      · have hstat := (lstat_subPath hkept.isFileName hn hdir).trans he
        exact ⟨_, returns_error hn.ne_dot hn.ne_dotdot (linkAt_of_lstat hstat)⟩
      · have hfile : ∀ target, e ≠ .symlink target := by
          rintro target rfl
          rw [he] at hlink
          cases hlink
        have hnext : fs.firstLink (kept ++ [n]) names = none ∧ fs.walk 0 (kept ++ [n]) names = none := by
          rw [he] at hlink hwalk
          cases e with
          | symlink target => exact absurd rfl (hfile target)
          | regular x c => exact ⟨hlink, hwalk⟩
          | directory => exact ⟨hlink, hwalk⟩
        have hkept' : fs.IsFileAt (kept ++ [n]) := by
          refine ⟨⟨e, he, hfile⟩, fun m hm => ?_⟩
          rcases List.mem_append.mp hm with hm | hm
          · exact hkept.isFileName m hm
          · exact List.mem_singleton.mp hm ▸ hn
        obtain ⟨msg, hmsg⟩ := ih hkept' (fun m hm => hnames m (List.mem_cons_of_mem _ hm)) hnext.1 hnext.2
        exact ⟨msg, hmsg.file hn.ne_dot hn.ne_dotdot
          (linkAt_of_file hkept.isFileName hn hdir he hfile)⟩
    · have hstat := lstat_subPath_of_ne hkept hn hdir
      exact ⟨_, returns_error hn.ne_dot hn.ne_dotdot (linkAt_of_lstat hstat)⟩

/-- The target of the first link on a way has a single `..`, behind the name `n` of a link, and there is
no other link before that name, and none behind it, neither on the way that the operating system goes
nor on the one that the loop goes. -/
structure UpBehindLink (fs : FileSystem) (path : Path) where
  dir : Loc
  target : Str
  before : List Str
  n : Str
  after : List Str
  rest : List Str
  /-- The links that are met by way of `n`. -/
  met : List (Loc × Str)
  /-- Where `n` leads. -/
  c : Loc
  /-- Where the path leads. -/
  l : Loc
  firstLink_eq : fs.firstLink [] (components path) = some (dir, target, rest)
  components_eq : components target = before ++ n :: str ".." :: after
  noDots : ∀ m ∈ before ++ n :: (after ++ rest), m ≠ str "." ∧ m ≠ str ".."
  before_walks : fs.Walks (linkStart dir target) before [] (linkStart dir target ++ before)
  n_walks : fs.Walks (linkStart dir target ++ before) [n] met c
  directory : fs.entry c = some .directory
  rest_walks : fs.Walks c.dropLast (after ++ rest) [] l
  noLinks : fs.firstLink (linkStart dir target ++ before) (after ++ rest) = none
  few : met.length + 1 < maxFollow

namespace UpBehindLink

variable (up : fs.UpBehindLink path)

/-- What the operating system does. -/
theorem walks : fs.Walks [] (components path) ((up.dir, up.target) :: up.met) up.l := by
  have hup : fs.Walks up.c [str ".."] [] up.c.dropLast := by
    refine .last ?_
    rw [walk, walkVia, if_pos up.directory, if_neg (by decide), if_pos rfl, walkVia]
  refine .link up.firstLink_eq ?_
  have h := up.before_walks.append (up.n_walks.append (hup.append up.rest_walks))
  rw [List.nil_append, List.nil_append, List.append_nil] at h
  rw [up.components_eq]
  simpa using h

/-- A step back is straight when what is before it leads nowhere else. -/
theorem straight_iff : fs.Straight up.dir up.target ↔
    up.c.dropLast = linkStart up.dir up.target ++ up.before := by
  have hn := up.noDots up.n (by simp)
  rw [Straight, up.components_eq]
  refine upsLeadBack_iff_of_single (fun m hm => up.noDots m (by simp [hm])) hn.1 hn.2 (fun hmem => ?_)
    up.before_walks up.n_walks
  exact (up.noDots (str "..") (by simp [hmem])).2 rfl

/-- The names that the loop goes on with. -/
theorem lexicalNames_append : lexicalNames up.dir up.target ++ up.rest =
    linkStart up.dir up.target ++ up.before ++ (up.after ++ up.rest) := by
  have hkeep : ∀ (kept names : List Str), (∀ m ∈ names, m ≠ str "." ∧ m ≠ str "..") →
      ∀ names', lexicalFrom kept (names ++ names') = lexicalFrom (kept ++ names) names' := by
    intro kept names
    induction names generalizing kept with
    | nil => exact fun _ _ => by rw [List.nil_append, List.append_nil]
    | cons m names ih =>
      intro h names'
      obtain ⟨hdot, hdotdot⟩ := h m List.mem_cons_self
      rw [List.cons_append, lexicalFrom_name hdot hdotdot,
        ih _ (fun k hk => h k (List.mem_cons_of_mem _ hk)), List.append_assoc, List.singleton_append]
  have hbefore : ∀ m ∈ up.before ++ [up.n], m ≠ str "." ∧ m ≠ str ".." := fun m hm =>
    up.noDots m (by simp only [List.mem_append, List.mem_cons, List.not_mem_nil] at hm ⊢; tauto)
  have hafter : ∀ m ∈ up.after, m ≠ str "." ∧ m ≠ str ".." := fun m hm =>
    up.noDots m (by simp [hm])
  have hnames := hkeep (linkStart up.dir up.target) _ hbefore (str ".." :: up.after)
  rw [lexicalNames_eq, up.components_eq, List.append_cons, hnames, lexicalFrom_dotdot,
    ← List.append_assoc, List.dropLast_concat, ← List.append_nil up.after, hkeep _ _ hafter []]
  simp [lexicalFrom]

/-- If the file is found, the `..` leads back. -/
theorem straight_of_resolves (htargets : fs.NulFreeTargets) (hpath : isAbsolute path = true)
    (hnul : path.NulFree) (h : fs.Resolves path) : fs.Straight up.dir up.target := by
  have hnames : ∀ n ∈ components path, IsComponent n := fun n hn =>
    isComponent_of_mem_components hnul hn
  obtain ⟨hdir, hsub, hentry, at', htarget⟩ :=
    firstLink_spec up.firstLink_eq (List.forall_mem_nil _) hnames
  have hstart := (linkStart_spec up.target hentry hdir).2
  have hproper : ∀ n ∈ up.before ++ (up.after ++ up.rest), IsFileName n := by
    intro n hn
    have hcomp : IsComponent n := by
      rw [← List.append_assoc, List.mem_append] at hn
      rcases hn with hn | hn
      · refine isComponent_of_mem_components (htargets at' up.target htarget) ?_
        rw [up.components_eq]
        simp only [List.mem_append, List.mem_cons] at hn ⊢
        tauto
      · exact hnames n (hsub n hn)
    have hdots := up.noDots n (by simp only [List.mem_append, List.mem_cons] at hn ⊢; tauto)
    exact ⟨hcomp.ne_nil, hcomp.nulFree, hcomp.noSlash, hdots.1, hdots.2⟩
  -- the place from which the operating system and the loop should go on
  set d := linkStart up.dir up.target ++ up.before with hd
  set names := up.after ++ up.rest with hnamesEq
  have hnext : ∀ n ∈ d ++ names, IsFileName n := fun n hn => by
    rw [hd, List.append_assoc, List.mem_append] at hn
    exact hn.elim (hstart n) (hproper n)
  have hddir : fs.entry d = some .directory := directory_of_walks up.n_walks
  have hwalk : ∀ k, fs.walk k [] (d ++ names) = fs.walk k d names := fun k =>
    walk_append_names hddir (fun n hn => hnext n (List.mem_append_left _ hn)) names
  have hlink : fs.firstLink [] (d ++ names) = none := by
    have hself : fs.walk 0 [] d = some d :=
      (isFileAt_of_directory hddir fun n hn => hnext n (List.mem_append_left _ hn)).walk_eq 0
    exact ((firstLink_append_of_none (firstLink_eq_none_of_walk_zero hself)).1 d hself).1.trans up.noLinks
  have hgoesOn : ∀ {r}, Returns fs.linkAt path 1 (d ++ names) [] r →
      Returns fs.linkAt path 0 (components path) [] r := fun hr =>
    returns_of_firstLink up.firstLink_eq hnames (Or.inr ⟨by decide, by rwa [up.lexicalNames_append]⟩)
  have hlen : ((up.dir, up.target) :: up.met).length ≤ maxFollow - 1 := Nat.le_sub_one_of_lt up.few
  have hfound := ((resolves_iff htargets hpath hnul).mp h).1 up.l
    (walk_eq_some_iff.mpr ⟨_, hlen, up.walks⟩)
  have hdots : ∀ n ∈ names, n ≠ str "." ∧ n ≠ str ".." := fun n hn =>
    ⟨(hnext n (List.mem_append_right _ hn)).ne_dot, (hnext n (List.mem_append_right _ hn)).ne_dotdot⟩
  rcases hend : fs.walk 0 [] (d ++ names) with _ | l
  · obtain ⟨e, he⟩ : ∃ e, Returns fs.linkAt path 1 (d ++ names) [] (.error e) :=
      exists_returns_error (isFileAt_root fs) hnext hlink hend
    cases (hgoesOn he).unique hfound
  · have hreturn := hgoesOn (returns_of_walk_zero hend fun n hn => (hnext n hn).isComponent)
    have hroot := isFileAt_root fs
    have heq := joinComponents_injective
      (isFileAt_of_walk htargets hroot (fun n hn => (hnext n hn).isComponent) hend)
      (isFileAt_of_walk htargets hroot hnames (walk_eq_some_iff.mpr ⟨_, le_rfl, up.walks⟩))
      (Outcome.ok.inj (hreturn.unique hfound))
    have hl : l = d ++ names := walks_names hdots (.last ((hwalk 0).symm.trans hend))
    have hl' : up.l = up.c.dropLast ++ names := walks_names hdots up.rest_walks
    rw [hl, hl'] at heq
    exact up.straight_iff.mpr (List.append_cancel_right heq).symm

end UpBehindLink

end FileSystem

open FileSystem

/-- A link to `/d/e`, one to `a/../x`, one to `d/e/../x`, and files `/d/x` and `/x`. -/
def linkedFiles : FileSystem :=
  let fs₁ := FileSystem.empty.add [] (str "d") .directory (by decide) (by decide)
  let fs₂ := fs₁.add [str "d"] (str "e") .directory (by decide) (by decide)
  let fs₃ := fs₂.add [str "d"] (str "x") (.regular false (str "1")) (by decide) (by decide)
  let fs₄ := fs₃.add [] (str "x") (.regular false (str "2")) (by decide) (by decide)
  let fs₅ := fs₄.add [] (str "a") (.symlink (str "/d/e")) (by decide) (by decide)
  let fs₆ := fs₅.add [] (str "l") (.symlink (str "a/../x")) (by decide) (by decide)
  fs₆.add [] (str "k") (.symlink (str "d/e/../x")) (by decide) (by decide)

/-- The targets in the sample have no NUL. -/
theorem nulFreeTargets_linkedFiles : linkedFiles.NulFreeTargets := by
  intro l target h
  simp only [linkedFiles, add, empty] at h
  split_ifs at h <;> cases h <;> decide

/-- The first links in the sample. -/
theorem firstLink_linkedFiles : linkedFiles.firstLink [] [str "a"] = some ([], str "/d/e", []) ∧
    linkedFiles.firstLink [] [str "k"] = some ([], str "d/e/../x", []) := by decide

/-- The `..` in the target of `/l` stands behind the name of a link. -/
def upBehindLink_linkedFiles : linkedFiles.UpBehindLink (str "/l") where
  dir := []
  target := str "a/../x"
  before := []
  n := str "a"
  after := [str "x"]
  rest := []
  met := [([], str "/d/e")]
  c := [str "d", str "e"]
  l := [str "d", str "x"]
  firstLink_eq := by decide
  components_eq := by decide
  noDots := by decide
  before_walks := .last (by decide)
  n_walks := .link firstLink_linkedFiles.1 (.last (by decide))
  directory := by decide
  rest_walks := .last (by decide)
  noLinks := by decide
  few := by decide

/-- The one in the target of `/k` stands behind the names of directories. -/
theorem walks_linkedFiles {before after : List Str}
    (h : components (str "d/e/../x") = before ++ str ".." :: after) :
    linkedFiles.Walks [] before [] [str "d", str "e"] := by
  have hcomp : components (str "d/e/../x") = [str "d", str "e", str "..", str "x"] := by decide
  rw [hcomp] at h
  rcases before with _ | ⟨a, _ | ⟨b, _ | ⟨c, before⟩⟩⟩
  · exact absurd (List.cons.inj h).1 (by decide)
  · exact absurd (List.cons.inj (List.cons.inj h).2).1 (by decide)
  · cases h
    exact .last (by decide)
  · have hmem : str ".." ∈ [str "x"] := by
      rw [(List.cons.inj (List.cons.inj (List.cons.inj h).2).2).2]
      simp
    exact absurd hmem (by decide)

end Nix
