import NixStore.Lib.FileSystem
import NixStore.Lib.Parser

/-!
# Path names

Model of the functions of `util.cc` that compute with path names and do not look at files.
-/

namespace Nix

/-- Model of `canonPath`, without following links: the components that are left to look at, and the
ones that were kept, in reverse order. -/
def canonComponents : List Str → List Str → List Str
  | [], kept => kept.reverse
  | c :: rest, kept =>
    if c = [] ∨ c = str "." then canonComponents rest kept
    else if c = str ".." then canonComponents rest kept.tail
    else canonComponents rest (c :: kept)

/-- Model of `canonPath`, without following links. -/
def canonPath (path : Path) : Outcome Str Path :=
  if isAbsolute path then
    let s := (canonComponents (path.splitOn '/'.toUInt8) []).flatMap fun c => str "/" ++ c
    .ok (if s = [] then str "/" else s)
  else .error (str "not an absolute path: `" ++ path ++ str "'")

/-- Model of `absPath` in the directory `dir`. -/
def absPath (dir path : Path) : Outcome Str Path :=
  canonPath (if isAbsolute path then path else dir ++ str "/" ++ path)

/-- Model of `baseNameOf`. -/
def baseNameOf (path : Path) : Outcome Str Str :=
  if '/'.toUInt8 ∈ path then .ok ((path.splitOn '/'.toUInt8).getLastD [])
  else .error (str "invalid file name `" ++ path ++ str "'")

/-- Model of `dirOf`. -/
def dirOf (path : Path) : Outcome Str Path :=
  if '/'.toUInt8 ∈ path then
    let dir := ((path.reverse.dropWhile (· ≠ '/'.toUInt8)).drop 1).reverse
    .ok (if dir = [] then str "/" else dir)
  else .error (str "invalid file name `" ++ path ++ str "'")

/-! ### Canonical path names -/

/-- A name that `canonPath` keeps. -/
structure IsCanonName (n : Str) : Prop where
  ne_nil : n ≠ []
  noSlash : slash ∉ n
  ne_dot : n ≠ str "."
  ne_dotdot : n ≠ str ".."

/-- A proper name without NUL is a file name. -/
theorem IsCanonName.isFileName {n : Str} (h : IsCanonName n) (hn : n.NulFree) : IsFileName n :=
  ⟨h.ne_nil, hn, h.noSlash, h.ne_dot, h.ne_dotdot⟩

/-- The parts of a text that was split. -/
theorem of_mem_splitOn {c : UInt8} {s n : Str} (h : n ∈ s.splitOn c) :
    c ∉ n ∧ ∀ b ∈ n, b ∈ s := by
  induction s generalizing n with
  | nil =>
    obtain rfl : n = [] := by simpa [List.splitOn_nil] using h
    simp
  | cons b s ih =>
    rw [List.splitOn_cons_eq_if_modifyHead] at h
    split_ifs at h with hb
    · rcases List.mem_cons.mp h with rfl | h
      · simp
      · exact ⟨(ih h).1, fun a ha => List.mem_cons_of_mem _ ((ih h).2 a ha)⟩
    · cases hs : s.splitOn c with
      | nil => exact absurd hs (List.splitOn_ne_nil _ _)
      | cons m rest =>
        rw [hs] at h ih
        rcases List.mem_cons.mp h with rfl | h
        · obtain ⟨hc, hsub⟩ := ih List.mem_cons_self
          have hbc : c ≠ b := fun heq => hb (by simp [heq])
          refine ⟨by simp [hbc, hc], fun a ha => ?_⟩
          rcases List.mem_cons.mp ha with rfl | ha
          · exact List.mem_cons_self
          · exact List.mem_cons_of_mem _ (hsub a ha)
        · obtain ⟨hc, hsub⟩ := ih (List.mem_cons_of_mem _ h)
          exact ⟨hc, fun a ha => List.mem_cons_of_mem _ (hsub a ha)⟩

/-- A path is split at its slashes. -/
theorem splitOn_append_subPath {n : Str} (hn : slash ∉ n) {names : List Str}
    (h : ∀ m ∈ names, slash ∉ m) : (n ++ subPath names).splitOn slash = n :: names := by
  induction names generalizing n with
  | nil =>
    rw [subPath_nil, List.append_nil]
    exact List.splitOn_eq_singleton hn
  | cons m names ih =>
    have hcons : n ++ subPath (m :: names) = n ++ slash :: (m ++ subPath names) := by simp [subPath]
    rw [hcons, List.splitOn_append_cons_self_of_not_mem hn, ih (h m List.mem_cons_self)
      fun m' hm' => h m' (List.mem_cons_of_mem _ hm')]

/-- What is kept is proper: it was kept before, or is one of the components. -/
theorem of_mem_canonComponents {rest kept : List Str} {n : Str}
    (h : n ∈ canonComponents rest kept) :
    n ∈ kept ∨ (n ∈ rest ∧ n ≠ [] ∧ n ≠ str "." ∧ n ≠ str "..") := by
  induction rest generalizing kept with
  | nil => exact Or.inl (List.mem_reverse.mp h)
  | cons c rest ih =>
    rw [canonComponents] at h
    split_ifs at h with hskip hup
    · rcases ih h with h | ⟨h, hne⟩
      · exact Or.inl h
      · exact Or.inr ⟨List.mem_cons_of_mem _ h, hne⟩
    · rcases ih h with h | ⟨h, hne⟩
      · exact Or.inl (List.mem_of_mem_tail h)
      · exact Or.inr ⟨List.mem_cons_of_mem _ h, hne⟩
    · rcases ih h with h | ⟨h, hne⟩
      · rcases List.mem_cons.mp h with rfl | h
        · rw [not_or] at hskip
          exact Or.inr ⟨List.mem_cons_self, hskip.1, hskip.2, hup⟩
        · exact Or.inl h
      · exact Or.inr ⟨List.mem_cons_of_mem _ h, hne⟩

/-- Proper names are kept. -/
theorem canonComponents_of_canonName {rest : List Str} (h : ∀ n ∈ rest, IsCanonName n)
    (kept : List Str) : canonComponents rest kept = kept.reverse ++ rest := by
  induction rest generalizing kept with
  | nil => simp [canonComponents]
  | cons c rest ih =>
    have hc := h c List.mem_cons_self
    rw [canonComponents, if_neg (not_or.mpr ⟨hc.ne_nil, hc.ne_dot⟩), if_neg hc.ne_dotdot,
      ih fun n hn => h n (List.mem_cons_of_mem _ hn)]
    simp

theorem flatMap_slash (names : List Str) :
    (names.flatMap fun c => str "/" ++ c) = subPath names := rfl

/-- A path of names begins with a slash. -/
theorem isAbsolute_subPath {names : List Str} (h : names ≠ []) :
    isAbsolute (subPath names) = true := by
  obtain ⟨n, rest, rfl⟩ := List.exists_cons_of_ne_nil h
  simp [isAbsolute, subPath, slash]

/-- A path name of proper components is canonical. -/
theorem canonPath_subPath {names : List Str} (hne : names ≠ []) (h : ∀ n ∈ names, IsCanonName n) :
    canonPath (subPath names) = .ok (subPath names) := by
  have hsplit : ([] ++ subPath names).splitOn slash = [] :: names :=
    splitOn_append_subPath (by simp) fun n hn => (h n hn).noSlash
  have hkept : canonComponents ([] :: names) [] = names := by
    rw [canonComponents, if_pos (Or.inl rfl), canonComponents_of_canonName h]
    rfl
  obtain ⟨n, rest, rfl⟩ := List.exists_cons_of_ne_nil hne
  unfold canonPath
  rw [if_pos (isAbsolute_subPath hne), ← slash, ← List.nil_append (subPath _), hsplit, hkept]
  dsimp only
  rw [flatMap_slash, if_neg (by simp [subPath]), List.nil_append]

/-- The result of `canonPath` is the root or a list of proper components, with the characters of the
path. -/
theorem canonPath_spec {s t : Path} (h : canonPath s = .ok t) :
    t = str "/" ∨ ∃ names, names ≠ [] ∧ t = subPath names ∧
      ∀ n ∈ names, IsCanonName n ∧ ∀ b ∈ n, b ∈ s := by
  unfold canonPath at h
  split_ifs at h with habs
  dsimp only at h
  rw [flatMap_slash] at h
  split_ifs at h with hnil
  · cases h
    exact Or.inl rfl
  · cases h
    refine Or.inr ⟨_, ?_, rfl, fun n hn => ?_⟩
    · intro hempty
      rw [hempty] at hnil
      exact hnil rfl
    · rcases of_mem_canonComponents hn with hn | ⟨hn, hne, hdot, hdotdot⟩
      · cases hn
      · obtain ⟨hslash, hsub⟩ := of_mem_splitOn hn
        exact ⟨⟨hne, hslash, hdot, hdotdot⟩, hsub⟩

/-- An absolute target of a link does not depend on the directory of the link. -/
theorem absPath_of_isAbsolute {path : Path} (h : isAbsolute path = true) (dir : Path) :
    absPath dir path = canonPath path := by
  rw [absPath, if_pos h]

/-- A path of names has a directory. -/
theorem dirOf_subPath {names : List Str} (h : names ≠ []) :
    ∃ dir, dirOf (subPath names) = .ok dir := by
  obtain ⟨n, rest, rfl⟩ := List.exists_cons_of_ne_nil h
  exact ⟨_, if_pos (by simp [subPath, slash])⟩

/-- Only a path of names has a directory. -/
theorem ne_nil_of_dirOf {names : List Str} {dir : Path} (h : dirOf (subPath names) = .ok dir) :
    names ≠ [] := by
  rintro rfl
  cases h

/-- The components of a path of names. -/
theorem components_subPath {names : List Str} (h : ∀ n ∈ names, IsFileName n) :
    components (subPath names) = names := by
  simpa [components, componentsFrom, endName] using components_append_subPath [] h

end Nix
