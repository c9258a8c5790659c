import NixStore.Util.Paths

/-!
# Canonical path names, character by character

Model of the scanner in `canonPath` of `util.cc`, which looks ahead up to two characters and may
resolve symbolic links on the way.  It does component by component what `resolveNames` does.  Without
links it computes what the path means lexically (`canonPath_exact`): `canonPath` in
`NixStore.Util.Paths`, which splits the path first, is the same function.
-/

namespace Nix

/-- The character of which the special names consist. -/
def dot : UInt8 := '.'.toUInt8

/-- `s.erase(s.rfind('/'))`. -/
def eraseLast (s : Str) : Str := ((s.reverse.dropWhile (· ≠ slash)).drop 1).reverse

/-- The number of links that are followed at most. -/
def maxFollow : ℕ := 1024

/-- The loop of `canonPath`: the number of links that were followed, the characters that are left,
and the result so far.  `links` is what `isLink` and `readLink` find at a path: the target of a link,
nothing at another file, or the error of a failing system call.  The first argument bounds the rounds
of the loop. -/
def canonPathLoop (links : Path → Outcome Str (Option Str)) (path : Path) :
    ℕ → ℕ → Str → Str → Outcome Str Path
  | 0, _, _, _ => .diverge
  | fuel + 1, followCount, rest, s =>
    match rest.dropWhile (· = slash) with
    | [] => .ok (if s = [] then str "/" else s)
    | c :: cs =>
      -- ignore `.`
      if c = dot ∧ (cs = [] ∨ cs.head? = some slash) then
        canonPathLoop links path fuel followCount cs s
      -- if `..`, delete the last component
      else if c = dot ∧ cs.head? = some dot ∧ (cs.tail = [] ∨ cs.tail.head? = some slash) then
        canonPathLoop links path fuel followCount cs.tail (if s = [] then s else eraseLast s)
      else do
        let s := s ++ slash :: (c :: cs).takeWhile (· ≠ slash)
        let rest := (c :: cs).dropWhile (· ≠ slash)
        match ← links s with
        | none => canonPathLoop links path fuel followCount rest s
        | some target =>
          if maxFollow ≤ followCount + 1 then
            .error (str "infinite symlink recursion in path `" ++ path ++ str "'")
          else do
            let dir ← dirOf s
            let temp ← absPath dir target
            canonPathLoop links path fuel (followCount + 1) (temp ++ rest) []

/-- `canonPath` as it is written; without `resolveSymlinks` no path is a link. -/
def canonPathScan (links : Path → Outcome Str (Option Str)) (fuel : ℕ) (path : Path) :
    Outcome Str Path :=
  if isAbsolute path then canonPathLoop links path fuel 0 path []
  else .error (str "not an absolute path: `" ++ path ++ str "'")

/-! ### What a path means -/

/-- What a component does to the components before it. -/
def followComponent (kept : List Str) (c : Str) : List Str :=
  if c = str ".." then kept.dropLast else kept ++ [c]

/-- The components of a path: empty ones and `.` are dropped, and `..` removes the one before it. -/
def lexicalComponents (path : Path) : List Str :=
  ((path.splitOn slash).filter fun c => c ≠ [] ∧ c ≠ str ".").foldl followComponent []

/-- Components joined with slashes. -/
def joinComponents (names : List Str) : Path := if names = [] then str "/" else subPath names

/-- The components of a target of a link in a directory, lexically. -/
def lexicalNames (dir : List Str) (target : Str) : List Str :=
  ((components target).filter (· ≠ str ".")).foldl followComponent
    (if isAbsolute target then [] else dir)

/-- What the loop of `canonPath` does, component by component: the number of links that were followed,
the components that are left, and those of the result so far. -/
def resolveNames (links : Path → Outcome Str (Option Str)) (path : Path) :
    ℕ → ℕ → List Str → List Str → Outcome Str Path
  | 0, _, _, _ => .diverge
  | _ + 1, _, [], kept => .ok (joinComponents kept)
  | fuel + 1, followCount, n :: names, kept =>
    if n = str "." then resolveNames links path fuel followCount names kept
    else if n = str ".." then resolveNames links path fuel followCount names kept.dropLast
    else do
      match ← links (subPath (kept ++ [n])) with
      | none => resolveNames links path fuel followCount names (kept ++ [n])
      | some target =>
        if maxFollow ≤ followCount + 1 then
          .error (str "infinite symlink recursion in path `" ++ path ++ str "'")
        else resolveNames links path fuel (followCount + 1) (lexicalNames kept target ++ names) []

/-- The loop of `canonPath` keeps the names that it has passed in reverse order. -/
theorem canonComponents_eq_foldl (rest kept : List Str) :
    canonComponents rest kept =
      (rest.filter fun c => c ≠ [] ∧ c ≠ str ".").foldl followComponent kept.reverse := by
  induction rest generalizing kept with
  | nil => rfl
  | cons c rest ih =>
    rw [canonComponents]
    by_cases hskip : c = [] ∨ c = str "."
    · rw [if_pos hskip, ih, List.filter_cons_of_neg (by simpa [← or_iff_not_imp_left] using hskip)]
    · rw [if_neg hskip, List.filter_cons_of_pos (by simpa using hskip), List.foldl_cons,
        followComponent]
      split_ifs with hup
      · rw [ih, List.dropLast_reverse]
      · rw [ih, List.reverse_cons]

/-- The loop of `canonPath` gives the lexical components. -/
theorem canonComponents_eq_lexicalComponents (path : Path) :
    canonComponents (path.splitOn slash) [] = lexicalComponents path :=
  canonComponents_eq_foldl _ []

/-- Only the root has the empty text. -/
theorem subPath_eq_nil_iff {names : List Str} : subPath names = [] ↔ names = [] := by
  cases names <;> simp [subPath]

/-- `canonPath` of an absolute path joins its lexical components. -/
theorem canonPath_eq_join {path : Path} (hpath : isAbsolute path = true) :
    canonPath path = .ok (joinComponents (lexicalComponents path)) := by
  unfold canonPath
  rw [if_pos hpath, ← slash, canonComponents_eq_lexicalComponents, joinComponents]
  dsimp only
  rw [flatMap_slash]
  simp only [subPath_eq_nil_iff]

/-! ### Components -/

/-- A slash in front adds no component. -/
theorem components_cons_slash (s : Str) : components (slash :: s) = components s :=
  components_append_slash [] s

/-- A name without slash is its own component. -/
theorem components_of_noSlash {n : Str} (hne : n ≠ []) (hn : slash ∉ n) : components n = [n] := by
  rw [components, componentsFrom_of_noSlash hn, List.nil_append, endName, if_neg hne]

/-- A string that is empty or goes on with a slash. -/
def EndsComponent (s : Str) : Prop := s = [] ∨ s.head? = some slash

instance (s : Str) : Decidable (EndsComponent s) := inferInstanceAs (Decidable (_ ∨ _))

/-- The components of two texts, of which the second begins a new component. -/
theorem components_append {s t : Str} (ht : EndsComponent t) :
    components (s ++ t) = components s ++ components t := by
  rcases ht with rfl | ht
  · exact (congrArg components (List.append_nil s)).trans (List.append_nil _).symm
  · obtain ⟨t, rfl⟩ := List.head?_eq_some_iff.mp ht
    rw [components_append_slash, components_cons_slash]

/-- Slashes in front add no component. -/
theorem components_dropWhile_slash (s : Str) :
    components (s.dropWhile (· = slash)) = components s := by
  induction s with
  | nil => rfl
  | cons c s ih =>
    by_cases hc : c = slash
    · subst hc
      rw [List.dropWhile_cons_of_pos (by simp), ih, components_cons_slash]
    · rw [List.dropWhile_cons_of_neg (by simpa using hc)]

/-- What is taken up to a slash has none. -/
theorem noSlash_takeWhile (s : Str) : slash ∉ s.takeWhile (· ≠ slash) := fun h => by
  simpa using List.mem_takeWhile_imp h

/-- What is left from a slash on begins a new component. -/
theorem endsComponent_dropWhile (s : Str) : EndsComponent (s.dropWhile (· ≠ slash)) := by
  cases hs : s.dropWhile (· ≠ slash) with
  | nil => exact Or.inl rfl
  | cons c tail =>
    have hhead := List.head_dropWhile_not (· ≠ slash) (w := by rw [hs]; simp)
    simp only [hs, List.head_cons, decide_eq_false_iff_not, ne_eq, not_not] at hhead
    exact Or.inr (congrArg some hhead)

/-- The first component, and the other ones. -/
theorem components_cons {c : UInt8} (hc : c ≠ slash) (cs : Str) :
    components (c :: cs) =
      (c :: cs.takeWhile (· ≠ slash)) :: components (cs.dropWhile (· ≠ slash)) := by
  have hslash : slash ∉ c :: cs.takeWhile (· ≠ slash) := fun h => by
    rcases List.mem_cons.mp h with h | h
    · exact hc h.symm
    · exact noSlash_takeWhile cs h
  have happend : c :: cs = (c :: cs.takeWhile (· ≠ slash)) ++ cs.dropWhile (· ≠ slash) := by
    rw [List.cons_append, List.takeWhile_append_dropWhile]
  rw [happend, components_append (endsComponent_dropWhile cs),
    components_of_noSlash (List.cons_ne_nil _ _) hslash, List.singleton_append]

/-- Proper names, written as a path, are its components. -/
theorem components_subPath_of_canonName {names : List Str} (h : ∀ n ∈ names, IsCanonName n) :
    components (subPath names) = names := by
  induction names with
  | nil => rfl
  | cons n names ih =>
    have hn := h n List.mem_cons_self
    have hends : EndsComponent (subPath names) := by
      cases names with
      | nil => exact Or.inl rfl
      | cons m names => exact Or.inr rfl
    change components (slash :: (n ++ subPath names)) = n :: names
    rw [components_cons_slash, components_append hends, components_of_noSlash hn.ne_nil hn.noSlash,
      ih fun m hm => h m (List.mem_cons_of_mem _ hm), List.singleton_append]

/-- Proper names, joined, are the components. -/
theorem components_joinComponents {names : List Str} (h : ∀ n ∈ names, IsCanonName n) :
    components (joinComponents names) = names := by
  rw [joinComponents]
  split_ifs with hnil
  · rw [hnil]
    rfl
  · exact components_subPath_of_canonName h

/-- Splitting at slashes, without the empty parts, gives the components. -/
theorem filter_splitOn_slash {acc : Str} (hacc : slash ∉ acc) (s : Str) :
    ((acc ++ s).splitOn slash).filter (· ≠ []) = componentsFrom acc s := by
  induction s generalizing acc with
  | nil =>
    rw [List.append_nil, List.splitOn_eq_singleton hacc, componentsFrom, endName]
    by_cases hnil : acc = [] <;> simp [hnil]
  | cons c s ih =>
    rw [componentsFrom]
    split_ifs with hc
    · rw [hc, List.splitOn_append_cons_self_of_not_mem hacc, List.filter_cons,
        ← ih List.not_mem_nil, List.nil_append, endName]
      by_cases hnil : acc = [] <;> simp [hnil]
    · have hmem : slash ∉ acc ++ [c] := by simp [hacc, Ne.symm hc]
      rw [← ih hmem, List.append_assoc, List.singleton_append]

/-- The lexical components follow the components, with `..` as a step back. -/
theorem lexicalComponents_eq (path : Path) :
    lexicalComponents path =
      ((components path).filter (· ≠ str ".")).foldl followComponent [] := by
  have hsplit := filter_splitOn_slash List.not_mem_nil path
  rw [List.nil_append] at hsplit
  rw [lexicalComponents, components, ← hsplit, List.filter_filter]
  congr 2
  funext c
  rw [Bool.decide_and, Bool.and_comm]

/-- A component of a path is not empty and has no slash. -/
theorem of_mem_components {path : Path} {n : Str} (h : n ∈ components path) :
    n ≠ [] ∧ slash ∉ n ∧ ∀ c ∈ n, c ∈ path :=
  of_mem_componentsFrom h List.not_mem_nil

/-- What is left after following proper components has proper names. -/
theorem isCanonName_of_mem_foldl {names dir : List Str} {n : Str}
    (hnames : ∀ m ∈ names, m ≠ [] ∧ slash ∉ m) (hdir : ∀ m ∈ dir, IsCanonName m)
    (h : n ∈ (names.filter (· ≠ str ".")).foldl followComponent dir) : IsCanonName n := by
  induction names generalizing dir with
  | nil => exact hdir n h
  | cons c names ih =>
    have hc := hnames c List.mem_cons_self
    have htail : ∀ m ∈ names, m ≠ [] ∧ slash ∉ m := fun m hm =>
      hnames m (List.mem_cons_of_mem _ hm)
    by_cases hdot : c = str "."
    · rw [List.filter_cons_of_neg (by simpa using hdot)] at h
      exact ih htail hdir h
    · rw [List.filter_cons_of_pos (by simpa using hdot), List.foldl_cons] at h
      refine ih htail (fun m hm => ?_) h
      rw [followComponent] at hm
      split_ifs at hm with hup
      · exact hdir m (List.mem_of_mem_dropLast hm)
      · rcases List.mem_append.mp hm with hm | hm
        · exact hdir m hm
        · rw [List.mem_singleton.mp hm]
          exact ⟨hc.1, hc.2, hdot, hup⟩

/-- Lexical components are proper names. -/
theorem isCanonName_of_mem_lexicalComponents {path : Path} {n : Str}
    (h : n ∈ lexicalComponents path) : IsCanonName n := by
  rw [lexicalComponents_eq] at h
  exact isCanonName_of_mem_foldl (fun m hm => ⟨(of_mem_components hm).1, (of_mem_components hm).2.1⟩)
    (by simp) h

/-- The names that a link leads to are proper. -/
theorem isCanonName_of_mem_lexicalNames {dir : List Str} (hdir : ∀ m ∈ dir, IsCanonName m)
    {target n : Str} (h : n ∈ lexicalNames dir target) : IsCanonName n := by
  refine isCanonName_of_mem_foldl
    (fun m hm => ⟨(of_mem_components hm).1, (of_mem_components hm).2.1⟩) (fun m hm => ?_) h
  split_ifs at hm
  · cases hm
  · exact hdir m hm

/-- Proper names are followed by appending them. -/
theorem foldl_followComponent_of_canonName {names : List Str} (h : ∀ n ∈ names, IsCanonName n)
    (dir : List Str) : names.foldl followComponent dir = dir ++ names := by
  induction names generalizing dir with
  | nil => exact (List.append_nil dir).symm
  | cons n names ih =>
    rw [List.foldl_cons, followComponent, if_neg (h n List.mem_cons_self).ne_dotdot,
      ih fun m hm => h m (List.mem_cons_of_mem _ hm), List.append_assoc, List.singleton_append]

/-- The target of a link in a directory, made absolute. -/
theorem absPath_joinComponents {dir : List Str} (hdir : ∀ n ∈ dir, IsCanonName n) (target : Str) :
    absPath (joinComponents dir) target = .ok (joinComponents (lexicalNames dir target)) := by
  rw [absPath, lexicalNames]
  by_cases habs : isAbsolute target = true
  · rw [if_pos habs, if_pos habs, canonPath_eq_join habs, lexicalComponents_eq]
  · have hslash : isAbsolute (joinComponents dir ++ str "/" ++ target) = true := by
      rw [joinComponents]
      split_ifs with hnil
      · rfl
      · obtain ⟨n, names, rfl⟩ := List.exists_cons_of_ne_nil hnil
        rfl
    have hnames : components (joinComponents dir ++ str "/" ++ target) =
        dir ++ components target := by
      rw [List.append_assoc]
      change components (joinComponents dir ++ slash :: target) = _
      rw [components_append_slash, components_joinComponents hdir]
    have hfilter : dir.filter (· ≠ str ".") = dir :=
      List.filter_eq_self.mpr fun n hn => by simpa using (hdir n hn).ne_dot
    rw [if_neg habs, if_neg habs, canonPath_eq_join hslash, lexicalComponents_eq, hnames,
      List.filter_append, List.foldl_append, hfilter, foldl_followComponent_of_canonName hdir,
      List.nil_append]

/-- Erasing the last name and its slash. -/
theorem eraseLast_append {s n : Str} (hn : slash ∉ n) : eraseLast (s ++ slash :: n) = s := by
  have hall : ∀ c ∈ n.reverse, decide (c ≠ slash) = true := fun c hc => by
    simpa using fun heq : c = slash => hn (heq ▸ List.mem_reverse.mp hc)
  rw [eraseLast, List.reverse_append, List.reverse_cons, List.append_assoc,
    List.dropWhile_append_of_pos hall]
  simp

/-- The directory of a path is the path without its last name. -/
theorem dirOf_subPath_concat {dir : List Str} {n : Str} (hn : slash ∉ n) :
    dirOf (subPath (dir ++ [n])) = .ok (joinComponents dir) := by
  have hmem : '/'.toUInt8 ∈ subPath (dir ++ [n]) := by
    rw [subPath_concat]
    exact List.mem_append_right _ List.mem_cons_self
  have herase := eraseLast_append (s := subPath dir) hn
  rw [← subPath_concat, eraseLast, slash] at herase
  rw [dirOf, if_pos hmem]
  dsimp only
  rw [herase, joinComponents]
  simp only [subPath_eq_nil_iff]

/-! ### The scanner -/

/-- There is nothing up to a slash when the text begins with one. -/
theorem takeWhile_slash_eq_nil_iff {s : Str} : s.takeWhile (· ≠ slash) = [] ↔ EndsComponent s := by
  cases s <;> simp [EndsComponent]

/-- Where a component ends there is nothing to drop. -/
theorem dropWhile_slash_of_endsComponent {s : Str} (h : EndsComponent s) :
    s.dropWhile (· ≠ slash) = s := by
  have happend := List.takeWhile_append_dropWhile (p := (· ≠ slash)) (l := s)
  rwa [takeWhile_slash_eq_nil_iff.mpr h, List.nil_append] at happend

/-- The test for the component `.`. -/
theorem cons_takeWhile_eq_dot_iff {c : UInt8} {cs : Str} :
    c :: cs.takeWhile (· ≠ slash) = str "." ↔ c = dot ∧ EndsComponent cs := by
  rw [← takeWhile_slash_eq_nil_iff]
  exact List.cons_eq_cons

/-- The test for the component `..`. -/
theorem cons_takeWhile_eq_dotdot_iff {c : UInt8} {cs : Str} :
    c :: cs.takeWhile (· ≠ slash) = str ".." ↔
      c = dot ∧ cs.head? = some dot ∧ EndsComponent cs.tail := by
  have hdot : ∀ {d : UInt8} {ds : Str}, (d :: ds).takeWhile (· ≠ slash) = str "." ↔
      d = dot ∧ EndsComponent ds := by
    intro d ds
    by_cases hd : d = slash
    · subst hd
      simp [show slash ≠ dot by decide, show str "." ≠ [] by decide]
    · rw [List.takeWhile_cons_of_pos (by simpa using hd), cons_takeWhile_eq_dot_iff]
  cases cs with
  | nil => simp [str]
  | cons d ds =>
    have hcons : c :: (d :: ds).takeWhile (· ≠ slash) = str ".." ↔
        c = dot ∧ (d :: ds).takeWhile (· ≠ slash) = str "." := List.cons_eq_cons
    rw [hcons, hdot]
    simp


/-- The path that has been scanned, after the last component is deleted. -/
theorem eraseLast_subPath {kept : List Str} (hkept : ∀ n ∈ kept, slash ∉ n) :
    (if subPath kept = [] then subPath kept else eraseLast (subPath kept)) =
      subPath kept.dropLast := by
  rcases List.eq_nil_or_concat' kept with rfl | ⟨kept, n, rfl⟩
  · rfl
  · rw [if_neg (by simp [subPath_concat]), subPath_concat, List.dropLast_concat,
      eraseLast_append (hkept n (by simp))]

/-- The scanner works component by component. -/
theorem canonPathLoop_eq_resolveNames (links : Path → Outcome Str (Option Str)) (path : Path)
    (fuel : ℕ) : ∀ (followCount : ℕ) (rest : Str) {kept : List Str}, (∀ n ∈ kept, IsCanonName n) →
      canonPathLoop links path fuel followCount rest (subPath kept) =
        resolveNames links path fuel followCount (components rest) kept := by
  induction fuel with
  | zero => exact fun _ _ _ _ => rfl
  | succ fuel ih =>
    intro followCount rest kept hkept
    rw [canonPathLoop, ← components_dropWhile_slash rest]
    have hhead : ∀ c cs, rest.dropWhile (· = slash) = c :: cs → c ≠ slash := fun c cs h => by
      have hnot := List.head_dropWhile_not (· = slash) (w := by rw [h]; simp)
      simpa only [h, List.head_cons, decide_eq_false_iff_not] using hnot
    generalize rest.dropWhile (· = slash) = rest' at *
    cases rest' with
    | nil =>
      change _ = Outcome.ok (joinComponents kept)
      simp only [joinComponents, subPath_eq_nil_iff]
    | cons c cs =>
      have hc : c ≠ slash := hhead c cs rfl
      have htake : (c :: cs).takeWhile (· ≠ slash) = c :: cs.takeWhile (· ≠ slash) :=
        List.takeWhile_cons_of_pos (by simpa using hc)
      have hdrop : (c :: cs).dropWhile (· ≠ slash) = cs.dropWhile (· ≠ slash) :=
        List.dropWhile_cons_of_pos (by simpa using hc)
      have hname : slash ∉ c :: cs.takeWhile (· ≠ slash) := htake ▸ noSlash_takeWhile (c :: cs)
      rw [components_cons hc, resolveNames]
      simp only [cons_takeWhile_eq_dot_iff, cons_takeWhile_eq_dotdot_iff, htake, hdrop]
      by_cases hdot : c = dot ∧ EndsComponent cs
      · rw [dropWhile_slash_of_endsComponent hdot.2]
        exact (if_pos hdot).trans ((ih followCount cs hkept).trans (if_pos hdot).symm)
      by_cases hdotdot : c = dot ∧ cs.head? = some dot ∧ EndsComponent cs.tail
      · have htail : cs.dropWhile (· ≠ slash) = cs.tail := by
          obtain ⟨rest, rfl⟩ := List.head?_eq_some_iff.mp hdotdot.2.1
          rw [List.dropWhile_cons_of_pos (by decide)]
          exact dropWhile_slash_of_endsComponent hdotdot.2.2
        rw [htail, eraseLast_subPath fun n hn => (hkept n hn).noSlash]
        have hkept' : ∀ n ∈ kept.dropLast, IsCanonName n := fun n hn =>
          hkept n (List.mem_of_mem_dropLast hn)
        rw [if_neg hdot, if_pos hdotdot, ← ih followCount cs.tail hkept']
        exact (if_neg hdot).trans (if_pos hdotdot)
      · rw [if_neg hdot, if_neg hdotdot]
        refine (if_neg hdot).trans ((if_neg hdotdot).trans ?_)
        rw [← subPath_concat]
        have hcanon : IsCanonName (c :: cs.takeWhile (· ≠ slash)) :=
          ⟨List.cons_ne_nil _ _, hname, mt cons_takeWhile_eq_dot_iff.mp hdot,
            mt cons_takeWhile_eq_dotdot_iff.mp hdotdot⟩
        congr 1
        funext link
        cases link with
        | none =>
          refine ih followCount _ fun n hn => ?_
          rcases List.mem_append.mp hn with hn | hn
          · exact hkept n hn
          · exact List.mem_singleton.mp hn ▸ hcanon
        | some target =>
          dsimp only
          split_ifs with hmany
          · rfl
          · have hnames : ∀ n ∈ lexicalNames kept target, IsCanonName n := fun n hn =>
              isCanonName_of_mem_lexicalNames hkept hn
            rw [dirOf_subPath_concat hname, Outcome.ok_bind, absPath_joinComponents hkept,
              Outcome.ok_bind, ← subPath_nil, ih _ _ (List.forall_mem_nil _),
              components_append (endsComponent_dropWhile cs), components_joinComponents hnames]

/-- The scan by characters is the resolution by names. -/
theorem canonPathScan_eq_resolveNames (links : Path → Outcome Str (Option Str)) (fuel : ℕ)
    {path : Path} (hpath : isAbsolute path = true) :
    canonPathScan links fuel path = resolveNames links path fuel 0 (components path) [] := by
  rw [canonPathScan, if_pos hpath]
  exact canonPathLoop_eq_resolveNames links path fuel 0 path (List.forall_mem_nil _)

/-! ### Without links -/

/-- Without links the components of what is left are put on top of those that were kept. -/
theorem resolveNames_noLinks (path : Path) {followCount : ℕ} (fuel : ℕ) :
    ∀ {names kept : List Str}, names.length < fuel →
      resolveNames (fun _ => .ok none) path fuel followCount names kept =
        .ok (joinComponents ((names.filter (· ≠ str ".")).foldl followComponent kept)) := by
  induction fuel with
  | zero => exact fun h => absurd h (Nat.not_lt_zero _)
  | succ fuel ih =>
    intro names kept hlen
    cases names with
    | nil => rfl
    | cons n names =>
      rw [List.length_cons, Nat.succ_lt_succ_iff] at hlen
      rw [resolveNames]
      by_cases hdot : n = str "."
      · rw [if_pos hdot, ih hlen, List.filter_cons_of_neg (by simpa using hdot)]
      · rw [if_neg hdot, List.filter_cons_of_pos (by simpa using hdot), List.foldl_cons,
          followComponent]
        by_cases hup : n = str ".."
        · rw [if_pos hup, if_pos hup, ih hlen]
        · rw [if_neg hup, if_neg hup, Outcome.ok_bind]
          exact ih hlen

/-- There are no more components than characters. -/
theorem length_components_le (path : Path) : (components path).length ≤ path.length := by
  have hfrom : ∀ s acc : Str, (componentsFrom acc s).length ≤ acc.length + s.length := by
    intro s
    induction s with
    | nil =>
      intro acc
      rw [componentsFrom, endName]
      split_ifs with hnil
      · simp
      · simpa [Nat.one_le_iff_ne_zero] using hnil
    | cons c s ih =>
      intro acc
      rw [componentsFrom]
      split_ifs with hc
      · have hend : (endName acc).length ≤ acc.length + 1 := by
          rw [endName]
          split_ifs <;> simp
        have hrest := ih []
        simp only [List.length_append, List.length_cons, List.length_nil] at *
        omega
      · have hrest := ih (acc ++ [c])
        simp only [List.length_append, List.length_cons, List.length_nil] at *
        omega
  exact (hfrom path []).trans_eq (Nat.zero_add _)

/-- The scanner and the function that splits the path first are the same. -/
theorem canonPathScan_eq_canonPath {path : Path} {fuel : ℕ} (hfuel : path.length < fuel) :
    canonPathScan (fun _ => .ok none) fuel path = canonPath path := by
  by_cases hpath : isAbsolute path = true
  · rw [canonPathScan_eq_resolveNames _ _ hpath, canonPath_eq_join hpath, lexicalComponents_eq]
    exact resolveNames_noLinks path fuel ((length_components_le path).trans_lt hfuel)
  · rw [canonPathScan, canonPath, if_neg hpath, if_neg hpath]

/-- Canonicalisation is lexical: it ends, and its result is what the components of the path say; so it
changes no result of its own, and such a result has proper components and no slash at its end. -/
theorem canonPath_exact {path : Path} (hpath : isAbsolute path = true) :
    ∃ s, (∀ fuel > path.length, canonPathScan (fun _ => .ok none) fuel path = .ok s) ∧
      s = joinComponents (lexicalComponents path) ∧
      (∀ fuel > s.length, canonPathScan (fun _ => .ok none) fuel s = .ok s) ∧
      (s = str "/" ∨ s.getLast? ≠ some slash ∧
        ∀ c ∈ (s.splitOn slash).tail, c ≠ [] ∧ c ≠ str "." ∧ c ≠ str "..") := by
  have hnames : ∀ n ∈ lexicalComponents path, IsCanonName n := fun n hn =>
    isCanonName_of_mem_lexicalComponents hn
  refine ⟨_, fun fuel hfuel => ?_, rfl, fun fuel hfuel => ?_, ?_⟩
  · rw [canonPathScan_eq_canonPath hfuel, canonPath_eq_join hpath]
  · rw [canonPathScan_eq_canonPath hfuel, joinComponents]
    split_ifs with hempty
    · decide
    · exact canonPath_subPath hempty hnames
  · rw [joinComponents]
    split_ifs with hempty
    · exact Or.inl rfl
    · refine Or.inr ⟨?_, fun c hc => ?_⟩
      · obtain ⟨names, n, hlast⟩ := (List.eq_nil_or_concat' _).resolve_left hempty
        have hn : IsCanonName n := hnames n (by simp [hlast])
        obtain ⟨n', b, rfl⟩ := (List.eq_nil_or_concat' n).resolve_left hn.ne_nil
        rw [hlast, subPath_concat, ← List.cons_append, ← List.append_assoc, List.getLast?_concat]
        rintro ⟨⟩
        exact hn.noSlash (by simp)
      · have hsplit : ([] ++ subPath (lexicalComponents path)).splitOn slash =
            [] :: lexicalComponents path :=
          splitOn_append_subPath List.not_mem_nil fun n hn => (hnames n hn).noSlash
        rw [← List.nil_append (subPath _), hsplit, List.tail_cons] at hc
        exact ⟨(hnames c hc).ne_nil, (hnames c hc).ne_dot, (hnames c hc).ne_dotdot⟩

/-- Repeated slashes, names that begin with dots, and more `..` than there are components. -/
theorem canonPath_exact_dots : ∃ s,
    (∀ fuel > (str "//a/./.../../../..b/").length,
      canonPathScan (fun _ => .ok none) fuel (str "//a/./.../../../..b/") = .ok s) ∧
    s = joinComponents (lexicalComponents (str "//a/./.../../../..b/")) := by
  have hpath : isAbsolute (str "//a/./.../../../..b/") = true := by decide
  obtain ⟨s, hscan, hs, -⟩ := canonPath_exact hpath
  exact ⟨s, hscan, hs⟩

example : canonPathScan (fun _ => .ok none) 20 (str "//a/./.../../../..b/") = .ok (str "/..b") := by decide

end Nix
