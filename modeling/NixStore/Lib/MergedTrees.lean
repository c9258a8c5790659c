import Mathlib

/-!
# Merged trees

Several trees of files, each with a rank, are shown as one.  A directory that only one of the trees has
is a link to it; a directory that several of them have is a directory, in which their entries are merged;
of files, the one with the smallest rank is linked.  `merged` says what is at a place, and
`resolve_merged` that following the links from the root leads to the files of the trees.
-/

namespace Nix

/-- Trees of files.  Only directories have entries. -/
structure TreeView (ν κ : Type*) where
  isDir : ν → Bool
  /-- The entry of a directory with the given name. -/
  child : ν → κ → Option ν
  isDir_of_child : ∀ {x k y}, child x k = some y → isDir x = true

/-- What is at a place in merged trees. -/
inductive MergedEntry (ν ρ : Type*) where
  | directory
  | link (target : ν) (rank : ρ)

variable {ν κ ρ : Type*}

/-! ### The best of several files -/

section

variable [LinearOrder ρ]

/-- The best of a file and others: a file is replaced by one whose rank is not larger. -/
def bestFrom (b : ν × ρ) (xs : List (ν × ρ)) : ν × ρ :=
  xs.foldl (fun b x => if b.2 < x.2 then b else x) b

/-- The best of several files. -/
def best : List (ν × ρ) → Option (ν × ρ)
  | [] => none
  | x :: xs => some (bestFrom x xs)

variable {b x : ν × ρ} {xs : List (ν × ρ)}

/-- The best of a longer list, seen from its end. -/
theorem bestFrom_concat (b x : ν × ρ) (xs : List (ν × ρ)) :
    bestFrom b (xs ++ [x]) = if (bestFrom b xs).2 < x.2 then bestFrom b xs else x := by
  rw [bestFrom, List.foldl_append]
  rfl

/-- The best of a list with one more element. -/
theorem best_concat (hb : best xs = some b) (x : ν × ρ) :
    best (xs ++ [x]) = some (if b.2 < x.2 then b else x) := by
  cases xs with
  | nil => cases hb
  | cons y ys =>
    cases hb
    rw [List.cons_append, best, bestFrom_concat]

/-- A nonempty list has a best element. -/
theorem exists_best (h : xs ≠ []) : ∃ b, best xs = some b := by
  obtain ⟨x, xs, rfl⟩ := List.exists_cons_of_ne_nil h
  exact ⟨_, rfl⟩

/-- The best element is in the list. -/
theorem mem_of_best (h : best xs = some b) : b ∈ xs := by
  induction xs using List.reverseRecOn generalizing b with
  | nil => cases h
  | append_singleton xs x ih =>
    by_cases hxs : xs = []
    · rw [hxs] at h ⊢
      cases h
      exact List.mem_singleton_self x
    · obtain ⟨c, hc⟩ := exists_best hxs
      rw [best_concat hc] at h
      cases h
      split_ifs
      · exact List.mem_append_left _ (ih hc)
      · exact List.mem_append_right _ (List.mem_singleton_self x)

/-- The first file is the best one if the others have larger ranks. -/
theorem best_cons_of_lt (h : ∀ y ∈ xs, x.2 < y.2) : best (x :: xs) = some x := by
  rw [best]
  congr 1
  induction xs with
  | nil => rfl
  | cons y ys ih =>
    rw [bestFrom, List.foldl_cons, if_pos (h y List.mem_cons_self)]
    exact ih fun z hz => h z (List.mem_cons_of_mem y hz)

/-- No file has the rank of the best one of the files in front of it. -/
def NoTie (xs : List (ν × ρ)) : Prop :=
  ∀ ys x b, ys ++ [x] <+: xs → best ys = some b → b.2 ≠ x.2

/-- Without ties, the first file is only the best one if the others have larger ranks. -/
theorem lt_of_best_cons (htie : NoTie (x :: xs)) (hbest : best (x :: xs) = some x) :
    ∀ y ∈ xs, x.2 < y.2 := by
  -- the rank of the best file does not grow, and gets smaller with each replacement
  have hrank : ∀ ys, ys <+: xs → (bestFrom x ys).2 ≤ x.2 ∧
      ((bestFrom x ys).2 = x.2 → ∀ y ∈ ys, x.2 < y.2) := by
    intro ys
    induction ys using List.reverseRecOn with
    | nil => exact fun _ => ⟨le_rfl, fun _ y hy => absurd hy List.not_mem_nil⟩
    | append_singleton ys y ih =>
      intro hprefix
      obtain ⟨hle, heq⟩ := ih ((List.prefix_append ys [y]).trans hprefix)
      have hne : (bestFrom x ys).2 ≠ y.2 :=
        htie (x :: ys) y _ (List.cons_prefix_cons.mpr ⟨rfl, hprefix⟩) rfl
      rw [bestFrom_concat]
      split_ifs with hlt
      · refine ⟨hle, fun hsame z hz => ?_⟩
        rcases List.mem_append.mp hz with hz | hz
        · exact heq hsame z hz
        · rw [List.mem_singleton.mp hz, ← hsame]
          exact hlt
      · have hless : y.2 < (bestFrom x ys).2 := lt_of_le_of_ne (not_lt.mp hlt) hne.symm
        exact ⟨hless.le.trans hle, fun hsame => absurd (hsame ▸ hless.trans_le hle) (lt_irrefl _)⟩
  have hlast : bestFrom x xs = x := Option.some.inj hbest
  exact (hrank xs (List.prefix_refl xs)).2 (by rw [hlast])

end

/-! ### Entries with a name -/

namespace TreeView

section

variable (T : TreeView ν κ)

/-- The file at the end of a path in a tree. -/
def walk (x : ν) : List κ → Option ν
  | [] => some x
  | k :: r => (T.child x k).bind fun y => walk y r

/-- The files at a path, of those trees that have one there. -/
def providers (ps : List (ν × ρ)) (r : List κ) : List (ν × ρ) :=
  ps.filterMap fun x => (T.walk x.1 r).map fun y => (y, x.2)

/-- Where one of the trees has a directory, none has another file. -/
def Compatible (ps : List (ν × ρ)) : Prop :=
  ∀ r, ∀ y ∈ T.providers ps r, ∀ z ∈ T.providers ps r, T.isDir y.1 = T.isDir z.1

/-- The paths in the trees are shorter than a bound. -/
def Bounded (n : ℕ) (ps : List (ν × ρ)) : Prop := ∀ r, T.providers ps r ≠ [] → r.length < n

variable [LinearOrder ρ]

/-- What is at a place with the given files. -/
def entryOf (ps : List (ν × ρ)) : Option (MergedEntry ν ρ) :=
  if (∃ x ∈ ps, T.isDir x.1 = true) ∧ 2 ≤ ps.length then some .directory
  else (best ps).map fun b => .link b.1 b.2

/-- What is at a path in the merged trees. -/
def merged (ps : List (ν × ρ)) : List κ → Option (MergedEntry ν ρ)
  | [] => some .directory
  | k :: r =>
    if r = [] then T.entryOf (T.providers ps [k])
    else if 2 ≤ (T.providers ps [k]).length then merged (T.providers ps [k]) r
    else none

/-- A tree has a file, in its entry with the given name, where the best one of other files has the same
rank. -/
def ClashesAt (ps : List (ν × ρ)) (x : ν × ρ) (k : κ) : Prop :=
  ∃ r b y, best (T.providers ps (k :: r)) = some b ∧ T.walk x.1 (k :: r) = some y ∧
    T.isDir y = false ∧ b.2 = x.2

/-- A tree has a file where the best one of other files has the same rank. -/
def Clashes (ps : List (ν × ρ)) (x : ν × ρ) : Prop := ∃ k, T.ClashesAt ps x k

end

/-- Following the links of a directory from one of its places: the first link and what is left of the
path. -/
def follow (entry : List κ → Option (MergedEntry ν ρ)) : List κ → List κ → Option (ν × List κ)
  | _, [] => none
  | l, k :: r =>
    match entry (l ++ [k]) with
    | none => none
    | some .directory => follow entry (l ++ [k]) r
    | some (.link x _) => some (x, r)

section

variable {T : TreeView ν κ} {ps : List (ν × ρ)} {x y z : ν × ρ} {k : κ} {r : List κ} {n : ℕ}

/-- At the root everything provides. -/
@[simp] theorem providers_nil (ps : List (ν × ρ)) : T.providers ps [] = ps := by
  rw [providers]
  exact List.filterMap_some

/-- The providers along a path, one name at a time. -/
theorem providers_cons (ps : List (ν × ρ)) (k : κ) (r : List κ) :
    T.providers ps (k :: r) = T.providers (T.providers ps [k]) r := by
  rw [providers, providers, providers, List.filterMap_filterMap]
  refine List.filterMap_congr fun x _ => ?_
  rw [walk, walk]
  cases T.child x.1 k with
  | none => rfl
  | some y => rfl

/-- The providers of two lists. -/
theorem providers_append (ps qs : List (ν × ρ)) (r : List κ) :
    T.providers (ps ++ qs) r = T.providers ps r ++ T.providers qs r := List.filterMap_append

/-- A provider walks along the path from an element of the list. -/
theorem mem_providers : y ∈ T.providers ps r ↔ ∃ x ∈ ps, T.walk x.1 r = some y.1 ∧ x.2 = y.2 := by
  rw [providers, List.mem_filterMap]
  constructor
  · rintro ⟨x, hx, hy⟩
    obtain ⟨z, hz, rfl⟩ := Option.map_eq_some_iff.mp hy
    exact ⟨x, hx, hz, rfl⟩
  · rintro ⟨x, hx, hwalk, hrank⟩
    refine ⟨x, hx, Option.map_eq_some_iff.mpr ⟨y.1, hwalk, ?_⟩⟩
    rw [hrank]

/-- What is compatible stays so further down. -/
theorem Compatible.sub (h : T.Compatible ps) (k : κ) : T.Compatible (T.providers ps [k]) := by
  intro r y hy z hz
  rw [← providers_cons] at hy hz
  exact h (k :: r) y hy z hz

/-- What is bounded is so by one less further down. -/
theorem Bounded.sub (h : T.Bounded (n + 1) ps) (k : κ) : T.Bounded n (T.providers ps [k]) := by
  intro r hr
  rw [← providers_cons] at hr
  exact Nat.lt_of_succ_lt_succ (h (k :: r) hr)

/-- The trees of which one has an entry are directories. -/
theorem isDir_of_providers_cons (h : T.Compatible ps) (hne : T.providers ps (k :: r) ≠ []) (hx : x ∈ ps) :
    T.isDir x.1 = true := by
  obtain ⟨y, hy⟩ := List.exists_mem_of_ne_nil _ hne
  obtain ⟨z, hz, hwalk, -⟩ := mem_providers.mp hy
  rw [walk] at hwalk
  obtain ⟨c, hc, -⟩ := Option.bind_eq_some_iff.mp hwalk
  rw [h [] x (by rwa [providers_nil]) z (by rwa [providers_nil])]
  exact T.isDir_of_child hc

/-- The trees of a list can be left out. -/
theorem Compatible.mono {qs : List (ν × ρ)} (h : T.Compatible qs) (hsub : ∀ x ∈ ps, x ∈ qs) :
    T.Compatible ps := by
  intro r y hy z hz
  obtain ⟨y', hy', hwalk⟩ := mem_providers.mp hy
  obtain ⟨z', hz', hwalk'⟩ := mem_providers.mp hz
  exact h r y (mem_providers.mpr ⟨y', hsub y' hy', hwalk⟩) z (mem_providers.mpr ⟨z', hsub z' hz', hwalk'⟩)

/-- A smaller list is bounded. -/
theorem Bounded.mono {qs : List (ν × ρ)} (h : T.Bounded n qs) (hsub : ∀ x ∈ ps, x ∈ qs) :
    T.Bounded n ps := by
  intro r hr
  obtain ⟨y, hy⟩ := List.exists_mem_of_ne_nil _ hr
  obtain ⟨y', hy', hwalk⟩ := mem_providers.mp hy
  exact h r (List.ne_nil_of_mem (mem_providers.mpr ⟨y', hsub y' hy', hwalk⟩))

/-- The entry of a single tree. -/
theorem providers_singleton (x : ν × ρ) (k : κ) :
    T.providers [x] [k] = ((T.child x.1 k).map fun y => (y, x.2)).toList := by
  rw [providers, List.filterMap_cons, List.filterMap_nil, walk]
  cases T.child x.1 k with
  | none => rfl
  | some y => rfl

/-- Files have no entries. -/
theorem providers_eq_nil (h : ∀ x ∈ ps, T.isDir x.1 = false) (k : κ) (r : List κ) :
    T.providers ps (k :: r) = [] := by
  refine List.filterMap_eq_nil_iff.mpr fun x hx => ?_
  cases hchild : T.child x.1 k with
  | none => rw [walk, hchild, Option.bind_none, Option.map_none]
  | some y =>
    have hdir := T.isDir_of_child hchild
    rw [h x hx] at hdir
    cases hdir

/-- Only what is at the places on the way matters. -/
theorem follow_congr {entry entry' : List κ → Option (MergedEntry ν ρ)} {l : List κ}
    (h : ∀ s, s ≠ [] → s <+: r → entry (l ++ s) = entry' (l ++ s)) :
    follow entry l r = follow entry' l r := by
  induction r generalizing l with
  | nil => rfl
  | cons k r ih =>
    have hhead := h [k] (List.cons_ne_nil k []) (List.prefix_append [k] r)
    have hrest : follow entry (l ++ [k]) r = follow entry' (l ++ [k]) r := by
      refine ih fun s _ hs => ?_
      rw [List.append_assoc]
      exact h (k :: s) (List.cons_ne_nil k s) (List.cons_prefix_cons.mpr ⟨rfl, hs⟩)
    rw [follow, follow, hhead, hrest]

/-- The tree that has one of the files at a path, and the trees in front of it. -/
theorem exists_split_of_prefix {ys : List (ν × ρ)} (h : ys ++ [x] <+: T.providers ps r) :
    ∃ l₁ p l₂, ps = l₁ ++ p :: l₂ ∧ T.providers l₁ r = ys ∧ T.walk p.1 r = some x.1 ∧ p.2 = x.2 := by
  obtain ⟨rest, hrest⟩ := h
  rw [List.append_assoc, List.singleton_append] at hrest
  obtain ⟨l₁, l₂, rfl, hl₁, hl₂⟩ := List.filterMap_eq_append_iff.mp hrest.symm
  obtain ⟨m₁, p, m₂, rfl, hm₁, hp, -⟩ := List.filterMap_eq_cons_iff.mp hl₂
  obtain ⟨y, hy, rfl⟩ := Option.map_eq_some_iff.mp hp
  refine ⟨l₁ ++ m₁, p, m₂, by rw [List.append_assoc], ?_, hy, rfl⟩
  have hnil : T.providers m₁ r = [] := List.filterMap_eq_nil_iff.mpr hm₁
  rw [providers_append, hnil, List.append_nil]
  exact hl₁

variable [LinearOrder ρ]

/-- Without providers there is no entry. -/
theorem entryOf_nil : T.entryOf ([] : List (ν × ρ)) = none := by
  rw [entryOf, if_neg fun h => absurd h.2 (by simp)]
  rfl

/-- One provider is linked to. -/
theorem entryOf_singleton (x : ν × ρ) : T.entryOf [x] = some (.link x.1 x.2) := by
  rw [entryOf, if_neg fun h => absurd h.2 (by simp)]
  rfl

/-- A directory among two or more providers is merged. -/
theorem entryOf_of_isDir (hx : x ∈ ps) (hdir : T.isDir x.1 = true) (hlength : 2 ≤ ps.length) :
    T.entryOf ps = some .directory := if_pos ⟨⟨x, hx, hdir⟩, hlength⟩

/-- Of files the best is linked to. -/
theorem entryOf_of_files (h : ∀ x ∈ ps, T.isDir x.1 = false) (hbest : best ps = some y) :
    T.entryOf ps = some (.link y.1 y.2) := by
  have hnone : ¬((∃ x ∈ ps, T.isDir x.1 = true) ∧ 2 ≤ ps.length) := by
    rintro ⟨⟨x, hx, hdir⟩, -⟩
    rw [h x hx] at hdir
    cases hdir
  rw [entryOf, if_neg hnone, hbest]
  rfl

/-- Further down there is something only where two or more are merged. -/
theorem merged_cons (hr : r ≠ []) : T.merged ps (k :: r) =
    if 2 ≤ (T.providers ps [k]).length then T.merged (T.providers ps [k]) r else none := by
  rw [merged, if_neg hr]

/-- The entry for one name. -/
theorem merged_singleton (ps : List (ν × ρ)) (k : κ) :
    T.merged ps [k] = T.entryOf (T.providers ps [k]) := by
  rw [merged, if_pos rfl]

/-- What is at a path depends on the entries with its first name. -/
theorem merged_congr {qs : List (ν × ρ)} (h : T.providers ps [k] = T.providers qs [k]) (r : List κ) :
    T.merged ps (k :: r) = T.merged qs (k :: r) := by
  rw [merged, merged, h]

/-- Nothing is below files. -/
theorem merged_eq_none (h : ∀ x ∈ ps, T.isDir x.1 = false) (hr : r ≠ []) : T.merged ps r = none := by
  obtain ⟨k, s, rfl⟩ := List.exists_cons_of_ne_nil hr
  rw [merged, providers_eq_nil h]
  split_ifs with hs hlength
  · rfl
  · rw [List.length_nil] at hlength
    omega
  · rfl

/-- Following the links leads to the best of the files at a path. -/
theorem follow_merged {entry : List κ → Option (MergedEntry ν ρ)} {l : List κ} (h : T.Compatible ps)
    (hentry : ∀ r, r ≠ [] → entry (l ++ r) = T.merged ps r) (hr : r ≠ [])
    (hbest : best (T.providers ps r) = some y) (hfile : T.isDir y.1 = false) :
    ∃ x r', follow entry l r = some (x, r') ∧ T.walk x r' = some y.1 := by
  induction r generalizing ps l with
  | nil => exact absurd rfl hr
  | cons k r ih =>
    have hhead := hentry [k] (List.cons_ne_nil k [])
    rw [merged_singleton] at hhead
    rw [follow, hhead]
    by_cases hlast : r = []
    · subst hlast
      have hfiles : ∀ x ∈ T.providers ps [k], T.isDir x.1 = false := fun x hx =>
        (h [k] x hx y (mem_of_best hbest)).trans hfile
      rw [entryOf_of_files hfiles hbest]
      exact ⟨y.1, [], rfl, rfl⟩
    · have hne : T.providers (T.providers ps [k]) r ≠ [] := by
        intro hnil
        rw [providers_cons, hnil] at hbest
        cases hbest
      rw [providers_cons] at hbest
      obtain ⟨c, r', rfl⟩ := List.exists_cons_of_ne_nil hlast
      have hdirs : ∀ x ∈ T.providers ps [k], T.isDir x.1 = true := fun x hx =>
        isDir_of_providers_cons (h.sub k) hne hx
      obtain ⟨q, hq⟩ : ∃ q, q ∈ T.providers ps [k] := by
        refine List.exists_mem_of_ne_nil _ fun hnil => hne ?_
        rw [hnil]
        rfl
      by_cases hlength : 2 ≤ (T.providers ps [k]).length
      · -- a directory in which the entries are merged
        rw [entryOf_of_isDir hq (hdirs q hq) hlength]
        refine ih (h.sub k) (fun s hs => ?_) hlast hbest
        rw [List.append_assoc, List.singleton_append, hentry _ (List.cons_ne_nil k s), merged,
          if_neg hs, if_pos hlength]
      · -- a link to the directory of the only tree that has it
        have hone : T.providers ps [k] = [q] := by
          cases hproviders : T.providers ps [k] with
          | nil =>
            rw [hproviders] at hq
            exact absurd hq List.not_mem_nil
          | cons p qs =>
            rw [hproviders] at hlength hq
            have hnil : qs = [] := by
              rw [List.length_cons] at hlength
              exact List.length_eq_zero_iff.mp (by omega)
            rw [hnil] at hq ⊢
            rw [List.mem_singleton.mp hq]
        rw [hone, entryOf_singleton]
        rw [hone] at hbest
        have hmem := mem_of_best hbest
        obtain ⟨p, hp, hwalk, -⟩ := mem_providers.mp hmem
        rw [List.mem_singleton.mp hp] at hwalk
        exact ⟨q.1, c :: r', rfl, hwalk⟩

/-- What links lead to are the files of trees. -/
theorem mem_of_follow {entry : List κ → Option (MergedEntry ν ρ)} {l r' : List κ} {c : ν}
    (hentry : ∀ r, r ≠ [] → entry (l ++ r) = T.merged ps r) (hfollow : follow entry l r = some (c, r')) :
    ∃ s rank, r = s ++ r' ∧ (c, rank) ∈ T.providers ps s := by
  induction r generalizing ps l with
  | nil => cases hfollow
  | cons k r ih =>
    have hhead := hentry [k] (List.cons_ne_nil k [])
    rw [merged, if_pos rfl] at hhead
    rw [follow, hhead, entryOf] at hfollow
    split_ifs at hfollow with hdirs
    · have hbelow : ∀ s, s ≠ [] → entry (l ++ [k] ++ s) = T.merged (T.providers ps [k]) s := by
        intro s hs
        rw [List.append_assoc, List.singleton_append, hentry _ (List.cons_ne_nil k s), merged,
          if_neg hs, if_pos hdirs.2]
      obtain ⟨s, rank, rfl, hmem⟩ := ih hbelow hfollow
      refine ⟨k :: s, rank, rfl, ?_⟩
      rw [providers_cons]
      exact hmem
    · cases hbest : best (T.providers ps [k]) with
      | none =>
        rw [hbest] at hfollow
        cases hfollow
      | some b =>
        rw [hbest] at hfollow
        cases hfollow
        exact ⟨[k], b.2, rfl, mem_of_best hbest⟩

end

end TreeView

end Nix
