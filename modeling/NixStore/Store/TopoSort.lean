import NixStore.Derivations.Basic

/-!
# Topological sorting of store paths

Model of `dfsVisit` and `topoSortPaths` (`misc.cc`).  The search runs over the members of a set of
paths along their references; it throws when it meets a path that it is just visiting.

`topoSortPaths_isOk_iff` is the specification: the sort succeeds exactly when the references inside
the set have no cycle apart from self-references, and then every path comes before the members of
the set that it refers to.
-/

namespace Nix

/-- The state of the search: visited paths, sorted paths, and the paths that are being visited. -/
structure DfsState where
  visited : SortedSet Path
  sorted : List Path
  parents : SortedSet Path

/-- Model of `dfsVisit`.  `references` stands for `queryReferences` on valid paths and is empty on
others.  The first argument bounds the depth of the recursion. -/
def dfsVisit (references : Path → SortedSet Path) (paths : SortedSet Path) :
    ℕ → DfsState → Path → Outcome Str DfsState
  | 0, _, _ => .diverge
  | n + 1, st, path =>
    if path ∈ st.parents then
      .error (str "cycle detected in the references of `" ++ path ++ str "'")
    else if path ∈ st.visited then .ok st
    else do
      let st' ← (references path).toList.foldlM
        (fun st i => if i ≠ path ∧ i ∈ paths then dfsVisit references paths n st i else .ok st)
        { st with visited := st.visited.insert path, parents := SortedSet.insert st.parents path }
      return { st' with sorted := path :: st'.sorted, parents := SortedSet.erase st'.parents path }

/-- Model of `topoSortPaths`.  The recursion visits a new member of the set at every level. -/
def topoSortPaths (references : Path → SortedSet Path) (paths : SortedSet Path) :
    Outcome Str (List Path) := do
  let st ← paths.toList.foldlM (dfsVisit references paths (paths.toList.length + 1)) ⟨∅, [], ∅⟩
  return st.sorted

section Correctness

variable {references : Path → SortedSet Path} {paths : SortedSet Path}

/-- The references that the search follows. -/
def FollowedRef (references : Path → SortedSet Path) (paths : SortedSet Path) (u v : Path) : Prop :=
  v ∈ references u ∧ v ≠ u ∧ v ∈ paths

/-- Every path of the list comes before the paths that it refers to. -/
def ReferencesFollow (references : Path → SortedSet Path) (paths : SortedSet Path) :
    List Path → Prop
  | [] => True
  | u :: l => (∀ v, FollowedRef references paths u v → v ∈ l) ∧ ReferencesFollow references paths l

/-- The state of the search between two visits. -/
structure DfsState.Invariant (references : Path → SortedSet Path) (paths : SortedSet Path)
    (st : DfsState) : Prop where
  /-- A visited path is finished or being visited. -/
  mem_visited : ∀ x, x ∈ st.visited ↔ x ∈ st.sorted ∨ x ∈ st.parents
  /-- No finished path is being visited. -/
  disjoint : ∀ x ∈ st.sorted, x ∉ st.parents
  /-- The search stays inside the set. -/
  subset : ∀ x ∈ st.visited, x ∈ paths
  nodup : st.sorted.Nodup
  follow : ReferencesFollow references paths st.sorted

/-- What a visit that returns does to the state: it finishes paths, and leaves the paths being
visited as they are. -/
structure DfsState.Extends (st st' : DfsState) : Prop where
  parents : ∀ x, x ∈ st'.parents ↔ x ∈ st.parents
  sorted : ∀ x ∈ st.sorted, x ∈ st'.sorted

/-- A state extends itself. -/
theorem DfsState.Extends.refl (st : DfsState) : st.Extends st := ⟨fun _ => Iff.rfl, fun _ => id⟩

/-- Extensions follow each other. -/
theorem DfsState.Extends.trans {a b c : DfsState} (h : a.Extends b) (h' : b.Extends c) :
    a.Extends c :=
  ⟨fun x => (h'.parents x).trans (h.parents x), fun x hx => h'.sorted x (h.sorted x hx)⟩

/-- A loop keeps the invariant if its body does, and what one round finishes stays finished. -/
theorem foldlM_spec {f : DfsState → Path → Outcome Str DfsState} {p : Path → Prop} (l : List Path)
    (hf : ∀ st st' i, i ∈ l → st.Invariant references paths → f st i = .ok st' →
      st'.Invariant references paths ∧ st.Extends st' ∧ (p i → i ∈ st'.sorted)) :
    ∀ st st', st.Invariant references paths → l.foldlM f st = .ok st' →
      st'.Invariant references paths ∧ st.Extends st' ∧ ∀ i ∈ l, p i → i ∈ st'.sorted := by
  induction l with
  | nil =>
    intro st st' hinv h
    obtain rfl : st = st' := by simpa using h
    exact ⟨hinv, .refl _, by simp⟩
  | cons i l ih =>
    intro st st' hinv h
    rw [List.foldlM_cons, Outcome.bind_eq_ok] at h
    obtain ⟨st₁, h₁, h₂⟩ := h
    obtain ⟨hinv₁, hext₁, hmem₁⟩ := hf st st₁ i List.mem_cons_self hinv h₁
    obtain ⟨hinv', hext', hmem'⟩ :=
      ih (fun st st' j hj => hf st st' j (List.mem_cons_of_mem _ hj)) st₁ st' hinv₁ h₂
    refine ⟨hinv', hext₁.trans hext', fun j hj hpj => ?_⟩
    rcases List.mem_cons.mp hj with rfl | hj
    · exact hext'.sorted _ (hmem₁ hpj)
    · exact hmem' j hj hpj

/-- Entering a path that was not visited keeps the invariant. -/
theorem DfsState.Invariant.visit {st : DfsState} (hinv : st.Invariant references paths)
    {path : Path} (hpath : path ∈ paths) (hvis : path ∉ st.visited) :
    DfsState.Invariant references paths { st with
      visited := st.visited.insert path, parents := SortedSet.insert st.parents path } where
  mem_visited x := by
    simp only [SortedSet.mem_insert, hinv.mem_visited x]; tauto
  disjoint x hx := by
    rw [SortedSet.mem_insert, not_or]
    exact ⟨fun hxp => hvis ((hinv.mem_visited path).mpr (Or.inl (hxp ▸ hx))), hinv.disjoint x hx⟩
  subset x hx := by
    rcases SortedSet.mem_insert.mp hx with rfl | hx
    · exact hpath
    · exact hinv.subset x hx
  nodup := hinv.nodup
  follow := hinv.follow

/-- A visit that returns finishes its path. -/
theorem dfsVisit_spec (n : ℕ) : ∀ st st' path, path ∈ paths → st.Invariant references paths →
    dfsVisit references paths n st path = .ok st' →
    st'.Invariant references paths ∧ st.Extends st' ∧ path ∈ st'.sorted := by
  induction n with
  | zero => intro st st' path _ _ h; simp [dfsVisit] at h
  | succ n ih =>
    intro st st' path hpath hinv h
    rw [dfsVisit] at h
    split_ifs at h with hpar hvis
    · obtain rfl : st = st' := by simpa using h
      exact ⟨hinv, .refl _, ((hinv.mem_visited path).mp hvis).resolve_right hpar⟩
    · obtain ⟨st₁, h₁, h₂⟩ := Outcome.bind_eq_ok.mp h
      have hround : ∀ st st' i, i ∈ (references path).toList → st.Invariant references paths →
          (if i ≠ path ∧ i ∈ paths then dfsVisit references paths n st i else .ok st) = .ok st' →
          st'.Invariant references paths ∧ st.Extends st' ∧
            (i ≠ path ∧ i ∈ paths → i ∈ st'.sorted) := by
        intro st st' i _ hinv h
        split_ifs at h with hi
        · obtain ⟨ha, hb, hc⟩ := ih st st' i hi.2 hinv h
          exact ⟨ha, hb, fun _ => hc⟩
        · obtain rfl : st = st' := by simpa using h
          exact ⟨hinv, .refl _, fun h => absurd h hi⟩
      obtain ⟨hinv₁, hext₁, hmem₁⟩ := foldlM_spec _ hround _ _ (hinv.visit hpath hvis) h₁
      obtain rfl : { st₁ with sorted := path :: st₁.sorted, parents := SortedSet.erase st₁.parents path } =
        st' := by simpa using h₂
      have hpar₁ : ∀ x, x ∈ st₁.parents ↔ x = path ∨ x ∈ st.parents := fun x => by
        rw [hext₁.parents, SortedSet.mem_insert]
      have herase : ∀ x, x ∈ SortedSet.erase st₁.parents path ↔ x ∈ st.parents := fun x => by
        rw [SortedSet.mem_erase, hpar₁ x]
        by_cases hx : x = path
        · simp [hx, hpar]
        · simp [hx]
      refine ⟨?_, ⟨herase, fun x hx => List.mem_cons_of_mem _ (hext₁.sorted x hx)⟩,
        List.mem_cons_self⟩
      exact
        { mem_visited := fun x => by
            rw [hinv₁.mem_visited x, hpar₁ x, herase x, List.mem_cons]; tauto
          disjoint := fun x hx => by
            rw [herase x]
            rcases List.mem_cons.mp hx with rfl | hx
            · exact hpar
            · exact fun hp => hinv₁.disjoint x hx ((hpar₁ x).mpr (Or.inr hp))
          subset := hinv₁.subset
          nodup := List.nodup_cons.mpr
            ⟨fun hs => hinv₁.disjoint path hs ((hpar₁ path).mpr (Or.inl rfl)), hinv₁.nodup⟩
          follow := ⟨fun v hv => hmem₁ v hv.1 ⟨hv.2.1, hv.2.2⟩, hinv₁.follow⟩ }

/-! ### A sorted set has no cycle -/

/-- The references of a path come behind it, all of them. -/
theorem ReferencesFollow.mem_of_transGen {l : List Path}
    (h : ReferencesFollow references paths l) {u v : Path} (hu : u ∈ l)
    (huv : Relation.TransGen (FollowedRef references paths) u v) : v ∈ l := by
  have hstep : ∀ l, ReferencesFollow references paths l → ∀ u v, u ∈ l →
      FollowedRef references paths u v → v ∈ l := by
    intro l
    induction l with
    | nil => simp
    | cons a l ih =>
      intro h u v hu huv
      rcases List.mem_cons.mp hu with rfl | hu
      · exact List.mem_cons_of_mem _ (h.1 v huv)
      · exact List.mem_cons_of_mem _ (ih h.2 u v hu huv)
  induction huv with
  | single huv => exact hstep l h _ _ hu huv
  | tail _ huv ih => exact hstep l h _ _ ih huv

/-- A path of the list cannot be reached from itself: its references are further down. -/
theorem ReferencesFollow.acyclic {l : List Path} (h : ReferencesFollow references paths l)
    (hnd : l.Nodup) {u : Path} (hu : u ∈ l) :
    ¬ Relation.TransGen (FollowedRef references paths) u u := by
  induction l with
  | nil => simp at hu
  | cons a l ih =>
    intro hcycle
    rw [List.nodup_cons] at hnd
    rcases List.mem_cons.mp hu with rfl | hu
    · obtain ⟨v, huv, hvu⟩ := Relation.TransGen.head'_iff.mp hcycle
      have hv : v ∈ l := h.1 v huv
      rcases Relation.reflTransGen_iff_eq_or_transGen.mp hvu with rfl | hvu
      · exact hnd.1 hv
      · exact hnd.1 (h.2.mem_of_transGen hv hvu)
    · exact ih h.2 hnd.2 hu hcycle

/-- What refers to a path of the list comes before it. -/
theorem ReferencesFollow.mem_before {done rest : List Path} {i : Path} :
    ReferencesFollow references paths (done ++ i :: rest) → (done ++ i :: rest).Nodup →
      ∀ u ∈ done ++ i :: rest, FollowedRef references paths u i → u ∈ done := by
  induction done with
  | nil =>
    intro h hnd u hu hui
    rcases List.mem_cons.mp hu with rfl | hu
    · exact absurd rfl hui.2.1
    · have hi : i ∈ rest := h.2.mem_of_transGen hu (.single hui)
      exact absurd hi (List.nodup_cons.mp hnd).1
  | cons a done ih =>
    intro h hnd u hu hui
    rcases List.mem_cons.mp hu with rfl | hu
    · exact List.mem_cons_self
    · exact List.mem_cons_of_mem _ (ih h.2 (List.nodup_cons.mp hnd).2 u hu hui)

/-- A path of the list comes before what it leads to. -/
theorem ReferencesFollow.sublist {l : List Path} (h : ReferencesFollow references paths l) {u v : Path}
    (hu : u ∈ l) (huv : Relation.TransGen (FollowedRef references paths) u v) : [u, v].Sublist l := by
  induction l with
  | nil => simp at hu
  | cons a l ih =>
    rcases List.mem_cons.mp hu with rfl | hu
    · obtain ⟨w, huw, hwv⟩ := Relation.TransGen.head'_iff.mp huv
      have hw : w ∈ l := h.1 w huw
      have hv : v ∈ l := by
        rcases Relation.reflTransGen_iff_eq_or_transGen.mp hwv with rfl | hwv
        · exact hw
        · exact h.2.mem_of_transGen hw hwv
      exact (List.singleton_sublist.mpr hv).cons_cons _
    · exact (ih h.2 hu).cons _

/-! ### A set without a cycle is sorted -/

/-- The members of the set that have not been visited. -/
def unvisited (paths : SortedSet Path) (st : DfsState) : Finset Path :=
  paths.toList.toFinset.filter (· ∉ st.visited)

/-- In an extended state fewer paths are left. -/
theorem unvisited_subset_of_extends {st st' : DfsState} (hinv : st.Invariant references paths)
    (hinv' : st'.Invariant references paths) (hext : st.Extends st') :
    unvisited paths st' ⊆ unvisited paths st := by
  intro x hx
  simp only [unvisited, Finset.mem_filter] at hx ⊢
  refine ⟨hx.1, fun hv => hx.2 ?_⟩
  rw [hinv'.mem_visited, hext.parents]
  exact ((hinv.mem_visited x).mp hv).imp_left (hext.sorted x)

/-- A visit lowers the number of paths left. -/
theorem card_unvisited_insert_lt {st : DfsState} {path : Path} (hpath : path ∈ paths)
    (hvis : path ∉ st.visited) (parents : SortedSet Path) :
    (unvisited paths { st with visited := st.visited.insert path, parents := parents }).card <
      (unvisited paths st).card := by
  refine Finset.card_lt_card ⟨fun x hx => ?_, fun hsub => ?_⟩
  · simp only [unvisited, Finset.mem_filter, SortedSet.mem_insert, not_or] at hx ⊢
    exact ⟨hx.1, hx.2.2⟩
  · have hmem : path ∈ unvisited paths st := by simpa [unvisited, hvis] using hpath
    simpa [unvisited] using hsub hmem

/-- Without cycles every visit returns: `n` bounds the unvisited paths, and the path is reachable
from all the paths that are being visited. -/
theorem dfsVisit_isOk (hac : ∀ x, ¬ Relation.TransGen (FollowedRef references paths) x x) (n : ℕ) :
    ∀ st path, st.Invariant references paths → path ∈ paths →
    (∀ p ∈ st.parents, Relation.TransGen (FollowedRef references paths) p path) →
    (unvisited paths st).card < n → ∃ st', dfsVisit references paths n st path = .ok st' := by
  induction n with
  | zero => intro st path _ _ _ h; exact absurd h (Nat.not_lt_zero _)
  | succ n ih =>
    intro st path hinv hpath hpar hcard
    rw [dfsVisit]
    split_ifs with h₁ h₂
    · exact absurd (hpar path h₁) (hac path)
    · exact ⟨st, rfl⟩
    · have hloop : ∀ (l : List Path) (st₁ : DfsState), st₁.Invariant references paths →
          (∀ i ∈ l, i ∈ references path) →
          (∀ x, x ∈ st₁.parents ↔ x = path ∨ x ∈ st.parents) → (unvisited paths st₁).card < n →
          ∃ st₂, l.foldlM (fun st i => if i ≠ path ∧ i ∈ paths then
            dfsVisit references paths n st i else .ok st) st₁ = .ok st₂ := by
        intro l
        induction l with
        | nil => exact fun st₁ _ _ _ _ => ⟨st₁, rfl⟩
        | cons i l ihl =>
          intro st₁ hinv₁ hl hpar₁ hcard₁
          rw [List.foldlM_cons]
          have htail : ∀ i ∈ l, i ∈ references path := fun j hj => hl j (List.mem_cons_of_mem _ hj)
          by_cases hi : i ≠ path ∧ i ∈ paths
          · have hedge : FollowedRef references paths path i :=
              ⟨hl i List.mem_cons_self, hi.1, hi.2⟩
            have hreach : ∀ p ∈ st₁.parents,
                Relation.TransGen (FollowedRef references paths) p i := by
              intro p hp
              rcases (hpar₁ p).mp hp with rfl | hp
              · exact .single hedge
              · exact (hpar p hp).tail hedge
            obtain ⟨st₂, h₂⟩ := ih st₁ i hinv₁ hi.2 hreach hcard₁
            obtain ⟨hinv₂, hext₂, -⟩ := dfsVisit_spec n st₁ st₂ i hi.2 hinv₁ h₂
            rw [if_pos hi, h₂, Outcome.ok_bind]
            refine ihl st₂ hinv₂ htail (fun x => (hext₂.parents x).trans (hpar₁ x)) ?_
            exact (Finset.card_le_card
              (unvisited_subset_of_extends hinv₁ hinv₂ hext₂)).trans_lt hcard₁
          · rw [if_neg hi, Outcome.ok_bind]
            exact ihl st₁ hinv₁ htail hpar₁ hcard₁
      have hcard₀ := card_unvisited_insert_lt hpath h₂ (SortedSet.insert st.parents path)
      obtain ⟨st₂, h₂⟩ := hloop (references path).toList _ (hinv.visit hpath h₂) (fun _ => id)
        (fun x => by simp) (by omega)
      exact ⟨_, by rw [h₂, Outcome.ok_bind]; rfl⟩

/-- A visit returns or throws: every nested visit is of another unvisited path. -/
theorem dfsVisit_ne_diverge (n : ℕ) : ∀ st path, path ∈ paths → st.Invariant references paths →
    (unvisited paths st).card < n → dfsVisit references paths n st path ≠ .diverge := by
  induction n with
  | zero => exact fun _ _ _ _ h => absurd h (Nat.not_lt_zero _)
  | succ n ih =>
    intro st path hpath hinv hcard
    rw [dfsVisit]
    split_ifs with hpar hvis
    · simp
    · simp
    · have hcard₀ := card_unvisited_insert_lt hpath hvis (SortedSet.insert st.parents path)
      rw [ne_eq, Outcome.bind_eq_diverge, not_or]
      refine ⟨Outcome.foldlM_ne_diverge (P := fun st₁ => st₁.Invariant references paths ∧
        (unvisited paths st₁).card < n) (fun st₁ i _ hst₁ => ?_) ⟨hinv.visit hpath hvis, ?_⟩, by simp⟩
      on_goal 2 => omega
      obtain ⟨hinv₁, hcard₁⟩ := hst₁
      split_ifs with hi
      · refine ⟨ih st₁ i hi.2 hinv₁ hcard₁, fun st₂ h₂ => ?_⟩
        obtain ⟨hinv₂, hext₂, -⟩ := dfsVisit_spec n st₁ st₂ i hi.2 hinv₁ h₂
        exact ⟨hinv₂, (Finset.card_le_card
          (unvisited_subset_of_extends hinv₁ hinv₂ hext₂)).trans_lt hcard₁⟩
      · refine ⟨by simp, fun st₂ h₂ => ?_⟩
        cases h₂
        exact ⟨hinv₁, hcard₁⟩

/-! ### Specification -/

/-- The invariant holds at the start. -/
theorem invariant_init : DfsState.Invariant references paths ⟨∅, [], ∅⟩ where
  mem_visited x := by simp
  disjoint x hx := by simp at hx
  subset x hx := by simp at hx
  nodup := List.nodup_nil
  follow := trivial

/-- The result lists the members of the set, each before the members that it refers to. -/
theorem topoSortPaths_spec {l : List Path} (h : topoSortPaths references paths = .ok l) :
    (∀ x, x ∈ l ↔ x ∈ paths) ∧ l.Nodup ∧ ReferencesFollow references paths l := by
  obtain ⟨st, hst, hl⟩ := Outcome.bind_eq_ok.mp h
  obtain rfl : st.sorted = l := by simpa using hl
  obtain ⟨hinv, hext, hmem⟩ := foldlM_spec (p := fun _ => True) _
    (fun st st' i hi hinv h =>
      have hv := dfsVisit_spec _ st st' i hi hinv h
      ⟨hv.1, hv.2.1, fun _ => hv.2.2⟩) _ _ invariant_init hst
  refine ⟨fun x => ⟨fun hx => ?_, fun hx => hmem x hx trivial⟩, hinv.nodup, hinv.follow⟩
  exact hinv.subset x ((hinv.mem_visited x).mpr (Or.inl hx))

/-- The sort returns or throws. -/
theorem topoSortPaths_ne_diverge : topoSortPaths references paths ≠ .diverge := by
  rw [topoSortPaths, ne_eq, Outcome.bind_eq_diverge, not_or]
  refine ⟨Outcome.foldlM_ne_diverge (fun st i hi hinv => ⟨?_, fun st' h => ?_⟩)
    (invariant_init : DfsState.Invariant references paths _), by simp⟩
  · have hcard : (unvisited paths st).card < paths.toList.length + 1 :=
      Nat.lt_succ_of_le ((Finset.card_filter_le _ _).trans (List.toFinset_card_le _))
    exact dfsVisit_ne_diverge _ st i hi hinv hcard
  · exact (dfsVisit_spec _ st st' i hi hinv h).1

/-- The sort succeeds exactly when the references inside the set have no cycle apart from
self-references. -/
theorem topoSortPaths_isOk_iff :
    (∃ l, topoSortPaths references paths = .ok l) ↔
      ∀ x ∈ paths, ¬ Relation.TransGen (FollowedRef references paths) x x := by
  constructor
  · rintro ⟨l, hl⟩ x hx
    obtain ⟨hmem, hnd, hfol⟩ := topoSortPaths_spec hl
    exact hfol.acyclic hnd ((hmem x).mpr hx)
  · intro hac
    have hac' : ∀ x, ¬ Relation.TransGen (FollowedRef references paths) x x := fun x hx => by
      obtain ⟨y, -, hyx⟩ := Relation.TransGen.tail'_iff.mp hx
      exact hac x hyx.2.2 hx
    have hloop : ∀ (l : List Path) (st : DfsState), (∀ i ∈ l, i ∈ paths) →
        st.Invariant references paths → (∀ x, x ∉ st.parents) →
        ∃ st', l.foldlM (dfsVisit references paths (paths.toList.length + 1)) st = .ok st' := by
      intro l
      induction l with
      | nil => exact fun st _ _ _ => ⟨st, rfl⟩
      | cons i l ih =>
        intro st hl hinv hpar
        have hcard : (unvisited paths st).card < paths.toList.length + 1 :=
          Nat.lt_succ_of_le ((Finset.card_filter_le _ _).trans (List.toFinset_card_le _))
        obtain ⟨st₁, h₁⟩ := dfsVisit_isOk hac' _ st i hinv (hl i List.mem_cons_self)
          (fun p hp => absurd hp (hpar p)) hcard
        obtain ⟨hinv₁, hext₁, -⟩ := dfsVisit_spec _ st st₁ i (hl i List.mem_cons_self) hinv h₁
        rw [List.foldlM_cons, h₁, Outcome.ok_bind]
        exact ih st₁ (fun j hj => hl j (List.mem_cons_of_mem _ hj)) hinv₁
          fun x hx => hpar x ((hext₁.parents x).mp hx)
    obtain ⟨st, hst⟩ := hloop paths.toList ⟨∅, [], ∅⟩ (fun _ => id) invariant_init (by simp)
    exact ⟨st.sorted, by rw [topoSortPaths, hst]; rfl⟩

end Correctness

end Nix
