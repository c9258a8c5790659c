import NixStore.Store.StorePaths

/-!
# Closures under the references relation

Model of `computeFSClosure` of `misc.cc`.  The recursion is bounded by an argument, and a call that
needs a deeper one does not return.
-/

namespace Nix

/-- The queries that `computeFSClosure` makes. -/
structure ClosureStore where
  queryReferences : Path → Outcome Str PathSet
  queryReferrers : Path → Outcome Str PathSet
  queryDerivationOutputs : Path → Outcome Str PathSet
  isValidPath : Path → Bool

/-- Model of `computeFSClosure`. -/
def computeFSClosure (store : ClosureStore) (flipDirection includeOutputs : Bool) :
    ℕ → Path → PathSet → Outcome Str PathSet
  | 0, _, _ => .diverge
  | fuel + 1, storePath, paths =>
    if storePath ∈ paths then .ok paths
    else do
      let paths := paths.insert storePath
      let references ←
        if flipDirection then store.queryReferrers storePath else store.queryReferences storePath
      let paths ←
        if includeOutputs && isDerivation storePath then do
          let outputs ← store.queryDerivationOutputs storePath
          (outputs.toList.filter store.isValidPath).foldlM
            (fun paths i => computeFSClosure store flipDirection true fuel i paths) paths
        else pure paths
      references.toList.foldlM
        (fun paths i => computeFSClosure store flipDirection includeOutputs fuel i paths) paths

section

variable {store : ClosureStore} {flipDirection includeOutputs : Bool}

namespace ClosureStore

/-- The query for the references in the direction of the closure. -/
def queryDirection (store : ClosureStore) (flipDirection : Bool) (p : Path) : Outcome Str PathSet :=
  if flipDirection then store.queryReferrers p else store.queryReferences p

/-- An edge that the closure follows: a reference in its direction, or a valid output of a
derivation. -/
inductive Edge (store : ClosureStore) (flipDirection includeOutputs : Bool) (u v : Path) : Prop
  | reference {references : PathSet} : store.queryDirection flipDirection u = .ok references →
      v ∈ references → Edge store flipDirection includeOutputs u v
  | output {outputs : PathSet} : includeOutputs = true → isDerivation u = true →
      store.queryDerivationOutputs u = .ok outputs → v ∈ outputs → store.isValidPath v = true →
      Edge store flipDirection includeOutputs u v

/-- What a search does that has been started at some paths and has returned: the new paths are
reachable, and what they lead to is there. -/
structure Explores (store : ClosureStore) (flipDirection includeOutputs : Bool) (starts : List Path)
    (paths paths' : PathSet) : Prop where
  found : ∀ p ∈ starts, p ∈ paths'
  keeps : ∀ q ∈ paths, q ∈ paths'
  closed : ∀ q ∈ paths', q ∉ paths →
    ∀ r, store.Edge flipDirection includeOutputs q r → r ∈ paths'
  reached : ∀ q ∈ paths', q ∈ paths ∨
    ∃ p ∈ starts, Relation.ReflTransGen (store.Edge flipDirection includeOutputs) p q
  queried : ∀ q ∈ paths', q ∉ paths → ∃ refs, store.queryDirection flipDirection q = .ok refs

namespace Explores

variable {starts starts' : List Path} {p : Path} {paths paths' paths'' : PathSet}

/-- A search that finds its start among the paths. -/
theorem of_mem (h : ∀ p ∈ starts, p ∈ paths) :
    store.Explores flipDirection includeOutputs starts paths paths where
  found := h
  keeps _ := id
  closed _ hq hnew := absurd hq hnew
  reached _ hq := Or.inl hq
  queried _ hq hnew := absurd hq hnew

/-- One search after the other. -/
theorem append (h : store.Explores flipDirection includeOutputs starts paths paths')
    (h' : store.Explores flipDirection includeOutputs starts' paths' paths'') :
    store.Explores flipDirection includeOutputs (starts ++ starts') paths paths'' where
  found p hp := by
    rcases List.mem_append.mp hp with hp | hp
    · exact h'.keeps p (h.found p hp)
    · exact h'.found p hp
  keeps q hq := h'.keeps q (h.keeps q hq)
  closed q hq hnew r hr := by
    by_cases hmem : q ∈ paths'
    · exact h'.keeps r (h.closed q hmem hnew r hr)
    · exact h'.closed q hq hmem r hr
  reached q hq := by
    rcases h'.reached q hq with hq | ⟨p, hp, hpq⟩
    · rcases h.reached q hq with hq | ⟨p, hp, hpq⟩
      · exact Or.inl hq
      · exact Or.inr ⟨p, List.mem_append_left _ hp, hpq⟩
    · exact Or.inr ⟨p, List.mem_append_right _ hp, hpq⟩
  queried q hq hnew := by
    by_cases hmem : q ∈ paths'
    · exact h.queried q hmem hnew
    · exact h'.queried q hq hmem

/-- A search at a new path goes on at all that the path leads to. -/
theorem node (hquery : ∃ refs, store.queryDirection flipDirection p = .ok refs)
    (hstarts : ∀ q, q ∈ starts ↔ store.Edge flipDirection includeOutputs p q)
    (h : store.Explores flipDirection includeOutputs starts (paths.insert p) paths') :
    store.Explores flipDirection includeOutputs [p] paths paths' where
  found q hq := by
    rw [List.mem_singleton.mp hq]
    exact h.keeps p (SortedSet.mem_insert.mpr (Or.inl rfl))
  keeps q hq := h.keeps q (SortedSet.mem_insert.mpr (Or.inr hq))
  closed q hq hnew r hr := by
    by_cases hqp : q = p
    · subst hqp
      exact h.found r ((hstarts r).mpr hr)
    · exact h.closed q hq (by simp [hqp, hnew]) r hr
  reached q hq := by
    rcases h.reached q hq with hq | ⟨s, hs, hsq⟩
    · rcases SortedSet.mem_insert.mp hq with rfl | hq
      · exact Or.inr ⟨q, List.mem_singleton_self q, .refl⟩
      · exact Or.inl hq
    · exact Or.inr ⟨p, List.mem_singleton_self p, .head ((hstarts s).mp hs) hsq⟩
  queried q hq hnew := by
    by_cases hqp : q = p
    · exact hqp ▸ hquery
    · exact h.queried q hq (by simp [hqp, hnew])

/-- A loop of searches. -/
theorem foldlM {f : PathSet → Path → Outcome Str PathSet}
    (hf : ∀ p s s', f s p = .ok s' → store.Explores flipDirection includeOutputs [p] s s')
    (l : List Path) {s s' : PathSet} (h : l.foldlM f s = .ok s') :
    store.Explores flipDirection includeOutputs l s s' := by
  induction l generalizing s with
  | nil =>
    cases h
    exact of_mem (by simp)
  | cons p l ih =>
    rw [List.foldlM_cons] at h
    obtain ⟨s₁, hs₁, h⟩ := Outcome.bind_eq_ok.mp h
    exact (hf p s s₁ hs₁).append (ih h)

/-- A search in a set that was closed finds exactly what is reachable. -/
theorem mem_iff (h : store.Explores flipDirection includeOutputs [p] paths paths')
    (hclosed : ∀ q ∈ paths, ∀ r, store.Edge flipDirection includeOutputs q r → r ∈ paths) {q : Path} :
    q ∈ paths' ↔
      q ∈ paths ∨ Relation.ReflTransGen (store.Edge flipDirection includeOutputs) p q := by
  constructor
  · intro hq
    simpa using h.reached q hq
  · rintro (hq | hq)
    · exact h.keeps q hq
    · induction hq with
      | refl => exact h.found p (List.mem_singleton_self p)
      | @tail u v _ hstep ih =>
        by_cases hmem : u ∈ paths
        · exact h.keeps v (hclosed u hmem v hstep)
        · exact h.closed u ih hmem v hstep

end Explores

end ClosureStore

/-- The outputs at which the closure goes on, and what it goes on with. -/
def followOutputs (store : ClosureStore) (includeOutputs : Bool)
    (follow : PathSet → Path → Outcome Str PathSet) (p : Path) (paths : PathSet) :
    Outcome Str PathSet :=
  if includeOutputs && isDerivation p then do
    let outputs ← store.queryDerivationOutputs p
    (outputs.toList.filter store.isValidPath).foldlM follow paths
  else .ok paths

/-- One step of the closure. -/
theorem computeFSClosure_succ (fuel : ℕ) (p : Path) (paths : PathSet) :
    computeFSClosure store flipDirection includeOutputs (fuel + 1) p paths =
      if p ∈ paths then .ok paths
      else store.queryDirection flipDirection p >>= fun references =>
        followOutputs store includeOutputs
            (fun paths i => computeFSClosure store flipDirection true fuel i paths) p
            (paths.insert p) >>= fun paths =>
          references.toList.foldlM (fun paths i =>
            computeFSClosure store flipDirection includeOutputs fuel i paths) paths := by
  rw [computeFSClosure, ClosureStore.queryDirection, followOutputs]
  cases flipDirection <;> split_ifs <;> simp [*, Outcome.bind_assoc]

/-- A call that returns has explored the graph from its start. -/
theorem explores_computeFSClosure (fuel : ℕ) : ∀ {p : Path} {paths paths' : PathSet},
    computeFSClosure store flipDirection includeOutputs fuel p paths = .ok paths' →
      store.Explores flipDirection includeOutputs [p] paths paths' := by
  induction fuel with
  | zero => intro p paths paths' h; cases h
  | succ fuel ih =>
    intro p paths paths' h
    rw [computeFSClosure_succ] at h
    by_cases hp : p ∈ paths
    · rw [if_pos hp] at h
      cases h
      exact .of_mem (by simpa using hp)
    · rw [if_neg hp] at h
      obtain ⟨refs, hrefs, h⟩ := Outcome.bind_eq_ok.mp h
      obtain ⟨paths₁, hpaths₁, h⟩ := Outcome.bind_eq_ok.mp h
      have hrest := ClosureStore.Explores.foldlM (fun _ _ _ => ih) _ h
      rw [followOutputs] at hpaths₁
      split_ifs at hpaths₁ with hincl
      · obtain ⟨outputs, houtputs, hpaths₁⟩ := Outcome.bind_eq_ok.mp hpaths₁
        obtain ⟨rfl, hdrv⟩ : includeOutputs = true ∧ isDerivation p = true := by simpa using hincl
        have hfirst := ClosureStore.Explores.foldlM (fun _ _ _ => ih) _ hpaths₁
        refine (hfirst.append hrest).node ⟨refs, hrefs⟩ fun q => ?_
        rw [List.mem_append, List.mem_filter, SortedSet.mem_toList, SortedSet.mem_toList]
        constructor
        · rintro (⟨hq, hvalid⟩ | hq)
          · exact .output rfl hdrv houtputs hq hvalid
          · exact .reference hrefs hq
        · rintro (⟨hq, hmem⟩ | ⟨-, -, hq, hmem, hvalid⟩)
          · cases hrefs.symm.trans hq
            exact Or.inr hmem
          · cases houtputs.symm.trans hq
            exact Or.inl ⟨hmem, hvalid⟩
      · cases hpaths₁
        refine hrest.node ⟨refs, hrefs⟩ fun q => ?_
        rw [SortedSet.mem_toList]
        constructor
        · exact fun hq => .reference hrefs hq
        · rintro (⟨hq, hmem⟩ | ⟨hincl', hdrv, -⟩)
          · cases hrefs.symm.trans hq
            exact hmem
          · exact absurd (by simp [hincl', hdrv]) hincl

/-- A closure without outputs that could be computed: what was there before is a part of it, the start
is too, and it has only paths whose references could be asked for. -/
theorem computeFSClosure_spec {P : Path → Prop}
    (hquery : ∀ p refs, store.queryReferences p = .ok refs → P p) (fuel : ℕ) {p : Path}
    {paths paths' : PathSet} (h : computeFSClosure store false false fuel p paths = .ok paths')
    (hP : ∀ q ∈ paths, P q) :
    p ∈ paths' ∧ (∀ q ∈ paths, q ∈ paths') ∧ ∀ q ∈ paths', P q := by
  have hexp := explores_computeFSClosure fuel h
  refine ⟨hexp.found p (List.mem_singleton_self p), hexp.keeps, fun q hq => ?_⟩
  by_cases hmem : q ∈ paths
  · exact hP q hmem
  · obtain ⟨refs, hrefs⟩ := hexp.queried q hq hmem
    exact hquery q refs hrefs

/-! ### Termination -/

/-- The store answers every query about a path of the set, and the answers stay in the set. -/
structure ClosureStore.Answers (store : ClosureStore) (validPaths : PathSet) : Prop where
  mem_of_isValidPath : ∀ p, store.isValidPath p = true → p ∈ validPaths
  direction : ∀ flipDirection, ∀ p ∈ validPaths, ∃ refs,
    store.queryDirection flipDirection p = .ok refs ∧ ∀ q ∈ refs, q ∈ validPaths
  outputs : ∀ p ∈ validPaths, ∃ outputs, store.queryDerivationOutputs p = .ok outputs

/-- The valid paths that a search has not come to. -/
def missingPaths (validPaths paths : PathSet) : Finset Path :=
  validPaths.toList.toFinset.filter (· ∉ paths)

/-- With more paths fewer are missing. -/
theorem missingPaths_subset {validPaths paths paths' : PathSet} (h : ∀ q ∈ paths, q ∈ paths') :
    missingPaths validPaths paths' ⊆ missingPaths validPaths paths := by
  intro q hq
  simp only [missingPaths, Finset.mem_filter] at hq ⊢
  exact ⟨hq.1, fun hmem => hq.2 (h q hmem)⟩

/-- A new path lowers the number of those missing. -/
theorem card_missingPaths_insert_lt {validPaths paths : PathSet} {p : Path} (hp : p ∈ validPaths)
    (hnew : p ∉ paths) :
    (missingPaths validPaths (paths.insert p)).card < (missingPaths validPaths paths).card := by
  refine Finset.card_lt_card ⟨missingPaths_subset fun q hq => ?_, fun hsub => ?_⟩
  · exact SortedSet.mem_insert.mpr (Or.inr hq)
  · have hmem : p ∈ missingPaths validPaths paths := by simpa [missingPaths, hnew] using hp
    simpa [missingPaths] using hsub hmem

/-- A loop of searches returns if every search does that is bounded by the number of missing paths. -/
theorem exists_foldlM_closure {validPaths : PathSet} {n : ℕ}
    {f : PathSet → Path → Outcome Str PathSet}
    (hf : ∀ s, ∀ p ∈ validPaths, (missingPaths validPaths s).card < n → ∃ s', f s p = .ok s' ∧
      ∀ q ∈ s, q ∈ s') {l : List Path} (hl : ∀ p ∈ l, p ∈ validPaths) {s : PathSet}
    (hs : (missingPaths validPaths s).card < n) :
    ∃ s', l.foldlM f s = .ok s' ∧ ∀ q ∈ s, q ∈ s' := by
  induction l generalizing s with
  | nil => exact ⟨s, rfl, fun _ => id⟩
  | cons p l ih =>
    obtain ⟨s₁, hs₁, hsub₁⟩ := hf s p (hl p List.mem_cons_self) hs
    have hcard : (missingPaths validPaths s₁).card < n :=
      (Finset.card_le_card (missingPaths_subset hsub₁)).trans_lt hs
    obtain ⟨s', hs', hsub'⟩ := ih (fun q hq => hl q (List.mem_cons_of_mem _ hq)) hcard
    refine ⟨s', ?_, fun q hq => hsub' q (hsub₁ q hq)⟩
    rw [List.foldlM_cons, hs₁, Outcome.ok_bind, hs']

/-- A bound above the number of missing paths is enough: every nested call adds one of them. -/
theorem exists_computeFSClosure {validPaths : PathSet} (hstore : store.Answers validPaths) (fuel : ℕ) :
    ∀ (includeOutputs : Bool) (paths : PathSet), ∀ p ∈ validPaths,
      (missingPaths validPaths paths).card < fuel → ∃ paths',
        computeFSClosure store flipDirection includeOutputs fuel p paths = .ok paths' := by
  induction fuel with
  | zero => exact fun _ _ p _ h => absurd h (Nat.not_lt_zero _)
  | succ fuel ih =>
    intro includeOutputs paths p hp hcard
    rw [computeFSClosure_succ]
    by_cases hmem : p ∈ paths
    · exact ⟨paths, if_pos hmem⟩
    · rw [if_neg hmem]
      have hlt := card_missingPaths_insert_lt hp hmem
      -- the nested calls, with or without outputs
      have hcalls : ∀ incl s, ∀ q ∈ validPaths, (missingPaths validPaths s).card < fuel → ∃ s',
          computeFSClosure store flipDirection incl fuel q s = .ok s' ∧ ∀ q ∈ s, q ∈ s' := by
        intro incl s q hq hs
        obtain ⟨s', hs'⟩ := ih incl s q hq hs
        exact ⟨s', hs', (explores_computeFSClosure fuel hs').keeps⟩
      obtain ⟨refs, hrefs, hrefsvalid⟩ := hstore.direction flipDirection p hp
      obtain ⟨outputs, houtputs⟩ := hstore.outputs p hp
      have hfollow : ∃ s, followOutputs store includeOutputs (fun paths i =>
          computeFSClosure store flipDirection true fuel i paths) p (paths.insert p) = .ok s ∧
            ∀ q ∈ paths.insert p, q ∈ s := by
        unfold followOutputs
        split_ifs
        · rw [houtputs, Outcome.ok_bind]
          refine exists_foldlM_closure (hcalls true) (fun q hq => ?_) (by omega)
          exact hstore.mem_of_isValidPath q (List.mem_filter.mp hq).2
        · exact ⟨_, rfl, fun _ => id⟩
      obtain ⟨s, hs, hsub⟩ := hfollow
      have hscard : (missingPaths validPaths s).card < fuel := by
        have hle : (missingPaths validPaths s).card ≤ (missingPaths validPaths (paths.insert p)).card :=
          Finset.card_le_card (missingPaths_subset hsub)
        exact (hle.trans_lt hlt).trans_le (Nat.lt_succ_iff.mp hcard)
      obtain ⟨s', hs', -⟩ := exists_foldlM_closure (hcalls includeOutputs)
        (fun q hq => hrefsvalid q (SortedSet.mem_toList.mp hq)) hscard
      exact ⟨s', by rw [hrefs, Outcome.ok_bind, hs, Outcome.ok_bind, hs']⟩

end

end Nix
