import NixStore.Lib.DepthFirst
import NixStore.Store.GraphQueries
import NixStore.Util.Paths

/-!
# Verification of the store

Model of the part of `verifyStore` of `local-store.cc` that checks, without repair, which valid paths
exist.  `verifyPath` is told about its referrers by two sets, and a path that is missing but stays
registered is in neither of them as such; so a missing path is invalidated unless one of its direct
referrers exists, and the foreign key stops `verifyStore` if a missing referrer has stayed.  A path
outside the store is invalidated at once, so there it depends on the order of the paths whether the
referrers are gone (`Database.verifyStore_exact`).
-/

namespace Nix

open Relation

/-- The variables of `verifyStore`. -/
structure VerifyState where
  db : Database
  done : PathSet
  validPaths : PathSet
  errors : Bool
  deriving DecidableEq

/-- The loop of `verifyPath` over the referrers; `verify` is the recursive call. -/
def verifyReferrers (verify : VerifyState → Path → Outcome Str VerifyState) (path : Path) :
    VerifyState × Bool → Path → Outcome Str (VerifyState × Bool)
  | (s, canInvalidate), i =>
    if i ≠ path then do
      let s ← verify s i
      return (s, canInvalidate && decide (i ∉ s.validPaths))
    else .ok (s, canInvalidate)

/-- Model of `verifyPath` without `repair`; `store` are the names in the store directory. -/
def verifyPath (cfg : StoreConfig) (store : SortedSet Str) :
    ℕ → VerifyState → Path → Outcome Str VerifyState
  | 0, _, _ => .diverge
  | fuel + 1, s, path =>
    if path ∈ s.done then .ok s
    else do
      let s := { s with done := s.done.insert path }
      if isStorePath cfg path = false then
        let db ← s.db.invalidatePath path
        return { s with db := db }
      else
        let name ← baseNameOf path
        if name ∈ store then return { s with validPaths := s.validPaths.insert path }
        else
          assertStorePath cfg path
          let (s, canInvalidate) ← (s.db.queryReferrers path).toList.foldlM
            (verifyReferrers (verifyPath cfg store fuel) path) (s, true)
          if canInvalidate then
            let db ← s.db.invalidatePath path
            return { s with db := db }
          else return { s with errors := true }

/-- Model of `verifyStore` without `checkContents` and `repair`. -/
def verifyStore (cfg : StoreConfig) (store : SortedSet Str) (fuel : ℕ) (db : Database) :
    Outcome Str VerifyState :=
  db.validPathSet.toList.foldlM (verifyPath cfg store fuel) ⟨db, ∅, ∅, false⟩

namespace StoreGraph

variable (g : StoreGraph) (cfg : StoreConfig) (store : SortedSet Str)

/-- The path is one of the store, and exists there. -/
def Present (p : Path) : Prop :=
  isStorePath cfg p = true ∧ ∃ name, baseNameOf p = .ok name ∧ name ∈ store

/-- The path or one of its direct referrers exists. -/
def Stays (p : Path) : Prop := Present cfg store p ∨ ∃ u, g.refers u p ∧ Present cfg store u

/-- An existing path is reachable along referrers. -/
def Needed (p : Path) : Prop :=
  ∃ q, Present cfg store q ∧ ReflTransGen (fun u v => g.refers v u) p q

/-- A missing path with a missing referrer that stays has an existing referrer itself. -/
def ReferrersPresent : Prop :=
  ∀ p u, ¬Present cfg store p → g.refers u p → u ≠ p → ¬Present cfg store u → g.Stays cfg store u →
    g.Stays cfg store p

/-- From a path of the store that is missing, `verifyPath` goes on to the referrers. -/
def GoesOnTo (p u : Path) : Prop :=
  isStorePath cfg p = true ∧ ¬Present cfg store p ∧ g.ProperRef u p

/-- `verifyStore` comes to one valid path before it comes to another one: it takes the paths in their
order, and behind a missing one those that it goes on to. -/
def ComesBefore : Path → Path → Prop := VisitedBefore g.valid (g.GoesOnTo cfg store)

/-- A database that `verifyStore` can deal with: the referrers of a path outside the store do not stay,
and `verifyStore` comes to them before it comes to that path. -/
structure Verifiable : Prop where
  referrersPresent : g.ReferrersPresent cfg store
  outside : ∀ p u, isStorePath cfg p = false → g.ProperRef u p →
    ¬g.Stays cfg store u ∧ g.ComesBefore cfg store u p

variable {g cfg store} {p : Path}

/-- What stays is needed. -/
theorem Stays.needed (h : g.Stays cfg store p) : g.Needed cfg store p := by
  rcases h with h | ⟨u, hu, h⟩
  · exact ⟨p, h, .refl⟩
  · exact ⟨u, h, .single hu⟩

/-- Under the condition, one step along referrers is enough. -/
theorem Needed.stays (hcond : g.ReferrersPresent cfg store) (h : g.Needed cfg store p) :
    g.Stays cfg store p := by
  obtain ⟨q, hq, hpq⟩ := h
  induction hpq using ReflTransGen.head_induction_on with
  | refl => exact Or.inl hq
  | @head p u hup _ ih =>
    by_cases hp : Present cfg store p
    · exact Or.inl hp
    by_cases hu : Present cfg store u
    · exact Or.inr ⟨u, hup, hu⟩
    by_cases heq : u = p
    · exact heq ▸ ih
    · exact hcond p u hp hup heq hu ih

/-- `verifyPath` does not come back to a path that it is looking at. -/
theorem Acyclic.not_goesOnTo (h : g.Acyclic) (p : Path) : ¬TransGen (g.GoesOnTo cfg store) p p :=
  fun hcycle => h p (TransGen.swap p p (TransGen.mono (fun _ _ hstep => hstep.2.2) p p hcycle))

end StoreGraph

namespace Database

variable {cfg : StoreConfig} {store : SortedSet Str} {db : Database} {s s' : VerifyState} {p q : Path}
  {c : List Path}

/-- What holds between two steps of `verifyStore` that started with `db`: what has been invalidated is
done, does not stay and has no valid referrers left, the existing paths that were found exist, and the
referrers of a path outside the store that is done are gone before it. -/
structure VerifyInv (cfg : StoreConfig) (store : SortedSet Str) (db : Database) (s : VerifyState) :
    Prop where
  wellFormed : s.db.WellFormed
  graph : ∃ D : Set Path, s.db.graph = db.graph.without D ∧
    ∀ q ∈ D, q ∈ s.done ∧ ¬db.graph.Stays cfg store q ∧
      ∀ u, db.graph.refers u q → u ∉ s.db.graph.valid
  present : ∀ q ∈ s.validPaths, StoreGraph.Present cfg store q
  outside : ∀ q ∈ s.done, isStorePath cfg q = false → ∀ u, db.graph.ProperRef u q →
    ¬db.graph.Stays cfg store u ∧ db.graph.ComesBefore cfg store u q

/-- The verdict about a path has been found. -/
structure Settled (cfg : StoreConfig) (store : SortedSet Str) (db : Database) (s : VerifyState)
    (q : Path) : Prop where
  present : StoreGraph.Present cfg store q → q ∈ s.validPaths
  invalid : ¬db.graph.Stays cfg store q → q ∉ s.db.graph.valid

/-- One state comes after another one. -/
structure VerifyLE (s s' : VerifyState) : Prop where
  done : ∀ q ∈ s.done, q ∈ s'.done
  validPaths : ∀ q ∈ s.validPaths, q ∈ s'.validPaths
  valid : ∀ q ∈ s'.db.graph.valid, q ∈ s.db.graph.valid

/-- A state is no further than itself. -/
theorem VerifyLE.refl (s : VerifyState) : VerifyLE s s := ⟨fun _ => id, fun _ => id, fun _ => id⟩

/-- Going on is transitive. -/
theorem VerifyLE.trans {s'' : VerifyState} (h : VerifyLE s s') (h' : VerifyLE s' s'') :
    VerifyLE s s'' :=
  ⟨fun q hq => h'.done q (h.done q hq), fun q hq => h'.validPaths q (h.validPaths q hq),
    fun q hq => h.valid q (h'.valid q hq)⟩

/-- What is settled stays so. -/
theorem Settled.mono (h : Settled cfg store db s q) (hle : VerifyLE s s') : Settled cfg store db s' q :=
  ⟨fun hq => hle.validPaths q (h.present hq), fun hq hvalid => h.invalid hq (hle.valid q hvalid)⟩

/-- What is done but not settled is being looked at, and the path is one of its referrers. -/
def Pending (cfg : StoreConfig) (store : SortedSet Str) (db : Database) (s : VerifyState)
    (path : Path) : Prop :=
  ∀ q ∈ s.done, Settled cfg store db s q ∨ TransGen db.graph.ProperRef path q

/-- The way on which `verifyStore` has come to a path. -/
abbrev WayTo (cfg : StoreConfig) (store : SortedSet Str) (db : Database) : List Path → Path → Prop :=
  Walk db.graph.valid (db.graph.GoesOnTo cfg store)

/-- What a call of `verifyPath`, to which `verifyStore` has come on the way `c`, has done when it
returns. -/
structure Verified (cfg : StoreConfig) (store : SortedSet Str) (db : Database) (c : List Path)
    (s : VerifyState) (path : Path) (s' : VerifyState) : Prop where
  inv : VerifyInv cfg store db s'
  le : VerifyLE s s'
  done : path ∈ s'.done
  settled : ∀ q ∈ s'.done, q ∈ s.done ∨ Settled cfg store db s' q
  self : Settled cfg store db s' path
  visited : ∀ x, x ∈ s'.done ↔ Walk.Through db.graph.valid (db.graph.GoesOnTo cfg store) c x

/-- A referrer of a path that is left is one of the initial database. -/
theorem VerifyInv.refers (hinv : VerifyInv cfg store db s) {u v : Path} (h : s.db.graph.refers u v) :
    db.graph.refers u v := by
  obtain ⟨D, hgraph, -⟩ := hinv.graph
  rw [hgraph] at h
  exact h.1

/-- What is valid was so at the start. -/
theorem VerifyInv.valid (hinv : VerifyInv cfg store db s) {u : Path} (h : u ∈ s.db.graph.valid) :
    u ∈ db.graph.valid := by
  obtain ⟨D, hgraph, -⟩ := hinv.graph
  rw [hgraph] at h
  exact h.1

/-- A path that stays or is not done is valid. -/
theorem VerifyInv.mem_valid (hinv : VerifyInv cfg store db s) {u : Path} (hu : u ∈ db.graph.valid)
    (h : db.graph.Stays cfg store u ∨ u ∉ s.done) : u ∈ s.db.graph.valid := by
  obtain ⟨D, hgraph, hD⟩ := hinv.graph
  rw [hgraph]
  refine ⟨hu, fun huD => ?_⟩
  obtain ⟨hdone, hnot, -⟩ := hD u huD
  exact h.elim hnot fun hnew => hnew hdone

/-- References between valid paths are left. -/
theorem VerifyInv.refers_of_valid (hinv : VerifyInv cfg store db s) {u v : Path}
    (h : db.graph.refers u v) (hu : u ∈ s.db.graph.valid) (hv : v ∈ s.db.graph.valid) :
    s.db.graph.refers u v := by
  obtain ⟨D, hgraph, -⟩ := hinv.graph
  rw [hgraph] at hu hv ⊢
  exact ⟨h, hu.2, hv.2⟩

/-- What lies on the way to a path is valid. -/
theorem mem_valid_of_wayTo (hc : WayTo cfg store db c p) : p ∈ db.graph.valid := by
  cases hc with
  | start hp => exact hp
  | step _ hgoes => exact (db.graph.mem_valid_of_refers hgoes.2.2.1).1

/-- What the loop over the referrers has done when it returns. -/
structure ReferrersVerified (cfg : StoreConfig) (store : SortedSet Str) (db : Database) (c : List Path)
    (path : Path) (l : List Path) (s : VerifyState) (canInvalidate : Bool) (s' : VerifyState)
    (canInvalidate' : Bool) : Prop where
  inv : VerifyInv cfg store db s'
  le : VerifyLE s s'
  settled : ∀ q ∈ s'.done, q ∈ s.done ∨ Settled cfg store db s' q
  referrers : ∀ i ∈ l, i ≠ path → Settled cfg store db s' i
  verdict : canInvalidate' = true ↔
    canInvalidate = true ∧ ∀ i ∈ l, i ≠ path → ¬StoreGraph.Present cfg store i
  visited : ∀ x, x ∈ s'.done ↔ Walk.Through db.graph.valid (db.graph.GoesOnTo cfg store) c x

/-- The loop over the referrers, given what one call does. -/
theorem verifyReferrers_outcome {verify : VerifyState → Path → Outcome Str VerifyState} {n : ℕ}
    (hverify : ∀ s c i, VerifyInv cfg store db s → WayTo cfg store db c i →
      (∀ x, x ∈ s.done ↔ Walk.Until db.graph.valid (db.graph.GoesOnTo cfg store) c x) →
      Pending cfg store db s i → (missingPaths db.validPathSet s.done).card < n →
      (∃ s', verify s i = .ok s' ∧ Verified cfg store db c s i s') ∨
        ((∃ e, verify s i = .error e) ∧ ¬db.graph.Verifiable cfg store))
    (hac : db.graph.Acyclic) (hc : WayTo cfg store db c p) {l : List Path}
    (hl : ∀ i ∈ l, i ≠ p → db.graph.GoesOnTo cfg store p i) (hsorted : l.Pairwise (· < ·)) :
    ∀ s canInvalidate, VerifyInv cfg store db s →
      (∀ x, x ∈ s.done ↔ Walk.Between db.graph.valid (db.graph.GoesOnTo cfg store) c
        (l.filter fun i => i ≠ p) x) →
      Walk.Left db.graph.valid (db.graph.GoesOnTo cfg store) c (l.filter fun i => i ≠ p) →
      (∀ q ∈ s.done, Settled cfg store db s q ∨ q = p ∨ TransGen db.graph.ProperRef p q) →
      (missingPaths db.validPathSet s.done).card < n →
      (∃ s' canInvalidate', l.foldlM (verifyReferrers verify p) (s, canInvalidate) =
          .ok (s', canInvalidate') ∧
        ReferrersVerified cfg store db c p l s canInvalidate s' canInvalidate') ∨
      ((∃ e, l.foldlM (verifyReferrers verify p) (s, canInvalidate) = .error e) ∧
        ¬db.graph.Verifiable cfg store) := by
  induction l with
  | nil =>
    intro s canInvalidate hinv hvisited _ _ _
    exact Or.inl ⟨s, canInvalidate, rfl, hinv, .refl s, fun q hq => Or.inl hq, by simp, by simp,
      fun x => (hvisited x).trans Walk.between_nil⟩
  | cons i l ih =>
    intro s canInvalidate hinv hvisited hleft hpending hcard
    obtain ⟨hlt, hsorted⟩ := List.pairwise_cons.mp hsorted
    have hrest := ih (fun j hj => hl j (List.mem_cons_of_mem i hj)) hsorted
    rw [List.foldlM_cons, verifyReferrers]
    by_cases hip : i = p
    · rw [if_neg (not_not.mpr hip), Outcome.ok_bind]
      rw [List.filter_cons_of_neg (by simp [hip])] at hvisited hleft
      refine (hrest s canInvalidate hinv hvisited hleft hpending hcard).imp_left ?_
      rintro ⟨s', canInvalidate', hok, h⟩
      exact ⟨s', canInvalidate', hok, h.inv, h.le, h.settled,
        by simpa [hip] using h.referrers, by simpa [hip] using h.verdict, h.visited⟩
    · rw [if_pos hip]
      rw [List.filter_cons_of_pos (by simp [hip])] at hvisited hleft
      have hltf : ∀ j ∈ l.filter (fun i => i ≠ p), i < j := fun j hj => hlt j (List.mem_filter.mp hj).1
      have hgoes := hl i List.mem_cons_self hip
      have href : db.graph.ProperRef i p := hgoes.2.2
      have hpendingi : Pending cfg store db s i := by
        intro q hq
        rcases hpending q hq with h | rfl | h
        · exact Or.inl h
        · exact Or.inr (.single href)
        · exact Or.inr (.head href h)
      rcases hverify s (c ++ [i]) i hinv (.step hc hgoes)
        (fun x => (hvisited x).trans (Walk.between_cons hltf)) hpendingi hcard with
        ⟨s₁, hs₁, hverified⟩ | ⟨⟨e, he⟩, hcond⟩
      · rw [hs₁, Outcome.ok_bind, Outcome.pure_eq, Outcome.ok_bind]
        have hpending₁ : ∀ q ∈ s₁.done,
            Settled cfg store db s₁ q ∨ q = p ∨ TransGen db.graph.ProperRef p q := by
          intro q hq
          rcases hverified.settled q hq with hold | h
          · exact (hpending q hold).imp_left fun h => h.mono hverified.le
          · exact Or.inl h
        have hcard₁ : (missingPaths db.validPathSet s₁.done).card < n :=
          (Finset.card_le_card (missingPaths_subset hverified.le.done)).trans_lt hcard
        have hvisited₁ := fun x => (hverified.visited x).trans
          (Walk.through_append_singleton hac.not_goesOnTo hltf hleft)
        refine (hrest s₁ _ hverified.inv hvisited₁ (hleft.tail hltf) hpending₁ hcard₁).imp_left ?_
        rintro ⟨s', canInvalidate', hok, h⟩
        have hpresent : i ∉ s₁.validPaths ↔ ¬StoreGraph.Present cfg store i :=
          not_congr ⟨hverified.inv.present i, hverified.self.present⟩
        refine ⟨s', canInvalidate', hok, h.inv, hverified.le.trans h.le, fun q hq => ?_,
          fun j hj hjp => ?_, ?_, h.visited⟩
        · rcases h.settled q hq with hq | hq
          · exact (hverified.settled q hq).imp_right fun hq => hq.mono h.le
          · exact Or.inr hq
        · rcases List.mem_cons.mp hj with rfl | hj
          · exact hverified.self.mono h.le
          · exact h.referrers j hj hjp
        · rw [h.verdict, Bool.and_eq_true, decide_eq_true_eq, hpresent]
          simp [hip, and_assoc]
      · rw [he]
        exact Or.inr ⟨⟨e, rfl⟩, hcond⟩

/-- A store path has a base name. -/
theorem exists_baseNameOf (h : isStorePath cfg p = true) : ∃ name, baseNameOf p = .ok name := by
  have habs : isAbsolute p = true := by
    simp only [isStorePath, isInStore, Bool.and_eq_true] at h
    exact h.1.1.1.1
  have hmem : '/'.toUInt8 ∈ p := List.mem_of_mem_head? (of_decide_eq_true habs)
  exact ⟨_, if_pos hmem⟩

/-- Invalidation ends, with a new database or an error. -/
theorem invalidatePath_outcome (db : Database) (p : Path) :
    (∃ db', db.invalidatePath p = .ok db') ∨ ∃ e, db.invalidatePath p = .error e := by
  rw [invalidatePath]
  split
  · exact Or.inl ⟨_, rfl⟩
  · split_ifs
    · exact Or.inr ⟨_, rfl⟩
    · exact Or.inl ⟨_, rfl⟩

/-- A path that is looked at is done. -/
theorem VerifyInv.insert (hinv : VerifyInv cfg store db s) (p : Path)
    (hp : isStorePath cfg p = false → ∀ u, db.graph.ProperRef u p →
      ¬db.graph.Stays cfg store u ∧ db.graph.ComesBefore cfg store u p) :
    VerifyInv cfg store db { s with done := s.done.insert p } := by
  obtain ⟨D, hgraph, hD⟩ := hinv.graph
  refine ⟨hinv.wellFormed, ⟨D, hgraph, fun q hq => ?_⟩, hinv.present, fun q hq => ?_⟩
  · exact ⟨SortedSet.mem_insert.mpr (Or.inr (hD q hq).1), (hD q hq).2⟩
  · rcases SortedSet.mem_insert.mp hq with rfl | hq
    · exact hp
    · exact hinv.outside q hq

/-- Marking a path as done goes on. -/
theorem verifyLE_insert (s : VerifyState) (p : Path) :
    VerifyLE s { s with done := s.done.insert p } :=
  ⟨fun _ hq => SortedSet.mem_insert.mpr (Or.inr hq), fun _ => id, fun _ => id⟩

/-- The path exists. -/
theorem Verified.of_present (hinv : VerifyInv cfg store db s) (hp : StoreGraph.Present cfg store p)
    (hc : WayTo cfg store db c p)
    (hvisited : ∀ x, x ∈ s.done ↔ Walk.Until db.graph.valid (db.graph.GoesOnTo cfg store) c x) :
    Verified cfg store db c s p
      { s with done := s.done.insert p, validPaths := s.validPaths.insert p } := by
  obtain ⟨hwf, ⟨D, hgraph, hD⟩, hpresent, houtside⟩ :=
    hinv.insert p fun hnot => absurd hp.1 (by simp [hnot])
  have hself : Settled cfg store db
      { s with done := s.done.insert p, validPaths := s.validPaths.insert p } p :=
    ⟨fun _ => SortedSet.mem_insert.mpr (Or.inl rfl), fun hnot => absurd (Or.inl hp) hnot⟩
  refine ⟨⟨hwf, ⟨D, hgraph, hD⟩, fun q hq => ?_, houtside⟩, ?_, SortedSet.mem_insert.mpr (Or.inl rfl),
    fun q hq => ?_, hself, fun x => ?_⟩
  · rcases SortedSet.mem_insert.mp hq with rfl | hq
    · exact hp
    · exact hpresent q hq
  · exact (verifyLE_insert s p).trans
      ⟨fun _ => id, fun _ hq => SortedSet.mem_insert.mpr (Or.inr hq), fun _ => id⟩
  · rcases SortedSet.mem_insert.mp hq with rfl | hq
    · exact Or.inr hself
    · exact Or.inl hq
  · rw [Walk.through_iff_of_leaf hc fun b hb => hb.2.1 hp, ← hvisited]
    exact SortedSet.mem_insert.trans or_comm

/-- The path is invalidated behind its referrers. -/
theorem Verified.of_invalidate {l : List Path} {s₁ : VerifyState} {canInvalidate : Bool}
    (h : ReferrersVerified cfg store db c p l { s with done := s.done.insert p } true s₁ canInvalidate)
    (hnot : ¬db.graph.Stays cfg store p) {db' : Database} (hok : s₁.db.invalidatePath p = .ok db') :
    Verified cfg store db c s p { s₁ with db := db' } := by
  obtain ⟨hwf, hgraph'⟩ := invalidatePath_spec h.inv.wellFormed hok
  have hvalid : ∀ q, q ∈ db'.graph.valid ↔ q ∈ s₁.db.graph.valid ∧ q ≠ p := fun q => by
    rw [hgraph']
    rfl
  have hle : VerifyLE s { s₁ with db := db' } :=
    ((verifyLE_insert s p).trans h.le).trans
      ⟨fun _ => id, fun _ => id, fun q hq => ((hvalid q).mp hq).1⟩
  have hdone : p ∈ s₁.done := h.le.done p (SortedSet.mem_insert.mpr (Or.inl rfl))
  have hself : Settled cfg store db { s₁ with db := db' } p :=
    ⟨fun hp => absurd (Or.inl hp) hnot, fun _ hp => ((hvalid p).mp hp).2 rfl⟩
  refine ⟨⟨hwf, ?_, h.inv.present, h.inv.outside⟩, hle, hdone, fun q hq => ?_, hself, h.visited⟩
  · obtain ⟨D, hgraph, hD⟩ := h.inv.graph
    refine ⟨D ∪ {p}, by rw [hgraph', hgraph, StoreGraph.without_without], ?_⟩
    rintro q (hq | rfl)
    · exact ⟨(hD q hq).1, (hD q hq).2.1, fun u hu hmem => (hD q hq).2.2 u hu ((hvalid u).mp hmem).1⟩
    · refine ⟨hdone, hnot, fun u hu hmem => ?_⟩
      obtain ⟨hu₁, hne⟩ := (hvalid u).mp hmem
      by_cases hq₁ : q ∈ s₁.db.graph.valid
      · exact hne (eq_of_refers_of_invalidatePath h.inv.wellFormed hok
          (h.inv.refers_of_valid hu hu₁ hq₁))
      · have hqD : q ∈ D := by
          rw [hgraph] at hq₁
          by_contra hqD
          exact hq₁ ⟨(db.graph.mem_valid_of_refers hu).2, hqD⟩
        exact (hD q hqD).2.2 u hu hu₁
  · rcases h.settled q hq with hq | hq
    · rcases SortedSet.mem_insert.mp hq with rfl | hq
      · exact Or.inr hself
      · exact Or.inl hq
    · exact Or.inr (hq.mono ⟨fun _ => id, fun _ => id, fun q hq => ((hvalid q).mp hq).1⟩)

/-- A missing path stays if one of its referrers exists. -/
theorem Verified.of_stays {l : List Path} {s₁ : VerifyState} {canInvalidate : Bool}
    (h : ReferrersVerified cfg store db c p l { s with done := s.done.insert p } true s₁ canInvalidate)
    (hmissing : ¬StoreGraph.Present cfg store p) (hstays : db.graph.Stays cfg store p) :
    Verified cfg store db c s p { s₁ with errors := true } := by
  have hself : Settled cfg store db { s₁ with errors := true } p :=
    ⟨fun hp => absurd hp hmissing, fun hnot => absurd hstays hnot⟩
  have hle : VerifyLE s₁ { s₁ with errors := true } := ⟨fun _ => id, fun _ => id, fun _ => id⟩
  refine ⟨⟨h.inv.wellFormed, h.inv.graph, h.inv.present, h.inv.outside⟩,
    ((verifyLE_insert s p).trans h.le).trans hle,
    h.le.done p (SortedSet.mem_insert.mpr (Or.inl rfl)), fun q hq => ?_, hself, h.visited⟩
  rcases h.settled q hq with hq | hq
  · rcases SortedSet.mem_insert.mp hq with rfl | hq
    · exact Or.inr hself
    · exact Or.inl hq
  · exact Or.inr (hq.mono hle)

/-- A path outside the store is invalidated, or a referrer has stayed or is still to come. -/
theorem invalidate_outside (hac : db.graph.Acyclic) (hinv : VerifyInv cfg store db s)
    (hc : WayTo cfg store db c p)
    (hvisited : ∀ x, x ∈ s.done ↔ Walk.Until db.graph.valid (db.graph.GoesOnTo cfg store) c x)
    (hpending : Pending cfg store db s p) (hdone : p ∉ s.done) (hp : p ∈ db.graph.valid)
    (hout : isStorePath cfg p = false) :
    (∃ db', s.db.invalidatePath p = .ok db' ∧
      Verified cfg store db c s p { s with db := db', done := s.done.insert p }) ∨
    ((∃ e, s.db.invalidatePath p = .error e) ∧ ¬db.graph.Verifiable cfg store) := by
  have hmissing : ¬StoreGraph.Present cfg store p := fun hpres => absurd hpres.1 (by simp [hout])
  have hp₀ : p ∈ s.db.graph.valid := hinv.mem_valid hp (Or.inr hdone)
  have hbefore : ∀ u, u ∈ s.done ↔ db.graph.ComesBefore cfg store u p := fun u =>
    (hvisited u).trans (Walk.until_iff_visitedBefore hc fun huntil => hdone ((hvisited p).mpr huntil))
  rcases invalidatePath_outcome s.db p with ⟨db', hdb⟩ | ⟨e, he⟩
  · -- the referrers have been invalidated
    have hgone : ∀ u, db.graph.ProperRef u p →
        ¬db.graph.Stays cfg store u ∧ db.graph.ComesBefore cfg store u p := by
      intro u hu
      obtain ⟨D, hgraph, hD⟩ := hinv.graph
      have huD : u ∈ D := by
        by_contra huD
        have hu₀ : u ∈ s.db.graph.valid := by
          rw [hgraph]
          exact ⟨(db.graph.mem_valid_of_refers hu.1).1, huD⟩
        exact hu.2 (eq_of_refers_of_invalidatePath hinv.wellFormed hdb
          (hinv.refers_of_valid hu.1 hu₀ hp₀)).symm
      exact ⟨(hD u huD).2.1, (hbefore u).mp (hD u huD).1⟩
    have hnot : ¬db.graph.Stays cfg store p := by
      rintro (hpres | ⟨u, hu, hpres⟩)
      · exact hmissing hpres
      · by_cases heq : p = u
        · exact hmissing (heq ▸ hpres)
        · exact (hgone u ⟨hu, heq⟩).1 (Or.inl hpres)
    refine Or.inl ⟨db', hdb, ?_⟩
    have hnone : ReferrersVerified cfg store db c p [] { s with done := s.done.insert p } true
        { s with done := s.done.insert p } true := by
      refine ⟨hinv.insert p fun _ => hgone, .refl _, fun q hq => Or.inl hq, by simp, by simp,
        fun x => ?_⟩
      rw [Walk.through_iff_of_leaf hc fun b hb => absurd hb.1 (by simp [hout]), ← hvisited]
      exact SortedSet.mem_insert.trans or_comm
    exact .of_invalidate hnone hnot hdb
  · refine Or.inr ⟨⟨e, he⟩, fun hcond => ?_⟩
    have hused : ¬∀ u, s.db.graph.refers u p → u = p := fun hall => by
      obtain ⟨db', hdb⟩ := invalidatePath_isOk hinv.wellFormed hall
      rw [he] at hdb
      cases hdb
    push Not at hused
    obtain ⟨u, hu, hne⟩ := hused
    have href : db.graph.ProperRef u p := ⟨hinv.refers hu, hne.symm⟩
    obtain ⟨hgone, hcomes⟩ := hcond.outside p u hout href
    rcases hpending u ((hbefore u).mpr hcomes) with hsettled | hcycle
    · exact hsettled.invalid hgone (s.db.graph.mem_valid_of_refers hu).1
    · exact hac p (hcycle.tail href)

/-- A call of `verifyPath` returns, or it fails because the condition does not hold. -/
theorem verifyPath_outcome (hac : db.graph.Acyclic) (fuel : ℕ) :
    ∀ s c p, VerifyInv cfg store db s → WayTo cfg store db c p →
      (∀ x, x ∈ s.done ↔ Walk.Until db.graph.valid (db.graph.GoesOnTo cfg store) c x) →
      Pending cfg store db s p → (missingPaths db.validPathSet s.done).card < fuel →
      (∃ s', verifyPath cfg store fuel s p = .ok s' ∧ Verified cfg store db c s p s') ∨
        ((∃ e, verifyPath cfg store fuel s p = .error e) ∧ ¬db.graph.Verifiable cfg store) := by
  induction fuel with
  | zero => exact fun s c p _ _ _ _ h => absurd h (Nat.not_lt_zero _)
  | succ fuel ih =>
    intro s c p hinv hc hvisited hpending hcard
    have hp := mem_valid_of_wayTo hc
    rw [verifyPath]
    by_cases hdone : p ∈ s.done
    · rw [if_pos hdone]
      have hself := (hpending p hdone).resolve_right (hac p)
      exact Or.inl ⟨s, rfl, hinv, .refl s, hdone, fun q hq => Or.inl hq, hself, fun x =>
        (hvisited x).trans
          (Walk.through_iff_of_until hac.not_goesOnTo hc ((hvisited p).mp hdone)).symm⟩
    · rw [if_neg hdone]
      dsimp only
      cases hstore : isStorePath cfg p with
      | false =>
        rw [if_pos rfl]
        rcases invalidate_outside hac hinv hc hvisited hpending hdone hp hstore with
          ⟨db', hdb, hverified⟩ | ⟨⟨e, he⟩, hcond⟩
        · rw [hdb]
          exact Or.inl ⟨_, rfl, hverified⟩
        · rw [he]
          exact Or.inr ⟨⟨e, rfl⟩, hcond⟩
      | true =>
      obtain ⟨name, hname⟩ := exists_baseNameOf hstore
      rw [if_neg (by simp), hname, Outcome.ok_bind]
      by_cases hpresent : name ∈ store
      · rw [if_pos hpresent]
        exact Or.inl ⟨_, rfl, .of_present hinv ⟨hstore, name, hname, hpresent⟩ hc hvisited⟩
      · have hmissing : ¬StoreGraph.Present cfg store p := by
          rintro ⟨-, name', hname', hmem⟩
          cases hname.symm.trans hname'
          exact hpresent hmem
        have hp₀ : p ∈ s.db.graph.valid := hinv.mem_valid hp (Or.inr hdone)
        have hreferrers : ∀ u, u ∈ (s.db.queryReferrers p).toList ↔ s.db.graph.refers u p :=
          fun u => mem_queryReferrers_iff hinv.wellFormed
        have hpending₀ : ∀ q ∈ s.done.insert p,
            Settled cfg store db { s with done := s.done.insert p } q ∨ q = p ∨
              TransGen db.graph.ProperRef p q := by
          intro q hq
          rcases SortedSet.mem_insert.mp hq with rfl | hq
          · exact Or.inr (Or.inl rfl)
          · exact (hpending q hq).imp (fun h => h.mono (verifyLE_insert s p)) Or.inr
        have hlt := card_missingPaths_insert_lt (mem_validPathSet.mpr hp) hdone
        -- a referrer that is not there any more is done
        have hnext : ∀ u, db.graph.GoesOnTo cfg store p u →
            u ∈ (s.db.queryReferrers p).toList.filter (fun i => i ≠ p) ∨
              Walk.Until db.graph.valid (db.graph.GoesOnTo cfg store) c u := by
          intro u hu
          by_cases hudone : u ∈ s.done
          · exact Or.inr ((hvisited u).mp hudone)
          · have hu₀ := hinv.mem_valid (db.graph.mem_valid_of_refers hu.2.2.1).1 (Or.inr hudone)
            have hmem := (hreferrers u).mpr (hinv.refers_of_valid hu.2.2.1 hu₀ hp₀)
            exact Or.inl (List.mem_filter.mpr ⟨hmem, by simpa using hu.2.2.2.symm⟩)
        have hvisited₀ : ∀ x, x ∈ s.done.insert p ↔ Walk.Between db.graph.valid
            (db.graph.GoesOnTo cfg store) c
            ((s.db.queryReferrers p).toList.filter fun i => i ≠ p) x := fun x => by
          rw [Walk.between_iff_of_left hc hac.not_goesOnTo hnext, ← hvisited]
          exact SortedSet.mem_insert.trans or_comm
        have hleft : Walk.Left db.graph.valid (db.graph.GoesOnTo cfg store) c
            ((s.db.queryReferrers p).toList.filter fun i => i ≠ p) := fun u hu =>
          (hnext u (hc.rel_of_append hu rfl)).imp_right Or.inl
        rw [if_neg hpresent, assertStorePath, if_pos hstore, Outcome.ok_bind]
        rcases verifyReferrers_outcome ih hac hc
          (fun u hu hne => ⟨hstore, hmissing, hinv.refers ((hreferrers u).mp hu), hne.symm⟩)
          (SortedMap.keys_sorted _) { s with done := s.done.insert p } true
          (hinv.insert p fun hnot => absurd hstore (by simp [hnot])) hvisited₀ hleft hpending₀
          (hlt.trans_le (Nat.lt_succ_iff.mp hcard)) with
          ⟨s₁, canInvalidate, hok, h⟩ | ⟨⟨e, he⟩, hcond⟩
        · rw [hok, Outcome.ok_bind]
          dsimp only
          cases canInvalidate with
          | true =>
            -- no referrer exists, and those that stay are the reason for a failure
            obtain ⟨-, hnone⟩ := h.verdict.mp rfl
            have hnot : ¬db.graph.Stays cfg store p := by
              rintro (hp | ⟨u, hu, hpres⟩)
              · exact hmissing hp
              · have hu₀ := hinv.mem_valid (db.graph.mem_valid_of_refers hu).1
                  (Or.inl (Or.inl hpres))
                exact hnone u ((hreferrers u).mpr (hinv.refers_of_valid hu hu₀ hp₀))
                  (fun heq => hmissing (heq ▸ hpres)) hpres
            rw [if_pos rfl]
            rcases invalidatePath_outcome s₁.db p with ⟨db', hdb⟩ | ⟨e, he⟩
            · rw [hdb]
              exact Or.inl ⟨_, rfl, .of_invalidate h hnot hdb⟩
            · rw [he]
              refine Or.inr ⟨⟨e, rfl⟩, fun hcond => ?_⟩
              have hused : ¬∀ u, s₁.db.graph.refers u p → u = p := fun hall => by
                obtain ⟨db', hdb⟩ := invalidatePath_isOk h.inv.wellFormed hall
                rw [he] at hdb
                cases hdb
              push Not at hused
              obtain ⟨u, hu, hne⟩ := hused
              have hu₁ := (s₁.db.graph.mem_valid_of_refers hu).1
              have hmem := (hreferrers u).mpr
                (hinv.refers_of_valid (h.inv.refers hu) (h.le.valid u hu₁) hp₀)
              have hstays : db.graph.Stays cfg store u := by
                by_contra hgone
                exact (h.referrers u hmem hne).invalid hgone hu₁
              exact hnot (hcond.referrersPresent p u hmissing (h.inv.refers hu) hne
                (hnone u hmem hne) hstays)
          | false =>
            rw [if_neg (by simp)]
            refine Or.inl ⟨_, rfl, .of_stays h hmissing ?_⟩
            by_contra hnot
            have htrue := h.verdict.mpr ⟨rfl, fun i hi _ hpres =>
              hnot (Or.inr ⟨i, hinv.refers ((hreferrers i).mp hi), hpres⟩)⟩
            cases htrue
        · rw [he]
          exact Or.inr ⟨⟨e, rfl⟩, hcond⟩

/-- `verifyStore` returns with a verdict about every path, or it fails because the condition does not
hold. -/
theorem verifyStore_outcome (cfg : StoreConfig) (store : SortedSet Str) (hwf : db.WellFormed)
    (hac : db.graph.Acyclic) {fuel : ℕ} (hfuel : (missingPaths db.validPathSet ∅).card < fuel) :
    (∃ s', verifyStore cfg store fuel db = .ok s' ∧ VerifyInv cfg store db s' ∧
      ∀ p ∈ db.graph.valid, p ∈ s'.done ∧ Settled cfg store db s' p) ∨
    ((∃ e, verifyStore cfg store fuel db = .error e) ∧ ¬db.graph.Verifiable cfg store) := by
  have hloop : ∀ (l : List Path) (s : VerifyState), (∀ p ∈ l, p ∈ db.graph.valid) →
      l.Pairwise (· < ·) → VerifyInv cfg store db s →
      (∀ x, x ∈ s.done ↔
        Walk.Between db.graph.valid (db.graph.GoesOnTo cfg store) [] l x) →
      Walk.Left db.graph.valid (db.graph.GoesOnTo cfg store) [] l →
      (∀ q ∈ s.done, Settled cfg store db s q) →
      (missingPaths db.validPathSet s.done).card < fuel →
      (∃ s', l.foldlM (verifyPath cfg store fuel) s = .ok s' ∧ VerifyInv cfg store db s' ∧
        VerifyLE s s' ∧ ∀ p ∈ l, p ∈ s'.done ∧ Settled cfg store db s' p) ∨
      ((∃ e, l.foldlM (verifyPath cfg store fuel) s = .error e) ∧
        ¬db.graph.Verifiable cfg store) := by
    intro l
    induction l with
    | nil => exact fun s _ _ hinv _ _ _ _ => Or.inl ⟨s, rfl, hinv, .refl s, by simp⟩
    | cons p l ih =>
      intro s hl hsorted hinv hvisited hleft hsettled hcard
      obtain ⟨hlt, hsorted⟩ := List.pairwise_cons.mp hsorted
      rw [List.foldlM_cons]
      rcases verifyPath_outcome hac fuel s [p] p hinv (.start (hl p List.mem_cons_self))
        (fun x => (hvisited x).trans (Walk.between_cons hlt))
        (fun q hq => Or.inl (hsettled q hq)) hcard with ⟨s₁, hs₁, h⟩ | ⟨⟨e, he⟩, hcond⟩
      · rw [hs₁, Outcome.ok_bind]
        have hsettled₁ : ∀ q ∈ s₁.done, Settled cfg store db s₁ q := fun q hq =>
          (h.settled q hq).elim (fun hq => (hsettled q hq).mono h.le) id
        have hcard₁ : (missingPaths db.validPathSet s₁.done).card < fuel :=
          (Finset.card_le_card (missingPaths_subset h.le.done)).trans_lt hcard
        have hvisited₁ := fun x => (h.visited x).trans
          (Walk.through_append_singleton (c := []) hac.not_goesOnTo hlt hleft)
        refine (ih s₁ (fun q hq => hl q (List.mem_cons_of_mem p hq)) hsorted h.inv hvisited₁
          (hleft.tail hlt) hsettled₁ hcard₁).imp_left ?_
        rintro ⟨s', hok, hinv', hle, hall⟩
        refine ⟨s', hok, hinv', h.le.trans hle, fun q hq => ?_⟩
        rcases List.mem_cons.mp hq with rfl | hq
        · exact ⟨hle.done q h.done, h.self.mono hle⟩
        · exact hall q hq
      · rw [he]
        exact Or.inr ⟨⟨e, rfl⟩, hcond⟩
  have hinit : VerifyInv cfg store db ⟨db, ∅, ∅, false⟩ :=
    ⟨hwf, ⟨∅, by simp, by simp⟩, fun q hq => absurd hq (SortedMap.notMem_empty q),
      fun q hq => absurd hq (SortedMap.notMem_empty q)⟩
  have hall : ∀ p ∈ db.graph.valid, p ∈ db.validPathSet.toList := fun p hp => mem_validPathSet.mpr hp
  refine (hloop db.validPathSet.toList ⟨db, ∅, ∅, false⟩ (fun p hp => mem_validPathSet.mp hp)
    (SortedMap.keys_sorted _) hinit
    (fun x => iff_of_false (SortedMap.notMem_empty x) (Walk.not_between_start hall))
    (fun u hu => Or.inl (hall u hu.mem_start))
    (fun q hq => absurd hq (SortedMap.notMem_empty q)) hfuel).imp_left ?_
  rintro ⟨s', hok, hinv, -, hall⟩
  exact ⟨s', hok, hinv, fun p hp => hall p (mem_validPathSet.mpr hp)⟩

/-- `verifyStore` comes to an end.  It returns, which means that no path was invalidated that another
valid path refers to, and has then invalidated exactly the missing paths that no existing path needs, if
and only if no missing path has a missing referrer that stays without staying itself, and the referrers
of a path outside the store do not stay and come before it. -/
theorem verifyStore_exact (hwf : db.WellFormed) (hac : db.graph.Acyclic) (cfg : StoreConfig)
    (store : SortedSet Str) :
    ∃ n, ∀ fuel ≥ n, verifyStore cfg store fuel db ≠ .diverge ∧
      ((∃ s', verifyStore cfg store fuel db = .ok s' ∧ ∀ p ∈ db.graph.valid,
        (p ∉ s'.db.graph.valid ↔
          ¬StoreGraph.Present cfg store p ∧ ¬db.graph.Needed cfg store p)) ↔
      db.graph.Verifiable cfg store) := by
  refine ⟨(missingPaths db.validPathSet ∅).card + 1, fun fuel hfuel => ?_⟩
  rcases verifyStore_outcome cfg store hwf hac hfuel with ⟨s', hok, hinv, hall⟩ | ⟨⟨e, he⟩, hcond⟩
  · refine ⟨by simp [hok], fun _ => ⟨fun p u hp hu hne hmissing hstays => ?_, fun p u hout hu => ?_⟩,
      fun hcond => ?_⟩
    · -- what has been invalidated has no valid referrers
      by_contra hnot
      have hpu := db.graph.mem_valid_of_refers hu
      have hgone := (hall p hpu.2).2.invalid hnot
      obtain ⟨D, hgraph, hD⟩ := hinv.graph
      have hpD : p ∈ D := by
        rw [hgraph] at hgone
        by_contra hpD
        exact hgone ⟨hpu.2, hpD⟩
      exact (hD p hpD).2.2 u hu (hinv.mem_valid hpu.1 (Or.inl hstays))
    · exact hinv.outside p (hall p (db.graph.mem_valid_of_refers hu.1).2).1 hout u hu
    · refine ⟨s', hok, fun p hp => ⟨fun hgone => ?_, fun hnot => ?_⟩⟩
      · have hnot : ¬db.graph.Stays cfg store p := fun hstays =>
          hgone (hinv.mem_valid hp (Or.inl hstays))
        exact ⟨fun hpres => hnot (Or.inl hpres),
          fun hneeded => hnot (hneeded.stays hcond.referrersPresent)⟩
      · exact (hall p hp).2.invalid fun hstays => hnot.2 hstays.needed
  · refine ⟨by simp [he], iff_of_false ?_ hcond⟩
    rintro ⟨s', hok, -⟩
    cases he.symm.trans hok

/-- `a` is missing, and so is `b`, which refers to `a`; `c` exists and refers to `b`. -/
def chainStore : Database where
  validPaths := [⟨1, str "/nix/store/a", sampleHashText, 1, none, none⟩,
    ⟨2, str "/nix/store/b", sampleHashText, 1, none, none⟩,
    ⟨3, str "/nix/store/c", sampleHashText, 1, none, none⟩]
  refs := [(2, 1), (3, 2)]
  derivationOutputs := []
  nextId := 4

/-- The first sample is well formed. -/
theorem wellFormed_chainStore : chainStore.WellFormed := by
  constructor <;> decide

/-- The first sample is acyclic. -/
theorem acyclic_chainStore : chainStore.graph.Acyclic :=
  acyclic_of_refs_descend wellFormed_chainStore (by decide)

/-- `a` is outside the store, and `b` refers to it. -/
def outsideStore : Database where
  validPaths := [⟨1, str "/other/a", sampleHashText, 1, none, none⟩,
    ⟨2, str "/nix/store/b", sampleHashText, 1, none, none⟩]
  refs := [(2, 1)]
  derivationOutputs := []
  nextId := 3

/-- The second sample is well formed. -/
theorem wellFormed_outsideStore : outsideStore.WellFormed := by
  constructor <;> decide

/-- The second sample is acyclic. -/
theorem acyclic_outsideStore : outsideStore.graph.Acyclic :=
  acyclic_of_refs_descend wellFormed_outsideStore (by decide)

/-- `verifyStore` tries to invalidate `a`, to which the valid path `b` refers, if `b` is missing and the
existing `c` refers to it, or if `b` exists and `a` is outside the store. -/
theorem verifyStore_fails_on_chain :
    (chainStore.WellFormed ∧ chainStore.graph.Acyclic ∧
      chainStore.graph.refers (str "/nix/store/b") (str "/nix/store/a") ∧
      verifyStore defaultConfig (.ofList [str "c"]) 4 chainStore =
        .error (str "invalidating path `/nix/store/a' in database")) ∧
    outsideStore.WellFormed ∧ outsideStore.graph.Acyclic ∧
      outsideStore.graph.refers (str "/nix/store/b") (str "/other/a") ∧
      verifyStore defaultConfig (.ofList [str "b"]) 3 outsideStore =
        .error (str "invalidating path `/other/a' in database") :=
  ⟨⟨wellFormed_chainStore, acyclic_chainStore, by decide, by decide⟩,
    wellFormed_outsideStore, acyclic_outsideStore, by decide, by decide⟩

/-- `verifyStore` is right about the chain exactly if the condition holds of it. -/
theorem verifyStore_exact_chainStore :
    ∃ n, ∀ fuel ≥ n, verifyStore defaultConfig ∅ fuel chainStore ≠ .diverge ∧
      ((∃ s', verifyStore defaultConfig ∅ fuel chainStore = .ok s' ∧
        ∀ p ∈ chainStore.graph.valid, (p ∉ s'.db.graph.valid ↔
          ¬StoreGraph.Present defaultConfig ∅ p ∧ ¬chainStore.graph.Needed defaultConfig ∅ p)) ↔
      chainStore.graph.Verifiable defaultConfig ∅) :=
  verifyStore_exact wellFormed_chainStore acyclic_chainStore defaultConfig ∅

end Database

end Nix
