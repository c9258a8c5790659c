import NixStore.Store.MissingCoverage

/-!
# The sizes that are reported

`downloadSize` and `narSize` are sums over the paths that will be substituted, in which a path counts
once for every distance from the targets at which it is taken up: an output of a derivation is put into
`todoNonDrv` without a look at `done`.  They are the sums of the sizes, each counted once, if and only if
the other times add up to nothing (`MissingStore.queryMissing_sizes`).
-/

namespace Nix

namespace MissingStore

variable {store : MissingStore} {targets : PathSet} {s s' r : MissingState} {i x : Str} {p : Path}
  {k n : ℕ}

/-! ### Distances -/

/-- An item leads to another one: an input of the derivation that it makes be built, or a reference of a
path that it makes be substituted. -/
def LeadsTo (store : MissingStore) (i x : Str) : Prop :=
  (∃ drv, store.Builds i drv ∧ x ∈ inputItems drv) ∨
    ∃ p, (p = i ∧ store.MissingPath i ∨ store.SubstitutesOutput i p) ∧
      ∃ info, store.substitutes.find? p = some info ∧ x ∈ info.references

/-- An item is `n` steps away from the targets: it is a target, or an item one step closer leads to it,
and it does not come up closer to the targets, as an item or as an output that is substituted. -/
def StepsAway (store : MissingStore) (targets : PathSet) (n : ℕ) (x : Str) : Prop :=
  (match n with
    | 0 => x ∈ targets
    | n + 1 => ∃ i, StepsAway store targets n i ∧ store.LeadsTo i x) ∧
  ∀ m, m < n → ¬StepsAway store targets m x ∧
    ∀ i, StepsAway store targets m i → ¬store.SubstitutesOutput i x
termination_by n

/-- A path is taken up at a distance from the targets: it is an item there, or an output of one. -/
def TakenAt (store : MissingStore) (targets : PathSet) (n : ℕ) (p : Path) : Prop :=
  (store.StepsAway targets n p ∧ store.MissingPath p) ∨
    ∃ i, store.StepsAway targets n i ∧ store.SubstitutesOutput i p

/-- The targets are no steps away. -/
theorem stepsAway_zero : store.StepsAway targets 0 x ↔ x ∈ targets := by
  rw [StepsAway]
  exact and_iff_left fun m hm => absurd hm (Nat.not_lt_zero m)

/-- What leads to a path is one step nearer. -/
theorem stepsAway_succ : store.StepsAway targets (n + 1) x ↔
    (∃ i, store.StepsAway targets n i ∧ store.LeadsTo i x) ∧
      ∀ m, m < n + 1 → ¬store.StepsAway targets m x ∧
        ∀ i, store.StepsAway targets m i → ¬store.SubstitutesOutput i x := by
  rw [StepsAway]

/-- What the state in front of a round has to do with the distances: the items of the round are those at
its distance, and what is closer is done. -/
structure AtDistance (store : MissingStore) (targets : PathSet) (k : ℕ) (s : MissingState) : Prop where
  done : ∀ x, x ∈ s.done ↔ ∃ m < k, store.StepsAway targets m x ∨
    ∃ i, store.StepsAway targets m i ∧ store.SubstitutesOutput i x
  todo : ∀ x, (x ∈ s.todo ∧ x ∉ s.done) ↔ store.StepsAway targets k x
  willSubstitute : ∀ p, p ∈ s.willSubstitute ↔
    p ∈ store.substitutes ∧ ∃ m < k, store.TakenAt targets m p

/-- At the start nothing is done. -/
theorem atDistance_start (targets : PathSet) : store.AtDistance targets 0 (start targets) where
  done x := iff_of_false (SortedMap.notMem_empty x) fun ⟨m, hm, _⟩ => Nat.not_lt_zero m hm
  todo x := by
    rw [stepsAway_zero]
    exact and_iff_left (SortedMap.notMem_empty x)
  willSubstitute p := iff_of_false (SortedMap.notMem_empty p) fun ⟨_, m, hm, _⟩ => Nat.not_lt_zero m hm

/-- One of the first `k + 1`, the last one apart. -/
theorem exists_lt_succ {P : ℕ → Prop} : (∃ m < k + 1, P m) ↔ (∃ m < k, P m) ∨ P k := by
  constructor
  · rintro ⟨m, hm, h⟩
    rcases Nat.lt_succ_iff_lt_or_eq.mp hm with hm | rfl
    · exact .inl ⟨m, hm, h⟩
    · exact .inr h
  · rintro (⟨m, hm, h⟩ | h)
    · exact ⟨m, Nat.lt_succ_of_lt hm, h⟩
    · exact ⟨k, Nat.lt_succ_self k, h⟩

namespace AtDistance

/-- A round takes up what is taken up at its distance. -/
theorem takesUp_iff (h : store.AtDistance targets k s) :
    store.TakesUp s p ↔ store.TakenAt targets k p := by
  rw [TakesUp, TakenAt, ← and_assoc, h.todo]
  refine or_congr_right (exists_congr fun i => ?_)
  rw [← and_assoc, h.todo]

/-- A round goes one step further. -/
theorem round (h : store.AtDistance targets k s) (hround : store.RoundTo s s') :
    store.AtDistance targets (k + 1) s' := by
  have hdone : ∀ x, x ∈ s'.done ↔ ∃ m < k + 1, store.StepsAway targets m x ∨
      ∃ i, store.StepsAway targets m i ∧ store.SubstitutesOutput i x := by
    intro x
    rw [hround.done, exists_lt_succ, ← h.done, h.takesUp_iff, TakenAt, ← h.todo]
    constructor
    · rintro (hx | hx | ⟨hx, -⟩ | hx)
      · exact .inl hx
      · by_cases hold : x ∈ s.done
        · exact .inl hold
        · exact .inr (.inl ⟨hx, hold⟩)
      · exact .inr (.inl hx)
      · exact .inr (.inr hx)
    · rintro (hx | hx | hx)
      · exact .inl hx
      · exact .inr (.inl hx.1)
      · exact .inr (.inr (.inr hx))
  refine ⟨hdone, fun x => ?_, fun p => ?_⟩
  · -- what the items of the round lead to
    have hleads : x ∈ s'.todo ↔ ∃ i, store.StepsAway targets k i ∧ store.LeadsTo i x := by
      rw [hround.todo]
      constructor
      · rintro (⟨i, htodo, hnew, hbuild⟩ | ⟨p, htaken, hinfo⟩)
        · exact ⟨i, (h.todo i).mp ⟨htodo, hnew⟩, .inl hbuild⟩
        · rcases h.takesUp_iff.mp htaken with ⟨hp, hmissing⟩ | ⟨i, hi, hout⟩
          · exact ⟨p, hp, .inr ⟨p, .inl ⟨rfl, hmissing⟩, hinfo⟩⟩
          · exact ⟨i, hi, .inr ⟨p, .inr hout, hinfo⟩⟩
      · rintro ⟨i, hi, hbuild | ⟨p, ⟨rfl, hmissing⟩ | hout, hinfo⟩⟩
        · obtain ⟨htodo, hnew⟩ := (h.todo i).mpr hi
          exact .inl ⟨i, htodo, hnew, hbuild⟩
        · exact .inr ⟨p, h.takesUp_iff.mpr (.inl ⟨hi, hmissing⟩), hinfo⟩
        · exact .inr ⟨p, h.takesUp_iff.mpr (.inr ⟨i, hi, hout⟩), hinfo⟩
    rw [hleads, stepsAway_succ, hdone]
    refine and_congr_right fun _ => ?_
    push Not
    rfl
  · rw [hround.willSubstitute, h.willSubstitute, exists_lt_succ, h.takesUp_iff]
    constructor
    · rintro (⟨hp, htaken⟩ | ⟨htaken, hp⟩)
      · exact ⟨hp, .inl htaken⟩
      · exact ⟨hp, .inr htaken⟩
    · rintro ⟨hp, htaken | htaken⟩
      · exact .inl ⟨hp, htaken⟩
      · exact .inr ⟨htaken, hp⟩

/-- Nothing is further away than the last round. -/
theorem not_stepsAway (h : store.AtDistance targets k s) (htodo : s.todo = ∅) (hn : k ≤ n) :
    ¬store.StepsAway targets n x := by
  induction n, hn using Nat.le_induction generalizing x with
  | base =>
    intro hx
    have hmem := ((h.todo x).mpr hx).1
    rw [htodo] at hmem
    exact SortedMap.notMem_empty x hmem
  | succ n _ ih =>
    intro hx
    obtain ⟨⟨i, hi, -⟩, -⟩ := stepsAway_succ.mp hx
    exact ih hi

/-- What was taken was taken in an earlier round. -/
theorem lt_of_takenAt (h : store.AtDistance targets k s) (htodo : s.todo = ∅)
    (htaken : store.TakenAt targets n p) : n < k := by
  refine not_le.mp fun hn => ?_
  rcases htaken with ⟨hp, -⟩ | ⟨i, hi, -⟩
  · exact h.not_stepsAway htodo hn hp
  · exact h.not_stepsAway htodo hn hi

end AtDistance

/-! ### Sums -/

/-- The sum of the sizes of a set of paths. -/
def sizeSum (store : MissingStore) (size : SubstitutablePathInfo → UInt64) (paths : PathSet) :
    UInt64 :=
  (paths.toList.map (store.sizeOf size)).sum

/-- The sizes of the paths that are taken up, without the first time for each of them. -/
noncomputable def surplus (store : MissingStore) (targets : PathSet)
    (size : SubstitutablePathInfo → UInt64) : ℕ :=
  ∑ p ∈ store.substitutes.keys.toFinset,
    ({n | store.TakenAt targets n p}.ncard - 1) * (store.sizeOf size p).toNat

/-- What cannot be substituted has no size. -/
theorem sizeOf_of_notMem {size : SubstitutablePathInfo → UInt64} (hp : p ∉ store.substitutes) :
    store.sizeOf size p = 0 := by
  rw [sizeOf, SortedMap.find?_eq_none_iff.mpr hp]
  rfl

/-- A sum of 64-bit integers is a sum modulo `2 ^ 64`. -/
theorem toNat_sum (l : List UInt64) : l.sum.toNat ≡ (l.map UInt64.toNat).sum [MOD 2 ^ 64] := by
  induction l with
  | nil => rfl
  | cons a l ih =>
    rw [List.sum_cons, List.map_cons, List.sum_cons, UInt64.toNat_add]
    exact (Nat.mod_modEq _ _).trans (ih.add_left a.toNat)

/-- A sum over paths is one over those that have substitutes. -/
theorem toNat_sum_sizes (size : SubstitutablePathInfo → UInt64) {l : List Path} (hl : l.Nodup)
    {P : Path → Prop} [DecidablePred P] (hmem : ∀ p ∈ store.substitutes, p ∈ l ↔ P p) :
    (l.map (store.sizeOf size)).sum.toNat ≡
      ∑ p ∈ store.substitutes.keys.toFinset, (if P p then (store.sizeOf size p).toNat else 0)
        [MOD 2 ^ 64] := by
  have hlist : ((l.map (store.sizeOf size)).map UInt64.toNat).sum =
      ∑ p ∈ l.toFinset, (store.sizeOf size p).toNat := by
    rw [List.map_map]
    exact (List.sum_toFinset _ hl).symm
  have hkeys : ∀ p, p ∈ store.substitutes.keys.toFinset ↔ p ∈ store.substitutes := fun p => by
    rw [List.mem_toFinset, ← SortedMap.mem_def]
  refine (toNat_sum _).trans ?_
  rw [hlist, ← Finset.sum_filter]
  refine congrArg (· % 2 ^ 64) (Finset.sum_subset_zero_on_sdiff ?_ ?_ fun _ _ => rfl).symm
  · intro p hp
    obtain ⟨hsub, hP⟩ := Finset.mem_filter.mp hp
    exact List.mem_toFinset.mpr ((hmem p ((hkeys p).mp hsub)).mpr hP)
  · intro p hp
    obtain ⟨hpl, hnot⟩ := Finset.mem_sdiff.mp hp
    by_cases hsub : p ∈ store.substitutes
    · refine absurd ?_ hnot
      exact Finset.mem_filter.mpr ⟨(hkeys p).mpr hsub, (hmem p hsub).mp (List.mem_toFinset.mp hpl)⟩
    · rw [sizeOf_of_notMem hsub]
      rfl

section

open Classical

/-- The rounds add up the sizes of what is taken up at their distances. -/
theorem rounds_total {total : MissingState → UInt64} {size : SubstitutablePathInfo → UInt64}
    (hround : ∀ s s', store.RoundTo s s' → ∃ l : List Path, l.Nodup ∧
      (∀ p, p ∈ l ↔ store.TakesUp s p) ∧ total s' = total s + (l.map (store.sizeOf size)).sum)
    (fuel : ℕ) : ∀ {k s}, store.AtDistance targets k s → store.rounds fuel s = .ok r →
      ∃ n ≥ k, store.AtDistance targets n r ∧ r.todo = ∅ ∧
        (total r).toNat ≡ (total s).toNat + ∑ j ∈ Finset.Ico k n,
          ∑ p ∈ store.substitutes.keys.toFinset,
            (if store.TakenAt targets j p then (store.sizeOf size p).toNat else 0) [MOD 2 ^ 64] := by
  induction fuel with
  | zero => exact fun _ h => by cases h
  | succ fuel ih =>
    intro k s hs h
    rw [rounds] at h
    split_ifs at h with hempty
    · cases h
      exact ⟨k, le_rfl, hs, hempty, by rw [Finset.Ico_self]; rfl⟩
    · obtain ⟨s', hs', h⟩ := Outcome.bind_eq_ok.mp h
      obtain ⟨n, hn, hr, htodo, htotal⟩ := ih (hs.round (round_spec hs')) h
      obtain ⟨l, hl, hmem, hadd⟩ := hround s s' (round_spec hs')
      have hsizes := toNat_sum_sizes size hl fun p (_ : p ∈ store.substitutes) =>
        (hmem p).trans hs.takesUp_iff
      refine ⟨n, (Nat.le_succ k).trans hn, hr, htodo, htotal.trans ?_⟩
      rw [Finset.sum_eq_sum_Ico_succ_bot (Nat.lt_of_succ_le hn), ← add_assoc]
      refine Nat.ModEq.add_right _ ?_
      rw [hadd, UInt64.toNat_add]
      exact (Nat.mod_modEq _ _).trans (hsizes.add_left _)

/-- Every path counts as often as it is taken up. -/
theorem sum_takenAt (h : store.AtDistance targets n r) (htodo : r.todo = ∅)
    (size : SubstitutablePathInfo → UInt64) :
    ∑ j ∈ Finset.Ico 0 n, ∑ p ∈ store.substitutes.keys.toFinset,
      (if store.TakenAt targets j p then (store.sizeOf size p).toNat else 0) =
    ∑ p ∈ store.substitutes.keys.toFinset,
      {j | store.TakenAt targets j p}.ncard * (store.sizeOf size p).toNat := by
  rw [Finset.sum_comm]
  refine Finset.sum_congr rfl fun p _ => ?_
  have hset : {j | store.TakenAt targets j p} =
      ((Finset.Ico 0 n).filter fun j => store.TakenAt targets j p : Finset ℕ) := by
    ext j
    rw [Finset.mem_coe, Finset.mem_filter, Finset.mem_Ico]
    exact ⟨fun hj => ⟨⟨Nat.zero_le j, h.lt_of_takenAt htodo hj⟩, hj⟩, And.right⟩
  rw [hset, Set.ncard_coe_finset, ← Finset.sum_filter, Finset.sum_const, smul_eq_mul]

/-- Each path is taken in finitely many rounds. -/
theorem finite_takenAt (h : store.AtDistance targets n r) (htodo : r.todo = ∅) (p : Path) :
    {j | store.TakenAt targets j p}.Finite :=
  (Set.finite_lt_nat n).subset fun _ hj => h.lt_of_takenAt htodo hj

/-- A total is the sum of the sizes if and only if what is counted again adds up to nothing. -/
theorem total_eq_iff {fuel : ℕ} {total : MissingState → UInt64}
    {size : SubstitutablePathInfo → UInt64} (hzero : total (start targets) = 0)
    (hround : ∀ s s', store.RoundTo s s' → ∃ l : List Path, l.Nodup ∧
      (∀ p, p ∈ l ↔ store.TakesUp s p) ∧ total s' = total s + (l.map (store.sizeOf size)).sum)
    (h : store.queryMissing fuel targets = .ok r) :
    total r = store.sizeSum size r.willSubstitute ↔ 2 ^ 64 ∣ store.surplus targets size := by
  obtain ⟨n, -, hr, htodo, htotal⟩ := rounds_total hround fuel (atDistance_start targets) h
  rw [hzero, sum_takenAt hr htodo] at htotal
  have hsum : (store.sizeSum size r.willSubstitute).toNat ≡
      ∑ p ∈ store.substitutes.keys.toFinset, (if {j | store.TakenAt targets j p}.ncard ≠ 0 then
        (store.sizeOf size p).toNat else 0) [MOD 2 ^ 64] := by
    refine toNat_sum_sizes size (SortedMap.keys_nodup _) fun p hp => ?_
    rw [← SortedMap.mem_def, hr.willSubstitute,
      ← Nat.pos_iff_ne_zero, Set.ncard_pos (finite_takenAt hr htodo p)]
    exact ⟨fun ⟨_, m, _, hm⟩ => ⟨m, hm⟩, fun ⟨m, hm⟩ => ⟨hp, m, hr.lt_of_takenAt htodo hm, hm⟩⟩
  -- the first time, and the others
  have hsplit : ∑ p ∈ store.substitutes.keys.toFinset,
      {j | store.TakenAt targets j p}.ncard * (store.sizeOf size p).toNat =
      (∑ p ∈ store.substitutes.keys.toFinset, (if {j | store.TakenAt targets j p}.ncard ≠ 0 then
        (store.sizeOf size p).toNat else 0)) + store.surplus targets size := by
    rw [surplus, ← Finset.sum_add_distrib]
    refine Finset.sum_congr rfl fun p _ => ?_
    cases {j | store.TakenAt targets j p}.ncard with
    | zero => simp
    | succ c =>
      rw [if_pos (Nat.succ_ne_zero c), Nat.add_sub_cancel]
      ring
  rw [hsplit] at htotal
  have hmod : (total r).toNat ≡ (store.sizeSum size r.willSubstitute).toNat + store.surplus targets size
      [MOD 2 ^ 64] := by
    refine htotal.trans ?_
    rw [show (0 : UInt64).toNat = 0 from rfl, zero_add]
    exact hsum.symm.add_right _
  rw [← UInt64.toNat_inj, ← Nat.modEq_zero_iff_dvd]
  constructor
  · intro heq
    rw [heq] at hmod
    exact (Nat.ModEq.add_left_cancel' _ hmod).symm
  · intro hsurplus
    have hsame := hmod.trans (hsurplus.add_left _)
    rw [add_zero] at hsame
    exact Nat.ModEq.eq_of_lt_of_lt hsame (UInt64.toNat_lt _) (UInt64.toNat_lt _)

/-- Nothing is counted again exactly if no path that has a size is taken up at two distances. -/
theorem surplus_eq_zero_iff (h : store.AtDistance targets n r) (htodo : r.todo = ∅)
    (size : SubstitutablePathInfo → UInt64) :
    store.surplus targets size = 0 ↔ ∀ p j k, store.TakenAt targets j p →
      store.TakenAt targets k p → j ≠ k → store.sizeOf size p = 0 := by
  rw [surplus, Finset.sum_eq_zero_iff]
  constructor
  · intro hall p j k hj hk hne
    by_cases hp : p ∈ store.substitutes
    · have hlt : 1 < {j | store.TakenAt targets j p}.ncard :=
        (Set.one_lt_ncard (finite_takenAt h htodo p)).mpr ⟨j, hj, k, hk, hne⟩
      have hprod := hall p (List.mem_toFinset.mpr (SortedMap.mem_def.mp hp))
      rcases Nat.mul_eq_zero.mp hprod with hcount | hsize
      · omega
      · exact UInt64.toNat_inj.mp hsize
    · exact sizeOf_of_notMem hp
  · intro hall p _
    by_cases hlt : 1 < {j | store.TakenAt targets j p}.ncard
    · obtain ⟨j, hj, k, hk, hne⟩ := (Set.one_lt_ncard (finite_takenAt h htodo p)).mp hlt
      rw [hall p j k hj hk hne]
      exact Nat.mul_zero _
    · rw [Nat.sub_eq_zero_of_le (not_lt.mp hlt), Nat.zero_mul]

end

/-- The reported sizes are the sums over the paths that will be substituted, each counted once, exactly
if the sizes of the paths that are taken up again at another distance from the targets add up to nothing;
so it is when no path that has a size is taken up at two distances. -/
theorem queryMissing_sizes {fuel : ℕ} {targets : PathSet}
    (h : store.queryMissing fuel targets = .ok r) :
    ((r.downloadSize = store.sizeSum SubstitutablePathInfo.downloadSize r.willSubstitute ∧
        r.narSize = store.sizeSum SubstitutablePathInfo.narSize r.willSubstitute) ↔
      2 ^ 64 ∣ store.surplus targets SubstitutablePathInfo.downloadSize ∧
        2 ^ 64 ∣ store.surplus targets SubstitutablePathInfo.narSize) ∧
    ∀ size, store.surplus targets size = 0 ↔ ∀ p j k, store.TakenAt targets j p →
      store.TakenAt targets k p → j ≠ k → store.sizeOf size p = 0 := by
  have hdown : ∀ s s', store.RoundTo s s' → ∃ l : List Path, l.Nodup ∧
      (∀ p, p ∈ l ↔ store.TakesUp s p) ∧ s'.downloadSize = s.downloadSize +
        (l.map (store.sizeOf SubstitutablePathInfo.downloadSize)).sum := fun s s' hround => by
    obtain ⟨l, hl, hmem, htotal, -⟩ := hround.sizes
    exact ⟨l, hl, hmem, htotal⟩
  have hnar : ∀ s s', store.RoundTo s s' → ∃ l : List Path, l.Nodup ∧
      (∀ p, p ∈ l ↔ store.TakesUp s p) ∧ s'.narSize = s.narSize +
        (l.map (store.sizeOf SubstitutablePathInfo.narSize)).sum := fun s s' hround => by
    obtain ⟨l, hl, hmem, -, htotal⟩ := hround.sizes
    exact ⟨l, hl, hmem, htotal⟩
  obtain ⟨n, -, hr, htodo, -⟩ := rounds_total hdown fuel (atDistance_start targets) h
  exact ⟨and_congr (total_eq_iff rfl hdown h) (total_eq_iff rfl hnar h), surplus_eq_zero_iff hr htodo⟩

/-- The output of `e.drv` can be substituted and is an input of `c.drv`, which must be built. -/
def sharedOutputStore : MissingStore :=
  sampleStore [(str "/nix/store/c.drv", sampleDerivation [(str "out", str "/nix/store/c")]
      [(str "/nix/store/e.drv", [str "out"])]),
    (str "/nix/store/e.drv", sampleDerivation [(str "out", str "/nix/store/e")] [])]
    [] [(str "/nix/store/e", 7)]

/-- If that output is a target too, the second round counts it again. -/
theorem queryMissing_counts_twice :
    ∃ r, sharedOutputStore.queryMissing 4
        (.ofList [str "/nix/store/c.drv", str "/nix/store/e"]) = .ok r ∧
      r.willSubstitute = .ofList [str "/nix/store/e"] ∧ r.downloadSize = 14 ∧ r.narSize = 14 ∧
      sharedOutputStore.sizeSum SubstitutablePathInfo.downloadSize r.willSubstitute = 7 ∧
      sharedOutputStore.sizeSum SubstitutablePathInfo.narSize r.willSubstitute = 7 := by
  refine ⟨⟨∅, .ofList [str "/nix/store/c.drv", str "/nix/store/e", str "/nix/store/e.drv!out"],
    .ofList [str "/nix/store/e"], .ofList [str "/nix/store/e.drv!out"],
    .ofList [str "/nix/store/e"], .ofList [str "/nix/store/c.drv"],
    .ofList [str "/nix/store/e"], ∅, 14, 14⟩, ?_⟩
  decide +kernel

/-- If it is the only target, it is counted once: nothing leads to it again. -/
theorem queryMissing_sizes_sharedOutputStore :
    ∃ r, sharedOutputStore.queryMissing 4 (.ofList [str "/nix/store/e"]) = .ok r ∧
      r.downloadSize = 7 ∧
      2 ^ 64 ∣ sharedOutputStore.surplus (.ofList [str "/nix/store/e"])
        SubstitutablePathInfo.downloadSize := by
  obtain ⟨r, hr⟩ : ∃ r, r = (⟨∅, .ofList [str "/nix/store/e"], .ofList [str "/nix/store/e"], ∅,
    .ofList [str "/nix/store/e"], ∅, .ofList [str "/nix/store/e"], ∅, 7, 7⟩ : MissingState) := ⟨_, rfl⟩
  have hrun : sharedOutputStore.queryMissing 4 (.ofList [str "/nix/store/e"]) = .ok r := by
    subst hr
    decide +kernel
  have hexact : r.downloadSize =
        sharedOutputStore.sizeSum SubstitutablePathInfo.downloadSize r.willSubstitute ∧
      r.narSize = sharedOutputStore.sizeSum SubstitutablePathInfo.narSize r.willSubstitute := by
    subst hr
    decide
  exact ⟨r, hrun, by rw [hr], ((queryMissing_sizes hrun).1.mp hexact).1⟩

end MissingStore

end Nix
