import NixStore.Env.UserEnvLinks

/-!
# The order of packages in user environments

The packages are linked one after the other: those that are installed, in the order of their priorities,
and then those that they propagate, with numbers from 1000 on.  The rounds end if there are finitely many
packages.  What is linked is the merged tree of the packages in this order, if there are no collisions.
-/

namespace Nix

/-! ### The order of the packages -/

section

variable (files : EnvFiles)

/-- Link the trees of packages, one after the other. -/
def linkPkgs (n : ℕ) (st : EnvState) (order : List (Path × ℤ)) : Outcome Str EnvState :=
  order.foldlM (fun st x => createLinks files n x.1 [] x.2 st) st

/-- The packages of a list that `addPkg` links. -/
def linkedPkgs : EnvQueue → List (Path × ℤ) → List (Path × ℤ)
  | _, [] => []
  | queue, x :: pkgs =>
    if x.1 ∈ queue.done then linkedPkgs queue pkgs else x :: linkedPkgs (queue.add files x.1) pkgs

/-- The queue after the packages of a list. -/
def queueAfter (queue : EnvQueue) (pkgs : List (Path × ℤ)) : EnvQueue :=
  pkgs.foldl (fun queue x => if x.1 ∈ queue.done then queue else queue.add files x.1) queue

/-- The postponed packages that are linked, if this ends within the given number of rounds. -/
def postponedPkgs : ℕ → ℕ → EnvQueue → Option (List (Path × ℤ))
  | 0, _, _ => none
  | k + 1, priorityCounter, queue =>
    if queue.postponed = ∅ then some []
    else
      let pkgs := queue.round priorityCounter
      let queue := { queue with postponed := ∅ }
      (postponedPkgs k (priorityCounter + pkgs.length) (queueAfter files queue pkgs)).map
        (linkedPkgs files queue pkgs ++ ·)

/-- The propagated packages that are linked, in their order, with their numbers. -/
def propagatedOrder (k : ℕ) (pkgs : List EnvPkg) : Option (List (Path × ℤ)) :=
  postponedPkgs files k 1000 (queueAfter files ⟨∅, ∅⟩ (explicitPkgs files pkgs))

/-- The packages that are linked, in their order, with their numbers. -/
def linkOrder (k : ℕ) (pkgs : List EnvPkg) : Option (List (Path × ℤ)) :=
  (propagatedOrder files k pkgs).map (linkedPkgs files ⟨∅, ∅⟩ (explicitPkgs files pkgs) ++ ·)

end

section

variable {files : EnvFiles} {n k : ℕ} {b : EnvBuild} {queue : EnvQueue} {pkgs order : List (Path × ℤ)}
  {st st' : EnvState} {c : ℕ}

/-- Two lists of packages, one after the other. -/
theorem linkPkgs_append (n : ℕ) (st : EnvState) (order order' : List (Path × ℤ)) :
    linkPkgs files n st (order ++ order') =
      linkPkgs files n st order >>= fun st => linkPkgs files n st order' := by
  induction order generalizing st with
  | nil => rfl
  | cons x order ih =>
    rw [linkPkgs, List.cons_append, List.foldlM_cons, linkPkgs, List.foldlM_cons, Outcome.bind_assoc]
    congr 1
    funext st₁
    exact ih st₁

/-- `addPkg` links the packages that are not done. -/
theorem addPkgs_eq (n : ℕ) (b : EnvBuild) (pkgs : List (Path × ℤ)) :
    addPkgs files n b pkgs = linkPkgs files n b.st (linkedPkgs files b.queue pkgs) >>= fun st =>
      .ok ⟨st, queueAfter files b.queue pkgs⟩ := by
  induction pkgs generalizing b with
  | nil => rfl
  | cons x pkgs ih =>
    rw [addPkgs, List.foldlM_cons, addPkg, linkedPkgs, queueAfter, List.foldl_cons]
    split_ifs with hdone
    · exact ih b
    · rw [linkPkgs, List.foldlM_cons, Outcome.bind_assoc, Outcome.bind_assoc]
      congr 1
      funext st₁
      exact ih ⟨st₁, b.queue.add files x.1⟩

/-- The rounds link the postponed packages. -/
theorem addPostponed_eq (h : postponedPkgs files k c b.queue = some order) :
    (addPostponed files n k c b >>= fun b => .ok b.st) = linkPkgs files n b.st order := by
  induction k generalizing c b order with
  | zero => cases h
  | succ k ih =>
    rw [postponedPkgs] at h
    rw [addPostponed]
    split_ifs at h ⊢ with hempty
    · cases h
      rfl
    · obtain ⟨order', horder', rfl⟩ := Option.map_eq_some_iff.mp h
      dsimp only
      rw [linkPkgs_append, addPkgs_eq, Outcome.bind_assoc, Outcome.bind_assoc]
      congr 1
      funext st₁
      exact ih horder'

/-- The last step: the link to the manifest. -/
def linkManifest (files : EnvFiles) (st : EnvState) : Outcome Str EnvState :=
  if (st.out.find? manifestFile).isSome then .error (str "cannot create manifest")
  else .ok { st with out := st.out.insert manifestFile (.symlink files.manifest) }

/-- The packages are linked in their order. -/
theorem buildEnv_eq {pkgs : List EnvPkg} (h : linkOrder files k pkgs = some order) :
    buildEnv files n k pkgs = linkPkgs files n .empty order >>= linkManifest files := by
  obtain ⟨order', horder', rfl⟩ := Option.map_eq_some_iff.mp h
  have hrounds : ∀ b : EnvBuild, (addPostponed files n k 1000 b >>= fun b => linkManifest files b.st) =
      (addPostponed files n k 1000 b >>= fun b => .ok b.st) >>= linkManifest files := by
    intro b
    rw [Outcome.bind_assoc]
    rfl
  rw [linkPkgs_append, Outcome.bind_assoc]
  have hbuild : buildEnv files n k pkgs =
      addPkgs files n ⟨.empty, ∅, ∅⟩ (explicitPkgs files pkgs) >>= fun b =>
        addPostponed files n k 1000 b >>= fun b => linkManifest files b.st := rfl
  rw [hbuild, addPkgs_eq, Outcome.bind_assoc]
  congr 1
  funext st₁
  rw [propagatedOrder] at horder'
  rw [Outcome.ok_bind, hrounds, addPostponed_eq horder']

end

/-! ### Bounds on the recursion -/

section

variable {files : EnvFiles} {links links' : Path → Loc → ℤ → EnvState → Outcome Str EnvState} {n m : ℕ}

/-- A better approximation of the recursion gives one of `createLink`. -/
theorem createLink_approx (h : ∀ src dst priority st, (links src dst priority st).Approx
    (links' src dst priority st)) (dst : Loc) (priority : ℤ) (st : EnvState) (src : Path) :
    (createLink files links dst priority st src).Approx (createLink files links' dst priority st src) := by
  rw [createLink, createLink]
  by_cases hspecial : isSpecial src = true
  · rw [if_pos hspecial, if_pos hspecial]
    exact .refl _
  rw [if_neg hspecial, if_neg hspecial]
  by_cases hdir : files.isDir src = true
  · rw [if_pos hdir, if_pos hdir]
    cases st.out.find? (dst ++ [baseName src]) with
    | none => exact .refl _
    | some e =>
      cases e with
      | directory => exact h _ _ _ _
      | symlink target =>
        dsimp only
        split_ifs
        · exact (h _ _ _ _).bind fun st₁ => h _ _ _ _
        · exact .refl _
  · rw [if_neg hdir, if_neg hdir]
    exact .refl _

/-- With more fuel the result of `createLinks` stays. -/
theorem createLinks_approx (hnm : n ≤ m) (src : Path) (dst : Loc) (priority : ℤ) (st : EnvState) :
    (createLinks files n src dst priority st).Approx (createLinks files m src dst priority st) := by
  induction n generalizing m src dst priority st with
  | zero => exact .inl rfl
  | succ n ih =>
    obtain ⟨m, rfl⟩ := Nat.exists_eq_add_of_le' (Nat.one_le_of_lt hnm)
    rw [createLinks, createLinks]
    refine Outcome.Approx.foldlM (fun st src => createLink_approx ?_ dst priority st src) _ st
    exact fun src dst priority st => ih (Nat.le_of_succ_le_succ hnm) src dst priority st

/-- A larger bound makes no difference. -/
theorem linkPkgs_mono {order : List (Path × ℤ)} {st st' : EnvState} (hnm : n ≤ m)
    (h : linkPkgs files n st order = .ok st') : linkPkgs files m st order = .ok st' := by
  have happrox : (linkPkgs files n st order).Approx (linkPkgs files m st order) := by
    rw [linkPkgs, linkPkgs]
    exact Outcome.Approx.foldlM (fun st x => createLinks_approx hnm x.1 [] x.2 st) order st
  exact happrox.eq_of_ok h

end

/-! ### Rounds -/

section

variable {files : EnvFiles} {k k' c : ℕ} {queue : EnvQueue} {pkgs order : List (Path × ℤ)} {U : List Path}

/-- More rounds make no difference. -/
theorem postponedPkgs_mono (h : postponedPkgs files k c queue = some order) (hk : k ≤ k') :
    postponedPkgs files k' c queue = some order := by
  induction k generalizing k' c queue order with
  | zero => cases h
  | succ k ih =>
    obtain ⟨j, rfl⟩ := Nat.exists_eq_add_of_le' (Nat.one_le_of_lt hk)
    rw [postponedPkgs] at h ⊢
    split_ifs at h ⊢ with hempty
    · exact h
    · obtain ⟨order', horder', rfl⟩ := Option.map_eq_some_iff.mp h
      dsimp only
      rw [ih horder' (Nat.le_of_succ_le_succ hk)]
      rfl

/-- With more fuel the order stays. -/
theorem linkOrder_mono {pkgs : List EnvPkg} (h : linkOrder files k pkgs = some order) (hk : k ≤ k') :
    linkOrder files k' pkgs = some order := by
  obtain ⟨order', horder', rfl⟩ := Option.map_eq_some_iff.mp h
  rw [propagatedOrder] at horder'
  rw [linkOrder, propagatedOrder, postponedPkgs_mono horder' hk]
  rfl

/-- The queue has packages of a set only. -/
def EnvQueue.Within (U : List Path) (queue : EnvQueue) : Prop :=
  (∀ p ∈ queue.done, p ∈ U) ∧ ∀ p ∈ queue.postponed, p ∈ U

/-- A postponed package was postponed before or is propagated. -/
theorem mem_postpone {done postponed : SortedSet Path} {ps : List Path} {p : Path}
    (h : p ∈ ps.foldl (fun postponed p => if p ∈ done then postponed else postponed.insert p) postponed) :
    p ∈ postponed ∨ p ∈ ps := by
  induction ps generalizing postponed with
  | nil => exact .inl h
  | cons q ps ih =>
    rw [List.foldl_cons] at h
    rcases ih h with h | h
    · split_ifs at h with hdone
      · exact .inl h
      · rcases SortedSet.mem_insert.mp h with rfl | h
        · exact .inr List.mem_cons_self
        · exact .inl h
    · exact .inr (List.mem_cons_of_mem q h)

/-- Adding a package marks it as done. -/
theorem done_add (queue : EnvQueue) (p : Path) : (queue.add files p).done = queue.done.insert p := rfl

/-- The queue stays within a set that has what it propagates. -/
theorem Within.add {p : Path} (hclosed : ∀ p ∈ U, ∀ q ∈ propagatedPkgs files p, q ∈ U)
    (h : queue.Within U) (hp : p ∈ U) : (queue.add files p).Within U := by
  refine ⟨fun q hq => ?_, fun q hq => ?_⟩
  · rcases SortedSet.mem_insert.mp hq with rfl | hq
    · exact hp
    · exact h.1 q hq
  · rcases mem_postpone hq with hq | hq
    · exact h.2 q hq
    · exact hclosed p hp q hq

/-- The queue stays within the set for a list of packages. -/
theorem within_queueAfter (hclosed : ∀ p ∈ U, ∀ q ∈ propagatedPkgs files p, q ∈ U)
    (h : queue.Within U) (hpkgs : ∀ x ∈ pkgs, x.1 ∈ U) : (queueAfter files queue pkgs).Within U := by
  induction pkgs generalizing queue with
  | nil => exact h
  | cons x pkgs ih =>
    have hrest : ∀ y ∈ pkgs, y.1 ∈ U := fun y hy => hpkgs y (List.mem_cons_of_mem x hy)
    rw [queueAfter, List.foldl_cons]
    split_ifs
    · exact ih h hrest
    · exact ih (Within.add hclosed h (hpkgs x List.mem_cons_self)) hrest

/-- The packages of a list are done after it. -/
theorem done_queueAfter (files : EnvFiles) (queue : EnvQueue) (pkgs : List (Path × ℤ)) :
    (∀ p ∈ queue.done, p ∈ (queueAfter files queue pkgs).done) ∧
      ∀ x ∈ pkgs, x.1 ∈ (queueAfter files queue pkgs).done := by
  induction pkgs generalizing queue with
  | nil => exact ⟨fun p hp => hp, fun x hx => absurd hx List.not_mem_nil⟩
  | cons x pkgs ih =>
    rw [queueAfter, List.foldl_cons]
    split_ifs with hdone
    · obtain ⟨hkeep, hall⟩ := ih queue
      exact ⟨hkeep, List.forall_mem_cons.mpr ⟨hkeep _ hdone, hall⟩⟩
    · obtain ⟨hkeep, hall⟩ := ih (queue.add files x.1)
      refine ⟨fun p hp => ?_, List.forall_mem_cons.mpr ⟨?_, hall⟩⟩
      · exact hkeep p (SortedSet.mem_insert.mpr (.inr hp))
      · exact hkeep x.1 (SortedSet.mem_insert.mpr (.inl rfl))

/-- Packages that are done change nothing. -/
theorem queueAfter_of_done (h : ∀ x ∈ pkgs, x.1 ∈ queue.done) : queueAfter files queue pkgs = queue := by
  induction pkgs with
  | nil => rfl
  | cons x pkgs ih =>
    rw [queueAfter, List.foldl_cons, if_pos (h x List.mem_cons_self)]
    exact ih fun y hy => h y (List.mem_cons_of_mem x hy)

/-- A round has the postponed packages. -/
theorem mem_round {p : Path} : (∃ x ∈ queue.round c, x.1 = p) ↔ p ∈ queue.postponed := by
  have hmap : (queue.round c).map Prod.fst = queue.postponed.keys := by
    rw [EnvQueue.round, List.map_map]
    exact List.zipIdx_map_fst c queue.postponed.keys
  rw [SortedMap.mem_def, ← hmap, List.mem_map]

/-- The rounds end if there are finitely many packages. -/
theorem exists_postponedPkgs (hclosed : ∀ p ∈ U, ∀ q ∈ propagatedPkgs files p, q ∈ U)
    (h : queue.Within U) (c : ℕ) : ∃ k order, postponedPkgs files k c queue = some order := by
  -- the number of packages that are not done gets smaller with each round, but for the last one
  obtain ⟨m, hm⟩ : ∃ m, (U.toFinset.filter fun p => p ∉ queue.done).card = m := ⟨_, rfl⟩
  induction m using Nat.strong_induction_on generalizing queue c with
  | _ m ih =>
    by_cases hempty : queue.postponed = ∅
    · exact ⟨1, [], by rw [postponedPkgs, if_pos hempty]⟩
    obtain ⟨queue₀, hqueue₀⟩ : ∃ queue₀ : EnvQueue, queue₀ = { queue with postponed := ∅ } := ⟨_, rfl⟩
    have hwithin : queue₀.Within U := by
      rw [hqueue₀]
      exact ⟨h.1, fun p hp => absurd hp (SortedMap.notMem_empty p)⟩
    have hpkgs : ∀ x ∈ queue.round c, x.1 ∈ U := fun x hx => h.2 x.1 (mem_round.mp ⟨x, hx, rfl⟩)
    have hstep : ∀ {k order}, postponedPkgs files k (c + (queue.round c).length)
        (queueAfter files queue₀ (queue.round c)) = some order →
        ∃ k order, postponedPkgs files k c queue = some order := by
      intro k order horder
      refine ⟨k + 1, linkedPkgs files queue₀ (queue.round c) ++ order, ?_⟩
      rw [postponedPkgs, if_neg hempty, ← hqueue₀]
      dsimp only
      rw [horder]
      rfl
    have hwithin' := within_queueAfter hclosed hwithin hpkgs
    obtain ⟨hkeep, hall⟩ := done_queueAfter files queue₀ (queue.round c)
    have hdone : queue₀.done = queue.done := by rw [hqueue₀]
    by_cases hold : ∀ p ∈ queue.postponed, p ∈ queue.done
    · have hsame : queueAfter files queue₀ (queue.round c) = queue₀ := queueAfter_of_done fun x hx => by
        rw [hdone]
        exact hold x.1 (mem_round.mp ⟨x, hx, rfl⟩)
      have hlast : postponedPkgs files 1 (c + (queue.round c).length)
          (queueAfter files queue₀ (queue.round c)) = some [] := by
        rw [hsame, postponedPkgs, if_pos (by rw [hqueue₀])]
      exact hstep hlast
    · push Not at hold
      obtain ⟨p, hp, hnew⟩ := hold
      obtain ⟨x, hx, hxp⟩ := mem_round (c := c).mpr hp
      have hsub : (U.toFinset.filter fun p => p ∉ (queueAfter files queue₀ (queue.round c)).done) ⊆
          U.toFinset.filter fun p => p ∉ queue.done := by
        intro q hq
        obtain ⟨hqU, hq⟩ := Finset.mem_filter.mp hq
        exact Finset.mem_filter.mpr ⟨hqU, fun hdone' => hq (hkeep q (hdone ▸ hdone'))⟩
      have hless : (U.toFinset.filter fun p =>
          p ∉ (queueAfter files queue₀ (queue.round c)).done).card < m := by
        rw [← hm]
        refine Finset.card_lt_card ((Finset.ssubset_iff_of_subset hsub).mpr ⟨p, ?_, fun hmem => ?_⟩)
        · exact Finset.mem_filter.mpr ⟨List.mem_toFinset.mpr (h.2 p hp), hnew⟩
        · exact (Finset.mem_filter.mp hmem).2 (hxp ▸ hall x hx)
      obtain ⟨k, order, horder⟩ := ih _ hless hwithin' (c + (queue.round c).length) rfl
      exact hstep horder

/-- No package is linked twice, and none that is done. -/
theorem linkedPkgs_spec (files : EnvFiles) (queue : EnvQueue) (pkgs : List (Path × ℤ)) :
    (linkedPkgs files queue pkgs).Sublist pkgs ∧ ((linkedPkgs files queue pkgs).map Prod.fst).Nodup ∧
      ∀ x ∈ linkedPkgs files queue pkgs, x.1 ∉ queue.done := by
  induction pkgs generalizing queue with
  | nil => exact ⟨.slnil, List.nodup_nil, fun x hx => absurd hx List.not_mem_nil⟩
  | cons x pkgs ih =>
    rw [linkedPkgs]
    split_ifs with hdone
    · obtain ⟨hsub, hnodup, hnew⟩ := ih queue
      exact ⟨hsub.cons x, hnodup, hnew⟩
    · obtain ⟨hsub, hnodup, hnew⟩ := ih (queue.add files x.1)
      have hnew' : ∀ y ∈ linkedPkgs files (queue.add files x.1) pkgs, y.1 ≠ x.1 ∧ y.1 ∉ queue.done := by
        intro y hy
        have hy' := hnew y hy
        rw [done_add, SortedSet.mem_insert, not_or] at hy'
        exact hy'
      refine ⟨hsub.cons_cons x, ?_, List.forall_mem_cons.mpr ⟨hdone, fun y hy => (hnew' y hy).2⟩⟩
      rw [List.map_cons, List.nodup_cons]
      refine ⟨fun hmem => ?_, hnodup⟩
      obtain ⟨y, hy, hyx⟩ := List.mem_map.mp hmem
      exact (hnew' y hy).1 hyx

/-- Different packages that are not done are all linked. -/
theorem linkedPkgs_eq_self (hnodup : (pkgs.map Prod.fst).Nodup) (hnew : ∀ x ∈ pkgs, x.1 ∉ queue.done) :
    linkedPkgs files queue pkgs = pkgs := by
  induction pkgs generalizing queue with
  | nil => rfl
  | cons x pkgs ih =>
    rw [List.map_cons, List.nodup_cons] at hnodup
    rw [linkedPkgs, if_neg (hnew x List.mem_cons_self), ih hnodup.2]
    intro y hy
    rw [done_add, SortedSet.mem_insert, not_or]
    exact ⟨fun heq => hnodup.1 (heq ▸ List.mem_map_of_mem hy), hnew y (List.mem_cons_of_mem x hy)⟩

/-- The packages of two lists that are linked one after the other are different. -/
theorem nodup_append_linked {order : List (Path × ℤ)} (hnodup : (order.map Prod.fst).Nodup)
    (hnew : ∀ x ∈ order, x.1 ∉ (queueAfter files queue pkgs).done) :
    ((linkedPkgs files queue pkgs ++ order).map Prod.fst).Nodup := by
  obtain ⟨hsub, hnodup', -⟩ := linkedPkgs_spec files queue pkgs
  rw [List.map_append]
  refine List.nodup_append'.mpr ⟨hnodup', hnodup, fun p hp hp' => ?_⟩
  obtain ⟨x, hx, rfl⟩ := List.mem_map.mp hp
  obtain ⟨y, hy, hyx⟩ := List.mem_map.mp hp'
  refine hnew y hy ?_
  rw [hyx]
  exact (done_queueAfter files queue pkgs).2 x (hsub.subset hx)

/-- No package is linked twice. -/
theorem postponedPkgs_spec (h : postponedPkgs files k c queue = some order) :
    (order.map Prod.fst).Nodup ∧ ∀ x ∈ order, x.1 ∉ queue.done := by
  induction k generalizing c queue order with
  | zero => cases h
  | succ k ih =>
    rw [postponedPkgs] at h
    split_ifs at h with hempty
    · cases h
      exact ⟨List.nodup_nil, fun x hx => absurd hx List.not_mem_nil⟩
    · obtain ⟨order', horder', rfl⟩ := Option.map_eq_some_iff.mp h
      obtain ⟨hnodup, hnew⟩ := ih horder'
      refine ⟨nodup_append_linked hnodup hnew, fun x hx => ?_⟩
      rcases List.mem_append.mp hx with hx | hx
      · exact (linkedPkgs_spec files { queue with postponed := ∅ } (queue.round c)).2.2 x hx
      · exact fun hdone => hnew x hx ((done_queueAfter files _ _).1 x.1 hdone)

/-- Every package comes from the closed set. -/
theorem postponedPkgs_within (hclosed : ∀ p ∈ U, ∀ q ∈ propagatedPkgs files p, q ∈ U)
    (hwithin : queue.Within U) (h : postponedPkgs files k c queue = some order) :
    ∀ x ∈ order, x.1 ∈ U := by
  induction k generalizing c queue order with
  | zero => cases h
  | succ k ih =>
    rw [postponedPkgs] at h
    split_ifs at h with hempty
    · cases h
      exact fun x hx => absurd hx List.not_mem_nil
    · obtain ⟨order', horder', rfl⟩ := Option.map_eq_some_iff.mp h
      have hround : ∀ x ∈ queue.round c, x.1 ∈ U := fun x hx =>
        hwithin.2 x.1 (mem_round.mp ⟨x, hx, rfl⟩)
      have hwithin₀ : EnvQueue.Within U { queue with postponed := ∅ } :=
        ⟨hwithin.1, fun p hp => absurd hp (SortedMap.notMem_empty p)⟩
      intro x hx
      rcases List.mem_append.mp hx with hx | hx
      · exact hround x ((linkedPkgs_spec files _ _).1.subset hx)
      · exact ih (within_queueAfter hclosed hwithin₀ hround) horder' x hx

end

/-! ### Trees that are linked in an order -/

section

variable {files : EnvFiles} {n : ℕ} {order ps : List (Path × ℤ)} {x y : Path × ℤ} {st : EnvState}
  {f : Loc}

/-- No package of a list has a file with the same number as the best one before it. -/
def NoClashes (files : EnvFiles) (ps order : List (Path × ℤ)) : Prop :=
  ∀ l₁ x l₂, order = l₁ ++ x :: l₂ → ¬ files.view.Clashes (ps ++ l₁) x

/-- No package clashes with the ones before it. -/
theorem noClashes_cons : NoClashes files ps (x :: order) ↔
    ¬ files.view.Clashes ps x ∧ NoClashes files (ps ++ [x]) order := by
  constructor
  · intro h
    refine ⟨?_, fun l₁ y l₂ heq => ?_⟩
    · have hfirst := h [] x order rfl
      rwa [List.append_nil] at hfirst
    · have hrest := h (x :: l₁) y l₂ (by rw [heq, List.cons_append])
      rwa [List.append_cons] at hrest
  · rintro ⟨hfirst, hrest⟩ l₁ y l₂ heq
    cases l₁ with
    | nil =>
      obtain ⟨rfl, -⟩ := List.cons.inj heq
      rwa [List.append_nil]
    | cons z l₁ =>
      obtain ⟨rfl, htail⟩ := List.cons.inj heq
      rw [List.append_cons]
      exact hrest l₁ y l₂ htail

/-- Packages are linked in their order, or there is a collision. -/
theorem linkPkgs_spec (hentry : ∀ r, r ≠ [] → st.entry r = files.view.merged ps r)
    (hcompat : files.view.Compatible (ps ++ order)) (hbounded : files.view.Bounded n (ps ++ order))
    (hreads : files.Reads (ps ++ order)) :
    (linkPkgs files n st order).Ends (fun st' => NoClashes files ps order ∧
      ∀ r, r ≠ [] → st'.entry r = files.view.merged (ps ++ order) r) (¬ NoClashes files ps order) := by
  induction order generalizing ps st with
  | nil =>
    refine ⟨fun l₁ x l₂ heq => absurd heq (by simp), fun r hr => ?_⟩
    rw [List.append_nil]
    exact hentry r hr
  | cons x order ih =>
    have hsub : (ps ++ [x]).Sublist (ps ++ x :: order) := by
      rw [List.append_cons ps x order]
      exact List.sublist_append_left _ _
    have hlinks : (createLinks files n x.1 [] x.2 st).Ends (Linked files [] ps (x.1, x.2) st)
        (files.view.Clashes ps (x.1, x.2)) :=
      createLinks_spec files n hentry (hcompat.mono fun y hy => hsub.subset hy)
        (hbounded.mono fun y hy => hsub.subset hy) (hreads.sublist hsub)
    rw [linkPkgs, List.foldlM_cons]
    refine hlinks.bind (fun hclash h => ?_) fun st₁ h₁ => ?_
    · exact (noClashes_cons.mp h).1 hclash
    · rw [List.append_cons] at hcompat hbounded hreads ⊢
      refine (ih h₁.entry hcompat hbounded hreads).imp (fun st' h => ?_) fun hclash h => ?_
      · exact ⟨noClashes_cons.mpr ⟨h₁.noClash, h.1⟩, h.2⟩
      · exact hclash (noClashes_cons.mp h).2

/-- Packages are linked in an empty directory. -/
theorem linkPkgs_empty (hcompat : files.view.Compatible order)
    (hbounded : files.view.Bounded n order) (hreads : files.Reads order) :
    (linkPkgs files n .empty order).Ends (fun st => NoClashes files [] order ∧
      ∀ r, r ≠ [] → st.entry r = files.view.merged order r) (¬ NoClashes files [] order) := by
  have hentry : ∀ r, r ≠ [] → EnvState.empty.entry r =
      files.view.merged ([] : List (Path × ℤ)) r := by
    intro r hr
    rw [TreeView.merged_eq_none (fun x hx => absurd hx List.not_mem_nil) hr]
    rfl
  exact linkPkgs_spec hentry hcompat hbounded hreads

/-! ### The best file -/

/-- Compatible providers are all directories or all files. -/
theorem isDir_eq_of_mem (hcompat : files.view.Compatible order) {z : Path × ℤ}
    (hy : y ∈ files.view.providers order f) (hz : z ∈ files.view.providers order f) :
    files.isDir y.1 = files.isDir z.1 := hcompat f y hy z hz

/-- Without collisions there are no ties. -/
theorem noTie_of_noClashes (hcompat : files.view.Compatible order) (h : NoClashes files [] order)
    (hf : f ≠ []) (hy : y ∈ files.view.providers order f) (hfile : files.isDir y.1 = false) :
    NoTie (files.view.providers order f) := by
  intro ys x b hprefix hbest heq
  obtain ⟨l₁, p, l₂, horder, hl₁, hwalk, hrank⟩ := TreeView.exists_split_of_prefix hprefix
  obtain ⟨k, r, rfl⟩ := List.exists_cons_of_ne_nil hf
  have hx : x ∈ files.view.providers order (k :: r) :=
    hprefix.subset (List.mem_append_right ys (List.mem_singleton_self x))
  refine h l₁ p l₂ horder ⟨k, r, b, x.1, ?_, hwalk, ?_, heq.trans hrank.symm⟩
  · rw [List.nil_append, hl₁]
    exact hbest
  · exact (isDir_eq_of_mem hcompat hx hy).trans hfile

/-- The first package that has a file has the smallest number of all that have it. -/
def FirstIsLeast (files : EnvFiles) (order : List (Path × ℤ)) : Prop :=
  ∀ f y ys, f ≠ [] → files.view.providers order f = y :: ys → files.isDir y.1 = false →
    ∀ z ∈ ys, y.2 < z.2

/-- When the first is the least there are no clashes. -/
theorem noClashes_of_firstIsLeast (hcompat : files.view.Compatible order)
    (h : FirstIsLeast files order) : NoClashes files [] order := by
  rintro l₁ x l₂ rfl ⟨k, r, b, y, hbest, hwalk, hfile, hrank⟩
  rw [List.nil_append] at hbest
  have hsplit : files.view.providers (l₁ ++ x :: l₂) (k :: r) =
      files.view.providers l₁ (k :: r) ++ (y, x.2) :: files.view.providers l₂ (k :: r) := by
    rw [TreeView.providers_append, TreeView.providers, TreeView.providers, TreeView.providers,
      List.filterMap_cons, hwalk]
    rfl
  cases hproviders : files.view.providers l₁ (k :: r) with
  | nil =>
    rw [hproviders] at hbest
    cases hbest
  | cons z zs =>
    rw [hproviders, List.cons_append] at hsplit
    rw [hproviders] at hbest
    have hz : files.isDir z.1 = false := by
      refine (isDir_eq_of_mem (f := k :: r) (z := (y, x.2)) hcompat ?_ ?_).trans hfile
      · rw [hsplit]
        exact List.mem_cons_self
      · rw [hsplit]
        simp
    have hless := h (k :: r) z _ (List.cons_ne_nil k r) hsplit hz
    have hfirst : best (z :: zs) = some z :=
      best_cons_of_lt fun w hw => hless w (List.mem_append_left _ hw)
    rw [hfirst] at hbest
    cases hbest
    exact absurd hrank (hless (y, x.2) (List.mem_append_right _ List.mem_cons_self)).ne

/-- If the best file is always that of the first package, then this has the smallest number. -/
theorem firstIsLeast_of_best (hcompat : files.view.Compatible order) (hnoClashes : NoClashes files [] order)
    (hnodup : (order.map Prod.fst).Nodup)
    (h : ∀ f y ys b, f ≠ [] → files.view.providers order f = y :: ys → files.isDir y.1 = false →
      best (y :: ys) = some b → b.1 = y.1) : FirstIsLeast files order := by
  intro f y ys hf hproviders hfile
  obtain ⟨b, hb⟩ := exists_best (List.cons_ne_nil y ys)
  have hpath := h f y ys b hf hproviders hfile hb
  have hy : y ∈ files.view.providers order f := by
    rw [hproviders]
    exact List.mem_cons_self
  have hb' : b ∈ files.view.providers order f := by
    rw [hproviders]
    exact mem_of_best hb
  -- files with the same path are of the same package
  obtain ⟨p, hp, hpwalk, hprank⟩ := TreeView.mem_providers.mp hy
  obtain ⟨q, hq, hqwalk, hqrank⟩ := TreeView.mem_providers.mp hb'
  have hpq : q.1 = p.1 := by
    have hsame := (EnvFiles.eq_of_walk_view hqwalk).symm.trans
      (hpath.trans (EnvFiles.eq_of_walk_view hpwalk))
    exact List.append_cancel_right hsame
  have hsame : q = p := List.inj_on_of_nodup_map hnodup hq hp hpq
  have hby : b = y := Prod.ext hpath (by rw [← hqrank, ← hprank, hsame])
  have htie := noTie_of_noClashes hcompat hnoClashes hf hy hfile
  rw [hproviders] at htie
  exact lt_of_best_cons htie (hby ▸ hb)

end

end Nix
