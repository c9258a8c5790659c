import NixStore.Manifests.SmallestDownload

/-!
# The plan is the cheapest one

The discovered graph has all steps of plans for the paths in it, except that a path that is present has
no other steps, and its step costs nothing.  So a shortest path in the graph is a cheapest plan.
-/

namespace Nix

section

variable {env : DownloadEnv} {g : DownloadGraph} {u v : Str} {e : DownloadEdge} {queue done : List Str}
  {path : List DownloadEdge} {canApply : PatchRow → Bool}

/-! ### Nodes and edges -/

/-- The nodes after one was added. -/
@[simp] theorem mem_nodes_addNode : v ∈ (g.addNode u).nodes ↔ v ∈ g.nodes ∨ v = u := by
  rw [DownloadGraph.addNode]
  split_ifs with hu
  · refine ⟨Or.inl, ?_⟩
    rintro (hv | rfl)
    · exact hv
    · exact hu
  · rw [List.mem_append, List.mem_singleton]

/-- Adding a node adds no edge. -/
@[simp] theorem edges_addNode : (g.addNode u).edges = g.edges := by
  rw [DownloadGraph.addNode]
  split_ifs <;> rfl

@[simp] theorem edges_addEdge : (g.addEdge e).edges = g.edges ++ [e] := rfl

/-- The nodes after an edge was added. -/
@[simp] theorem mem_nodes_addEdge : v ∈ (g.addEdge e).nodes ↔ v ∈ g.nodes ∨ v = e.start :=
  mem_nodes_addNode

/-- Adding edges one after the other. -/
theorem foldl_addEdge {α : Type} (f : α → DownloadEdge) (l : List α) (g : DownloadGraph) :
    (l.foldl (fun g a => g.addEdge (f a)) g).edges = g.edges ++ l.map f ∧
      ∀ v ∈ g.nodes, v ∈ (l.foldl (fun g a => g.addEdge (f a)) g).nodes := by
  induction l generalizing g with
  | nil => exact ⟨(List.append_nil _).symm, fun v hv => hv⟩
  | cons a l ih =>
    obtain ⟨hedges, hnodes⟩ := ih (g.addEdge (f a))
    rw [List.foldl_cons]
    refine ⟨?_, fun v hv => hnodes v (mem_nodes_addEdge.mpr (Or.inl hv))⟩
    rw [hedges, edges_addEdge, List.map_cons, List.append_assoc, List.singleton_append]

/-- The patches for a path that can be applied. -/
def DownloadEnv.patchesFor (env : DownloadEnv) (u : Str) : List PatchRow :=
  (env.patches.filter fun patch => patch.storePath = u).filter env.canApply

/-- The steps for a path. -/
def DownloadEnv.stepsFor (env : DownloadEnv) (u : Str) : List DownloadEdge :=
  if env.isValidPath u then [presentEdge u]
  else (env.patchesFor u).map patchEdge ++
    (env.nars.filter fun narFile => narFile.storePath = u).map narEdge

/-- The paths that the patches for a path need. -/
def DownloadEnv.basesFor (env : DownloadEnv) (u : Str) : List Str :=
  if env.isValidPath u then [] else (env.patchesFor u).map PatchRow.basePath

/-- The loop over the patches adds the edges of those that can be applied. -/
theorem foldl_patches (l : List PatchRow) (st : DownloadGraph × List Str) :
    l.foldl (fun st patch =>
        if env.canApply patch then (st.1.addEdge (patchEdge patch), st.2 ++ [patch.basePath])
        else st) st =
      ((l.filter env.canApply).foldl (fun g patch => g.addEdge (patchEdge patch)) st.1,
        st.2 ++ (l.filter env.canApply).map PatchRow.basePath) := by
  induction l generalizing st with
  | nil => rw [List.filter_nil, List.map_nil, List.append_nil]; rfl
  | cons patch l ih =>
    rw [List.foldl_cons, ih, List.filter_cons]
    split_ifs with hcan
    · rw [List.foldl_cons, List.map_cons, List.append_assoc, List.singleton_append]
    · rfl

/-- What a turn of the first loop does. -/
theorem explore_spec (env : DownloadEnv) (u : Str) (g : DownloadGraph) (queue : List Str) :
    (env.explore u g queue).1.edges = g.edges ++ env.stepsFor u ∧
      (env.explore u g queue).2 = queue ++ env.basesFor u ∧
      ∀ v, v ∈ g.nodes ∨ v = u → v ∈ (env.explore u g queue).1.nodes := by
  rw [DownloadEnv.explore, DownloadEnv.stepsFor, DownloadEnv.basesFor]
  dsimp only
  split_ifs with hvalid
  · refine ⟨?_, (List.append_nil _).symm, fun v hv => ?_⟩
    · rw [edges_addEdge, edges_addNode]
    · exact mem_nodes_addEdge.mpr (Or.inl (mem_nodes_addNode.mpr hv))
  · rw [foldl_patches]
    obtain ⟨hpatches, hnodes⟩ := foldl_addEdge patchEdge (env.patchesFor u) (g.addNode u)
    obtain ⟨hnars, hnodes'⟩ := foldl_addEdge narEdge
      (env.nars.filter fun narFile => narFile.storePath = u)
      ((env.patchesFor u).foldl (fun g patch => g.addEdge (patchEdge patch)) (g.addNode u))
    refine ⟨?_, rfl, fun v hv => hnodes' v (hnodes v (mem_nodes_addNode.mpr hv))⟩
    rw [hpatches, edges_addNode, List.append_assoc] at hnars
    exact hnars

/-- The steps for a node lead to it. -/
theorem isPlanStep_of_mem_stepsFor (h : e ∈ env.stepsFor u) :
    IsPlanStep env env.canApply e ∧ e.dest = u := by
  rw [DownloadEnv.stepsFor] at h
  split_ifs at h with hvalid
  · obtain rfl := List.mem_singleton.mp h
    exact ⟨.present hvalid, rfl⟩
  · rcases List.mem_append.mp h with h | h
    · obtain ⟨patch, hpatch, rfl⟩ := List.mem_map.mp h
      obtain ⟨hmem, hcan⟩ := List.mem_filter.mp hpatch
      obtain ⟨hmem, hpath⟩ := List.mem_filter.mp hmem
      exact ⟨.patch hmem hcan, of_decide_eq_true hpath⟩
    · obtain ⟨narFile, hnar, rfl⟩ := List.mem_map.mp h
      obtain ⟨hmem, hpath⟩ := List.mem_filter.mp hnar
      exact ⟨.narfile hmem, of_decide_eq_true hpath⟩

/-! ### The first loop -/

/-- The invariant of the first loop. -/
structure DiscoverInv (env : DownloadEnv) (targetPath : Str) (g : DownloadGraph)
    (done queue : List Str) : Prop where
  start : startNode ∈ g.nodes
  target : targetPath ∈ done ∨ targetPath ∈ queue
  nodes : ∀ v ∈ done, v ∈ g.nodes
  dest : ∀ e ∈ g.edges, e.dest ∈ done ∧ IsPlanStep env env.canApply e
  steps : ∀ v ∈ done, ∀ e ∈ env.stepsFor v, e ∈ g.edges
  bases : ∀ v ∈ done, ∀ b ∈ env.basesFor v, b ∈ done ∨ b ∈ queue

variable {targetPath : Str}

/-- A node that is done is passed over. -/
theorem DiscoverInv.skip (h : DiscoverInv env targetPath g done (u :: queue)) (hu : u ∈ done) :
    DiscoverInv env targetPath g done queue := by
  have hqueue : ∀ v, v ∈ done ∨ v ∈ u :: queue → v ∈ done ∨ v ∈ queue := by
    rintro v (hv | hv)
    · exact Or.inl hv
    · rcases List.mem_cons.mp hv with rfl | hv
      · exact Or.inl hu
      · exact Or.inr hv
  exact ⟨h.start, hqueue _ h.target, h.nodes, h.dest, h.steps,
    fun v hv b hb => hqueue b (h.bases v hv b hb)⟩

/-- A node is explored: its steps are added, and their bases queued. -/
theorem DiscoverInv.explore (h : DiscoverInv env targetPath g done (u :: queue)) :
    DiscoverInv env targetPath (env.explore u g queue).1 (u :: done) (env.explore u g queue).2 := by
  obtain ⟨hedges, hnew, hnodes⟩ := explore_spec env u g queue
  have hqueue : ∀ v, v ∈ done ∨ v ∈ u :: queue → v ∈ u :: done ∨ v ∈ queue ++ env.basesFor u := by
    rintro v (hv | hv)
    · exact Or.inl (List.mem_cons_of_mem u hv)
    · rcases List.mem_cons.mp hv with rfl | hv
      · exact Or.inl List.mem_cons_self
      · exact Or.inr (List.mem_append_left _ hv)
  refine ⟨hnodes _ (Or.inl h.start), ?_, fun v hv => ?_, fun e he => ?_, fun v hv e he => ?_,
    fun v hv b hb => ?_⟩
  · rw [hnew]
    exact hqueue _ h.target
  · rcases List.mem_cons.mp hv with rfl | hv
    · exact hnodes _ (Or.inr rfl)
    · exact hnodes _ (Or.inl (h.nodes v hv))
  · rw [hedges] at he
    rcases List.mem_append.mp he with he | he
    · exact ⟨List.mem_cons_of_mem u (h.dest e he).1, (h.dest e he).2⟩
    · obtain ⟨hstep, rfl⟩ := isPlanStep_of_mem_stepsFor he
      exact ⟨List.mem_cons_self, hstep⟩
  · rw [hedges]
    rcases List.mem_cons.mp hv with rfl | hv
    · exact List.mem_append_right _ he
    · exact List.mem_append_left _ (h.steps v hv e he)
  · rw [hnew]
    rcases List.mem_cons.mp hv with rfl | hv
    · exact Or.inr (List.mem_append_right _ hb)
    · exact hqueue b (h.bases v hv b hb)

/-- The patches for paths that are not done: each of them can still add to the queue. -/
def DownloadEnv.remaining (env : DownloadEnv) (done : List Str) : ℕ :=
  env.patches.countP fun patch => patch.storePath ∉ done

/-- Exploring a node leaves less to be explored. -/
theorem remaining_cons (hu : u ∉ done) :
    env.remaining (u :: done) + (env.basesFor u).length ≤ env.remaining done := by
  have hbases : (env.basesFor u).length ≤ env.patches.countP fun patch => patch.storePath = u := by
    rw [DownloadEnv.basesFor]
    split_ifs
    · exact Nat.zero_le _
    · rw [List.length_map, DownloadEnv.patchesFor, List.countP_eq_length_filter]
      exact List.length_filter_le _ _
  refine (Nat.add_le_add_left hbases _).trans ?_
  rw [DownloadEnv.remaining, DownloadEnv.remaining]
  induction env.patches with
  | nil => exact le_rfl
  | cons patch l ih =>
    have hone : (if decide (patch.storePath ∉ u :: done) = true then 1 else 0) +
        (if decide (patch.storePath = u) = true then 1 else 0) ≤
          if decide (patch.storePath ∉ done) = true then 1 else 0 := by
      by_cases heq : patch.storePath = u
      · simp [heq, hu]
      · simp [heq]
    rw [List.countP_cons, List.countP_cons, List.countP_cons]
    omega

/-- The first loop ends. -/
theorem DiscoverInv.discover {n : ℕ} (h : DiscoverInv env targetPath g done queue)
    (hn : queue.length + env.remaining done ≤ n) :
    ∃ g' done', env.discover n g done queue = .ok g' ∧ DiscoverInv env targetPath g' done' [] := by
  induction n generalizing g done queue with
  | zero =>
    obtain rfl : queue = [] := List.length_eq_zero_iff.mp (by omega)
    exact ⟨g, done, rfl, h⟩
  | succ n ih =>
    cases queue with
    | nil => exact ⟨g, done, rfl, h⟩
    | cons u queue =>
      rw [List.length_cons] at hn
      rw [DownloadEnv.discover]
      split_ifs with hu
      · exact ih (h.skip hu) (by omega)
      · refine ih h.explore ?_
        have hremaining : env.remaining (u :: done) + (env.basesFor u).length ≤ env.remaining done :=
          remaining_cons hu
        rw [(explore_spec env u g queue).2.1, List.length_append]
        omega

/-! ### Plans and paths in the graph -/

/-- A way in the graph produces the path at its end. -/
theorem DiscoverInv.produces (h : DiscoverInv env targetPath g done queue)
    (hpath : g.weighted.LeadsTo startNode v path) : Produces env env.canApply v path := by
  induction hpath with
  | nil => exact .nil
  | @cons e path he hpath ih => exact .cons (h.dest e (List.mem_filter.mp he).1).2 ih

/-- An edge of the graph behind a path in the graph. -/
theorem leadsTo_cons (he : e ∈ g.edges) (hpath : g.weighted.LeadsTo startNode e.start path) :
    g.weighted.LeadsTo startNode e.dest (e :: path) :=
  .cons (List.mem_filter.mpr ⟨he, decide_eq_true rfl⟩) hpath

/-- For each plan there is a path in the graph that costs no more. -/
theorem DiscoverInv.exists_leadsTo (h : DiscoverInv env targetPath g done [])
    (hpath : Produces env env.canApply v path) (hv : v ∈ done) :
    ∃ path', g.weighted.LeadsTo startNode v path' ∧ totalWeight path' ≤ totalWeight path := by
  induction hpath with
  | nil => exact ⟨[], .nil, le_rfl⟩
  | @cons e path he hpath ih =>
    have hsteps := h.steps e.dest hv
    have hbases := h.bases e.dest hv
    rw [DownloadEnv.stepsFor] at hsteps
    rw [DownloadEnv.basesFor] at hbases
    by_cases hvalid : env.isValidPath e.dest = true
    · rw [if_pos hvalid] at hsteps
      exact ⟨[presentEdge e.dest], leadsTo_cons (hsteps _ (List.mem_singleton_self _)) .nil,
        Nat.zero_le _⟩
    · rw [if_neg hvalid] at hsteps hbases
      have hweight : totalWeight (e :: path) = e.weight + totalWeight path := List.sum_cons
      cases he with
      | present hpresent => exact absurd hpresent hvalid
      | @narfile narFile hmem =>
        have hedge := hsteps (narEdge narFile) (List.mem_append_right _ (List.mem_map_of_mem
          (List.mem_filter.mpr ⟨hmem, decide_eq_true rfl⟩)))
        refine ⟨[narEdge narFile], leadsTo_cons hedge .nil, ?_⟩
        rw [hweight]
        exact Nat.le_add_right _ _
      | @patch patch hmem hcan =>
        have hpatch : patch ∈ env.patchesFor (patchEdge patch).dest :=
          List.mem_filter.mpr ⟨List.mem_filter.mpr ⟨hmem, decide_eq_true rfl⟩, hcan⟩
        have hedge := hsteps (patchEdge patch) (List.mem_append_left _ (List.mem_map_of_mem hpatch))
        have hbase : patch.basePath ∈ done :=
          (hbases _ (List.mem_map_of_mem hpatch)).resolve_right List.not_mem_nil
        obtain ⟨path', hpath', hle⟩ := ih hbase
        refine ⟨patchEdge patch :: path', leadsTo_cons hedge hpath', ?_⟩
        rw [hweight]
        exact Nat.add_le_add_left hle _

/-- What `computeSmallestDownload` returns. -/
structure IsCheapest (env : DownloadEnv) (canApply : PatchRow → Bool) (targetPath : Str)
    (path : List DownloadEdge) : Prop where
  produces : path ≠ [] → Produces env canApply targetPath path ∧ totalWeight path < unreached ∧
    ∀ path', Produces env canApply targetPath path' → totalWeight path ≤ totalWeight path'
  empty : path = [] → ∀ path', Produces env canApply targetPath path' →
    unreached ≤ totalWeight path'

/-- The result is a cheapest plan for the target, whatever the order of the keys. -/
theorem computeSmallestDownload_isCheapest {keys : List Str → List Str}
    (hkeys : ∀ l, (keys l).Perm l) (htarget : targetPath ≠ startNode) :
    ∃ path, computeSmallestDownload env keys targetPath = .ok path ∧
      IsCheapest env env.canApply targetPath path := by
  have hinitial : DiscoverInv env targetPath ⟨[startNode], []⟩ [] [targetPath] :=
    ⟨List.mem_singleton_self _, Or.inr (List.mem_singleton_self _),
      fun v hv => absurd hv List.not_mem_nil, fun e he => absurd he List.not_mem_nil,
      fun v hv => absurd hv List.not_mem_nil, fun v hv => absurd hv List.not_mem_nil⟩
  have hfuel : [targetPath].length + env.remaining [] ≤ env.patches.length + 1 := by
    have hle := List.countP_le_length (p := fun patch : PatchRow => decide (patch.storePath ∉ []))
      (l := env.patches)
    rw [DownloadEnv.remaining, List.length_singleton]
    omega
  obtain ⟨g, done, hdiscover, h⟩ := hinitial.discover hfuel
  have hdone : targetPath ∈ done := h.target.resolve_right List.not_mem_nil
  have hmem : ∀ {v}, v ∈ keys g.nodes ↔ v ∈ g.nodes := (hkeys g.nodes).mem_iff
  have hclosed : ∀ v ∈ keys g.nodes, ∀ e ∈ g.weighted.edges v, g.weighted.target e ∈ keys g.nodes :=
    fun v _ e he => hmem.mpr (h.nodes _ (h.dest e (List.mem_filter.mp he).1).1)
  obtain ⟨hnone, hsome⟩ := @WeightedGraph.dijkstra_spec _ _ g.weighted _ startNode targetPath unreached
    (keys g.nodes) (hmem.mpr h.start) hclosed (hmem.mpr (h.nodes _ hdone)) htarget
  rw [computeSmallestDownload, hdiscover, Outcome.ok_bind]
  dsimp only
  split_ifs with hpred
  · refine ⟨[], rfl, fun hne => absurd rfl hne, fun _ path' hpath' => ?_⟩
    obtain ⟨path, hpath, hle⟩ := h.exists_leadsTo hpath' hdone
    exact (hnone hpred path hpath).trans hle
  · obtain ⟨path, hretrieve, hne, hpath, hbound, hleast⟩ := hsome hpred
    rw [hretrieve]
    refine ⟨path, rfl, fun _ => ⟨h.produces hpath, hbound, fun path' hpath' => ?_⟩,
      fun hnil => absurd hnil hne⟩
    obtain ⟨path'', hpath'', hle⟩ := h.exists_leadsTo hpath' hdone
    exact (hleast path'' hpath'').trans hle

/-- A store in which `/b` is valid and has the hash `y`, and a patch that makes `/t` of `/b`. -/
def patchSample (baseHash : Str) : DownloadEnv where
  patches := [⟨str "/t", str "/b", baseHash, str "http://c/p", 1⟩]
  nars := []
  isValidPath u := u = str "/b"
  pathHash _ _ := str "y"

/-- A patch whose base is there and has the right hash. -/
theorem computeSmallestDownload_sample : ∃ path,
    computeSmallestDownload (patchSample (str "sha256:y")) id (str "/t") = .ok path ∧
      IsCheapest (patchSample (str "sha256:y")) (patchSample (str "sha256:y")).canApply (str "/t")
        path :=
  computeSmallestDownload_isCheapest (fun l => List.Perm.refl l) (by decide)

/-- A patch whose base is there, but has another hash, is not used. -/
theorem not_isCheapest_otherHash : ¬ ∀ (env : DownloadEnv) (keys : List Str → List Str)
    (targetPath : Str), (∀ l, (keys l).Perm l) → targetPath ≠ startNode →
      ∃ path, computeSmallestDownload env keys targetPath = .ok path ∧
        IsCheapest env (fun _ => true) targetPath path := by
  intro hall
  obtain ⟨path, hpath, hcheapest⟩ := hall (patchSample (str "sha256:x")) id (str "/t")
    (fun l => List.Perm.refl l) (by decide)
  have hempty : computeSmallestDownload (patchSample (str "sha256:x")) id (str "/t") = .ok [] := by
    decide +kernel
  obtain rfl : [] = path := Outcome.ok.inj (hempty.symm.trans hpath)
  have hpresent : Produces (patchSample (str "sha256:x")) (fun _ => true) (str "/b")
      [presentEdge (str "/b")] := .cons (.present (by decide)) .nil
  have hstep : IsPlanStep (patchSample (str "sha256:x")) (fun _ => true)
      (patchEdge ⟨str "/t", str "/b", str "sha256:x", str "http://c/p", 1⟩) :=
    .patch (List.mem_singleton_self _) rfl
  have hplan := Produces.cons hstep hpresent
  exact absurd (hcheapest.empty rfl _ hplan) (by decide)

end

end Nix
