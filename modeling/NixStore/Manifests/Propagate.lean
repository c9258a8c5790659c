import NixStore.Lib.Passes
import NixStore.Manifests.Tables

/-!
# Propagation of patches

Model of `propagatePatches`.  A pass looks at all store paths with patches in the source, in any order,
and adds their patches to the destination if the path is wanted there or is the base of a patch that was
there at the beginning of the pass.  Passes are repeated until one adds nothing.
-/

namespace Nix

/-- The keys of a table in the order in which each pass gets them. -/
structure KeyOrders {κ β : Type} [LinearOrder κ] (t : Table κ β) where
  order : ℕ → List κ
  perm : ∀ i, (order i).Perm t.keys

/-- `dstBasePaths` -/
def basePaths (patches : PatchTable) : List Str :=
  patches.entries.flatMap fun e => e.2.map fun patch => patch.basePath.text

section

variable (srcPatches : PatchTable) (dstNarFiles : NarTable)

/-- One pass of `propagatePatches`, and whether it has added a patch. -/
def propagatePass (order : List Str) (dstPatches : PatchTable) : PatchTable × Bool :=
  let dstBasePaths := basePaths dstPatches
  order.foldl (fun acc p =>
    if p ∈ dstNarFiles ∨ p ∈ dstBasePaths then
      (srcPatches.listAt p).foldl (fun acc patch =>
        let (dst, added) := addPatch acc.1 p patch
        (dst, added || acc.2)) acc
    else acc) (dstPatches, false)

/-- Model of `propagatePatches`, with a bound on the number of passes. -/
def propagatePatches (orders : KeyOrders srcPatches) (fuel : ℕ) (dstPatches : PatchTable) :
    Option PatchTable :=
  repeatPasses (fun i => propagatePass srcPatches dstNarFiles (orders.order i)) fuel 0 dstPatches

/-- Sets of store paths with patches that have the initial patches of the destination in them, and all
patches of the source that produce a path of the destination or the base of a patch in the set. -/
structure IsClosed (dstPatches : PatchTable) (S : Set (Str × Str × Str)) : Prop where
  initial : dstPatches.keysOf Patch.key ⊆ S
  narFile : ∀ p ∈ dstNarFiles, ∀ patch ∈ srcPatches.listAt p, (p, patch.key) ∈ S
  base : ∀ x ∈ S, ∀ patch ∈ srcPatches.listAt x.2.2, (x.2.2, patch.key) ∈ S

end

variable {srcPatches dstPatches : PatchTable} {dstNarFiles : NarTable} {order : List Str}

/-! ### One pass -/

/-- The paths that patches of the table start from. -/
theorem mem_basePaths {p : Str} : p ∈ basePaths dstPatches ↔
    ∃ x ∈ dstPatches.keysOf Patch.key, x.2.2 = p := by
  simp only [basePaths, List.mem_flatMap, List.mem_map]
  constructor
  · rintro ⟨e, he, patch, hpatch, rfl⟩
    exact ⟨(e.1, patch.key), ⟨patch, Table.mem_listAt.mpr ⟨e.2, he, hpatch⟩, rfl⟩, rfl⟩
  · rintro ⟨x, ⟨patch, hpatch, hkey⟩, rfl⟩
    obtain ⟨l, hl, hmem⟩ := Table.mem_listAt.mp hpatch
    exact ⟨(x.1, l), hl, patch, hmem, by rw [← hkey]; rfl⟩

/-- The patches that a pass adds, each with the path that it produces. -/
def selectedPatches (srcPatches : PatchTable) (dstNarFiles : NarTable) (order : List Str)
    (dstPatches : PatchTable) : List (Str × Patch) :=
  order.flatMap fun p =>
    if p ∈ dstNarFiles ∨ p ∈ basePaths dstPatches then
      (srcPatches.listAt p).map fun patch => (p, patch)
    else []

/-- The patches that a pass selects. -/
theorem mem_selectedPatches {e : Str × Patch} :
    e ∈ selectedPatches srcPatches dstNarFiles order dstPatches ↔
      e.1 ∈ order ∧ (e.1 ∈ dstNarFiles ∨ ∃ x ∈ dstPatches.keysOf Patch.key, x.2.2 = e.1) ∧
        e.2 ∈ srcPatches.listAt e.1 := by
  rw [selectedPatches, List.mem_flatMap]
  constructor
  · rintro ⟨p, hp, he⟩
    split_ifs at he with hwanted
    · obtain ⟨patch, hpatch, rfl⟩ := List.mem_map.mp he
      exact ⟨hp, hwanted.imp_right mem_basePaths.mp, hpatch⟩
    · cases he
  · rintro ⟨hp, hwanted, hpatch⟩
    refine ⟨e.1, hp, ?_⟩
    rw [if_pos (hwanted.imp_right mem_basePaths.mpr)]
    exact List.mem_map_of_mem hpatch

/-- The patches that a pass selects, path by path. -/
theorem selectedPatches_cons (p : Str) (order : List Str) :
    selectedPatches srcPatches dstNarFiles (p :: order) dstPatches =
      (if p ∈ dstNarFiles ∨ p ∈ basePaths dstPatches then
        (srcPatches.listAt p).map fun patch => (p, patch)
      else []) ++ selectedPatches srcPatches dstNarFiles order dstPatches := rfl

/-- A pass adds the selected patches. -/
theorem propagatePass_eq : propagatePass srcPatches dstNarFiles order dstPatches =
    addEntries Patch.key (dstPatches, false)
      (selectedPatches srcPatches dstNarFiles order dstPatches) := by
  have hloop : ∀ (order : List Str) (acc : PatchTable × Bool), order.foldl (fun acc p =>
      if p ∈ dstNarFiles ∨ p ∈ basePaths dstPatches then
        (srcPatches.listAt p).foldl (fun acc patch =>
          let (dst, added) := addPatch acc.1 p patch
          (dst, added || acc.2)) acc
      else acc) acc =
      addEntries Patch.key acc (selectedPatches srcPatches dstNarFiles order dstPatches) := by
    intro order
    induction order with
    | nil => exact fun acc => rfl
    | cons p order ih =>
      intro acc
      rw [List.foldl_cons, ih, selectedPatches_cons, addEntries_append]
      split_ifs
      · congr 1
        rw [addEntries, List.foldl_map]
        rfl
      · rfl
  exact hloop order (dstPatches, false)

/-! ### All passes -/

variable {S : Set (Str × Str × Str)}

/-- A pass stays in every closed set. -/
theorem keysOf_propagatePass_subset (hS : IsClosed srcPatches dstNarFiles dstPatches S)
    {t : PatchTable} (ht : t.keysOf Patch.key ⊆ S) :
    (propagatePass srcPatches dstNarFiles order t).1.keysOf Patch.key ⊆ S := by
  rw [propagatePass_eq, keysOf_addEntries]
  refine Set.union_subset ht ?_
  rintro x ⟨e, he, rfl⟩
  obtain ⟨-, hnar | ⟨x, hx, hbase⟩, hpatch⟩ := mem_selectedPatches.mp he
  · exact hS.narFile e.1 hnar e.2 hpatch
  · have hmem := hS.base x (ht hx) e.2 (hbase ▸ hpatch)
    rwa [hbase] at hmem

/-- A path with a patch is a key. -/
theorem mem_keys_of_mem_listAt {p : Str} {patch : Patch} (h : patch ∈ srcPatches.listAt p) :
    p ∈ srcPatches.keys := by
  obtain ⟨l, hl, -⟩ := Table.mem_listAt.mp h
  exact List.mem_map_of_mem hl

/-- A table is closed if a pass adds nothing to it. -/
theorem isClosed_of_unchanged (horder : order.Perm srcPatches.keys) {t : PatchTable}
    (hinitial : dstPatches.keysOf Patch.key ⊆ t.keysOf Patch.key)
    (h : (propagatePass srcPatches dstNarFiles order t).2 = false) :
    IsClosed srcPatches dstNarFiles dstPatches (t.keysOf Patch.key) := by
  have hall : ∀ e ∈ selectedPatches srcPatches dstNarFiles order t,
      (e.1, e.2.key) ∈ t.keysOf Patch.key := by
    intro e he
    by_contra hnot
    rw [propagatePass_eq, (addEntries_changed t).mpr ⟨e, he, hnot⟩] at h
    cases h
  refine ⟨hinitial, fun p hp patch hpatch => ?_, fun x hx patch hpatch => ?_⟩
  · refine hall (p, patch) (mem_selectedPatches.mpr ⟨?_, Or.inl hp, hpatch⟩)
    exact horder.mem_iff.mpr (mem_keys_of_mem_listAt hpatch)
  · refine hall (x.2.2, patch) (mem_selectedPatches.mpr ⟨?_, Or.inr ⟨x, hx, rfl⟩, hpatch⟩)
    exact horder.mem_iff.mpr (mem_keys_of_mem_listAt hpatch)

/-- A pass over a closed table leaves it as it is. -/
theorem propagatePass_of_isClosed {t : PatchTable}
    (h : IsClosed srcPatches dstNarFiles dstPatches (t.keysOf Patch.key)) :
    propagatePass srcPatches dstNarFiles order t = (t, false) := by
  rw [propagatePass_eq]
  refine addEntries_of_subset fun e he => ?_
  obtain ⟨-, hnar | ⟨x, hx, hbase⟩, hpatch⟩ := mem_selectedPatches.mp he
  · exact h.narFile e.1 hnar e.2 hpatch
  · have hmem := h.base x hx e.2 (hbase ▸ hpatch)
    rwa [hbase] at hmem

/-- How many patches of the source a table does not have. -/
noncomputable def missingPatches (srcPatches t : PatchTable) : ℕ :=
  (srcPatches.keysOf Patch.key \ t.keysOf Patch.key).ncard

/-- A pass that adds something leaves fewer patches of the source to add. -/
theorem missingPatches_lt {t : PatchTable}
    (h : (propagatePass srcPatches dstNarFiles order t).2 = true) :
    missingPatches srcPatches (propagatePass srcPatches dstNarFiles order t).1 <
      missingPatches srcPatches t := by
  rw [propagatePass_eq, addEntries_changed] at h
  obtain ⟨e, he, hnew⟩ := h
  have hsrc : (e.1, e.2.key) ∈ srcPatches.keysOf Patch.key :=
    ⟨e.2, (mem_selectedPatches.mp he).2.2, rfl⟩
  have hadded : (e.1, e.2.key) ∈
      (propagatePass srcPatches dstNarFiles order t).1.keysOf Patch.key := by
    rw [propagatePass_eq, keysOf_addEntries]
    exact Or.inr ⟨e, he, rfl⟩
  have hold : t.keysOf Patch.key ⊆
      (propagatePass srcPatches dstNarFiles order t).1.keysOf Patch.key := by
    rw [propagatePass_eq, keysOf_addEntries]
    exact Set.subset_union_left
  refine Set.ncard_lt_ncard ?_ (((srcPatches.finite_keysOf Patch.key)).subset Set.sdiff_subset)
  refine (Set.ssubset_iff_of_subset (Set.sdiff_subset_sdiff_right hold)).mpr ?_
  exact ⟨_, ⟨hsrc, hnew⟩, fun hmem => hmem.2 hadded⟩

/-- What holds of the destination after any number of passes. -/
structure Propagated (srcPatches dstPatches : PatchTable) (dstNarFiles : NarTable) (t : PatchTable) :
    Prop where
  extends_initial : dstPatches.Extends t
  origin : ∀ p, ∀ patch ∈ t.listAt p, patch ∈ dstPatches.listAt p ∨ patch ∈ srcPatches.listAt p
  least : ∀ S, IsClosed srcPatches dstNarFiles dstPatches S → t.keysOf Patch.key ⊆ S

/-- A pass keeps what was propagated so far. -/
theorem Propagated.pass {t : PatchTable} (h : Propagated srcPatches dstPatches dstNarFiles t)
    (order : List Str) :
    Propagated srcPatches dstPatches dstNarFiles
      (propagatePass srcPatches dstNarFiles order t).1 := by
  refine ⟨?_, fun p patch hpatch => ?_, fun S hS => keysOf_propagatePass_subset hS (h.least S hS)⟩
  · rw [propagatePass_eq]
    exact h.extends_initial.trans (@extends_addEntries _ _ _ _ _ _ (t, false) _)
  · rw [propagatePass_eq] at hpatch
    rcases mem_listAt_addEntries hpatch with hpatch | hpatch
    · exact h.origin p patch hpatch
    · exact Or.inr (mem_selectedPatches.mp hpatch).2.2

/-- The first table is propagated from itself. -/
theorem propagated_refl :
    Propagated srcPatches dstPatches dstNarFiles dstPatches :=
  ⟨.refl _, fun _ _ => Or.inl, fun _ hS => hS.initial⟩

/-- An extended table has the patches it had. -/
theorem keysOf_subset_of_extends {t t' : PatchTable} (h : t.Extends t') :
    t.keysOf Patch.key ⊆ t'.keysOf Patch.key := by
  rintro x ⟨patch, hpatch, hkey⟩
  exact ⟨patch, (h x.1).subset hpatch, hkey⟩

/-- Propagation ends with the least closed set of patches, up to their store path, URL and base path;
the patches of the destination are still there, and others come from the source.  A second run changes
nothing. -/
theorem propagatePatches_closure (srcPatches dstPatches : PatchTable) (dstNarFiles : NarTable)
    (orders orders' : KeyOrders srcPatches) :
    ∃ N t, (∀ fuel, N < fuel →
        propagatePatches srcPatches dstNarFiles orders fuel dstPatches = some t) ∧
      IsLeast {S | IsClosed srcPatches dstNarFiles dstPatches S} (t.keysOf Patch.key) ∧
      dstPatches.Extends t ∧
      (∀ p, ∀ patch ∈ t.listAt p, patch ∈ dstPatches.listAt p ∨ patch ∈ srcPatches.listAt p) ∧
      ∀ fuel, propagatePatches srcPatches dstNarFiles orders' (fuel + 1) t = some t := by
  obtain ⟨t, ht⟩ := exists_repeatPasses (missingPatches srcPatches)
    (fun _ _ h => missingPatches_lt h) dstPatches
  have hpass : ∀ i s, Propagated srcPatches dstPatches dstNarFiles s →
      Propagated srcPatches dstPatches dstNarFiles
        (propagatePass srcPatches dstNarFiles (orders.order i) s).1 := fun i s hs => hs.pass _
  obtain ⟨j, t', hprop, hlast⟩ := repeatPasses_spec hpass propagated_refl
    (ht _ (Nat.lt_succ_self _))
  have hclosed' : IsClosed srcPatches dstNarFiles dstPatches (t'.keysOf Patch.key) :=
    isClosed_of_unchanged (orders.perm j) (keysOf_subset_of_extends hprop.extends_initial)
      (by rw [hlast])
  obtain rfl : t' = t := by
    rw [propagatePass_of_isClosed hclosed'] at hlast
    exact congrArg Prod.fst hlast
  refine ⟨_, t', ht, ⟨hclosed', fun S hS => hprop.least S hS⟩, hprop.extends_initial, hprop.origin,
    fun fuel => repeatPasses_of_unchanged ?_ fuel⟩
  exact propagatePass_of_isClosed hclosed'

end Nix
