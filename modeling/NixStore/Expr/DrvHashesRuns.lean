import NixStore.Expr.InstantiatedOutputs
import NixStore.Derivations.ModuloInputs

/-!
# The cache of hashes over a run

A process fills `drvHashes` at two places: `hashDerivationModulo` enters the hashes of inputs that it
has read from the store, and `prim_derivationStrict` the hash of the derivation that it has just
written.  `invalidatePath` removes an entry.  In every state that is reached in this way, and while
other paths become valid, `hashDerivationModulo` ends as if it had no cache (`drvHashes_transparent`).
In read-only mode nothing is written, and the cache has entries for derivations that are not there.
-/

namespace Nix

open Relation

/-! ### The steps -/

/-- The derivations of a store, what is registered as their references, and the cache of a process. -/
structure DrvHashesState where
  store : DrvStore
  references : Path → PathSet
  drvHashes : DrvHashes

namespace DrvHashesState

/-- A file is registered at a path where nothing is valid. -/
def register (s : DrvHashesState) (path : Path) (text : Str) (refs : PathSet) : DrvHashesState where
  store :=
    { isValidPath := fun p => if p = path then true else s.store.isValidPath p
      readFile := fun p => if p = path then .ok text else s.store.readFile p
      uninit := s.store.uninit }
  references p := if p = path then refs else s.references p
  drvHashes := s.drvHashes

/-- The effect of `addTextToStore` without `repair`: a valid path is left as it is. -/
def addTextToStore (s : DrvHashesState) (path : Path) (text : Str) (refs : PathSet) :
    DrvHashesState :=
  if s.store.isValidPath path then s else s.register path text refs

/-- Model of `invalidatePath`. -/
def invalidatePath (s : DrvHashesState) (path : Path) : DrvHashesState where
  store := { s.store with isValidPath := fun p => if p = path then false else s.store.isValidPath p }
  references := s.references
  drvHashes := s.drvHashes.erase path

/-- What `prim_derivationStrict` leaves: the file of the derivation, unless `readOnlyMode` is set, and the
entry for it. -/
def instantiate (readOnlyMode : Bool) (s : DrvHashesState) (i : Instantiated) (drvHashes : DrvHashes) :
    DrvHashesState :=
  let s := if readOnlyMode then s
    else s.addTextToStore i.drvPath (unparseDerivation i.drv) (derivationReferences i.drv)
  { s with drvHashes }

end DrvHashesState

/-- A step of a process, with its setting of `readOnlyMode`. -/
inductive DrvHashesStep (readOnlyMode : Bool) (cfg : StoreConfig) (sha256 : Str → Str) :
    DrvHashesState → DrvHashesState → Prop where
  /-- A call of `hashDerivationModulo`, which may also throw. -/
  | hash (s : DrvHashesState) (fuel : ℕ) (drv : Derivation) :
      DrvHashesStep readOnlyMode cfg sha256 s
        { s with drvHashes := (hashDerivationModulo sha256 s.store fuel drv s.drvHashes).2 }
  /-- A call of `prim_derivationStrict`.  If its path was valid already, it has the same contents. -/
  | instantiate (s : DrvHashesState) {α : Type} (env : EvalEnv α) (store : EvalStore)
      (order : PathSet → List Str) (fuel : ℕ) (v : α) (srcToStore : SrcToStore cfg sha256)
      (i : Instantiated) (tables : EvalTables cfg sha256) (hstore : store.drvs = s.store)
      (hrun : derivationStrict env store order fuel v ⟨srcToStore, s.drvHashes⟩ = .ok (i, tables))
      (hnul : i.drv.NulFree) (habs : ∀ p ∈ derivationReferences i.drv, isAbsolute p = true)
      (hsame : s.store.isValidPath i.drvPath = true →
        s.store.readFile i.drvPath = .ok (unparseDerivation i.drv)) :
      DrvHashesStep readOnlyMode cfg sha256 s (s.instantiate readOnlyMode i tables.drvHashes)
  /-- A path becomes valid, which can also be the work of another process.  If it is a derivation, its
  inputs are among its references. -/
  | register (s : DrvHashesState) (path : Path) (text : Str) (refs : PathSet)
      (hnew : s.store.isValidPath path = false)
      (hrefs : ∀ drv, parseDerivation s.store.uninit text = .ok drv → ∀ p ∈ drv.inputDrvs, p ∈ refs) :
      DrvHashesStep readOnlyMode cfg sha256 s (s.register path text refs)
  /-- The process itself invalidates a path without valid referrers.  The entry of a path that another
  process invalidates would stay. -/
  | invalidate (s : DrvHashesState) (path : Path)
      (hreferrers : ∀ p, s.store.isValidPath p = true → path ∈ s.references p → p = path) :
      DrvHashesStep readOnlyMode cfg sha256 s (s.invalidatePath path)

/-! ### Hashes in two stores -/

section

variable {sha256 : Str → Str} {store store' : DrvStore} {drv : Derivation} {h : Hash}

/-- Replacing the inputs depends on their hashes only. -/
theorem replaceInputs_congr {f g : Path → Outcome Str Hash} {inputs : List (Path × SortedSet Str)}
    {acc inputs2 : SortedMap Str (SortedSet Str)}
    (hfg : ∀ i ∈ inputs, ∀ h, f i.1 = .ok h → g i.1 = .ok h)
    (hf : replaceInputs f inputs acc = .ok inputs2) : replaceInputs g inputs acc = .ok inputs2 := by
  unfold replaceInputs at hf ⊢
  induction inputs generalizing acc with
  | nil => exact hf
  | cons i inputs ih =>
    obtain ⟨hi, hrest⟩ := List.forall_mem_cons.mp hfg
    rw [List.foldlM_cons] at hf ⊢
    obtain ⟨acc', hstep, hf⟩ := Outcome.bind_eq_ok.mp hf
    obtain ⟨h, hh, hacc⟩ := Outcome.bind_eq_ok.mp hstep
    cases hacc
    rw [hi h hh]
    exact ih hrest hf

/-- Two stores agree on the paths that a hash depends on: a set of paths that is closed under inputs. -/
structure DrvStore.AgreeOn (store store' : DrvStore) (P : Path → Prop) : Prop where
  load : ∀ p drv, P p → store.load p = .ok drv → store'.load p = .ok drv
  inputs : ∀ p drv, P p → store.load p = .ok drv → ∀ q ∈ drv.inputDrvs, P q

/-- Without the table the hash depends on the derivations below it only. -/
theorem DrvStore.AgreeOn.hashModuloUncached {P : Path → Prop} (hagree : store.AgreeOn store' P)
    {n : ℕ} (hdrv : ∀ q ∈ drv.inputDrvs, P q) (hh : hashModuloUncached sha256 store n drv = .ok h) :
    hashModuloUncached sha256 store' n drv = .ok h := by
  induction n generalizing drv h with
  | zero => cases hh
  | succ n ih =>
    rw [Nix.hashModuloUncached, hashModuloBody] at hh ⊢
    split_ifs at hh ⊢ with hfixed
    · exact hh
    · obtain ⟨inputs2, hinputs, hh⟩ := Outcome.bind_eq_ok.mp hh
      refine Outcome.bind_eq_ok.mpr ⟨inputs2, replaceInputs_congr (fun i hi h' hload => ?_) hinputs, hh⟩
      have hP : P i.1 := hdrv i.1 (SortedMap.mem_iff_exists.mpr ⟨i.2, hi⟩)
      obtain ⟨drv', hdrv', hh'⟩ := Outcome.bind_eq_ok.mp hload
      exact Outcome.bind_eq_ok.mpr ⟨drv', hagree.load i.1 drv' hP hdrv',
        ih (hagree.inputs i.1 drv' hP hdrv') hh'⟩

/-- The hash depends on the derivations below it only. -/
theorem DrvStore.AgreeOn.hashModulo {P : Path → Prop} (hagree : store.AgreeOn store' P)
    (hdrv : ∀ q ∈ drv.inputDrvs, P q) (hh : HashModulo sha256 store drv h) :
    HashModulo sha256 store' drv h := by
  obtain ⟨n, hn⟩ := hh
  exact ⟨n, hagree.hashModuloUncached hdrv hn⟩

/-- The hash of an input depends on the derivations below it only. -/
theorem DrvStore.AgreeOn.inputHash {P : Path → Prop} (hagree : store.AgreeOn store' P) {p : Path}
    (hp : P p) (hh : InputHash sha256 store p h) : InputHash sha256 store' p h := by
  obtain ⟨drv, hload, hh⟩ := inputHash_iff.mp hh
  exact inputHash_iff.mpr ⟨drv, hagree.load p drv hp hload,
    hagree.hashModulo (hagree.inputs p drv hp hload) hh⟩

end

/-! ### The invariant -/

section

variable {cfg : StoreConfig} {sha256 : Str → Str} {s s' : DrvHashesState}

/-- The cache is in order, and the inputs of derivations are among their references. -/
structure DrvHashesState.Invariant (sha256 : Str → Str) (s : DrvHashesState) : Prop where
  cacheOk : CacheOk sha256 s.store s.drvHashes
  referenced : ∀ p drv, s.store.load p = .ok drv → ∀ q ∈ drv.inputDrvs, q ∈ s.references p

/-- A derivation is loaded when it is valid and its file can be read and parsed. -/
theorem DrvStore.load_eq_ok_iff {store : DrvStore} {p : Path} {drv : Derivation} :
    store.load p = .ok drv ↔ store.isValidPath p = true ∧ ∃ text, store.readFile p = .ok text ∧
      parseDerivation store.uninit text = .ok drv := by
  unfold DrvStore.load
  split_ifs with hvalid
  · rw [Outcome.bind_eq_ok]
    simp only [hvalid, true_and]
  · exact iff_of_false (by simp) fun h => hvalid h.1

namespace DrvHashesState

/-- Registering a path leaves the derivations at the others alone. -/
theorem load_register_of_ne {path p : Path} (hne : p ≠ path) (text : Str) (refs : PathSet) :
    (s.register path text refs).store.load p = s.store.load p := by
  simp only [DrvStore.load, register, if_neg hne]

/-- A path that was registered is loaded from its text. -/
theorem load_register_self (path : Path) (text : Str) (refs : PathSet) :
    (s.register path text refs).store.load path = parseDerivation s.store.uninit text := by
  simp only [DrvStore.load, register, if_true, Outcome.ok_bind]

/-- A path that becomes valid does not change what can be read of other paths. -/
theorem agreeOn_register {path : Path} (hnew : s.store.isValidPath path = false) (text : Str)
    (refs : PathSet) : s.store.AgreeOn (s.register path text refs).store fun _ => True where
  load p drv _ hload := by
    have hne : p ≠ path := by
      rintro rfl
      have hvalid := (DrvStore.load_eq_ok_iff.mp hload).1
      rw [hnew] at hvalid
      cases hvalid
    rw [load_register_of_ne hne]
    exact hload
  inputs _ _ _ _ _ _ := trivial

/-- `addTextToStore` changes no derivation that was there. -/
theorem agreeOn_addTextToStore (path : Path) (text : Str) (refs : PathSet) :
    s.store.AgreeOn (s.addTextToStore path text refs).store fun _ => True := by
  unfold addTextToStore
  split_ifs with hvalid
  · exact ⟨fun _ _ _ h => h, fun _ _ _ _ _ _ => trivial⟩
  · exact agreeOn_register (Bool.eq_false_iff.mpr hvalid) text refs

end DrvHashesState

/-- A table that is right for a store is right for every store that agrees with it. -/
theorem CacheOk.of_agreeOn {store store' : DrvStore} {c : DrvHashes} (hc : CacheOk sha256 store c)
    (hagree : store.AgreeOn store' fun _ => True) : CacheOk sha256 store' c :=
  fun p h hp hne => hagree.inputHash trivial (hc p h hp hne)

/-- Setting the outputs keeps the table right. -/
theorem cacheOk_setOutputs {store : DrvStore} {fuel : ℕ} {st : StrictState cfg sha256}
    {c c' : DrvHashes} {drv : Derivation} (hc : CacheOk sha256 store c)
    (hrun : setOutputs cfg sha256 store fuel st c = .ok (drv, c')) : CacheOk sha256 store c' := by
  unfold setOutputs at hrun
  split_ifs at hrun
  · obtain ⟨drv', -, hrun⟩ := Outcome.bind_eq_ok.mp hrun
    cases hrun
    exact hc
  · obtain ⟨⟨h, c₁⟩, hhash, hrun⟩ := Outcome.bind_eq_ok.mp hrun
    obtain ⟨drv', -, hrun⟩ := Outcome.bind_eq_ok.mp hrun
    cases hrun
    exact (runHashModulo_spec hc hhash).1

/-- What `prim_derivationStrict` enters in the cache is the hash of the derivation that it returns. -/
theorem drvHashes_derivationStrict {α : Type} {env : EvalEnv α} {store : EvalStore}
    {order : PathSet → List Str} {fuel : ℕ} {v : α} {tables tables' : EvalTables cfg sha256}
    {i : Instantiated} (hc : CacheOk sha256 store.drvs tables.drvHashes)
    (hrun : derivationStrict env store order fuel v tables = .ok (i, tables')) :
    ∃ h c, CacheOk sha256 store.drvs c ∧ HashModulo sha256 store.drvs i.drv h ∧
      tables'.drvHashes = c.insert i.drvPath h := by
  obtain ⟨attrs, -, hrun⟩ := Outcome.bind_eq_ok.mp hrun
  obtain ⟨st, -, hrun⟩ := Outcome.bind_eq_ok.mp hrun
  obtain ⟨drv, -, hrun⟩ := Outcome.bind_eq_ok.mp hrun
  obtain ⟨-, -, hrun⟩ := Outcome.bind_eq_ok.mp hrun
  obtain ⟨⟨drv', c₁⟩, houtputs, hrun⟩ := Outcome.bind_eq_ok.mp hrun
  obtain ⟨drvPath, -, hrun⟩ := Outcome.bind_eq_ok.mp hrun
  obtain ⟨⟨h, c₂⟩, hhash, hrun⟩ := Outcome.bind_eq_ok.mp hrun
  cases hrun
  obtain ⟨hc₂, hmodulo⟩ := runHashModulo_spec (cacheOk_setOutputs hc houtputs) hhash
  exact ⟨h, c₂, hc₂, hmodulo, rfl⟩

/-- The input derivations are among the references. -/
theorem mem_derivationReferences {drv : Derivation} {p : Path} (hp : p ∈ drv.inputDrvs) :
    p ∈ derivationReferences drv :=
  SortedSet.mem_foldl_insert.mpr (Or.inl hp)

/-- The input derivations of an instantiation are absolute paths. -/
theorem absolutePaths_of_derivationStrict {α : Type} {env : EvalEnv α} {store : EvalStore}
    {order : PathSet → List Str} {fuel : ℕ} {v : α} {tables tables' : EvalTables cfg sha256}
    {i : Instantiated} (hc : CacheOk sha256 store.drvs tables.drvHashes)
    (hrun : derivationStrict env store order fuel v tables = .ok (i, tables'))
    (habs : ∀ p ∈ derivationReferences i.drv, isAbsolute p = true) : i.drv.AbsolutePaths where
  outputs := (accepted_of_derivationStrict hc hrun).isAbsolute_outputs
  inputDrvs d hd := habs d.1 (mem_derivationReferences (SortedMap.mem_iff_exists.mpr ⟨d.2, hd⟩))
  inputSrcs p hp := habs p (SortedSet.mem_foldl_insert.mpr (Or.inr hp))

namespace DrvHashesState.Invariant

/-- A new path may be registered when the input derivations of its text are among its references. -/
theorem register (hs : s.Invariant sha256) {path : Path} {text : Str} {refs : PathSet}
    (hnew : s.store.isValidPath path = false)
    (hrefs : ∀ drv, parseDerivation s.store.uninit text = .ok drv → ∀ p ∈ drv.inputDrvs, p ∈ refs) :
    (s.register path text refs).Invariant sha256 where
  cacheOk := hs.cacheOk.of_agreeOn (agreeOn_register hnew text refs)
  referenced p drv hload q hq := by
    by_cases hp : p = path
    · subst hp
      rw [load_register_self] at hload
      simp only [DrvHashesState.register, if_true]
      exact hrefs drv hload q hq
    · rw [load_register_of_ne hp] at hload
      simp only [DrvHashesState.register, if_neg hp]
      exact hs.referenced p drv hload q hq

/-- Invalidation leaves the derivations at the other paths alone. -/
theorem load_invalidatePath {path p : Path} (hne : p ≠ path) :
    (s.invalidatePath path).store.load p = s.store.load p := by
  simp only [DrvStore.load, invalidatePath, if_neg hne]

/-- Nothing that is still valid depends on a path without valid referrers. -/
theorem agreeOn_invalidatePath (hs : s.Invariant sha256) {path : Path}
    (hreferrers : ∀ p, s.store.isValidPath p = true → path ∈ s.references p → p = path) :
    s.store.AgreeOn (s.invalidatePath path).store fun p => p ≠ path where
  load p drv hp h := (load_invalidatePath hp).trans h
  inputs p drv hp h q hq := by
    rintro rfl
    exact hp (hreferrers p (DrvStore.load_eq_ok_iff.mp h).1 (hs.referenced p drv h q hq))

/-- A path without referrers may be invalidated, and its entry is erased from the table. -/
theorem invalidate (hs : s.Invariant sha256) {path : Path}
    (hreferrers : ∀ p, s.store.isValidPath p = true → path ∈ s.references p → p = path) :
    (s.invalidatePath path).Invariant sha256 := by
  have hagree := hs.agreeOn_invalidatePath hreferrers
  refine ⟨fun p h hp hne => ?_, fun p drv h => ?_⟩
  · simp only [invalidatePath, SortedMap.find?_erase] at hp
    split_ifs at hp with heq
    exact hagree.inputHash heq (hs.cacheOk p h hp hne)
  · have hne : p ≠ path := by
      rintro rfl
      have hvalid := (DrvStore.load_eq_ok_iff.mp h).1
      simp [invalidatePath] at hvalid
    rw [load_invalidatePath hne] at h
    exact hs.referenced p drv h

/-- The derivation at a path that has just been written. -/
theorem load_instantiate {i : Instantiated} {c : DrvHashes} (hnul : i.drv.NulFree)
    (habs : i.drv.AbsolutePaths) (hsame : s.store.isValidPath i.drvPath = true →
      s.store.readFile i.drvPath = .ok (unparseDerivation i.drv)) :
    (s.instantiate false i c).store.load i.drvPath = .ok i.drv := by
  have hparse := @parseDerivation_unparseDerivation s.store.uninit _ hnul habs
  simp only [DrvHashesState.instantiate, Bool.false_eq_true, if_false, addTextToStore]
  split_ifs with hvalid
  · exact DrvStore.load_eq_ok_iff.mpr ⟨hvalid, _, hsame hvalid, hparse⟩
  · exact (load_register_self i.drvPath _ (derivationReferences i.drv)).trans hparse

/-- An instantiation keeps the invariant: the derivation is written, and its hash goes into the
table. -/
theorem instantiate (hs : s.Invariant sha256) {α : Type} {env : EvalEnv α} {store : EvalStore}
    {order : PathSet → List Str} {fuel : ℕ} {v : α} {srcToStore : SrcToStore cfg sha256}
    {i : Instantiated} {tables : EvalTables cfg sha256} (hstore : store.drvs = s.store)
    (hrun : derivationStrict env store order fuel v ⟨srcToStore, s.drvHashes⟩ = .ok (i, tables))
    (hnul : i.drv.NulFree) (hrefs : ∀ p ∈ derivationReferences i.drv, isAbsolute p = true)
    (hsame : s.store.isValidPath i.drvPath = true →
      s.store.readFile i.drvPath = .ok (unparseDerivation i.drv)) :
    (s.instantiate false i tables.drvHashes).Invariant sha256 := by
  obtain ⟨h, c, hc, hhash, hinsert⟩ := drvHashes_derivationStrict (hstore ▸ hs.cacheOk) hrun
  have habs := absolutePaths_of_derivationStrict (hstore ▸ hs.cacheOk) hrun hrefs
  rw [hstore] at hc hhash
  have hagree : s.store.AgreeOn (s.instantiate false i tables.drvHashes).store fun _ => True :=
    agreeOn_addTextToStore i.drvPath (unparseDerivation i.drv) (derivationReferences i.drv)
  refine ⟨?_, ?_⟩
  · have hentry : InputHash sha256 (s.instantiate false i tables.drvHashes).store i.drvPath h :=
      inputHash_iff.mpr ⟨i.drv, load_instantiate hnul habs hsame,
        hagree.hashModulo (fun _ _ => trivial) hhash⟩
    change CacheOk sha256 _ tables.drvHashes
    rw [hinsert]
    exact (hc.of_agreeOn hagree).insert fun _ => hentry
  · simp only [DrvHashesState.instantiate, Bool.false_eq_true, if_false, addTextToStore]
    split_ifs with hvalid
    · exact hs.referenced
    · refine (hs.register (Bool.eq_false_iff.mpr hvalid) fun drv hparse p hp => ?_).referenced
      rw [parseDerivation_unparseDerivation hnul habs] at hparse
      cases hparse
      exact mem_derivationReferences hp

/-- Every step keeps the invariant. -/
theorem step (hs : s.Invariant sha256) (hstep : DrvHashesStep false cfg sha256 s s') :
    s'.Invariant sha256 := by
  cases hstep with
  | hash fuel drv => exact ⟨hs.cacheOk.hashDerivationModulo fuel drv, hs.referenced⟩
  | instantiate env store order fuel v srcToStore i tables hstore hrun hnul habs hsame =>
    exact hs.instantiate hstore hrun hnul habs hsame
  | register path text refs hnew hrefs => exact hs.register hnew hrefs
  | invalidate path hreferrers => exact hs.invalidate hreferrers

/-- Every run keeps the invariant. -/
theorem run (hs : s.Invariant sha256) (hrun : ReflTransGen (DrvHashesStep false cfg sha256) s s') :
    s'.Invariant sha256 := by
  induction hrun with
  | refl => exact hs
  | tail _ hstep ih => exact ih.step hstep

/-- A step leaves what is still valid as it was, and what that depends on. -/
theorem agree (hs : s.Invariant sha256) (hstep : DrvHashesStep false cfg sha256 s s') :
    ∃ P, s.store.AgreeOn s'.store P ∧ ∀ p, s'.store.isValidPath p = true → P p := by
  cases hstep with
  | hash fuel drv =>
    exact ⟨fun _ => True, ⟨fun _ _ _ h => h, fun _ _ _ _ _ _ => trivial⟩, fun _ _ => trivial⟩
  | instantiate => exact ⟨fun _ => True, agreeOn_addTextToStore _ _ _, fun _ _ => trivial⟩
  | register path text refs hnew =>
    exact ⟨fun _ => True, agreeOn_register hnew text refs, fun _ _ => trivial⟩
  | invalidate path hreferrers =>
    refine ⟨fun p => p ≠ path, hs.agreeOn_invalidatePath hreferrers, fun p hp heq => ?_⟩
    simp [invalidatePath, heq] at hp

end DrvHashesState.Invariant

/-- With a cache in order, `hashDerivationModulo` ends like the recursion without the cache that does
not run out of its bound. -/
theorem hashDerivationModulo_eq_uncached {store : DrvStore} {c : DrvHashes}
    (hc : CacheOk sha256 store c) {n : ℕ} {drv : Derivation}
    (hn : hashModuloUncached sha256 store n drv ≠ .diverge) :
    (hashDerivationModulo sha256 store n drv c).1 =
      (DrvM.lift (hashModuloUncached sha256 store n drv) c).1 := by
  have hends := mirrors_hashDerivationModulo n drv c hc
  have hmono : Outcome.Mono fun n => hashModuloUncached sha256 store n drv :=
    mono_hashModuloUncached drv
  unfold Prog.Ends at hends
  cases hu : hashModuloUncached sha256 store n drv with
  | diverge => exact absurd hu hn
  | ok h => exact hashDerivationModulo_of_uncached hc hu
  | error msg =>
    have hmax : ∀ k, hashModuloUncached sha256 store (max n k) drv = .error msg := fun k =>
      (hmono n _ (le_max_left _ _)).eq_of_error hu
    rcases hr : hashDerivationModulo sha256 store n drv c with ⟨e | h, c'⟩
    · rw [hr] at hends
      cases e with
      | error msg' =>
        obtain ⟨k, hk⟩ := hends.2
        have herr := (hmono k (max n k) (le_max_right _ _)).eq_of_error hk
        cases (hmax k).symm.trans herr
        rfl
      | outOfFuel => exact absurd (hu.symm.trans hends.2) (by simp)
    · rw [hr] at hends
      obtain ⟨k, hk⟩ := hends.2
      have hok := (hmono k (max n k) (le_max_right _ _)).eq_of_ok hk
      exact absurd ((hmax k).symm.trans hok) (by simp)

/-! ### The check of a derivation that has been written -/

/-- A derivation is in the store, and its outputs are as the check demands. -/
structure DrvHashesState.Holds (cfg : StoreConfig) (sha256 : Str → Str) (s : DrvHashesState)
    (path : Path) (drv : Derivation) : Prop where
  load : s.store.load path = .ok drv
  accepted : Accepted cfg sha256 s.store path drv

/-- What was accepted stays accepted while the derivations below it agree. -/
theorem Accepted.of_agreeOn {store store' : DrvStore} {P : Path → Prop} {path : Path}
    {drv : Derivation} (hagree : store.AgreeOn store' P) (hdrv : ∀ q ∈ drv.inputDrvs, P q)
    (h : Accepted cfg sha256 store path drv) : Accepted cfg sha256 store' path drv := by
  obtain ⟨drvName, hname, h⟩ := h
  refine ⟨drvName, hname, ?_⟩
  split_ifs at h ⊢
  · exact h
  · obtain ⟨hash, hh, houtputs⟩ := h
    exact ⟨hash, hagree.hashModulo hdrv hh, houtputs⟩

namespace DrvHashesState.Holds

variable {path : Path} {drv : Derivation}

/-- What holds of a valid derivation holds after every step that leaves it valid. -/
theorem step (h : s.Holds cfg sha256 path drv) (hs : s.Invariant sha256)
    (hstep : DrvHashesStep false cfg sha256 s s') (hvalid : s'.store.isValidPath path = true) :
    s'.Holds cfg sha256 path drv := by
  obtain ⟨P, hagree, hP⟩ := hs.agree hstep
  exact ⟨hagree.load path drv (hP path hvalid) h.load,
    h.accepted.of_agreeOn hagree (hagree.inputs path drv (hP path hvalid) h.load)⟩

/-- What holds of a valid derivation holds as long as it stays valid. -/
theorem run (h : s.Holds cfg sha256 path drv) (hs : s.Invariant sha256)
    (hrun : ReflTransGen
      (fun t t' => DrvHashesStep false cfg sha256 t t' ∧ t'.store.isValidPath path = true) s s') :
    s'.Invariant sha256 ∧ s'.Holds cfg sha256 path drv := by
  induction hrun with
  | refl => exact ⟨hs, h⟩
  | tail _ hstep ih => exact ⟨ih.1.step hstep.1, ih.2.step ih.1 hstep.1 hstep.2⟩

end DrvHashesState.Holds

end

/-! ### Every run -/

/-- The state of a new process with an empty store. -/
def newDrvHashesState : DrvHashesState where
  store := ⟨fun _ => false, fun path => .error (str "opening file `" ++ path ++ str "'"), fun _ => []⟩
  references _ := ∅
  drvHashes := ∅

/-- The instantiation of a derivation without inputs in it. -/
def plainRun : Outcome Str (Instantiated × EvalTables defaultConfig fun _ => [0]) :=
  derivationStrict plainEvalEnv { sampleEvalStore with drvs := newDrvHashesState.store }
    SortedSet.toList 5 0 ⟨.empty, newDrvHashesState.drvHashes⟩

/-- What it returns. -/
def plainInstantiated : Instantiated × EvalTables defaultConfig fun _ => [0] :=
  plainRun.getD ⟨⟨[], ⟨∅, ∅, ∅, [], [], [], ∅⟩⟩, ⟨.empty, ∅⟩⟩

/-- The state after it. -/
def plainState : DrvHashesState :=
  newDrvHashesState.instantiate false plainInstantiated.1 plainInstantiated.2.drvHashes

/-- The values for a derivation whose builder is the output of that one. -/
def appEvalEnv : EvalEnv ℕ where
  forceValue
    | 0 => .ok (.tAttrs [⟨str "name", 1, noPos⟩, ⟨str "system", 1, noPos⟩, ⟨str "builder", 2, noPos⟩])
    | 1 => .ok (.tString (str "app") ∅)
    | _ => .ok (.tString (str "/bin/sh")
        (.ofList [outputContext (str "out") plainInstantiated.1.drvPath]))
  hashPath _ := .ok ⟨.htSHA256, [0]⟩

/-- Its instantiation after the first one. -/
def appRun : Outcome Str (Instantiated × EvalTables defaultConfig fun _ => [0]) :=
  derivationStrict appEvalEnv { sampleEvalStore with drvs := plainState.store }
    SortedSet.toList 5 0 ⟨.empty, plainState.drvHashes⟩

/-- What it returns. -/
def appInstantiated : Instantiated × EvalTables defaultConfig fun _ => [0] :=
  appRun.getD ⟨⟨[], ⟨∅, ∅, ∅, [], [], [], ∅⟩⟩, ⟨.empty, ∅⟩⟩

/-- The state after both. -/
def appState : DrvHashesState :=
  plainState.instantiate false appInstantiated.1 appInstantiated.2.drvHashes

/-- The result of the first sample. -/
theorem plainRun_eq : plainRun = .ok plainInstantiated := by
  have hok : plainRun.isOk = true := by decide
  obtain ⟨a, ha⟩ := Outcome.isOk_iff.mp hok
  rw [plainInstantiated, ha, Outcome.getD]

/-- The result of the second sample, which has the first as an input. -/
theorem appRun_eq : appRun = .ok (appInstantiated.1, appInstantiated.2) := by
  have hok : appRun.isOk = true := by decide +kernel
  obtain ⟨a, ha⟩ := Outcome.isOk_iff.mp hok
  rw [appInstantiated, ha, Outcome.getD]

/-- In an empty store no derivation is valid. -/
theorem load_newDrvHashesState (p : Path) :
    newDrvHashesState.store.load p = .error notValidMessage := rfl

/-- In an empty store every derivation has its inputs among the references. -/
theorem referenced_newDrvHashesState (p : Path) (drv : Derivation)
    (h : newDrvHashesState.store.load p = .ok drv) :
    ∀ q ∈ drv.inputDrvs, q ∈ newDrvHashesState.references p := by
  rw [load_newDrvHashesState] at h
  cases h

/-- The first sample has no NUL. -/
theorem plainInstantiated_nulFree : plainInstantiated.1.drv.NulFree := by decide +kernel

/-- The references of the first sample are absolute paths. -/
theorem plainInstantiated_absolute :
    ∀ p ∈ derivationReferences plainInstantiated.1.drv, isAbsolute p = true := by
  have hnone : (derivationReferences plainInstantiated.1.drv).toList = [] := by decide
  intro p hp
  rw [← SortedSet.mem_toList, hnone] at hp
  cases hp

/-- The second sample has no NUL. -/
theorem appInstantiated_nulFree : appInstantiated.1.drv.NulFree := by decide +kernel

/-- The references of the second sample are absolute paths. -/
theorem appInstantiated_absolute :
    ∀ p ∈ derivationReferences appInstantiated.1.drv, isAbsolute p = true := by
  have hall : ∀ p ∈ (derivationReferences appInstantiated.1.drv).toList, isAbsolute p = true := by
    decide +kernel
  exact fun p hp => hall p (SortedSet.mem_toList.mpr hp)

/-- The second sample is new in the store that has the first. -/
theorem appInstantiated_new : plainState.store.isValidPath appInstantiated.1.drvPath = false := by
  decide +kernel

/-- The two derivations are instantiated one after the other. -/
theorem run_plainState : ReflTransGen (DrvHashesStep false defaultConfig fun _ => [0])
    newDrvHashesState plainState :=
  .single (.instantiate newDrvHashesState plainEvalEnv _ SortedSet.toList 5 0 .empty _ _ rfl
    plainRun_eq plainInstantiated_nulFree plainInstantiated_absolute fun h => nomatch h)

/-- The second sample is a step from the store that has the first. -/
theorem step_appState : DrvHashesStep false defaultConfig (fun _ => [0]) plainState appState := by
  have hsame : plainState.store.isValidPath appInstantiated.1.drvPath = true →
      plainState.store.readFile appInstantiated.1.drvPath =
        .ok (unparseDerivation appInstantiated.1.drv) := by
    intro h
    rw [appInstantiated_new] at h
    cases h
  rw [appState]
  exact .instantiate plainState appEvalEnv { sampleEvalStore with drvs := plainState.store }
    SortedSet.toList 5 0 .empty appInstantiated.1 appInstantiated.2 rfl appRun_eq
    appInstantiated_nulFree appInstantiated_absolute hsame

section

variable {cfg : StoreConfig} {sha256 : Str → Str} {s s' : DrvHashesState}

/-- In every state that a process comes to from an empty cache, `hashDerivationModulo` ends as it
would without the cache: whenever the recursion without the cache ends, with the same result or
exception, and whenever it ends itself, as that recursion does. -/
theorem drvHashes_transparent (hempty : s.drvHashes = ∅)
    (hrefs : ∀ p drv, s.store.load p = .ok drv → ∀ q ∈ drv.inputDrvs, q ∈ s.references p)
    (hrun : ReflTransGen (DrvHashesStep false cfg sha256) s s') (drv : Derivation) :
    (∀ n, hashModuloUncached sha256 s'.store n drv ≠ .diverge →
      (hashDerivationModulo sha256 s'.store n drv s'.drvHashes).1 =
        (DrvM.lift (hashModuloUncached sha256 s'.store n drv) s'.drvHashes).1) ∧
    ∀ n, (hashDerivationModulo sha256 s'.store n drv s'.drvHashes).1 ≠ .error .outOfFuel →
      ∃ k, (hashDerivationModulo sha256 s'.store n drv s'.drvHashes).1 =
        (DrvM.lift (hashModuloUncached sha256 s'.store k drv) s'.drvHashes).1 := by
  have hstart : s.Invariant sha256 := ⟨hempty ▸ cacheOk_empty sha256 s.store, hrefs⟩
  have hc := (hstart.run hrun).cacheOk
  refine ⟨fun n hn => hashDerivationModulo_eq_uncached hc hn, fun n hn => ?_⟩
  have hends := mirrors_hashDerivationModulo n drv s'.drvHashes hc
  unfold Prog.Ends at hends
  rcases hr : hashDerivationModulo sha256 s'.store n drv s'.drvHashes with ⟨e | h, c'⟩
  · rw [hr] at hends hn
    cases e with
    | error msg =>
      obtain ⟨k, hk⟩ := hends.2
      exact ⟨k, by dsimp only at hk; rw [hk]; rfl⟩
    | outOfFuel => exact absurd rfl hn
  · rw [hr] at hends
    obtain ⟨k, hk⟩ := hends.2
    exact ⟨k, by dsimp only at hk; rw [hk]; rfl⟩

/-- The second of two derivations, which has an output of the first one as an input. -/
theorem drvHashes_transparent_appState :
    (hashDerivationModulo (fun _ => [0]) appState.store 2 appInstantiated.1.drv appState.drvHashes).1 =
    (DrvM.lift (hashModuloUncached (fun _ => [0]) appState.store 2 appInstantiated.1.drv)
      appState.drvHashes).1 :=
  (drvHashes_transparent rfl referenced_newDrvHashesState (run_plainState.tail step_appState)
    appInstantiated.1.drv).1 2 (by decide +kernel)

/-- A derivation that `prim_derivationStrict` has written is read back as it was, and it passes
`checkDerivationOutputs` at any later time as long as it is valid, whatever is in the cache by then. -/
theorem fresh_accepted (hempty : s.drvHashes = ∅)
    (hrefs : ∀ p drv, s.store.load p = .ok drv → ∀ q ∈ drv.inputDrvs, q ∈ s.references p)
    (hrun : ReflTransGen (DrvHashesStep false cfg sha256) s s') {α : Type} {env : EvalEnv α}
    {store : EvalStore} {order : PathSet → List Str} {fuel : ℕ} {v : α}
    {srcToStore : SrcToStore cfg sha256} {i : Instantiated} {tables : EvalTables cfg sha256}
    (hstore : store.drvs = s'.store)
    (hinstantiate : derivationStrict env store order fuel v ⟨srcToStore, s'.drvHashes⟩ = .ok (i, tables))
    (hnul : i.drv.NulFree) (habs : ∀ p ∈ derivationReferences i.drv, isAbsolute p = true)
    (hsame : s'.store.isValidPath i.drvPath = true →
      s'.store.readFile i.drvPath = .ok (unparseDerivation i.drv)) {t : DrvHashesState}
    (hlater : ReflTransGen
      (fun t t' => DrvHashesStep false cfg sha256 t t' ∧ t'.store.isValidPath i.drvPath = true)
      (s'.instantiate false i tables.drvHashes) t) :
    t.store.load i.drvPath = .ok i.drv ∧
      ∃ n, (checkDerivationOutputs cfg sha256 t.store n i.drvPath i.drv t.drvHashes).1 = .ok () := by
  have hstart : s.Invariant sha256 := ⟨hempty ▸ cacheOk_empty sha256 s.store, hrefs⟩
  have hs' := hstart.run hrun
  have hc : CacheOk sha256 store.drvs s'.drvHashes := hstore ▸ hs'.cacheOk
  have hdrv := absolutePaths_of_derivationStrict hc hinstantiate habs
  have hagree : s'.store.AgreeOn (s'.instantiate false i tables.drvHashes).store fun _ => True :=
    DrvHashesState.agreeOn_addTextToStore i.drvPath _ _
  have hholds : (s'.instantiate false i tables.drvHashes).Holds cfg sha256 i.drvPath i.drv :=
    ⟨DrvHashesState.Invariant.load_instantiate hnul hdrv hsame,
      (hstore ▸ accepted_of_derivationStrict hc hinstantiate).of_agreeOn hagree fun _ _ => trivial⟩
  obtain ⟨ht, h⟩ := hholds.run (hs'.instantiate hstore hinstantiate hnul habs hsame) hlater
  obtain ⟨n, hn⟩ := checkDerivationOutputs_of_accepted h.accepted
  exact ⟨h.load, n, hn t.drvHashes ht.cacheOk⟩

/-- The state after the hash of the second derivation has been computed once more. -/
def hashedState : DrvHashesState :=
  { appState with drvHashes :=
      (hashDerivationModulo (fun _ => [0]) appState.store 2 appInstantiated.1.drv appState.drvHashes).2 }

/-- The second of two derivations, in a later state. -/
theorem fresh_accepted_hashedState : ∃ n,
    (checkDerivationOutputs defaultConfig (fun _ => [0]) hashedState.store n appInstantiated.1.drvPath
      appInstantiated.1.drv hashedState.drvHashes).1 = .ok () := by
  have hsame : plainState.store.isValidPath appInstantiated.1.drvPath = true →
      plainState.store.readFile appInstantiated.1.drvPath =
        .ok (unparseDerivation appInstantiated.1.drv) := by
    intro h
    rw [appInstantiated_new] at h
    cases h
  have hstore : hashedState.store = appState.store := by rw [hashedState]
  have hvalid : hashedState.store.isValidPath appInstantiated.1.drvPath = true := by
    rw [hstore]
    simp [appState, DrvHashesState.instantiate, DrvHashesState.addTextToStore, appInstantiated_new,
      DrvHashesState.register]
  have hlater : ReflTransGen (fun t t' => DrvHashesStep false defaultConfig (fun _ => [0]) t t' ∧
      t'.store.isValidPath appInstantiated.1.drvPath = true)
      (plainState.instantiate false appInstantiated.1 appInstantiated.2.drvHashes) hashedState := by
    rw [← appState]
    exact .single ⟨.hash appState 2 appInstantiated.1.drv, hvalid⟩
  have hdrvs : ({ sampleEvalStore with drvs := plainState.store } : EvalStore).drvs =
      plainState.store := rfl
  exact (fresh_accepted rfl referenced_newDrvHashesState run_plainState hdrvs appRun_eq
    appInstantiated_nulFree appInstantiated_absolute hsame hlater).2

end

end Nix
