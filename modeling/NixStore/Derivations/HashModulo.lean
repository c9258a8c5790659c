import NixStore.Lib.Prog
import NixStore.Store.StorePaths

/-!
# Hashes of derivations modulo their fixed-output inputs

Model of `hashDerivationModulo` of `derivations.cc`.  The cache `drvHashes` is the state of the
program, so its entries survive exceptions; the recursion is bounded by an argument, and a run that
needs a deeper one ends in `outOfFuel`.  `hashModuloUncached` is the same recursion without the
cache.  The cache is transparent as long as its entries are results of the latter (`CacheOk`).
-/

namespace Nix

/-- What the recursion needs of a store. -/
structure DrvStore where
  isValidPath : Path → Bool
  readFile : Path → Outcome Str Str
  /-- What `expect` compares where a file ends too early. -/
  uninit : Str → Str

/-- Model of `DrvHashes`. -/
abbrev DrvHashes := SortedMap Path Hash

/-- Why a call of `hashDerivationModulo` does not return. -/
inductive DrvStop where
  /-- An exception, or a failed assertion. -/
  | error (msg : Str)
  /-- The recursion is deeper than the bound. -/
  | outOfFuel
deriving DecidableEq

/-- Programs with the cache. -/
abbrev DrvM := Prog DrvHashes DrvStop

/-- An operation that has nothing to do with the cache. -/
def DrvM.lift {α : Type} : Outcome Str α → DrvM α
  | .ok a => pure a
  | .error e => .throw (.error e)
  | .diverge => .throw .outOfFuel

/-- `drvHashes[path]`, which makes a default entry if there is none. -/
def drvHashesAt (path : Path) : DrvM Hash := fun c =>
  match c.find? path with
  | some h => (.ok h, c)
  | none => (.ok .unusable, c.insert path .unusable)

/-- The string that is hashed for a fixed-output derivation. -/
def fixedOutputText (drv : Derivation) : Str :=
  match drv.outputs.entries with
  | [] => []
  | (_, out) :: _ =>
    str "fixed:out:" ++ out.hashAlgo ++ str ":" ++ out.hash ++ str ":" ++ out.path

/-- The string that is hashed for another derivation, with its inputs replaced. -/
def moduloText (drv : Derivation) (inputs2 : SortedMap Str (SortedSet Str)) : Str :=
  unparseDerivation { drv with inputDrvs := inputs2 }

section

variable {m : Type → Type} [Monad m] (sha256 : Str → Str) (inputHash : Path → m Hash)

/-- The loop over the inputs, given a program for the hash of an input. -/
def replaceInputs (inputs : List (Path × SortedSet Str)) (inputs2 : SortedMap Str (SortedSet Str)) :
    m (SortedMap Str (SortedSet Str)) :=
  inputs.foldlM (fun inputs2 i => do
    let h ← inputHash i.1
    return inputs2.insert (printHash h) i.2) inputs2

/-- The body of `hashDerivationModulo`, given a program for the hash of an input. -/
def hashModuloBody (drv : Derivation) : m Hash :=
  if isFixedOutputDrv drv then pure (hashString sha256 (fixedOutputText drv))
  else do
    let inputs2 ← replaceInputs inputHash drv.inputDrvs.entries ∅
    return hashString sha256 (moduloText drv inputs2)

end

/-- The message of the failed assertion that an input is valid. -/
def notValidMessage : Str := str "assertion failed: store.isValidPath(i->first)"

section

variable (sha256 : Str → Str) (store : DrvStore)

/-- The derivation at a path, which has to be valid. -/
def DrvStore.load (path : Path) : Outcome Str Derivation :=
  if store.isValidPath path then do
    let s ← store.readFile path
    parseDerivation store.uninit s
  else .error notValidMessage

/-- The hash of an input, from the cache if it is there. -/
def cachedInputHash (recur : Derivation → DrvM Hash) (path : Path) : DrvM Hash := do
  let h ← drvHashesAt path
  if h.type = .htUnknown then
    let drv2 ← DrvM.lift (store.load path)
    let h ← recur drv2
    Prog.modify fun c => c.insert path h
    return h
  else return h

/-- Model of `hashDerivationModulo`. -/
def hashDerivationModulo : ℕ → Derivation → DrvM Hash
  | 0, _ => .throw .outOfFuel
  | fuel + 1, drv =>
    hashModuloBody sha256 (cachedInputHash store (hashDerivationModulo fuel)) drv

/-- The recursion of `hashDerivationModulo` without the cache: the derivations of all inputs are
read and parsed anew. -/
def hashModuloUncached : ℕ → Derivation → Outcome Str Hash
  | 0, _ => .diverge
  | fuel + 1, drv =>
    hashModuloBody sha256 (fun path => store.load path >>= hashModuloUncached fuel) drv

/-- The hash of an input without the cache. -/
def inputHashUncached (fuel : ℕ) (path : Path) : Outcome Str Hash :=
  store.load path >>= hashModuloUncached sha256 store fuel

end

/-! ### Deeper recursions -/

section

variable {sha256 : Str → Str} {store : DrvStore}

/-- A better approximation of the hashes of the inputs gives one of the hash. -/
theorem approx_hashModuloBody {f g : Path → Outcome Str Hash} (hfg : ∀ p, (f p).Approx (g p))
    (drv : Derivation) : (hashModuloBody sha256 f drv).Approx (hashModuloBody sha256 g drv) := by
  unfold hashModuloBody replaceInputs
  split_ifs
  · exact .refl _
  · refine Outcome.Approx.bind (.foldlM (fun b i => ?_) _ _) fun _ => .refl _
    exact (hfg i.1).bind fun _ => .refl _

/-- One more unit of fuel gives a better approximation. -/
theorem approx_hashModuloUncached_succ (n : ℕ) (drv : Derivation) :
    (hashModuloUncached sha256 store n drv).Approx (hashModuloUncached sha256 store (n + 1) drv) := by
  induction n generalizing drv with
  | zero => exact Or.inl rfl
  | succ n ih =>
    rw [hashModuloUncached, hashModuloUncached]
    exact approx_hashModuloBody (fun p => .bind (.refl _) ih) drv

/-- A larger bound does not change a result. -/
theorem approx_hashModuloUncached {n k : ℕ} (h : n ≤ k) (drv : Derivation) :
    (hashModuloUncached sha256 store n drv).Approx (hashModuloUncached sha256 store k drv) := by
  induction k, h using Nat.le_induction with
  | base => exact .refl _
  | succ k _ ih => exact ih.trans (approx_hashModuloUncached_succ k drv)

/-- With more fuel the hash stays. -/
theorem mono_hashModuloUncached (drv : Derivation) :
    Outcome.Mono fun n => hashModuloUncached sha256 store n drv :=
  fun _ _ h => approx_hashModuloUncached h drv

/-- With more fuel the hash of an input stays. -/
theorem mono_inputHashUncached (path : Path) :
    Outcome.Mono fun n => inputHashUncached sha256 store n path :=
  fun _ _ h => .bind (.refl _) (approx_hashModuloUncached h)

end

/-! ### Transparency -/

/-- The hash modulo of a derivation: the result of the recursion without the cache. -/
def HashModulo (sha256 : Str → Str) (store : DrvStore) (drv : Derivation) (h : Hash) : Prop :=
  ∃ n, hashModuloUncached sha256 store n drv = .ok h

/-- The hash modulo of the derivation at a path. -/
def InputHash (sha256 : Str → Str) (store : DrvStore) (path : Path) (h : Hash) : Prop :=
  ∃ n, inputHashUncached sha256 store n path = .ok h

/-- Every usable entry of the cache is the hash modulo of the derivation at its path. -/
def CacheOk (sha256 : Str → Str) (store : DrvStore) (c : DrvHashes) : Prop :=
  ∀ path h, c.find? path = some h → h.type ≠ .htUnknown → InputHash sha256 store path h

/-- A program with the cache, run with the bound `n`, ends like the calls in a family without the
cache, and keeps the cache in order. -/
def Mirrors (sha256 : Str → Str) (store : DrvStore) (n : ℕ) {α : Type} (m : DrvM α)
    (o : ℕ → Outcome Str α) : Prop :=
  ∀ c, CacheOk sha256 store c →
    m.Ends c (fun a c' => CacheOk sha256 store c' ∧ ∃ k, o k = .ok a) fun e c' =>
      CacheOk sha256 store c' ∧
        match e with
        | .error msg => ∃ k, o k = .error msg
        | .outOfFuel => o n = .diverge

namespace Mirrors

variable {sha256 : Str → Str} {store : DrvStore} {n : ℕ} {α β : Type}

/-- Returning a value. -/
theorem pure (a : α) : Mirrors sha256 store n (pure a) fun _ => .ok a :=
  fun _ hc => Prog.ends_pure ⟨hc, 0, rfl⟩

/-- An outcome that does not use the table. -/
theorem lift (x : Outcome Str α) : Mirrors sha256 store n (DrvM.lift x) fun _ => x := by
  intro c hc
  cases x with
  | ok a => exact Prog.ends_pure ⟨hc, 0, rfl⟩
  | error e => exact Prog.ends_throw ⟨hc, 0, rfl⟩
  | diverge => exact Prog.ends_throw ⟨hc, rfl⟩

/-- Two computations in a row. -/
theorem bind {m : DrvM α} {o : ℕ → Outcome Str α} {f : α → DrvM β} {g : α → ℕ → Outcome Str β}
    (hm : Mirrors sha256 store n m o) (hf : ∀ a, Mirrors sha256 store n (f a) (g a))
    (ho : Outcome.Mono o) (hg : ∀ a, Outcome.Mono (g a)) :
    Mirrors sha256 store n (m >>= f) fun k => o k >>= fun a => g a k := by
  intro c hc
  refine (hm c hc).bind (fun a c' h => ?_) fun e c' h => ⟨h.1, ?_⟩
  · obtain ⟨hc', k, hk⟩ := h
    -- both parts have ended when the bound is the larger of the two
    have hmax : ∀ l, o (max k l) = .ok a := fun l => (ho k _ (le_max_left _ _)).eq_of_ok hk
    refine (hf a c' hc').mono (fun b c'' h => ?_) fun e c'' h => ⟨h.1, ?_⟩
    · obtain ⟨hc'', l, hl⟩ := h
      refine ⟨hc'', max k l, ?_⟩
      dsimp only
      rw [hmax, Outcome.ok_bind]
      exact (hg a l _ (le_max_right _ _)).eq_of_ok hl
    · cases e with
      | error msg =>
        obtain ⟨l, hl⟩ := h.2
        refine ⟨max k l, ?_⟩
        dsimp only
        rw [hmax, Outcome.ok_bind]
        exact (hg a l _ (le_max_right _ _)).eq_of_error hl
      | outOfFuel =>
        change (o n >>= fun a => g a n) = .diverge
        rcases ho n (max k n) (le_max_right _ _) with hn | hn
        · rw [hn, Outcome.diverge_bind]
        · rw [hn, hmax, Outcome.ok_bind]
          exact h.2
  · cases e with
    | error msg =>
      obtain ⟨k, hk⟩ := h.2
      refine ⟨k, ?_⟩
      dsimp only
      rw [hk, Outcome.error_bind]
    | outOfFuel =>
      change (o n >>= fun a => g a n) = .diverge
      rw [show o n = .diverge from h.2, Outcome.diverge_bind]

/-- A loop. -/
theorem foldlM {f : β → α → DrvM β} {g : ℕ → β → α → Outcome Str β}
    (hf : ∀ b a, Mirrors sha256 store n (f b a) fun k => g k b a)
    (hg : ∀ b a, Outcome.Mono fun k => g k b a) (l : List α) (b : β) :
    Mirrors sha256 store n (l.foldlM f b) fun k => l.foldlM (g k) b := by
  induction l generalizing b with
  | nil => exact .pure b
  | cons a l ih =>
    simp only [List.foldlM_cons]
    refine (hf b a).bind ih (hg b a) fun b' k k' hk => ?_
    exact .foldlM (fun b a => hg b a k k' hk) l b'

end Mirrors

section

variable {sha256 : Str → Str} {store : DrvStore} {c : DrvHashes} {path : Path} {h : Hash}

/-- The table stays right when the hash of an input is inserted. -/
theorem CacheOk.insert (hc : CacheOk sha256 store c)
    (hh : h.type ≠ .htUnknown → InputHash sha256 store path h) :
    CacheOk sha256 store (c.insert path h) := by
  intro p h' hp hne
  rw [SortedMap.find?_insert] at hp
  split_ifs at hp with heq
  · cases hp
    rw [heq]
    exact hh hne
  · exact hc p h' hp hne

/-- The part of the loop body that computes the hash of an input. -/
theorem mirrors_recompute {n : ℕ} {recur : Derivation → DrvM Hash}
    (hrecur : ∀ drv, Mirrors sha256 store n (recur drv) fun k =>
      hashModuloUncached sha256 store k drv) (path : Path) :
    Mirrors sha256 store n (do
      let drv2 ← DrvM.lift (store.load path)
      let h ← recur drv2
      Prog.modify fun c => c.insert path h
      return h) fun k => inputHashUncached sha256 store k path := by
  have hrest : ∀ drv2, store.load path = .ok drv2 → Mirrors sha256 store n (do
      let h ← recur drv2
      Prog.modify fun c => c.insert path h
      return h) fun k => hashModuloUncached sha256 store k drv2 := by
    intro drv2 hload c hc
    refine (hrecur drv2 c hc).bind (fun h c' hh => ?_) fun _ _ => id
    obtain ⟨hc', k, hk⟩ := hh
    refine Prog.ends_modify_bind (Prog.ends_pure ⟨hc'.insert fun _ => ⟨k, ?_⟩, k, hk⟩)
    rw [inputHashUncached, hload, Outcome.ok_bind]
    exact hk
  unfold inputHashUncached
  cases hload : store.load path with
  | ok drv2 => exact hrest drv2 hload
  | error e => exact fun c hc => Prog.ends_throw ⟨hc, 0, rfl⟩
  | diverge => exact fun c hc => Prog.ends_throw ⟨hc, rfl⟩

/-- Looking up an input in the table, or computing and inserting its hash. -/
theorem mirrors_cachedInputHash {n : ℕ} {recur : Derivation → DrvM Hash}
    (hrecur : ∀ drv, Mirrors sha256 store n (recur drv) fun k =>
      hashModuloUncached sha256 store k drv) (path : Path) :
    Mirrors sha256 store n (cachedInputHash store recur path) fun k =>
      inputHashUncached sha256 store k path := by
  intro c hc
  have hlookup : (drvHashesAt path).Ends c (fun h c' => CacheOk sha256 store c' ∧
      (h.type ≠ .htUnknown → InputHash sha256 store path h)) fun _ _ => False := by
    unfold Prog.Ends drvHashesAt
    cases hfind : c.find? path with
    | some h => exact ⟨hc, hc path h hfind⟩
    | none => exact ⟨hc.insert (by simp [Hash.unusable]), by simp [Hash.unusable]⟩
  refine hlookup.bind (fun h c' hh => ?_) fun _ _ => False.elim
  by_cases htype : h.type = .htUnknown
  · rw [if_pos htype]
    exact mirrors_recompute hrecur path c' hh.1
  · rw [if_neg htype]
    exact Prog.ends_pure ⟨hh.1, hh.2 htype⟩

/-- With more fuel the replaced inputs stay. -/
theorem mono_replaceInputs (inputs : List (Path × SortedSet Str))
    (acc : SortedMap Str (SortedSet Str)) :
    Outcome.Mono fun k => replaceInputs (inputHashUncached sha256 store k) inputs acc := by
  intro k k' hk
  refine Outcome.Approx.foldlM (fun b i => ?_) inputs acc
  exact (mono_inputHashUncached i.1 k k' hk).bind fun _ => .refl _

/-- Replacing the inputs with the table is replacing them without it. -/
theorem mirrors_replaceInputs {n : ℕ} {recur : Derivation → DrvM Hash}
    (hrecur : ∀ drv, Mirrors sha256 store n (recur drv) fun k =>
      hashModuloUncached sha256 store k drv) (inputs : List (Path × SortedSet Str))
    (acc : SortedMap Str (SortedSet Str)) :
    Mirrors sha256 store n (replaceInputs (cachedInputHash store recur) inputs acc) fun k =>
      replaceInputs (inputHashUncached sha256 store k) inputs acc := by
  refine Mirrors.foldlM (fun b i => ?_) (fun b i k k' hk => ?_) inputs acc
  · exact (mirrors_cachedInputHash hrecur i.1).bind (fun _ => .pure _)
      (mono_inputHashUncached i.1) fun _ _ _ _ => .refl _
  · exact (mono_inputHashUncached i.1 k k' hk).bind fun _ => .refl _

/-- With a cache in order, `hashDerivationModulo` ends like the recursion without the cache. -/
theorem mirrors_hashDerivationModulo (n : ℕ) (drv : Derivation) :
    Mirrors sha256 store n (hashDerivationModulo sha256 store n drv) fun k =>
      hashModuloUncached sha256 store k drv := by
  induction n generalizing drv with
  | zero => exact fun c hc => Prog.ends_throw ⟨hc, rfl⟩
  | succ n ih =>
    have hbody : Mirrors sha256 store n (hashDerivationModulo sha256 store (n + 1) drv) fun k =>
        hashModuloUncached sha256 store (k + 1) drv := by
      simp only [hashDerivationModulo, hashModuloUncached, hashModuloBody]
      split_ifs
      · exact .pure _
      · exact (mirrors_replaceInputs ih _ _).bind (fun _ => .pure _) (mono_replaceInputs _ _)
          fun _ _ _ _ => .refl _
    intro c hc
    refine (hbody c hc).mono (fun a c' h => ⟨h.1, ?_⟩) fun e c' h => ⟨h.1, ?_⟩
    · obtain ⟨k, hk⟩ := h.2
      exact ⟨k + 1, hk⟩
    · cases e with
      | error msg =>
        obtain ⟨k, hk⟩ := h.2
        exact ⟨k + 1, hk⟩
      | outOfFuel => exact h.2

/-- With a cache in order, a hash that is returned is the hash modulo. -/
theorem hashModulo_of_hashDerivationModulo (hc : CacheOk sha256 store c) {n : ℕ} {drv : Derivation}
    (hrun : (hashDerivationModulo sha256 store n drv c).1 = .ok h) : HashModulo sha256 store drv h := by
  have hends := mirrors_hashDerivationModulo n drv c hc
  unfold Prog.Ends at hends
  rcases hr : hashDerivationModulo sha256 store n drv c with ⟨e | a, c'⟩
  · rw [hr] at hrun
    cases hrun
  · rw [hr] at hrun hends
    cases hrun
    exact hends.2

/-- With a cache in order, the hash modulo is returned if the bound is large enough for the recursion
without the cache. -/
theorem hashDerivationModulo_of_uncached (hc : CacheOk sha256 store c) {n : ℕ} {drv : Derivation}
    (hn : hashModuloUncached sha256 store n drv = .ok h) :
    (hashDerivationModulo sha256 store n drv c).1 = .ok h := by
  have hends := mirrors_hashDerivationModulo n drv c hc
  have hmax : ∀ k, hashModuloUncached sha256 store (max n k) drv = .ok h := fun k =>
    (mono_hashModuloUncached drv n _ (le_max_left _ _)).eq_of_ok hn
  unfold Prog.Ends at hends
  rcases hr : hashDerivationModulo sha256 store n drv c with ⟨e | a, c'⟩
  · rw [hr] at hends
    cases e with
    | error msg =>
      obtain ⟨k, hk⟩ := hends.2
      have herr := (mono_hashModuloUncached drv k (max n k) (le_max_right _ _)).eq_of_error hk
      exact absurd ((hmax k).symm.trans herr) (by simp)
    | outOfFuel => exact absurd (hn.symm.trans hends.2) (by simp)
  · rw [hr] at hends
    obtain ⟨k, hk⟩ := hends.2
    have hok := (mono_hashModuloUncached drv k (max n k) (le_max_right _ _)).eq_of_ok hk
    have heq : h = a := by simpa using (hmax k).symm.trans hok
    rw [heq]

/-! ### The hash modulo -/

/-- A derivation has one hash. -/
theorem HashModulo.unique {drv : Derivation} {h' : Hash} (hh : HashModulo sha256 store drv h)
    (hh' : HashModulo sha256 store drv h') : h = h' := by
  obtain ⟨n, hn⟩ := hh
  obtain ⟨k, hk⟩ := hh'
  have h₁ := (mono_hashModuloUncached drv n (max n k) (le_max_left _ _)).eq_of_ok hn
  have h₂ := (mono_hashModuloUncached drv k (max n k) (le_max_right _ _)).eq_of_ok hk
  simpa using h₁.symm.trans h₂

/-- An input has one hash. -/
theorem InputHash.unique {h' : Hash} (hh : InputHash sha256 store path h)
    (hh' : InputHash sha256 store path h') : h = h' := by
  obtain ⟨n, hn⟩ := hh
  obtain ⟨k, hk⟩ := hh'
  have h₁ := (mono_inputHashUncached path n (max n k) (le_max_left _ _)).eq_of_ok hn
  have h₂ := (mono_inputHashUncached path k (max n k) (le_max_right _ _)).eq_of_ok hk
  simpa using h₁.symm.trans h₂

/-- A hash is that of some text. -/
theorem HashModulo.exists_text {drv : Derivation} (hh : HashModulo sha256 store drv h) :
    ∃ s, h = hashString sha256 s := by
  obtain ⟨n, hn⟩ := hh
  cases n with
  | zero => cases hn
  | succ n =>
    rw [hashModuloUncached, hashModuloBody] at hn
    split_ifs at hn with hfixed
    · cases hn
      exact ⟨_, rfl⟩
    · obtain ⟨inputs2, -, hn⟩ := Outcome.bind_eq_ok.mp hn
      cases hn
      exact ⟨_, rfl⟩

/-- The hash of an input is that of the derivation at its path. -/
theorem inputHash_iff : InputHash sha256 store path h ↔
    ∃ drv, store.load path = .ok drv ∧ HashModulo sha256 store drv h := by
  unfold InputHash HashModulo inputHashUncached
  constructor
  · intro hh
    obtain ⟨n, hn⟩ := hh
    obtain ⟨drv, hload, hn⟩ := Outcome.bind_eq_ok.mp hn
    exact ⟨drv, hload, n, hn⟩
  · intro hh
    obtain ⟨drv, hload, n, hn⟩ := hh
    exact ⟨n, by rw [hload, Outcome.ok_bind, hn]⟩

/-- Hashes modulo are SHA-256 hashes, so they are equal if their printed forms are. -/
theorem InputHash.eq_of_printHash_eq {path' : Path} {h' : Hash}
    (hh : InputHash sha256 store path h) (hh' : InputHash sha256 store path' h')
    (heq : printHash h = printHash h') : h = h' := by
  obtain ⟨drv, -, hdrv⟩ := inputHash_iff.mp hh
  obtain ⟨drv', -, hdrv'⟩ := inputHash_iff.mp hh'
  obtain ⟨s, rfl⟩ := hdrv.exists_text
  obtain ⟨s', rfl⟩ := hdrv'.exists_text
  have hbytes : sha256 s = sha256 s' := printHash_injective heq
  rw [hashString, hashString, hbytes]

end

/-! ### The inputs in the hashed text -/

/-- The inputs with their paths replaced by hashes. -/
def replacedInputs (hash : Path → Hash) (inputs : List (Path × SortedSet Str)) :
    SortedMap Str (SortedSet Str) :=
  inputs.foldl (fun inputs2 i => inputs2.insert (printHash (hash i.1)) i.2) ∅

/-- The last of the inputs with a hash decides what is under the hash. -/
theorem find?_replacedInputs (hash : Path → Hash) (inputs : List (Path × SortedSet Str))
    (k : Str) : (replacedInputs hash inputs).find? k =
      (inputs.reverse.find? fun i => printHash (hash i.1) = k).map Prod.snd := by
  induction inputs using List.reverseRecOn with
  | nil => rfl
  | append_singleton inputs i ih =>
    unfold replacedInputs at ih ⊢
    rw [List.foldl_append, List.foldl_cons, List.foldl_nil, SortedMap.find?_insert, ih,
      List.reverse_append, List.reverse_singleton, List.singleton_append, List.find?_cons]
    by_cases hk : k = printHash (hash i.1)
    · rw [if_pos hk, decide_eq_true hk.symm]
      rfl
    · rw [if_neg hk, decide_eq_false (Ne.symm hk)]

/-- What the loop over the inputs has put under the hash of an input. -/
theorem replaceInputs_eq_ok {inputHash : Path → Outcome Str Hash} {hash : Path → Hash}
    {inputs : List (Path × SortedSet Str)} {acc inputs2 : SortedMap Str (SortedSet Str)}
    (hhash : ∀ p h, inputHash p = .ok h → hash p = h)
    (hrun : replaceInputs inputHash inputs acc = .ok inputs2) :
    (∀ i ∈ inputs, inputHash i.1 = .ok (hash i.1)) ∧
      inputs2 = inputs.foldl (fun m i => m.insert (printHash (hash i.1)) i.2) acc := by
  unfold replaceInputs at hrun
  induction inputs generalizing acc with
  | nil =>
    cases hrun
    exact ⟨by simp, rfl⟩
  | cons i inputs ih =>
    rw [List.foldlM_cons] at hrun
    obtain ⟨acc', hstep, hrest⟩ := Outcome.bind_eq_ok.mp hrun
    obtain ⟨h, hi, hacc⟩ := Outcome.bind_eq_ok.mp hstep
    cases hacc
    obtain ⟨hall, hfold⟩ := ih hrest
    have hh : hash i.1 = h := hhash i.1 h hi
    refine ⟨List.forall_mem_cons.mpr ⟨by rw [hi, hh], hall⟩, ?_⟩
    rw [List.foldl_cons, hh]
    exact hfold

/-- The loop over the inputs succeeds when every input has a hash. -/
theorem exists_replaceInputs_eq_ok {sha256 : Str → Str} {store : DrvStore} {hash : Path → Hash}
    {inputs : List (Path × SortedSet Str)}
    (hall : ∀ i ∈ inputs, InputHash sha256 store i.1 (hash i.1))
    (acc : SortedMap Str (SortedSet Str)) :
    ∃ n, replaceInputs (inputHashUncached sha256 store n) inputs acc =
      .ok (inputs.foldl (fun m i => m.insert (printHash (hash i.1)) i.2) acc) := by
  induction inputs generalizing acc with
  | nil => exact ⟨0, rfl⟩
  | cons i inputs ih =>
    obtain ⟨hi, hall⟩ := List.forall_mem_cons.mp hall
    obtain ⟨n, hn⟩ := hi
    obtain ⟨k, hk⟩ := ih hall (acc.insert (printHash (hash i.1)) i.2)
    refine ⟨max n k, ?_⟩
    have hi := (mono_inputHashUncached i.1 n (max n k) (le_max_left _ _)).eq_of_ok hn
    have hrest := (mono_replaceInputs inputs _ k (max n k) (le_max_right _ _)).eq_of_ok hk
    dsimp only at hi
    rw [replaceInputs, List.foldlM_cons, hi]
    exact hrest

/-- The hash modulo of a derivation without a fixed output. -/
theorem hashModulo_iff {sha256 : Str → Str} {store : DrvStore} {drv : Derivation} {h : Hash}
    (hfixed : isFixedOutputDrv drv = false) : HashModulo sha256 store drv h ↔
      ∃ hash : Path → Hash, (∀ i ∈ drv.inputDrvs.entries, InputHash sha256 store i.1 (hash i.1)) ∧
        h = hashString sha256 (moduloText drv (replacedInputs hash drv.inputDrvs.entries)) := by
  constructor
  · intro hh
    obtain ⟨n, hn⟩ := hh
    cases n with
    | zero => cases hn
    | succ n =>
      rw [hashModuloUncached, hashModuloBody, if_neg (by simp [hfixed])] at hn
      obtain ⟨inputs2, hinputs, hn⟩ := Outcome.bind_eq_ok.mp hn
      cases hn
      let hash : Path → Hash := fun p => (inputHashUncached sha256 store n p).getD .unusable
      have hhash : ∀ p h, inputHashUncached sha256 store n p = .ok h → hash p = h := by
        intro p h hp
        simp only [hash, hp]
        rfl
      obtain ⟨hall, hfold⟩ := replaceInputs_eq_ok hhash hinputs
      exact ⟨hash, fun i hi => ⟨n, hall i hi⟩, by rw [hfold]; rfl⟩
  · intro hh
    obtain ⟨hash, hall, rfl⟩ := hh
    obtain ⟨n, hn⟩ := exists_replaceInputs_eq_ok hall ∅
    refine ⟨n + 1, ?_⟩
    rw [hashModuloUncached, hashModuloBody, if_neg (by simp [hfixed])]
    change (replaceInputs (inputHashUncached sha256 store n) _ _ >>= _) = _
    rw [hn]
    rfl

/-- The hash modulo of a fixed-output derivation. -/
theorem hashModulo_iff_of_fixed {sha256 : Str → Str} {store : DrvStore} {drv : Derivation}
    {h : Hash} (hfixed : isFixedOutputDrv drv = true) :
    HashModulo sha256 store drv h ↔ h = hashString sha256 (fixedOutputText drv) := by
  have hbody : ∀ n, hashModuloUncached sha256 store (n + 1) drv =
      .ok (hashString sha256 (fixedOutputText drv)) := by
    intro n
    rw [hashModuloUncached, hashModuloBody, if_pos hfixed]
    rfl
  constructor
  · intro hh
    exact hh.unique ⟨1, hbody 0⟩
  · intro hh
    exact ⟨1, by rw [hbody, hh]⟩

end Nix
