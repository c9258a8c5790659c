import NixStore.Derivations.ModuloInputs

/-!
# The check of output paths

Model of `checkDerivationOutputs` of `local-store.cc` and of `parseHashInfo` of `derivations.cc`: the
output paths of a derivation have to be the ones that its contents determine.  `Accepted` says what
an accepted derivation is, without the order of computation and without the cache.
-/

namespace Nix

/-- Model of `parseHashInfo`: whether the hash is recursive, its type and its value. -/
def parseHashInfo (out : DerivationOutput) : Outcome Str (Bool × HashType × Hash) :=
  let recursive := decide (out.hashAlgo.take 2 = str "r:")
  let algo := if recursive then out.hashAlgo.drop 2 else out.hashAlgo
  let hashType := parseHashType algo
  if hashType = .htUnknown then .error (str "unknown hash algorithm `" ++ algo ++ str "'")
  else do
    let hash ← parseHash hashType out.hash
    return (recursive, hashType, hash)

/-- The derivation with its output paths left out, and the environment variables with them. -/
def maskOutputs (drv : Derivation) : Derivation :=
  { drv with
    outputs := drv.outputs.mapVal fun _ out => { out with path := [] }
    env := drv.outputs.entries.foldl (fun env o => env.insert o.1 []) drv.env }

/-- The comparison of an output path, and of the environment variable with its name, with the path
that they should be. -/
def checkOutput (drvPath : Path) (drv : Derivation) (id : Str) (out : DerivationOutput)
    (outPath : Path) : Outcome Str Unit :=
  if out.path = outPath ∧ drv.env.find? id = some outPath then .ok ()
  else .error (str "derivation `" ++ drvPath ++ str "' has incorrect output `" ++ out.path ++
    str "', should be `" ++ outPath ++ str "'")

section

variable (cfg : StoreConfig) (sha256 : Str → Str) (store : DrvStore)

/-- The name of a derivation: the name of its path without the extension. -/
def derivationName (drvPath : Path) : Outcome Str Str := do
  let drvName ← storePathToName cfg drvPath
  if isDerivation drvName then return drvName.take (drvName.length - drvExtension.length)
  else .error (str "assertion failed: isDerivation(drvName)")

/-- The check of a fixed-output derivation. -/
def checkFixedOutput (drvPath : Path) (drvName : Str) (drv : Derivation) : Outcome Str Unit :=
  match drv.outputs.find? (str "out") with
  | none => .error (str "derivation `" ++ drvPath ++ str "' does not have an output named `out'")
  | some out => do
    let (recursive, ht, h) ← parseHashInfo out
    let outPath ← makeFixedOutputPath cfg sha256 recursive ht h drvName
    checkOutput drvPath drv (str "out") out outPath

/-- The check of the outputs of another derivation, given its masked hash modulo. -/
def checkOutputs (drvPath : Path) (drvName : Str) (drv : Derivation) (h : Hash) :
    Outcome Str Unit :=
  drv.outputs.entries.foldlM (fun _ o => do
    let outPath ← makeOutputPath cfg sha256 o.1 h drvName
    checkOutput drvPath drv o.1 o.2 outPath) ()

/-- Model of `checkDerivationOutputs`. -/
def checkDerivationOutputs (fuel : ℕ) (drvPath : Path) (drv : Derivation) : DrvM Unit := do
  let drvName ← DrvM.lift (derivationName cfg drvPath)
  if isFixedOutputDrv drv then DrvM.lift (checkFixedOutput cfg sha256 drvPath drvName drv)
  else do
    let h ← hashDerivationModulo sha256 store fuel (maskOutputs drv)
    DrvM.lift (checkOutputs cfg sha256 drvPath drvName drv h)

/-- What the check of a fixed-output derivation demands. -/
def AcceptedFixed (drvName : Str) (drv : Derivation) : Prop :=
  ∃ out recursive ht h, drv.outputs.find? (str "out") = some out ∧
    parseHashInfo out = .ok (recursive, ht, h) ∧
    makeFixedOutputPath cfg sha256 recursive ht h drvName = .ok out.path ∧
    drv.env.find? (str "out") = some out.path

/-- What the check of another derivation demands. -/
def AcceptedOther (drvName : Str) (drv : Derivation) : Prop :=
  ∃ h, HashModulo sha256 store (maskOutputs drv) h ∧ ∀ o ∈ drv.outputs.entries,
    makeOutputPath cfg sha256 o.1 h drvName = .ok o.2.path ∧ drv.env.find? o.1 = some o.2.path

/-- What `checkDerivationOutputs` demands. -/
def Accepted (drvPath : Path) (drv : Derivation) : Prop :=
  ∃ drvName, derivationName cfg drvPath = .ok drvName ∧
    if isFixedOutputDrv drv then AcceptedFixed cfg sha256 drvName drv
    else AcceptedOther cfg sha256 store drvName drv

end

section

variable {cfg : StoreConfig} {sha256 : Str → Str} {store : DrvStore} {drvPath : Path} {drvName : Str}
  {drv : Derivation}

/-- The check of one output. -/
theorem checkOutput_eq_ok {id : Str} {out : DerivationOutput} {outPath : Path} :
    checkOutput drvPath drv id out outPath = .ok () ↔
      out.path = outPath ∧ drv.env.find? id = some outPath := by
  unfold checkOutput
  split_ifs with h
  · exact iff_of_true rfl h
  · exact iff_of_false (by simp) h

/-- The check of a fixed output. -/
theorem checkFixedOutput_eq_ok :
    checkFixedOutput cfg sha256 drvPath drvName drv = .ok () ↔
      AcceptedFixed cfg sha256 drvName drv := by
  unfold checkFixedOutput AcceptedFixed
  cases hout : drv.outputs.find? (str "out") with
  | none => simp
  | some out =>
    simp only [Outcome.bind_eq_ok, checkOutput_eq_ok, Option.some.injEq, Prod.exists]
    constructor
    · intro h
      obtain ⟨recursive, ht, hash, hinfo, outPath, hpath, rfl, henv⟩ := h
      exact ⟨out, recursive, ht, hash, rfl, hinfo, hpath, henv⟩
    · intro h
      obtain ⟨_, recursive, ht, hash, rfl, hinfo, hpath, henv⟩ := h
      exact ⟨recursive, ht, hash, hinfo, out.path, hpath, rfl, henv⟩

/-- A loop that only checks returns exactly when every check does. -/
theorem foldlM_check_eq_ok {α : Type} {f : α → Outcome Str Unit} {l : List α} :
    l.foldlM (fun _ a => f a) () = .ok () ↔ ∀ a ∈ l, f a = .ok () := by
  induction l with
  | nil => simp
  | cons a l ih =>
    rw [List.foldlM_cons, Outcome.bind_eq_ok, List.forall_mem_cons, ← ih]
    constructor
    · intro h
      obtain ⟨_, ha, hl⟩ := h
      exact ⟨ha, hl⟩
    · intro h
      exact ⟨(), h⟩

/-- The check of the other outputs. -/
theorem checkOutputs_eq_ok {h : Hash} :
    checkOutputs cfg sha256 drvPath drvName drv h = .ok () ↔ ∀ o ∈ drv.outputs.entries,
      makeOutputPath cfg sha256 o.1 h drvName = .ok o.2.path ∧
        drv.env.find? o.1 = some o.2.path := by
  unfold checkOutputs
  rw [foldlM_check_eq_ok]
  refine forall₂_congr fun o _ => ?_
  simp only [Outcome.bind_eq_ok, checkOutput_eq_ok]
  constructor
  · intro hc
    obtain ⟨outPath, hpath, rfl, henv⟩ := hc
    exact ⟨hpath, henv⟩
  · intro hc
    exact ⟨o.2.path, hc.1, rfl, hc.2⟩

/-- Masking does not change whether the output is fixed. -/
@[simp] theorem isFixedOutputDrv_maskOutputs (drv : Derivation) :
    isFixedOutputDrv (maskOutputs drv) = isFixedOutputDrv drv := by
  obtain ⟨⟨outputs, hsorted⟩, _, _, _, _, _, _⟩ := drv
  unfold isFixedOutputDrv maskOutputs SortedMap.mapVal
  match outputs with
  | [] => rfl
  | [o] => rfl
  | o₁ :: o₂ :: l => rfl

/-- With a cache in order, an accepted derivation meets the demands. -/
theorem accepted_of_checkDerivationOutputs {c : DrvHashes} (hc : CacheOk sha256 store c) {n : ℕ}
    (hrun : (checkDerivationOutputs cfg sha256 store n drvPath drv c).1 = .ok ()) :
    Accepted cfg sha256 store drvPath drv := by
  unfold checkDerivationOutputs at hrun
  cases hname : derivationName cfg drvPath with
  | error e =>
    rw [hname] at hrun
    cases hrun
  | diverge =>
    rw [hname] at hrun
    cases hrun
  | ok drvName =>
    refine ⟨drvName, hname, ?_⟩
    rw [hname] at hrun
    change ((if isFixedOutputDrv drv then _ else _ : DrvM Unit) c).1 = _ at hrun
    split_ifs at hrun ⊢ with hfixed
    · apply checkFixedOutput_eq_ok.mp
      cases hcheck : checkFixedOutput cfg sha256 drvPath drvName drv with
      | ok _ => rfl
      | error e => rw [hcheck] at hrun; cases hrun
      | diverge => rw [hcheck] at hrun; cases hrun
    · rw [Prog.bind_apply] at hrun
      rcases hr : hashDerivationModulo sha256 store n (maskOutputs drv) c with ⟨e | h, c'⟩
      · rw [hr] at hrun
        cases hrun
      · rw [hr] at hrun
        dsimp only at hrun
        refine ⟨h, hashModulo_of_hashDerivationModulo hc (by rw [hr]), ?_⟩
        apply checkOutputs_eq_ok.mp
        cases hcheck : checkOutputs cfg sha256 drvPath drvName drv h with
        | ok _ => rfl
        | error e => rw [hcheck] at hrun; cases hrun
        | diverge => rw [hcheck] at hrun; cases hrun

/-- With a cache in order, a derivation that meets the demands is accepted. -/
theorem checkDerivationOutputs_of_accepted (h : Accepted cfg sha256 store drvPath drv) :
    ∃ n, ∀ c, CacheOk sha256 store c →
      (checkDerivationOutputs cfg sha256 store n drvPath drv c).1 = .ok () := by
  obtain ⟨drvName, hname, h⟩ := h
  unfold checkDerivationOutputs
  rw [hname]
  by_cases hfixed : isFixedOutputDrv drv = true
  · rw [if_pos hfixed] at h
    refine ⟨0, fun c _ => ?_⟩
    change ((if isFixedOutputDrv drv then _ else _ : DrvM Unit) c).1 = _
    rw [if_pos hfixed, checkFixedOutput_eq_ok.mpr h]
    rfl
  · rw [if_neg hfixed] at h
    obtain ⟨hash, ⟨n, hn⟩, houtputs⟩ := h
    refine ⟨n, fun c hc => ?_⟩
    have hrun := hashDerivationModulo_of_uncached hc hn
    change ((if isFixedOutputDrv drv then _ else _ : DrvM Unit) c).1 = _
    rw [if_neg hfixed, Prog.bind_apply]
    rcases hr : hashDerivationModulo sha256 store n (maskOutputs drv) c with ⟨e | h, c'⟩
    · rw [hr] at hrun
      cases hrun
    · rw [hr] at hrun
      cases hrun
      dsimp only
      rw [checkOutputs_eq_ok.mpr houtputs]
      rfl

end

end Nix
