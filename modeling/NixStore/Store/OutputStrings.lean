import NixStore.Derivations.Tokens
import NixStore.Store.CheckOutputs
import NixStore.Store.PathInjectivity
import NixStore.Util.Base32

/-!
# Requests for the outputs of registered derivations

A path that `makeStorePath` computes has no `!`, and the output ids of a derivation that
`checkDerivationOutputs` accepts have no comma, because `checkStoreName` looked at them.  So a request
for outputs of a registered derivation reads back as it was written (`drvPathWithOutputs_roundTrip`).
-/

namespace Nix

section

variable {cfg : StoreConfig} {sha256 : Str → Str} {store : DrvStore} {drvPath : Path} {drv : Derivation}
  {hash : Hash} {type id name : Str} {path : Path}

/-- The name of a made path was checked. -/
theorem checkStoreName_of_makeStorePath (h : makeStorePath cfg sha256 type hash name = .ok path) :
    checkStoreName name = .ok () ∧
      path = cfg.nixStore ++ str "/" ++ hashPart sha256 (fingerprint cfg type hash name) ++ str "-" ++
        name := by
  obtain ⟨_, hcheck, hpath⟩ := Outcome.bind_eq_ok.mp h
  exact ⟨hcheck, (Outcome.ok.inj hpath).symm⟩

/-- A store path has no `!`, if the store has none. -/
theorem mark_notMem_of_makeStorePath (h : makeStorePath cfg sha256 type hash name = .ok path)
    (hstore : '!'.toUInt8 ∉ cfg.nixStore) : '!'.toUInt8 ∉ path := by
  obtain ⟨hcheck, rfl⟩ := checkStoreName_of_makeStorePath h
  have hhash : '!'.toUInt8 ∉ hashPart sha256 (fingerprint cfg type hash name) := fun hc =>
    absurd (isBase32_printHash32 _ _ hc) (by decide)
  have hname : '!'.toUInt8 ∉ name := fun hc =>
    absurd (isNameChar_of_checkStoreName hcheck _ hc) (by decide)
  have hslash : '!'.toUInt8 ∉ str "/" := by decide
  have hdash : '!'.toUInt8 ∉ str "-" := by decide
  simp only [List.mem_append, not_or]
  exact ⟨⟨⟨⟨hstore, hslash⟩, hhash⟩, hdash⟩, hname⟩

/-- The id of an output has no comma if its output path can be made. -/
theorem comma_notMem_of_makeOutputPath (h : makeOutputPath cfg sha256 id hash name = .ok path) :
    ','.toUInt8 ∉ id := by
  intro hc
  have hcheck := (checkStoreName_of_makeStorePath h).1
  have hmem : ','.toUInt8 ∈ outputName id name := by
    rw [outputName]
    split_ifs with hout
    · rw [hout] at hc
      exact absurd hc (by decide)
    · exact List.mem_append_right _ (List.mem_append_right _ hc)
  exact absurd (isNameChar_of_checkStoreName hcheck _ hmem) (by decide)

/-- A fixed-output derivation has the output `out` only. -/
theorem id_eq_out_of_isFixedOutputDrv {o : Str × DerivationOutput} (h : isFixedOutputDrv drv = true)
    (ho : o ∈ drv.outputs.entries) : o.1 = str "out" := by
  rw [isFixedOutputDrv] at h
  split at h
  next id out hentries =>
    rw [hentries, List.mem_singleton] at ho
    rw [ho]
    exact of_decide_eq_true (Bool.and_eq_true_iff.mp h).1
  next => cases h

/-- The output ids of a derivation that was accepted have no comma. -/
theorem Accepted.comma_notMem {o : Str × DerivationOutput} (h : Accepted cfg sha256 store drvPath drv)
    (ho : o ∈ drv.outputs.entries) : ','.toUInt8 ∉ o.1 := by
  obtain ⟨drvName, -, h⟩ := h
  split_ifs at h with hfixed
  · rw [id_eq_out_of_isFixedOutputDrv hfixed ho]
    decide
  · obtain ⟨hash, -, houtputs⟩ := h
    exact comma_notMem_of_makeOutputPath (houtputs o ho).1

end

/-- A request that is written is read back, with no outputs as well, if the path has no `!` and the
ids are not empty and have no comma; registered derivations have such paths and ids.  The tokens of a
string are its pieces, in their order. -/
theorem drvPathWithOutputs_roundTrip (cfg : StoreConfig) (sha256 : Str → Str) (store : DrvStore) :
    (∀ (drvPath : Path) (outputs : SortedSet Str), '!'.toUInt8 ∉ drvPath →
      (∀ o ∈ outputs, o ≠ [] ∧ ','.toUInt8 ∉ o) →
      parseDrvPathWithOutputs (makeDrvPathWithOutputs drvPath outputs) = (drvPath, outputs)) ∧
    (∀ (type : Str) (hash : Hash) (name : Str) (path : Path), '!'.toUInt8 ∉ cfg.nixStore →
      makeStorePath cfg sha256 type hash name = .ok path → '!'.toUInt8 ∉ path) ∧
    (∀ (drvPath : Path) (drv : Derivation), Accepted cfg sha256 store drvPath drv →
      ∀ o ∈ drv.outputs.entries, ','.toUInt8 ∉ o.1) ∧
    ∀ s separators : Str,
      (tokenizeSpans s separators).map Prod.snd = tokenizeString s separators ∧
      (tokenizeSpans s separators).Pairwise (fun a b => a.1 < b.1) ∧
      ∀ (i : ℕ) (t : Str), (i, t) ∈ tokenizeSpans s separators ↔
        IsPiece separators.contains s i t := by
  refine ⟨?_, ?_, ?_, ?_⟩
  · intro drvPath outputs hpath hids
    exact parseDrvPathWithOutputs_make hpath hids
  · intro type hash name path hstore hpath
    exact mark_notMem_of_makeStorePath hpath hstore
  · intro drvPath drv haccepted o ho
    exact haccepted.comma_notMem ho
  · intro s separators
    exact ⟨map_snd_tokenizeSpans s separators, pairwise_tokenizeSpans s separators,
      fun i t => mem_tokenizeSpans_iff⟩

/-- A request for two outputs. -/
theorem drvPathWithOutputs_roundTrip_foo :
    parseDrvPathWithOutputs (makeDrvPathWithOutputs (str "/nix/store/abc-foo.drv")
      (.ofList [str "out", str "dev"])) =
      (str "/nix/store/abc-foo.drv", .ofList [str "out", str "dev"]) := by
  refine (drvPathWithOutputs_roundTrip defaultConfig id sampleStore).1 _ _ (by decide) ?_
  intro o ho
  rw [SortedSet.mem_ofList, List.mem_pair] at ho
  rcases ho with rfl | rfl
  · exact ⟨by decide, by decide⟩
  · exact ⟨by decide, by decide⟩

end Nix
