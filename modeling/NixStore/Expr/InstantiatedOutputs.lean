import NixStore.Expr.ContextSoundness
import NixStore.Store.CheckOutputs
import NixStore.Util.Base32

/-!
# The outputs of a new derivation

`prim_derivationStrict` computes output paths from the derivation that it assembles, and
`checkDerivationOutputs` computes them again from the derivation that it reads.  Both arrive at the same
ones (`accepted_of_derivationStrict`): masking the outputs of the finished derivation gives back the
masked derivation that it was made from.
-/

namespace Nix

variable {cfg : StoreConfig} {sha256 : Str → Str}

/-- What every round of a loop keeps, in terms of the elements that have been dealt with. -/
theorem Outcome.foldlM_prefix {ε α β : Type} {P : List α → β → Prop} {f : β → α → Outcome ε β}
    {l : List α} {b b' : β} (hf : ∀ done, ∀ a b b', a ∈ l → P done b → f b a = .ok b' → P (done ++ [a]) b')
    (hb : P [] b) (h : l.foldlM f b = .ok b') : P l b' := by
  suffices hloop : ∀ todo done b, done ++ todo = l → P done b → todo.foldlM f b = .ok b' → P l b' from
    hloop l [] b rfl hb h
  intro todo
  induction todo with
  | nil =>
    intro done b hl hb h
    cases h
    rwa [← hl, List.append_nil]
  | cons a todo ih =>
    intro done b hl hb h
    rw [List.foldlM_cons] at h
    obtain ⟨b₁, hstep, h⟩ := Outcome.bind_eq_ok.mp h
    have ha : a ∈ l := hl ▸ List.mem_append_right _ List.mem_cons_self
    exact ih (done ++ [a]) b₁ (by rw [← hl, List.append_assoc]; rfl) (hf done a b b₁ ha hb hstep) h

/-! ### Hashes of fixed outputs -/

/-- A hash that was read has its type's size. -/
theorem parseHash_eq_ok {ht : HashType} {s : Str} {h : Hash} (hs : parseHash ht s = .ok h) :
    h.type = ht ∧ ht.size? = some h.hash.length := by
  unfold parseHash at hs
  split at hs
  · cases hs
  next size hsize =>
    split_ifs at hs with hlen
    cases hbytes : parsePairs? s with
    | none =>
      rw [hbytes] at hs
      cases hs
    | some bytes =>
      rw [hbytes] at hs
      cases hs
      have hlen' := length_of_parsePairs? hbytes
      exact ⟨rfl, by rw [hsize]; congr 1; dsimp only; omega⟩

/-- So has a hash that was read in either base. -/
theorem parseHash16or32_eq_ok {ht : HashType} {s : Str} {h : Hash}
    (hs : parseHash16or32 ht s = .ok h) : h.type = ht ∧ ht.size? = some h.hash.length := by
  unfold parseHash16or32 at hs
  split at hs
  · cases hs
  next size hsize =>
    split_ifs at hs
    · exact parseHash_eq_ok hs
    · obtain ⟨htype, hlen, -⟩ := (parseHash32_eq_ok hsize).mp hs
      exact ⟨htype, by rw [hsize, hlen]⟩
    · obtain ⟨name, -, hs⟩ := Outcome.bind_eq_ok.mp hs
      cases hs

/-- The known types of hashes. -/
theorem parseHashType_known {algo : Str} (h : parseHashType algo ≠ .htUnknown) :
    algo = str "md5" ∨ algo = str "sha1" ∨ algo = str "sha256" := by
  unfold parseHashType at h
  split_ifs at h with h₁ h₂ h₃
  · exact Or.inl h₁
  · exact Or.inr (Or.inl h₂)
  · exact Or.inr (Or.inr h₃)
  · exact absurd rfl h

/-- What is written for a fixed output is read back. -/
theorem parseHashInfo_fixOutput {recursive : Bool} {algo : Str} {h : Hash} {path : Path}
    (halgo : parseHashType algo ≠ .htUnknown) (htype : h.type = parseHashType algo)
    (hsize : h.type.size? = some h.hash.length) :
    parseHashInfo ⟨path, (if recursive then str "r:" else []) ++ algo, printHash h⟩ =
      .ok (recursive, parseHashType algo, h) := by
  have hparse : parseHash (parseHashType algo) (printHash h) = .ok h := htype ▸ parseHash_printHash hsize
  have htake : decide (((if recursive then str "r:" else []) ++ algo).take 2 = str "r:") = recursive := by
    cases recursive with
    | true => rfl
    | false =>
      rcases parseHashType_known halgo with rfl | rfl | rfl <;> decide
  have hdrop : (if recursive then ((if recursive then str "r:" else []) ++ algo).drop 2
      else (if recursive then str "r:" else []) ++ algo) = algo := by
    cases recursive with
    | true => rfl
    | false => rfl
  unfold parseHashInfo
  dsimp only
  rw [htake, hdrop, if_neg halgo, hparse]
  rfl

/-- A hash is printed with at least one character. -/
theorem printHash_ne_nil {h : Hash} (hsize : h.type.size? = some h.hash.length) : printHash h ≠ [] := by
  intro heq
  have hlen := length_printHash h
  have hpos := HashType.size?_pos hsize
  rw [heq, List.length_nil] at hlen
  omega

/-! ### The fixed case -/

section

variable {st : StrictState cfg sha256} {drv drv' : Derivation} {h : Hash} {drvName : Str}

/-- A fixed-output derivation that `prim_derivationStrict` makes is as the check demands. -/
theorem acceptedFixed_fixOutput (hst : st.drv.outputs = ∅) (hfix : fixOutput cfg sha256 st = .ok drv) :
    isFixedOutputDrv drv = true ∧ AcceptedFixed cfg sha256 st.drvName drv := by
  unfold fixOutput at hfix
  split at hfix
  · cases hfix
  dsimp only at hfix
  split at hfix
  · cases hfix
  next halgo =>
    obtain ⟨h, hparse, hfix⟩ := Outcome.bind_eq_ok.mp hfix
    obtain ⟨outPath, hpath, hfix⟩ := Outcome.bind_eq_ok.mp hfix
    cases hfix
    obtain ⟨htype, hsize⟩ := parseHash16or32_eq_ok hparse
    rw [← htype] at hsize
    constructor
    · rw [hst]
      exact decide_eq_true (printHash_ne_nil hsize)
    · exact ⟨⟨outPath, _, printHash h⟩, st.outputHashRecursive, _, h,
        by rw [SortedMap.find?_insert, if_pos rfl], parseHashInfo_fixOutput halgo htype hsize, hpath,
        by rw [SortedMap.find?_insert, if_pos rfl]⟩

/-! ### The other case -/

/-- No output has a path or a hash. -/
def NoOutputPaths (drv : Derivation) : Prop :=
  ∀ id out, drv.outputs.find? id = some out → out = ⟨[], [], []⟩ ∧ drv.env.find? id = some []

/-- A derivation without outputs gets masked ones, without paths. -/
theorem noOutputPaths_addMaskedOutputs (outputs : SortedSet Str) (hdrv : drv.outputs = ∅) :
    NoOutputPaths (addMaskedOutputs outputs drv) := by
  have hstart : NoOutputPaths drv := by
    intro id out hid
    rw [hdrv] at hid
    cases hid
  unfold addMaskedOutputs
  generalize outputs.toList = l
  clear hdrv
  induction l generalizing drv with
  | nil => exact hstart
  | cons i l ih =>
    refine ih fun id out hid => ?_
    rw [SortedMap.find?_insert] at hid
    dsimp only
    rw [SortedMap.find?_insert]
    split_ifs at hid ⊢ with heq
    · exact ⟨(Option.some.inj hid).symm, rfl⟩
    · exact hstart id out hid

/-- The part of the loop over the outputs that has been done: some outputs of the masked derivation
have got their paths. -/
structure FilledOutputs (cfg : StoreConfig) (sha256 : Str → Str) (h : Hash) (drvName : Str)
    (masked drv : Derivation) (done : List (Str × DerivationOutput)) : Prop where
  rest : { drv with outputs := masked.outputs, env := masked.env } = masked
  filled : ∀ o ∈ done, ∃ path, makeOutputPath cfg sha256 o.1 h drvName = .ok path ∧
    drv.outputs.find? o.1 = some ⟨path, [], []⟩ ∧ drv.env.find? o.1 = some path
  kept : ∀ id, (∀ o ∈ done, o.1 ≠ id) →
    drv.outputs.find? id = masked.outputs.find? id ∧ drv.env.find? id = masked.env.find? id

/-- The outputs are filled in with their paths. -/
theorem filledOutputs_fillOutputs {masked : Derivation} (hmasked : NoOutputPaths masked)
    (hfill : fillOutputs cfg sha256 h drvName masked = .ok drv) :
    FilledOutputs cfg sha256 h drvName masked drv masked.outputs.entries := by
  unfold fillOutputs at hfill
  refine Outcome.foldlM_prefix (P := fun done d => FilledOutputs cfg sha256 h drvName masked d done)
    (fun done o d d' ho hd hstep => ?_)
    ⟨rfl, fun _ ho => absurd ho List.not_mem_nil, fun _ _ => ⟨rfl, rfl⟩⟩ hfill
  rw [(hmasked o.1 o.2 (SortedMap.find?_eq_some_iff.mpr ho)).1, if_pos rfl] at hstep
  obtain ⟨path, hpath, hstep⟩ := Outcome.bind_eq_ok.mp hstep
  cases hstep
  refine ⟨hd.rest, fun o' ho' => ?_, fun id hid => ?_⟩
  · dsimp only
    rw [SortedMap.find?_insert, SortedMap.find?_insert]
    by_cases heq : o'.1 = o.1
    · exact ⟨path, heq ▸ hpath, if_pos heq, if_pos heq⟩
    · rw [if_neg heq, if_neg heq]
      rcases List.mem_append.mp ho' with ho' | ho'
      · exact hd.filled o' ho'
      · exact absurd (congrArg Prod.fst (List.mem_singleton.mp ho')) heq
  · have hne : id ≠ o.1 := fun heq => hid o (List.mem_append_right _ List.mem_cons_self) heq.symm
    dsimp only
    rw [SortedMap.find?_insert, SortedMap.find?_insert, if_neg hne, if_neg hne]
    exact hd.kept id fun o' ho' => hid o' (List.mem_append_left _ ho')

/-- The variables of the outputs are emptied, the others stay. -/
theorem find?_foldl_insert_empty {l : List (Str × DerivationOutput)} (env : SortedMap Str Str) (k : Str) :
    (l.foldl (fun env o => env.insert o.1 ([] : Str)) env).find? k =
      if k ∈ l.map Prod.fst then some [] else env.find? k := by
  induction l generalizing env with
  | nil => rfl
  | cons o l ih =>
    rw [List.foldl_cons, ih, List.map_cons, SortedMap.find?_insert]
    by_cases hk : k ∈ l.map Prod.fst
    · rw [if_pos hk, if_pos (List.mem_cons_of_mem _ hk)]
    · by_cases ho : k = o.1
      · rw [if_neg hk, if_pos ho, if_pos (ho ▸ List.mem_cons_self)]
      · rw [if_neg hk, if_neg ho, if_neg (by simpa [ho] using hk)]

/-- Masking the outputs of a finished derivation gives back the masked one. -/
theorem FilledOutputs.maskOutputs_eq {masked : Derivation} (hmasked : NoOutputPaths masked)
    (hfilled : FilledOutputs cfg sha256 h drvName masked drv masked.outputs.entries) :
    maskOutputs drv = masked := by
  have hkeys : ∀ id, id ∈ masked.outputs → ∃ path,
      drv.outputs.find? id = some ⟨path, [], []⟩ ∧ drv.env.find? id = some path := by
    intro id hid
    obtain ⟨out, ho⟩ := SortedMap.mem_iff_exists.mp hid
    obtain ⟨path, -, hout, henv⟩ := hfilled.filled _ ho
    exact ⟨path, hout, henv⟩
  have hout : ∀ id, id ∉ masked.outputs → drv.outputs.find? id = none ∧
      drv.env.find? id = masked.env.find? id := by
    intro id hid
    have hkept := hfilled.kept id fun o ho heq =>
      hid (heq ▸ SortedMap.mem_iff_exists.mpr ⟨o.2, ho⟩)
    rw [SortedMap.find?_eq_none_iff.mpr hid] at hkept
    exact hkept
  have houtputs : (maskOutputs drv).outputs = masked.outputs := by
    refine SortedMap.ext_find? fun id => ?_
    rw [maskOutputs, SortedMap.find?_mapVal]
    by_cases hid : id ∈ masked.outputs
    · obtain ⟨path, hfind, -⟩ := hkeys id hid
      obtain ⟨out, ho⟩ := SortedMap.mem_iff_exists.mp hid
      have hfind' := SortedMap.find?_eq_some_iff.mpr ho
      rw [hfind, hfind', (hmasked id out hfind').1]
      rfl
    · rw [(hout id hid).1, SortedMap.find?_eq_none_iff.mpr hid]
      rfl
  have henv : (maskOutputs drv).env = masked.env := by
    refine SortedMap.ext_find? fun id => ?_
    have hmem : id ∈ drv.outputs.entries.map Prod.fst ↔ id ∈ drv.outputs := Iff.rfl
    rw [maskOutputs, find?_foldl_insert_empty]
    simp only [hmem]
    by_cases hid : id ∈ masked.outputs
    · obtain ⟨path, hfind, -⟩ := hkeys id hid
      obtain ⟨out, ho⟩ := SortedMap.mem_iff_exists.mp hid
      rw [if_pos (SortedMap.mem_iff_find?_ne_none.mpr (by rw [hfind]; simp)),
        (hmasked id out (SortedMap.find?_eq_some_iff.mpr ho)).2]
    · rw [if_neg (SortedMap.find?_eq_none_iff.mp (hout id hid).1), (hout id hid).2]
  calc maskOutputs drv
      = { drv with outputs := (maskOutputs drv).outputs, env := (maskOutputs drv).env } := rfl
    _ = { drv with outputs := masked.outputs, env := masked.env } := by rw [houtputs, henv]
    _ = masked := hfilled.rest

/-- A derivation that `prim_derivationStrict` makes in the other case is as the check demands. -/
theorem acceptedOther_fillOutputs {store : DrvStore} {masked : Derivation}
    (hmasked : NoOutputPaths masked) (hh : HashModulo sha256 store masked h)
    (hfill : fillOutputs cfg sha256 h drvName masked = .ok drv) :
    isFixedOutputDrv drv = false ∧ AcceptedOther cfg sha256 store drvName drv := by
  have hfilled := filledOutputs_fillOutputs hmasked hfill
  have hmask := hfilled.maskOutputs_eq hmasked
  constructor
  · rw [← isFixedOutputDrv_maskOutputs, hmask]
    unfold isFixedOutputDrv
    split
    next id out heq =>
      have hout : out = ⟨[], [], []⟩ := by
        refine (hmasked id out (SortedMap.find?_eq_some_iff.mpr ?_)).1
        rw [heq]
        exact List.mem_cons_self
      rw [hout]
      simp
    next => rfl
  · refine ⟨h, hmask.symm ▸ hh, fun o ho => ?_⟩
    have hmem : o.1 ∈ masked.outputs := by
      by_contra hnot
      have hkept := hfilled.kept o.1 fun o' ho' heq =>
        hnot (heq ▸ SortedMap.mem_iff_exists.mpr ⟨o'.2, ho'⟩)
      rw [SortedMap.find?_eq_some_iff.mpr ho, SortedMap.find?_eq_none_iff.mpr hnot] at hkept
      cases hkept.1
    obtain ⟨out, hout⟩ := SortedMap.mem_iff_exists.mp hmem
    obtain ⟨path, hpath, hfind, henv⟩ := hfilled.filled _ hout
    rw [SortedMap.find?_eq_some_iff.mpr ho] at hfind
    rw [Option.some.inj hfind]
    exact ⟨hpath, henv⟩

end

/-! ### The hash of the derivation -/

/-- The cache after a call of `hashDerivationModulo`, whether it has returned or not. -/
theorem CacheOk.hashDerivationModulo {store : DrvStore} {c : DrvHashes} (hc : CacheOk sha256 store c)
    (fuel : ℕ) (drv : Derivation) :
    CacheOk sha256 store (hashDerivationModulo sha256 store fuel drv c).2 := by
  have hends := mirrors_hashDerivationModulo fuel drv c hc
  unfold Prog.Ends at hends
  rcases hr : Nix.hashDerivationModulo sha256 store fuel drv c with ⟨e | h, c'⟩
  · rw [hr] at hends
    exact hends.1
  · rw [hr] at hends
    exact hends.1

/-- A call that has returned. -/
theorem runHashModulo_spec {store : DrvStore} {c c' : DrvHashes} (hc : CacheOk sha256 store c)
    {fuel : ℕ} {drv : Derivation} {h : Hash} (hrun : runHashModulo sha256 store fuel drv c = .ok (h, c')) :
    CacheOk sha256 store c' ∧ HashModulo sha256 store drv h := by
  have hcache := hc.hashDerivationModulo fuel drv
  have hhash : ∀ h, (hashDerivationModulo sha256 store fuel drv c).1 = .ok h →
      HashModulo sha256 store drv h := fun h => hashModulo_of_hashDerivationModulo hc
  unfold runHashModulo at hrun
  rcases hr : hashDerivationModulo sha256 store fuel drv c with ⟨e | h', c''⟩
  · rw [hr] at hrun
    cases e <;> cases hrun
  · rw [hr] at hrun hcache hhash
    cases hrun
    exact ⟨hcache, hhash h rfl⟩

/-! ### The name -/

/-- The name in a store path is read off the path. -/
theorem storePathToName_makeStorePath {type : Str} {hash : Hash} {name : Str} {p : Path}
    (h : makeStorePath cfg sha256 type hash name = .ok p) : storePathToName cfg p = .ok name := by
  have hstore := (makeStorePath_spec h).1
  obtain ⟨⟨⟩, -, h⟩ := Outcome.bind_eq_ok.mp h
  cases h
  have hhash : (hashPart sha256 (fingerprint cfg type hash name)).length = 32 := by
    rw [hashPart, length_printHash32, hashLength32, length_compressHash]
  have hlen : (cfg.nixStore ++ str "/" ++ hashPart sha256 (fingerprint cfg type hash name) ++
      str "-").length = storePathPrefixLength cfg := by
    simp only [List.length_append, hhash, storePathPrefixLength]
    rfl
  have hlong : ¬ (cfg.nixStore ++ str "/" ++ hashPart sha256 (fingerprint cfg type hash name) ++
      str "-" ++ name).length < storePathPrefixLength cfg := by
    rw [List.length_append, hlen]
    omega
  unfold storePathToName assertStorePath
  rw [if_pos hstore, Outcome.ok_bind, if_neg hlong, List.drop_left' hlen]
  rfl

/-- The name of a derivation that has been written is read off its path. -/
theorem derivationName_writeDerivation {drv : Derivation} {drvName : Str} {drvPath : Path}
    (h : writeDerivation cfg sha256 drv drvName = .ok drvPath) :
    derivationName cfg drvPath = .ok drvName := by
  have hsuffix : isDerivation (drvName ++ drvExtension) = true :=
    Str.hasSuffix_iff.mpr (List.suffix_append _ _)
  unfold derivationName
  rw [storePathToName_makeStorePath h, Outcome.ok_bind, if_pos hsuffix]
  congr 1
  exact List.take_left' (by rw [List.length_append]; omega)

/-- What is known of the outputs when they have been computed. -/
theorem accepted_setOutputs {store : DrvStore} {fuel : ℕ} (st : StrictState cfg sha256)
    {c c' : DrvHashes} {drv : Derivation} (hst : st.drv.outputs = ∅) (hc : CacheOk sha256 store c)
    (h : setOutputs cfg sha256 store fuel st c = .ok (drv, c')) :
    if isFixedOutputDrv drv then AcceptedFixed cfg sha256 st.drvName drv
    else AcceptedOther cfg sha256 store st.drvName drv := by
  unfold setOutputs at h
  split_ifs at h with houtput
  · obtain ⟨drv', hfix, h⟩ := Outcome.bind_eq_ok.mp h
    cases h
    obtain ⟨hfixed, haccepted⟩ := acceptedFixed_fixOutput hst hfix
    rwa [if_pos hfixed]
  · obtain ⟨⟨hash, c₁⟩, hhash, h⟩ := Outcome.bind_eq_ok.mp h
    obtain ⟨drv', hfill, h⟩ := Outcome.bind_eq_ok.mp h
    cases h
    have hmasked := noOutputPaths_addMaskedOutputs st.outputs hst
    obtain ⟨hfixed, haccepted⟩ :=
      acceptedOther_fillOutputs hmasked (runHashModulo_spec hc hhash).2 hfill
    rwa [if_neg (by simp [hfixed])]

/-- The outputs of a derivation that `prim_derivationStrict` returns are as the check of the store
demands. -/
theorem accepted_of_derivationStrict {α : Type} {env : EvalEnv α} {store : EvalStore}
    {order : PathSet → List Str} {fuel : ℕ} {v : α} {tables tables' : EvalTables cfg sha256}
    {i : Instantiated} (hc : CacheOk sha256 store.drvs tables.drvHashes)
    (h : derivationStrict env store order fuel v tables = .ok (i, tables')) :
    Accepted cfg sha256 store.drvs i.drvPath i.drv := by
  obtain ⟨attrs, -, h⟩ := Outcome.bind_eq_ok.mp h
  obtain ⟨st, hst, h⟩ := Outcome.bind_eq_ok.mp h
  obtain ⟨drv, hdrv, h⟩ := Outcome.bind_eq_ok.mp h
  obtain ⟨-, -, h⟩ := Outcome.bind_eq_ok.mp h
  obtain ⟨⟨drv', c⟩, houtputs, h⟩ := Outcome.bind_eq_ok.mp h
  obtain ⟨drvPath, hdrvPath, h⟩ := Outcome.bind_eq_ok.mp h
  obtain ⟨⟨hash, c'⟩, -, h⟩ := Outcome.bind_eq_ok.mp h
  cases h
  have hnone : drv.outputs = ∅ := Outcome.foldlM_preserves
    (P := fun d => d.outputs = ∅) (fun _ _ _ _ hd h => (outputs_addContext h).trans hd)
    (outputs_processAttrs hst) hdrv
  exact ⟨st.drvName, derivationName_writeDerivation hdrvPath,
    accepted_setOutputs { st with drv } hnone hc houtputs⟩

/-- Accepted output paths are absolute. -/
theorem Accepted.isAbsolute_outputs {store : DrvStore} {drvPath : Path} {drv : Derivation}
    (h : Accepted cfg sha256 store drvPath drv) :
    ∀ o ∈ drv.outputs.entries, isAbsolute o.2.path = true := by
  have habs : ∀ {p : Path}, isStorePath cfg p = true → isAbsolute p = true := fun hp =>
    decide_eq_true (head?_of_isStorePath hp)
  obtain ⟨drvName, -, h⟩ := h
  intro o ho
  split_ifs at h with hfixed
  · obtain ⟨out, recursive, ht, hash, hout, -, hpath, -⟩ := h
    have heq : o.2 = out := by
      unfold isFixedOutputDrv at hfixed
      split at hfixed
      next id out' hentries =>
        have hmem := SortedMap.find?_eq_some_iff.mp hout
        rw [hentries, List.mem_singleton] at ho hmem
        rw [ho, (Prod.mk.inj hmem).2]
      next => cases hfixed
    exact heq ▸ habs (makeFixedOutputPath_spec hpath).1
  · obtain ⟨hash, -, houtputs⟩ := h
    exact habs (makeStorePath_spec (houtputs o ho).1).1

end Nix
