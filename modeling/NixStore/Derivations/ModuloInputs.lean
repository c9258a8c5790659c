import NixStore.Derivations.HashModulo
import NixStore.Derivations.RoundTrip

/-!
# What a hash modulo says about the inputs

The text that `hashDerivationModulo` hashes has the hashes of the inputs in place of their paths.  It
is built by assignments to a map, so that of several inputs with the same hash only the last one in
the order of paths leaves a trace: `LastWanted` describes what is left, `InputRelation` all that there
was.  The hash of a derivation depends on its inputs through `LastWanted`, and not more.
-/

namespace Nix

section

variable (sha256 : Str → Str) (store : DrvStore)

/-- The pairs of the hash modulo of an input and an output that is wanted of it. -/
def InputRelation (drv : Derivation) : Set (Hash × Str) :=
  { x | ∃ i ∈ drv.inputDrvs.entries, InputHash sha256 store i.1 x.1 ∧ x.2 ∈ i.2 }

/-- The last input with a given hash modulo, in the order of paths. -/
def LastInput (drv : Derivation) (h : Hash) (i : Path × SortedSet Str) : Prop :=
  i ∈ drv.inputDrvs.entries ∧ InputHash sha256 store i.1 h ∧
    ∀ j ∈ drv.inputDrvs.entries, InputHash sha256 store j.1 h → j.1 ≤ i.1

/-- The visible names of the outputs that are wanted of the last input with a given hash modulo. -/
def LastWanted (drv : Derivation) (h : Hash) (names : List Str) : Prop :=
  ∃ i, LastInput sha256 store drv h i ∧ i.2.toList.map Str.cut = names

/-- The text that is hashed for a derivation without a fixed output. -/
def HashedText (drv : Derivation) (s : Str) : Prop :=
  ∃ hash : Path → Hash, (∀ i ∈ drv.inputDrvs.entries, InputHash sha256 store i.1 (hash i.1)) ∧
    s = moduloText drv (replacedInputs hash drv.inputDrvs.entries)

end

section

variable {sha256 : Str → Str} {store : DrvStore} {drv drv' : Derivation}

/-- A derivation that was printed to a file is read back. -/
theorem DrvStore.load_eq_ok {path : Path} (hvalid : store.isValidPath path = true)
    (hread : store.readFile path = .ok (unparseDerivation drv)) (hnul : drv.NulFree)
    (habs : drv.AbsolutePaths) : store.load path = .ok drv := by
  rw [DrvStore.load, if_pos hvalid, hread, Outcome.ok_bind,
    parseDerivation_unparseDerivation hnul habs]

/-- The hash of a derivation without fixed output is that of a text. -/
theorem HashModulo.exists_hashedText {h : Hash} (hh : HashModulo sha256 store drv h)
    (hfixed : isFixedOutputDrv drv = false) :
    ∃ s, HashedText sha256 store drv s ∧ h = hashString sha256 s := by
  obtain ⟨hash, hall, heq⟩ := (hashModulo_iff hfixed).mp hh
  exact ⟨_, ⟨hash, hall, rfl⟩, heq⟩

/-- What is left of the inputs in the map with the hashes. -/
theorem mem_entries_replacedInputs {hash : Path → Hash}
    (hhash : ∀ i ∈ drv.inputDrvs.entries, InputHash sha256 store i.1 (hash i.1)) {k : Str}
    {wanted : SortedSet Str} :
    (k, wanted) ∈ (replacedInputs hash drv.inputDrvs.entries).entries ↔
      ∃ i, LastInput sha256 store drv (hash i.1) i ∧ printHash (hash i.1) = k ∧ i.2 = wanted := by
  rw [← SortedMap.find?_eq_some_iff, find?_replacedInputs, Option.map_eq_some_iff]
  have hsame : ∀ i ∈ drv.inputDrvs.entries, ∀ j ∈ drv.inputDrvs.entries,
      (InputHash sha256 store j.1 (hash i.1) ↔ printHash (hash j.1) = printHash (hash i.1)) := by
    intro i hi j hj
    constructor
    · intro hj'
      rw [(hhash j hj).unique hj']
    · intro heq
      rw [← (hhash j hj).eq_of_printHash_eq (hhash i hi) heq]
      exact hhash j hj
  constructor
  · intro h
    obtain ⟨i, hfind, hwanted⟩ := h
    obtain ⟨hi, hk, hmax⟩ := (SortedMap.find?_reverse_eq_some_iff drv.inputDrvs.sorted).mp hfind
    rw [decide_eq_true_eq] at hk
    refine ⟨i, ⟨hi, hhash i hi, fun j hj hj' => hmax j hj ?_⟩, hk, hwanted⟩
    rw [decide_eq_true_eq, (hsame i hi j hj).mp hj', hk]
  · intro h
    obtain ⟨i, ⟨hi, -, hmax⟩, hk, hwanted⟩ := h
    refine ⟨i, (SortedMap.find?_reverse_eq_some_iff drv.inputDrvs.sorted).mpr
      ⟨hi, decide_eq_true hk, fun j hj hj' => hmax j hj ?_⟩, hwanted⟩
    rw [decide_eq_true_eq] at hj'
    exact (hsame i hi j hj).mpr (hj'.trans hk.symm)

/-- A printed hash has no NUL. -/
theorem nulFree_printHash (h : Hash) : (printHash h).NulFree := by
  intro h0
  exact absurd (mem_base16Chars_of_mem_printHash h0) (by decide)

/-- The keys of the map are texts of hashes. -/
theorem exists_printHash_of_mem {hash : Path → Hash} {inputs : List (Path × SortedSet Str)}
    {i : Str × SortedSet Str} (hi : i ∈ (replacedInputs hash inputs).entries) :
    ∃ p, i.1 = printHash (hash p) := by
  have hfind := SortedMap.find?_eq_some_iff.mpr (show (i.1, i.2) ∈ _ from hi)
  rw [find?_replacedInputs, Option.map_eq_some_iff] at hfind
  obtain ⟨j, hj, -⟩ := hfind
  have hk := List.find?_some hj
  rw [decide_eq_true_eq] at hk
  exact ⟨j.1, hk.symm⟩

/-- The inputs in the hashed text. -/
theorem mem_shown_replacedInputs {hash : Path → Hash}
    (hhash : ∀ i ∈ drv.inputDrvs.entries, InputHash sha256 store i.1 (hash i.1)) {k : Str}
    {names : List Str} :
    (k, names) ∈ ((replacedInputs hash drv.inputDrvs.entries).entries.map
        fun i => (Str.cut i.1, i.2.toList.map Str.cut)) ↔
      ∃ h, printHash h = k ∧ LastWanted sha256 store drv h names := by
  rw [List.mem_map]
  constructor
  · intro h
    obtain ⟨⟨k', wanted⟩, hmem, heq⟩ := h
    obtain ⟨p, hp⟩ := exists_printHash_of_mem hmem
    obtain ⟨i, hlast, hk, rfl⟩ := (mem_entries_replacedInputs hhash).mp hmem
    rw [Prod.mk.injEq] at heq
    refine ⟨hash i.1, ?_, i, hlast, heq.2⟩
    rw [← heq.1, hk, Str.cut_eq_self (by rw [hp]; exact nulFree_printHash _)]
  · intro h
    obtain ⟨h, rfl, i, hlast, hnames⟩ := h
    obtain rfl := (hhash i hlast.1).unique hlast.2.1
    refine ⟨(printHash (hash i.1), i.2), ?_, ?_⟩
    · exact (mem_entries_replacedInputs hhash).mpr ⟨i, hlast, rfl, rfl⟩
    · rw [Str.cut_eq_self (nulFree_printHash _), hnames]

/-- The keys of the map are in order, also in the printed form. -/
theorem sorted_shown_replacedInputs (hash : Path → Hash) (inputs : List (Path × SortedSet Str)) :
    ((replacedInputs hash inputs).entries.map
      fun i => (Str.cut i.1, i.2.toList.map Str.cut)).Pairwise fun a b => a.1 < b.1 := by
  rw [List.pairwise_map]
  refine (replacedInputs hash inputs).sorted.imp_of_mem fun {a b} ha hb hab => ?_
  obtain ⟨p, hp⟩ := exists_printHash_of_mem ha
  obtain ⟨q, hq⟩ := exists_printHash_of_mem hb
  dsimp only
  rwa [Str.cut_eq_self (by rw [hp]; exact nulFree_printHash _),
    Str.cut_eq_self (by rw [hq]; exact nulFree_printHash _)]

/-- The last input with a hash can be read off the printed form. -/
theorem LastWanted.of_shown_subset {hash hash' : Path → Hash}
    (hhash : ∀ i ∈ drv.inputDrvs.entries, InputHash sha256 store i.1 (hash i.1))
    (hhash' : ∀ i ∈ drv'.inputDrvs.entries, InputHash sha256 store i.1 (hash' i.1))
    (hsub : ((replacedInputs hash drv.inputDrvs.entries).entries.map
        fun i => (Str.cut i.1, i.2.toList.map Str.cut)) ⊆
      ((replacedInputs hash' drv'.inputDrvs.entries).entries.map
        fun i => (Str.cut i.1, i.2.toList.map Str.cut))) {h : Hash} {names : List Str}
    (hlast : LastWanted sha256 store drv h names) : LastWanted sha256 store drv' h names := by
  obtain ⟨h', heq, i', hlast', hnames'⟩ := (mem_shown_replacedInputs hhash').mp
    (hsub ((mem_shown_replacedInputs hhash).mpr ⟨h, rfl, hlast⟩))
  obtain ⟨i, hi, -⟩ := hlast
  have hsame : h' = h := hlast'.2.1.eq_of_printHash_eq hi.2.1 heq
  rw [← hsame]
  exact ⟨i', hlast', hnames'⟩

/-- The visible inputs of the hashed texts are the same exactly when the last inputs are wanted for
the same outputs. -/
theorem shown_replacedInputs_eq_iff {hash hash' : Path → Hash}
    (hhash : ∀ i ∈ drv.inputDrvs.entries, InputHash sha256 store i.1 (hash i.1))
    (hhash' : ∀ i ∈ drv'.inputDrvs.entries, InputHash sha256 store i.1 (hash' i.1)) :
    ((replacedInputs hash drv.inputDrvs.entries).entries.map
        fun i => (Str.cut i.1, i.2.toList.map Str.cut)) =
      ((replacedInputs hash' drv'.inputDrvs.entries).entries.map
        fun i => (Str.cut i.1, i.2.toList.map Str.cut)) ↔
    ∀ h names, LastWanted sha256 store drv h names ↔ LastWanted sha256 store drv' h names := by
  constructor
  · intro heq h names
    constructor
    · exact LastWanted.of_shown_subset hhash hhash' (fun _ hx => heq ▸ hx)
    · exact LastWanted.of_shown_subset hhash' hhash (fun _ hx => heq ▸ hx)
  · intro hlast
    have h₁ := sorted_shown_replacedInputs hash drv.inputDrvs.entries
    have h₂ := sorted_shown_replacedInputs hash' drv'.inputDrvs.entries
    have hext := SortedMap.ext_entries (m := ⟨_, h₁⟩) (n := ⟨_, h₂⟩) fun ⟨k, names⟩ => by
      dsimp only
      rw [mem_shown_replacedInputs hhash, mem_shown_replacedInputs hhash']
      simp only [hlast]
    exact congrArg SortedMap.entries hext

/-- Two derivations are the same except for their inputs. -/
def SameExceptInputs (drv drv' : Derivation) : Prop :=
  drv' = { drv with inputDrvs := drv'.inputDrvs }

/-- Changing the inputs does not change whether the output is fixed. -/
theorem SameExceptInputs.isFixedOutputDrv_eq (h : SameExceptInputs drv drv') :
    isFixedOutputDrv drv' = isFixedOutputDrv drv := by
  rw [h]
  rfl

/-- The text of a derivation depends on its inputs through the visible part of the map. -/
theorem moduloText_congr (hsame : SameExceptInputs drv drv')
    {inputs2 inputs2' : SortedMap Str (SortedSet Str)}
    (h : (inputs2.entries.map fun i => (Str.cut i.1, i.2.toList.map Str.cut)) =
      inputs2'.entries.map fun i => (Str.cut i.1, i.2.toList.map Str.cut)) :
    moduloText drv inputs2 = moduloText drv' inputs2' := by
  rw [hsame]
  unfold moduloText unparseDerivation
  dsimp only
  rw [printItems_printInput_congr h]

/-- Equal texts show the same inputs. -/
theorem shown_eq_of_moduloText_eq {inputs2 inputs2' : SortedMap Str (SortedSet Str)}
    (h : moduloText drv inputs2 = moduloText drv' inputs2') :
    (inputs2.entries.map fun i => (Str.cut i.1, i.2.toList.map Str.cut)) =
      inputs2'.entries.map fun i => (Str.cut i.1, i.2.toList.map Str.cut) :=
  congrArg ShownDerivation.inputDrvs (shown_eq_of_unparseDerivation_eq h)

/-- The hash modulo of a derivation is determined by what is left of its inputs. -/
theorem HashModulo.eq_of_lastWanted {h h' : Hash} (hfixed : isFixedOutputDrv drv = false)
    (hsame : SameExceptInputs drv drv') (hh : HashModulo sha256 store drv h)
    (hh' : HashModulo sha256 store drv' h')
    (hlast : ∀ x names, LastWanted sha256 store drv x names ↔ LastWanted sha256 store drv' x names) :
    h = h' := by
  obtain ⟨hash, hhash, rfl⟩ := (hashModulo_iff hfixed).mp hh
  obtain ⟨hash', hhash', rfl⟩ := (hashModulo_iff (hsame.isFixedOutputDrv_eq.trans hfixed)).mp hh'
  rw [moduloText_congr hsame ((shown_replacedInputs_eq_iff hhash hhash').mpr hlast)]

/-- Without a collision, the hash modulo of a derivation determines what is left of its inputs. -/
theorem HashModulo.lastWanted_iff_of_eq {h : Hash} (hfixed : isFixedOutputDrv drv = false)
    (hsame : SameExceptInputs drv drv') (hh : HashModulo sha256 store drv h)
    (hh' : HashModulo sha256 store drv' h)
    (hcoll : ∀ s s', HashedText sha256 store drv s → HashedText sha256 store drv' s' →
      sha256 s = sha256 s' → s = s') (x : Hash) (names : List Str) :
    LastWanted sha256 store drv x names ↔ LastWanted sha256 store drv' x names := by
  obtain ⟨hash, hhash, heq⟩ := (hashModulo_iff hfixed).mp hh
  obtain ⟨hash', hhash', heq'⟩ := (hashModulo_iff
    (hsame.isFixedOutputDrv_eq.trans hfixed)).mp hh'
  have hbytes := congrArg Hash.hash (heq.symm.trans heq')
  have htext := hcoll _ _ ⟨hash, hhash, rfl⟩ ⟨hash', hhash', rfl⟩ hbytes
  exact (shown_replacedInputs_eq_iff hhash hhash').mp (shown_eq_of_moduloText_eq htext) x names

/-- When two derivations that differ in their inputs only have the same pairs of hashes and wanted
outputs, they have the same hash modulo exactly if, for each hash, the last of the inputs with it is
wanted for the same outputs. -/
theorem hashDerivationModulo_eq_iff {n n' : ℕ} {c c' : DrvHashes} {h h' : Hash}
    (hfixed : isFixedOutputDrv drv = false) (hsame : SameExceptInputs drv drv')
    (hc : CacheOk sha256 store c) (hc' : CacheOk sha256 store c')
    (hrun : (hashDerivationModulo sha256 store n drv c).1 = .ok h)
    (hrun' : (hashDerivationModulo sha256 store n' drv' c').1 = .ok h') :
    ((InputRelation sha256 store drv = InputRelation sha256 store drv' →
        ∀ x names, LastWanted sha256 store drv x names ↔ LastWanted sha256 store drv' x names) →
      InputRelation sha256 store drv = InputRelation sha256 store drv' → h = h') ∧
    ((∀ s s', HashedText sha256 store drv s → HashedText sha256 store drv' s' →
        sha256 s = sha256 s' → s = s') →
      (InputRelation sha256 store drv = InputRelation sha256 store drv' → h = h') →
      InputRelation sha256 store drv = InputRelation sha256 store drv' →
        ∀ x names, LastWanted sha256 store drv x names ↔ LastWanted sha256 store drv' x names) := by
  have hh := hashModulo_of_hashDerivationModulo hc hrun
  have hh' := hashModulo_of_hashDerivationModulo hc' hrun'
  constructor
  · intro hlast hrel
    exact hh.eq_of_lastWanted hfixed hsame hh' (hlast hrel)
  · intro hcoll heq hrel
    obtain rfl := heq hrel
    exact hh.lastWanted_iff_of_eq hfixed hsame hh' hcoll

end

/-! ### Two equivalent sources

Two derivations fetch the same file from different places, and two derivations build a library from
one or the other of them; so the two libraries have the same hash modulo. -/

/-- Where the file is fetched to. -/
def sampleSrcPath : Path := str "/nix/store/q1h8dkj7jx3w49bdlbf326hdfshxa380-src"

/-- A derivation that fetches a file. -/
def sampleSrc (url : Str) : Derivation where
  outputs := .ofList
    [(str "out", ⟨sampleSrcPath, str "md5", str "d41d8cd98f00b204e9800998ecf8427e"⟩)]
  inputDrvs := ∅
  inputSrcs := ∅
  platform := str "i686-linux"
  builder := str "/bin/sh"
  args := []
  env := .ofList [(str "out", sampleSrcPath), (str "url", url)]

/-- A derivation that builds a library from a source. -/
def sampleLib (src : Path) : Derivation where
  outputs := .ofList
    [(str "dev", ⟨str "/nix/store/b2f1hzr2vazpn1phmgj289vy8ih07q0k-lib-dev", [], []⟩),
      (str "out", ⟨str "/nix/store/d5qxi1cxpr23z883p9j9yrijkamj659m-lib", [], []⟩)]
  inputDrvs := .ofList [(src, .ofList [str "out"])]
  inputSrcs := ∅
  platform := str "i686-linux"
  builder := str "/bin/sh"
  args := []
  env := .ofList [(str "dev", str "/nix/store/b2f1hzr2vazpn1phmgj289vy8ih07q0k-lib-dev"),
    (str "out", str "/nix/store/d5qxi1cxpr23z883p9j9yrijkamj659m-lib")]

/-- A derivation with one output that uses the libraries; without its path this is the masked
derivation. -/
def sampleApp (outPath : Path) (inputs : List (Path × List Str)) : Derivation where
  outputs := .ofList [(str "out", ⟨outPath, [], []⟩)]
  inputDrvs := .ofList (inputs.map fun i => (i.1, .ofList i.2))
  inputSrcs := ∅
  platform := str "i686-linux"
  builder := str "/bin/sh"
  args := []
  env := .ofList [(str "out", outPath)]

/-- The derivations of the two sources. -/
def srcDrvA : Path := str "/nix/store/7panq0x0zgbhd5zkn9qs3wl4b2xj34cd-src.drv"

/-- The second of them. -/
def srcDrvB : Path := str "/nix/store/16swlnbqbhknqysx1a85nsdlnbpvl1mh-src.drv"

/-- The derivations of the two libraries. -/
def libDrvA : Path := str "/nix/store/mz2bn6z0hj3g9bgry5zkkz73pym5g1i0-lib.drv"

/-- The second of them, which comes first in the order of paths. -/
def libDrvB : Path := str "/nix/store/59rmf8kfgl0m8ybvsrbn7jcb4xib40v2-lib.drv"

/-- The store with the sources and the libraries. -/
def sampleStore : DrvStore where
  isValidPath p := p ∈ [srcDrvA, srcDrvB, libDrvA, libDrvB]
  readFile p :=
    if p = srcDrvA then .ok (unparseDerivation (sampleSrc (str "a")))
    else if p = srcDrvB then .ok (unparseDerivation (sampleSrc (str "b")))
    else if p = libDrvA then .ok (unparseDerivation (sampleLib srcDrvA))
    else if p = libDrvB then .ok (unparseDerivation (sampleLib srcDrvB))
    else .error (str "opening file")
  uninit _ := []

/-- The bytes with the given hexadecimal digits. -/
def unhex (s : String) : Str := (parsePairs? (str s)).getD []

/-- The hash modulo of the sources. -/
def srcHash : Hash :=
  ⟨.htSHA256, unhex "00e836fcd0c37ebb8e73c6e64af57e5f7b41ad9a8ef9b0ac217b4a324cccb3a2"⟩

/-- The hash modulo of the libraries. -/
def libHash : Hash :=
  ⟨.htSHA256, unhex "894082e42f1f0732c093ff81694b6777e5e7891c4d8e784dc1f030b0138a6673"⟩

/-- The hashes of the texts in question. -/
def sampleDigests : List (Str × Str) :=
  [(fixedOutputText (sampleSrc []), srcHash.hash),
    (moduloText (sampleLib []) (.ofList [(printHash srcHash, .ofList [str "out"])]), libHash.hash),
    (moduloText (sampleApp [] []) (.ofList [(printHash libHash, .ofList [str "dev"])]),
      unhex "061fa276e00fd20a21595b152c3d50473e520385f03278f3bc14e9a2123ac168"),
    (moduloText (sampleApp [] []) (.ofList [(printHash libHash, .ofList [str "dev", str "out"])]),
      unhex "eed699fb27822ffa63914faa9f76119d3fe2cc38de52be36dfd27f7c83c904e6"),
    (str "output:out:sha256:061fa276e00fd20a21595b152c3d50473e520385f03278f3bc14e9a2123ac168:/nix/store:app",
      unhex "a16794a4d412587fecafd4978f5c2d9805cea34e5a2d5713d7e27b84cda80e84")]

/-- SHA-256 on these texts. -/
def sampleSha256 (s : Str) : Str := (sampleDigests.lookup s).getD (List.replicate 32 0)

/-- The derivations of the sample differ. -/
theorem sampleDrvs_nodup : [srcDrvA, srcDrvB, libDrvA, libDrvB].Nodup := by decide

/-- The store has the derivations at their paths. -/
theorem load_sampleDrvs :
    sampleStore.load srcDrvA = .ok (sampleSrc (str "a")) ∧
      sampleStore.load srcDrvB = .ok (sampleSrc (str "b")) ∧
      sampleStore.load libDrvA = .ok (sampleLib srcDrvA) ∧
      sampleStore.load libDrvB = .ok (sampleLib srcDrvB) := by
  have hne := sampleDrvs_nodup
  simp only [List.nodup_cons, List.mem_cons, not_or] at hne
  refine ⟨?_, ?_, ?_, ?_⟩
  · refine DrvStore.load_eq_ok (by simp [sampleStore]) ?_ (by decide)
      ⟨by decide, by decide, by decide⟩
    simp only [sampleStore, if_true]
  · refine DrvStore.load_eq_ok (by simp [sampleStore]) ?_ (by decide)
      ⟨by decide, by decide, by decide⟩
    simp only [sampleStore, Ne.symm hne.1.1, if_false, if_true]
  · refine DrvStore.load_eq_ok (by simp [sampleStore]) ?_ (by decide)
      ⟨by decide, by decide, by decide⟩
    simp only [sampleStore, Ne.symm hne.1.2.1, Ne.symm hne.2.1.1, if_false, if_true]
  · refine DrvStore.load_eq_ok (by simp [sampleStore]) ?_ (by decide)
      ⟨by decide, by decide, by decide⟩
    simp only [sampleStore, Ne.symm hne.1.2.2.1, Ne.symm hne.2.1.2.1, Ne.symm hne.2.2.1.1, if_false,
      if_true]

/-- The two sources of the sample have the same hash. -/
theorem inputHash_srcDrvs : InputHash sampleSha256 sampleStore srcDrvA srcHash ∧
    InputHash sampleSha256 sampleStore srcDrvB srcHash :=
  ⟨inputHash_iff.mpr ⟨_, load_sampleDrvs.1,
      (hashModulo_iff_of_fixed (by decide)).mpr (by decide)⟩,
    inputHash_iff.mpr ⟨_, load_sampleDrvs.2.1,
      (hashModulo_iff_of_fixed (by decide)).mpr (by decide)⟩⟩

/-- The texts for which the hash is used. -/
theorem hashString_sampleDigests :
    libHash = hashString sampleSha256 (moduloText (sampleLib [])
        (.ofList [(printHash srcHash, .ofList [str "out"])])) ∧
      ⟨.htSHA256, unhex "061fa276e00fd20a21595b152c3d50473e520385f03278f3bc14e9a2123ac168"⟩ =
        hashString sampleSha256 (moduloText (sampleApp [] [])
          (replacedInputs (fun _ => libHash)
            [(libDrvB, .ofList [str "out"]), (libDrvA, .ofList [str "dev"])])) ∧
      ⟨.htSHA256, unhex "eed699fb27822ffa63914faa9f76119d3fe2cc38de52be36dfd27f7c83c904e6"⟩ =
        hashString sampleSha256 (moduloText (sampleApp [] [])
          (replacedInputs (fun _ => libHash) [(libDrvA, .ofList [str "dev", str "out"])])) :=
  ⟨by decide +kernel, by decide +kernel, by decide +kernel⟩

/-- The two libraries of the sample have the same hash. -/
theorem hashModulo_sampleLib {src : Path} (hsrc : InputHash sampleSha256 sampleStore src srcHash) :
    HashModulo sampleSha256 sampleStore (sampleLib src) libHash := by
  refine (hashModulo_iff rfl).mpr ⟨fun _ => srcHash, fun i hi => ?_, ?_⟩
  · rw [show (sampleLib src).inputDrvs.entries = [(src, .ofList [str "out"])] from rfl,
      List.mem_singleton] at hi
    rwa [hi]
  · exact hashString_sampleDigests.1

/-- The hash of the first library. -/
theorem inputHash_libDrvA : InputHash sampleSha256 sampleStore libDrvA libHash :=
  inputHash_iff.mpr ⟨_, load_sampleDrvs.2.2.1, hashModulo_sampleLib inputHash_srcDrvs.1⟩

/-- The hash of the second library. -/
theorem inputHash_libDrvB : InputHash sampleSha256 sampleStore libDrvB libHash :=
  inputHash_iff.mpr ⟨_, load_sampleDrvs.2.2.2, hashModulo_sampleLib inputHash_srcDrvs.2⟩

/-- The first library has one hash. -/
theorem inputHash_libDrvA_iff {h : Hash} :
    InputHash sampleSha256 sampleStore libDrvA h ↔ h = libHash :=
  ⟨fun hh => hh.unique inputHash_libDrvA, fun hh => hh ▸ inputHash_libDrvA⟩

/-- The second library has one hash. -/
theorem inputHash_libDrvB_iff {h : Hash} :
    InputHash sampleSha256 sampleStore libDrvB h ↔ h = libHash :=
  ⟨fun hh => hh.unique inputHash_libDrvB, fun hh => hh ▸ inputHash_libDrvB⟩

/-- One output of each library. -/
def inputsApart : List (Path × List Str) := [(libDrvB, [str "out"]), (libDrvA, [str "dev"])]

/-- Both outputs of one library. -/
def inputsTogether : List (Path × List Str) := [(libDrvA, [str "dev", str "out"])]

/-- The inputs of the sample that uses both libraries. -/
theorem entries_inputsApart (outPath : Path) :
    (sampleApp outPath inputsApart).inputDrvs.entries =
      [(libDrvB, .ofList [str "out"]), (libDrvA, .ofList [str "dev"])] := by
  change (SortedMap.ofList _).entries = _
  decide

/-- The inputs of the sample that uses one library. -/
theorem entries_inputsTogether (outPath : Path) :
    (sampleApp outPath inputsTogether).inputDrvs.entries =
      [(libDrvA, .ofList [str "dev", str "out"])] := rfl

/-- The hash of the sample that uses both libraries. -/
theorem hashModulo_sampleApp_apart : HashModulo sampleSha256 sampleStore (sampleApp [] inputsApart)
    ⟨.htSHA256, unhex "061fa276e00fd20a21595b152c3d50473e520385f03278f3bc14e9a2123ac168"⟩ := by
  refine (hashModulo_iff rfl).mpr ⟨fun _ => libHash, fun i hi => ?_, ?_⟩
  · rw [entries_inputsApart, List.mem_cons, List.mem_singleton] at hi
    rcases hi with rfl | rfl
    · exact inputHash_libDrvB
    · exact inputHash_libDrvA
  · rw [entries_inputsApart]
    exact hashString_sampleDigests.2.1

/-- The hash of the sample that uses one library. -/
theorem hashModulo_sampleApp_together :
    HashModulo sampleSha256 sampleStore (sampleApp [] inputsTogether)
    ⟨.htSHA256, unhex "eed699fb27822ffa63914faa9f76119d3fe2cc38de52be36dfd27f7c83c904e6"⟩ := by
  refine (hashModulo_iff rfl).mpr ⟨fun _ => libHash, fun i hi => ?_, ?_⟩
  · rw [entries_inputsTogether, List.mem_singleton] at hi
    rw [hi]
    exact inputHash_libDrvA
  · exact hashString_sampleDigests.2.2

/-- The relation to the inputs, for the sample that uses both libraries. -/
theorem mem_inputRelation_apart {h : Hash} {name : Str} :
    (h, name) ∈ InputRelation sampleSha256 sampleStore (sampleApp [] inputsApart) ↔
      h = libHash ∧ (name = str "dev" ∨ name = str "out") := by
  unfold InputRelation
  rw [entries_inputsApart, Set.mem_ofPred_eq]
  constructor
  · intro hx
    obtain ⟨i, hi, hh, hname⟩ := hx
    rcases List.mem_cons.mp hi with rfl | hi
    · rw [SortedSet.mem_ofList, List.mem_singleton] at hname
      exact ⟨inputHash_libDrvB_iff.mp hh, Or.inr hname⟩
    · obtain rfl := List.mem_singleton.mp hi
      rw [SortedSet.mem_ofList, List.mem_singleton] at hname
      exact ⟨inputHash_libDrvA_iff.mp hh, Or.inl hname⟩
  · intro hx
    obtain ⟨rfl, rfl | rfl⟩ := hx
    · exact ⟨_, List.mem_cons_of_mem _ List.mem_cons_self, inputHash_libDrvA,
        SortedSet.mem_ofList.mpr List.mem_cons_self⟩
    · exact ⟨_, List.mem_cons_self, inputHash_libDrvB,
        SortedSet.mem_ofList.mpr List.mem_cons_self⟩

/-- The relation to the inputs, for the sample that uses one library. -/
theorem mem_inputRelation_together {h : Hash} {name : Str} :
    (h, name) ∈ InputRelation sampleSha256 sampleStore (sampleApp [] inputsTogether) ↔
      h = libHash ∧ (name = str "dev" ∨ name = str "out") := by
  unfold InputRelation
  rw [entries_inputsTogether, Set.mem_ofPred_eq]
  constructor
  · intro hx
    obtain ⟨i, hi, hh, hname⟩ := hx
    obtain rfl := List.mem_singleton.mp hi
    rw [SortedSet.mem_ofList, List.mem_cons, List.mem_singleton] at hname
    exact ⟨inputHash_libDrvA_iff.mp hh, hname⟩
  · intro hx
    obtain ⟨rfl, hname⟩ := hx
    refine ⟨_, List.mem_cons_self, inputHash_libDrvA, ?_⟩
    rw [SortedSet.mem_ofList, List.mem_cons, List.mem_singleton]
    exact hname

/-- An empty table is right. -/
theorem cacheOk_empty (sha256 : Str → Str) (store : DrvStore) : CacheOk sha256 store ∅ := by
  intro p h hp
  exact absurd hp (by simp [SortedMap.find?])

/-- Two derivations that differ in their inputs only and want the same outputs of inputs with the same
hashes modulo can have different hashes modulo. -/
theorem hashDerivationModulo_loses_input :
    ¬ ∀ (sha256 : Str → Str) (store : DrvStore) (drv drv' : Derivation) (n n' : ℕ) (h h' : Hash),
      isFixedOutputDrv drv = false → isFixedOutputDrv drv' = false → SameExceptInputs drv drv' →
      InputRelation sha256 store drv = InputRelation sha256 store drv' →
      (hashDerivationModulo sha256 store n drv ∅).1 = .ok h →
      (hashDerivationModulo sha256 store n' drv' ∅).1 = .ok h' → h = h' := by
  intro hclaim
  obtain ⟨n, hn⟩ := hashModulo_sampleApp_apart
  obtain ⟨n', hn'⟩ := hashModulo_sampleApp_together
  have hrel : InputRelation sampleSha256 sampleStore (sampleApp [] inputsApart) =
      InputRelation sampleSha256 sampleStore (sampleApp [] inputsTogether) := by
    ext ⟨h, name⟩
    rw [mem_inputRelation_apart, mem_inputRelation_together]
  have hsame : SameExceptInputs (sampleApp [] inputsApart) (sampleApp [] inputsTogether) := rfl
  have heq := hclaim sampleSha256 sampleStore (sampleApp [] inputsApart)
    (sampleApp [] inputsTogether) n n' _ _ rfl rfl hsame hrel
    (hashDerivationModulo_of_uncached (cacheOk_empty _ _) hn)
    (hashDerivationModulo_of_uncached (cacheOk_empty _ _) hn')
  exact absurd heq (by decide)

/-- What is wanted of the sources of the sample. -/
theorem lastWanted_sampleLib {src : Path} (hsrc : InputHash sampleSha256 sampleStore src srcHash)
    {h : Hash} {names : List Str} :
    LastWanted sampleSha256 sampleStore (sampleLib src) h names ↔
      h = srcHash ∧ [str "out"].map Str.cut = names := by
  unfold LastWanted LastInput
  rw [show (sampleLib src).inputDrvs.entries = [(src, .ofList [str "out"])] from rfl]
  constructor
  · intro hlast
    obtain ⟨i, ⟨hi, hh, -⟩, hnames⟩ := hlast
    rw [List.mem_singleton] at hi
    subst hi
    exact ⟨hh.unique hsrc, hnames⟩
  · intro hlast
    obtain ⟨rfl, hnames⟩ := hlast
    refine ⟨(src, .ofList [str "out"]), ⟨by simp, hsrc, ?_⟩, hnames⟩
    intro j hj _
    rw [List.mem_singleton.mp hj]

/-- Another source with the same hash modulo does not change the hash modulo of a library. -/
theorem hashDerivationModulo_eq_iff_sampleLib :
    ∃ n n' h h', (hashDerivationModulo sampleSha256 sampleStore n (sampleLib srcDrvA) ∅).1 = .ok h ∧
      (hashDerivationModulo sampleSha256 sampleStore n' (sampleLib srcDrvB) ∅).1 = .ok h' ∧
      (InputRelation sampleSha256 sampleStore (sampleLib srcDrvA) =
        InputRelation sampleSha256 sampleStore (sampleLib srcDrvB) → h = h') := by
  obtain ⟨n, hn⟩ := hashModulo_sampleLib inputHash_srcDrvs.1
  obtain ⟨n', hn'⟩ := hashModulo_sampleLib inputHash_srcDrvs.2
  have hrun := hashDerivationModulo_of_uncached (cacheOk_empty sampleSha256 sampleStore) hn
  have hrun' := hashDerivationModulo_of_uncached (cacheOk_empty sampleSha256 sampleStore) hn'
  refine ⟨n, n', libHash, libHash, hrun, hrun', ?_⟩
  have hfixed : isFixedOutputDrv (sampleLib srcDrvA) = false := rfl
  have hsame : SameExceptInputs (sampleLib srcDrvA) (sampleLib srcDrvB) := rfl
  refine (hashDerivationModulo_eq_iff hfixed hsame (cacheOk_empty _ _) (cacheOk_empty _ _) hrun
    hrun').1 fun _ x names => ?_
  rw [lastWanted_sampleLib inputHash_srcDrvs.1, lastWanted_sampleLib inputHash_srcDrvs.2]

end Nix
