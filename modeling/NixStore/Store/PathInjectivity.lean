import NixStore.Derivations.ModuloInputs
import NixStore.Lib.Fields

/-!
# Store paths of different objects

A store path is the hash of a fingerprint: a type, a hash and a name, joined by colons.  The type of a
text file contains the references, so it has colons of its own, and the hash of a fixed output is the
hash of another joined string.  Here the fields are read off again, so two objects with the same path
are the same, as long as no two of the strings that are hashed for them collide.
-/

namespace Nix

/-! ### Fields of a fingerprint -/

section

variable {cfg : StoreConfig} {sha256 : Str → Str} {name name' : Str}

/-- A name that was checked has allowed characters. -/
theorem isNameChar_of_checkStoreName (h : checkStoreName name = .ok ()) :
    ∀ c ∈ name, isNameChar c = true := by
  intro c hc
  unfold checkStoreName at h
  split_ifs at h
  cases hfind : name.find? fun c => !isNameChar c with
  | none => simpa using List.find?_eq_none.mp hfind c hc
  | some d => rw [hfind] at h; cases h

/-- A name has no colons. -/
theorem colon_notMem_of_checkStoreName (h : checkStoreName name = .ok ()) :
    ':'.toUInt8 ∉ name := fun hc =>
  absurd (isNameChar_of_checkStoreName h _ hc) (by decide)

/-- A printed hash has no colon. -/
theorem colon_notMem_printHash (h : Hash) : ':'.toUInt8 ∉ printHash h := fun hc =>
  absurd (mem_base16Chars_of_mem_printHash hc) (by decide)

/-- The fingerprint determines its fields, whatever the type is. -/
theorem fingerprint_inj {type type' : Str} {h h' : Hash} (hname : ':'.toUInt8 ∉ name)
    (hname' : ':'.toUInt8 ∉ name')
    (heq : fingerprint cfg type h name = fingerprint cfg type' h' name') :
    type = type' ∧ h.hash = h'.hash ∧ name = name' := by
  have hsplit : ∀ (type : Str) (h : Hash) (name : Str), fingerprint cfg type h name =
      ((type ++ str ":sha256") ++ ':'.toUInt8 :: printHash h) ++ (str ":" ++ cfg.nixStore) ++
        ':'.toUInt8 :: name := by
    intro type h name
    simp [fingerprint, show str ":sha256:" = str ":sha256" ++ [':'.toUInt8] from rfl,
      show str ":" = [':'.toUInt8] from rfl]
  rw [hsplit, hsplit] at heq
  obtain ⟨hfront, rfl⟩ := Fields.last_inj hname hname' heq
  have hhash := List.append_cancel_right hfront
  obtain ⟨htype, hhash⟩ :=
    Fields.last_inj (colon_notMem_printHash h) (colon_notMem_printHash h') hhash
  exact ⟨List.append_cancel_right htype, printHash_injective hhash, rfl⟩

/-- The path determines the compressed hash of the fingerprint and the name. -/
theorem makeStorePath_inj {type type' : Str} {h h' : Hash} {path : Path}
    (hpath : makeStorePath cfg sha256 type h name = .ok path)
    (hpath' : makeStorePath cfg sha256 type' h' name' = .ok path) :
    checkStoreName name = .ok () ∧ checkStoreName name' = .ok () ∧
      (compressHash (hashString sha256 (fingerprint cfg type h name)) 20).hash =
        (compressHash (hashString sha256 (fingerprint cfg type' h' name')) 20).hash := by
  unfold makeStorePath at hpath hpath'
  obtain ⟨⟨⟩, hcheck, hpath⟩ := Outcome.bind_eq_ok.mp hpath
  obtain ⟨⟨⟩, hcheck', hpath'⟩ := Outcome.bind_eq_ok.mp hpath'
  refine ⟨hcheck, hcheck', ?_⟩
  have heq := Outcome.ok.inj (hpath.trans hpath'.symm)
  simp only [List.append_assoc] at heq
  have hparts := List.append_cancel_left (List.append_cancel_left heq)
  have hlen : ∀ s, (hashPart sha256 s).length = 32 := by
    intro s
    rw [hashPart, length_printHash32, hashLength32, length_compressHash]
  exact printHash32_injective (length_compressHash _ _) (length_compressHash _ _)
    (List.append_inj hparts ((hlen _).trans (hlen _).symm)).1

/-- A store path is the store, a slash, and a name without slashes. -/
theorem opened_of_isStorePath {path : Path} (h : isStorePath cfg path = true) :
    Fields.Opened (cfg.nixStore ++ str "/") path := by
  unfold isStorePath isInStore at h
  simp only [Bool.and_eq_true, decide_eq_true_eq] at h
  obtain ⟨⟨⟨⟨-, htake⟩, -⟩, hslash⟩, hrest⟩ := h
  have habs := cfg.absolute
  rw [isAbsolute, decide_eq_true_eq] at habs
  refine ⟨'/'.toUInt8, path.drop (cfg.nixStore.length + 1), ?_, hrest, ?_⟩
  · rw [List.head?_append, habs]
    rfl
  · obtain ⟨hlt, hget⟩ := List.getElem?_eq_some_iff.mp hslash
    have hdrop : path.drop cfg.nixStore.length =
        str "/" ++ path.drop (cfg.nixStore.length + 1) := by
      rw [List.drop_eq_getElem_cons hlt, hget]
      rfl
    calc path = path.take cfg.nixStore.length ++ path.drop cfg.nixStore.length :=
          (List.take_append_drop _ _).symm
      _ = cfg.nixStore ++ str "/" ++ path.drop (cfg.nixStore.length + 1) := by
          rw [htake, hdrop, List.append_assoc]

/-- The type of a text has its references, joined by colons. -/
theorem textType_eq (references : PathSet) :
    textType references = str "text" ++ Fields.joined ':'.toUInt8 references.toList := by
  have hfold : ∀ (l : List Path) (type : Str), l.foldl (fun type r => type ++ str ":" ++ r) type =
      type ++ Fields.joined ':'.toUInt8 l := by
    intro l
    induction l with
    | nil => intro type; simp [Fields.joined]
    | cons r l ih =>
      intro type
      rw [List.foldl_cons, ih]
      simp [Fields.joined, show str ":" = [':'.toUInt8] from rfl]
  exact hfold _ _

/-- The type of a text file determines its references. -/
theorem textType_injOn {references references' : PathSet}
    (hrefs : ∀ r ∈ references, isStorePath cfg r = true)
    (hrefs' : ∀ r ∈ references', isStorePath cfg r = true)
    (h : textType references = textType references') : references = references' := by
  rw [textType_eq, textType_eq] at h
  have habs := cfg.absolute
  rw [isAbsolute, decide_eq_true_eq] at habs
  have hcolon : (cfg.nixStore ++ str "/").head? ≠ some ':'.toUInt8 := by
    rw [List.head?_append, habs]
    decide
  exact SortedSet.toList_injective (Fields.joined_injOn hcolon
    (fun r hr => opened_of_isStorePath (hrefs r (SortedSet.mem_toList.mp hr)))
    (fun r hr => opened_of_isStorePath (hrefs' r (SortedSet.mem_toList.mp hr)))
    (List.append_cancel_left h))

/-- The string for a fixed output determines the way it is hashed, the algorithm and the hash. -/
theorem fixedOutputString_inj {recursive recursive' : Bool} {hashAlgo hashAlgo' : HashType}
    {algo algo' : Str} {h h' : Hash} (halgo : printHashType hashAlgo = .ok algo)
    (halgo' : printHashType hashAlgo' = .ok algo')
    (heq : fixedOutputString recursive algo h = fixedOutputString recursive' algo' h') :
    recursive = recursive' ∧ hashAlgo = hashAlgo' ∧ h.hash = h'.hash := by
  have hsplit : ∀ (recursive : Bool) (algo : Str) (h : Hash), fixedOutputString recursive algo h =
      str "fixed:out:" ++ (((if recursive then str "r:" else []) ++ algo) ++
        ':'.toUInt8 :: printHash h) ++ str ":" := by
    intro recursive algo h
    simp [fixedOutputString, show str ":" = [':'.toUInt8] from rfl]
  rw [hsplit, hsplit] at heq
  obtain ⟨hfront, hhash⟩ :=
    Fields.last_inj (colon_notMem_printHash h) (colon_notMem_printHash h')
      (List.append_cancel_left (List.append_cancel_right heq))
  -- the mode and the algorithm can take six values together
  have hmode : recursive = recursive' ∧ hashAlgo = hashAlgo' := by
    cases hashAlgo <;> cases halgo <;> cases hashAlgo' <;> cases halgo' <;> revert hfront <;>
      cases recursive <;> cases recursive' <;> decide
  exact ⟨hmode.1, hmode.2, printHash_injective hhash⟩

end

/-! ### Objects with store paths -/

/-- What a store path is computed for. -/
inductive StoreObject where
  /-- The output `id` of a derivation with the given hash modulo. -/
  | output (drv : Derivation) (id : Str) (h : Hash) (name : Str)
  /-- A source, or an output with a fixed hash. -/
  | fixed (recursive : Bool) (hashAlgo : HashType) (h : Hash) (name : Str)
  /-- A text file. -/
  | text (name s : Str) (references : PathSet)

namespace StoreObject

section

variable (cfg : StoreConfig) (sha256 : Str → Str) (store : DrvStore)

/-- The store path of an object. -/
def path : StoreObject → Outcome Str Path
  | output _ id h name => makeOutputPath cfg sha256 id h name
  | fixed recursive hashAlgo h name => makeFixedOutputPath cfg sha256 recursive hashAlgo h name
  | text name s references => computeStorePathForText cfg sha256 name s references

/-- The fields of the fingerprint of an object. -/
def fields : StoreObject → Outcome Str (Str × Hash × Str)
  | output _ id h name => .ok (str "output:" ++ id, h, outputName id name)
  | fixed recursive hashAlgo h name =>
    if hashAlgo = .htSHA256 ∧ recursive = true then .ok (str "source", h, name)
    else do
      let algo ← printHashType hashAlgo
      return (str "output:out", hashString sha256 (fixedOutputString recursive algo h), name)
  | text name s references => .ok (textType references, hashString sha256 s, name)

/-- What the code accepts: the hash of an output is the hash modulo of a derivation without a fixed
output, and references are store paths. -/
def Accepted : StoreObject → Prop
  | output drv _ h _ => isFixedOutputDrv drv = false ∧ HashModulo sha256 store drv h
  | fixed .. => True
  | text _ _ references => ∀ r ∈ references, isStorePath cfg r = true

/-- The strings that are hashed for an object, apart from the fingerprint. -/
def Hashes : StoreObject → Str → Prop
  | output drv .., s => HashedText sha256 store drv s
  | fixed recursive hashAlgo h _, s => ¬(hashAlgo = .htSHA256 ∧ recursive = true) ∧
      ∃ algo, printHashType hashAlgo = .ok algo ∧ s = fixedOutputString recursive algo h
  | text _ t _, s => s = t

/-- The fingerprint that is compressed for the path of an object. -/
def Compresses (o : StoreObject) (s : Str) : Prop :=
  ∃ type h name, o.fields sha256 = .ok (type, h, name) ∧ s = fingerprint cfg type h name

/-- The same kind of object with the same arguments; hashes are compared as `Hash::operator ==` does,
by their bytes. -/
inductive Same : StoreObject → StoreObject → Prop
  | output {drv drv' : Derivation} {id : Str} {h h' : Hash} {name : Str} (hh : h.hash = h'.hash) :
      Same (output drv id h name) (output drv' id h' name)
  | fixed {recursive : Bool} {hashAlgo : HashType} {h h' : Hash} {name : Str}
      (hh : h.hash = h'.hash) :
      Same (fixed recursive hashAlgo h name) (fixed recursive hashAlgo h' name)
  | text {name s : Str} {references : PathSet} :
      Same (text name s references) (text name s references)

end

section

variable {cfg : StoreConfig} {sha256 : Str → Str} {store : DrvStore}

/-- A path is made from the three fields of its object. -/
theorem path_eq (o : StoreObject) : o.path cfg sha256 = (do
    let f ← o.fields sha256
    makeStorePath cfg sha256 f.1 f.2.1 f.2.2) := by
  cases o with
  | output drv id h name => rfl
  | fixed recursive hashAlgo h name =>
    simp only [path, fields, makeFixedOutputPath]
    split_ifs
    · rfl
    · cases printHashType hashAlgo <;> rfl
  | text name s references => rfl

/-- Objects with the same path have the same fields, unless their fingerprints collide. -/
theorem fields_of_path {o o' : StoreObject} {p : Path}
    (hcompress : ∀ s s', o.Compresses cfg sha256 s → o'.Compresses cfg sha256 s' →
      (compressHash (hashString sha256 s) 20).hash = (compressHash (hashString sha256 s') 20).hash →
      s = s')
    (hp : o.path cfg sha256 = .ok p) (hp' : o'.path cfg sha256 = .ok p) :
    ∃ type h h' name, o.fields sha256 = .ok (type, h, name) ∧
      o'.fields sha256 = .ok (type, h', name) ∧ h.hash = h'.hash := by
  rw [path_eq] at hp hp'
  obtain ⟨⟨type, h, name⟩, hf, hp⟩ := Outcome.bind_eq_ok.mp hp
  obtain ⟨⟨type', h', name'⟩, hf', hp'⟩ := Outcome.bind_eq_ok.mp hp'
  obtain ⟨hcheck, hcheck', hhash⟩ := makeStorePath_inj hp hp'
  have hprint := hcompress _ _ ⟨_, _, _, hf, rfl⟩ ⟨_, _, _, hf', rfl⟩ hhash
  obtain ⟨rfl, hh, rfl⟩ := fingerprint_inj (colon_notMem_of_checkStoreName hcheck)
    (colon_notMem_of_checkStoreName hcheck') hprint
  exact ⟨type, h, h', name, hf, hf', hh⟩

/-- The fields of a source, and of another object with a fixed hash. -/
theorem fields_fixed_eq_ok {recursive : Bool} {hashAlgo : HashType} {h h' : Hash}
    {name name' type : Str}
    (hf : (fixed recursive hashAlgo h name).fields sha256 = .ok (type, h', name')) : name = name' ∧
      ((hashAlgo = .htSHA256 ∧ recursive = true ∧ type = str "source" ∧ h = h') ∨
        ¬(hashAlgo = .htSHA256 ∧ recursive = true) ∧ ∃ algo, printHashType hashAlgo = .ok algo ∧
          type = str "output:out" ∧ h' = hashString sha256 (fixedOutputString recursive algo h)) := by
  simp only [fields] at hf
  split_ifs at hf with hsource
  · cases hf
    exact ⟨rfl, Or.inl ⟨hsource.1, hsource.2, rfl, rfl⟩⟩
  · obtain ⟨algo, halgo, hf⟩ := Outcome.bind_eq_ok.mp hf
    cases hf
    exact ⟨rfl, Or.inr ⟨hsource, algo, halgo, rfl, rfl⟩⟩

/-- No string that is hashed for a derivation begins like that of a fixed output. -/
theorem hashedText_ne_fixedOutputString {drv : Derivation} {s : Str} {recursive : Bool} {algo : Str}
    {h : Hash} (hs : HashedText sha256 store drv s) : s ≠ fixedOutputString recursive algo h := by
  obtain ⟨hash, -, rfl⟩ := hs
  intro heq
  have hhead : 'D'.toUInt8 = 'f'.toUInt8 := by
    unfold moduloText fixedOutputString at heq
    rw [unparseDerivation_eq] at heq
    exact Option.some.inj (congrArg List.head? heq)
  exact absurd hhead (by decide)

/-- An output of a derivation is neither a source nor a fixed output. -/
theorem not_output_fixed {drv : Derivation} {id : Str} {h h' k k' : Hash} {name name' n type : Str}
    {recursive : Bool} {hashAlgo : HashType} (haccepted : (output drv id h name).Accepted cfg sha256 store)
    (hhash : ∀ s s', (output drv id h name).Hashes sha256 store s →
      (fixed recursive hashAlgo h' name').Hashes sha256 store s' → sha256 s = sha256 s' → s = s')
    (hf : (output drv id h name).fields sha256 = .ok (type, k, n))
    (hf' : (fixed recursive hashAlgo h' name').fields sha256 = .ok (type, k', n)) :
    k.hash ≠ k'.hash := by
  intro heq
  cases hf
  obtain ⟨-, ⟨-, -, htype, -⟩ | ⟨hsource, algo, halgo, -, rfl⟩⟩ := fields_fixed_eq_ok hf'
  · have hhead : 'o'.toUInt8 = 's'.toUInt8 := Option.some.inj (congrArg List.head? htype)
    exact absurd hhead (by decide)
  · obtain ⟨s, hs, rfl⟩ := haccepted.2.exists_hashedText haccepted.1
    exact hashedText_ne_fixedOutputString hs (hhash _ _ hs ⟨hsource, algo, halgo, rfl⟩ heq)

/-- The type of a text file is not that of anything else. -/
theorem not_text {o : StoreObject} {name s n type : Str} {references : PathSet} {k k' : Hash}
    (hf : o.fields sha256 = .ok (type, k, n))
    (hf' : (text name s references).fields sha256 = .ok (type, k', n)) :
    ∃ name' s' references', o = text name' s' references' := by
  cases hf'
  cases o with
  | output drv id h name' =>
    have hhead : 'o'.toUInt8 = 't'.toUInt8 := by
      have htype := congrArg Prod.fst (Outcome.ok.inj hf)
      rw [textType_eq] at htype
      exact Option.some.inj (congrArg List.head? htype)
    exact absurd hhead (by decide)
  | fixed recursive hashAlgo h name' =>
    obtain ⟨-, ⟨-, -, htype, -⟩ | ⟨-, algo, -, htype, -⟩⟩ := fields_fixed_eq_ok hf
    · rw [textType_eq] at htype
      have hhead : 't'.toUInt8 = 's'.toUInt8 := Option.some.inj (congrArg List.head? htype)
      exact absurd hhead (by decide)
    · rw [textType_eq] at htype
      have hhead : 't'.toUInt8 = 'o'.toUInt8 := Option.some.inj (congrArg List.head? htype)
      exact absurd hhead (by decide)
  | text name' s' references' => exact ⟨name', s', references', rfl⟩

/-- Two sources or fixed outputs with the same fields. -/
theorem same_fixed {recursive recursive' : Bool} {hashAlgo hashAlgo' : HashType}
    {h h' k k' : Hash} {name name' n type : Str}
    (hhash : ∀ s s', (fixed recursive hashAlgo h name).Hashes sha256 store s →
      (fixed recursive' hashAlgo' h' name').Hashes sha256 store s' → sha256 s = sha256 s' → s = s')
    (hf : (fixed recursive hashAlgo h name).fields sha256 = .ok (type, k, n))
    (hf' : (fixed recursive' hashAlgo' h' name').fields sha256 = .ok (type, k', n))
    (heq : k.hash = k'.hash) :
    Same (fixed recursive hashAlgo h name) (fixed recursive' hashAlgo' h' name') := by
  have hapart : str "source" ≠ str "output:out" := by decide
  obtain ⟨rfl, hkind⟩ := fields_fixed_eq_ok hf
  obtain ⟨rfl, hkind'⟩ := fields_fixed_eq_ok hf'
  rcases hkind with ⟨rfl, rfl, htype, rfl⟩ | ⟨hsource, algo, halgo, htype, rfl⟩
  · rcases hkind' with ⟨rfl, rfl, -, rfl⟩ | ⟨-, -, -, htype', -⟩
    · exact .fixed heq
    · exact absurd (htype.symm.trans htype') hapart
  · rcases hkind' with ⟨-, -, htype', -⟩ | ⟨hsource', algo', halgo', -, rfl⟩
    · exact absurd (htype'.symm.trans htype) hapart
    · obtain ⟨rfl, rfl, hh⟩ := fixedOutputString_inj halgo halgo'
        (hhash _ _ ⟨hsource, algo, halgo, rfl⟩ ⟨hsource', algo', halgo', rfl⟩ heq)
      exact .fixed hh

/-- Objects with the same fields are the same, unless strings that are hashed for them collide. -/
theorem same_of_fields {o o' : StoreObject} {k k' : Hash} {n type : Str}
    (haccepted : o.Accepted cfg sha256 store) (haccepted' : o'.Accepted cfg sha256 store)
    (hhash : ∀ s s', o.Hashes sha256 store s → o'.Hashes sha256 store s' →
      sha256 s = sha256 s' → s = s')
    (hf : o.fields sha256 = .ok (type, k, n)) (hf' : o'.fields sha256 = .ok (type, k', n))
    (heq : k.hash = k'.hash) : o.Same o' := by
  have hsymm : ∀ s s', o'.Hashes sha256 store s → o.Hashes sha256 store s' →
      sha256 s = sha256 s' → s = s' := fun s s' hs hs' h => (hhash s' s hs' hs h.symm).symm
  cases o with
  | output drv id h name =>
    cases o' with
    | output drv' id' h' name' =>
      cases hf
      obtain ⟨htype, rfl, hname⟩ : str "output:" ++ id' = str "output:" ++ id ∧ h' = k' ∧
          outputName id' name' = outputName id name := by simpa [fields] using hf'
      obtain rfl := List.append_cancel_left htype
      obtain rfl := List.append_cancel_right hname
      exact .output heq
    | fixed => exact absurd heq (not_output_fixed haccepted hhash hf hf')
    | text =>
      obtain ⟨_, _, _, ho⟩ := not_text hf hf'
      cases ho
  | fixed =>
    cases o' with
    | output => exact absurd heq.symm (not_output_fixed haccepted' hsymm hf' hf)
    | fixed => exact same_fixed hhash hf hf' heq
    | text =>
      obtain ⟨_, _, _, ho⟩ := not_text hf hf'
      cases ho
  | text name s references =>
    obtain ⟨name', s', references', rfl⟩ := not_text hf' hf
    cases hf
    obtain ⟨htype, rfl, rfl⟩ : textType references' = textType references ∧
        hashString sha256 s' = k' ∧ name' = n := by simpa [fields] using hf'
    obtain rfl := textType_injOn haccepted haccepted' htype.symm
    obtain rfl := hhash s s' rfl rfl heq
    exact .text

end

end StoreObject

/-- Store paths of different objects are different.  For any set of objects that the code accepts, if
no two of the strings hashed for them have the same SHA-256 hash, and no two of their fingerprints the
same compressed hash, then objects of the set with the same path are the same. -/
theorem storePath_injOn (cfg : StoreConfig) (sha256 : Str → Str) (store : DrvStore)
    (objects : Set StoreObject) (haccepted : ∀ o ∈ objects, o.Accepted cfg sha256 store)
    (hhash : Set.InjOn sha256 { s | ∃ o ∈ objects, o.Hashes sha256 store s })
    (hcompress : Set.InjOn (fun s => (compressHash (hashString sha256 s) 20).hash)
      { s | ∃ o ∈ objects, o.Compresses cfg sha256 s }) :
    ∀ o ∈ objects, ∀ o' ∈ objects, ∀ path, o.path cfg sha256 = .ok path →
      o'.path cfg sha256 = .ok path → o.Same o' := by
  intro o ho o' ho' path hp hp'
  obtain ⟨type, h, h', name, hf, hf', heq⟩ := StoreObject.fields_of_path
    (fun s s' hs hs' => hcompress ⟨o, ho, hs⟩ ⟨o', ho', hs'⟩) hp hp'
  exact StoreObject.same_of_fields (haccepted o ho) (haccepted o' ho')
    (fun s s' hs hs' => hhash ⟨o, ho, hs⟩ ⟨o', ho', hs'⟩) hf hf' heq

/-! ### A sample -/

/-- A derivation with its output paths left out. -/
def helloDerivation : Derivation where
  outputs := .ofList [(str "dev", ⟨[], [], []⟩), (str "out", ⟨[], [], []⟩)]
  inputDrvs := ∅
  inputSrcs := ∅
  platform := str "i686-linux"
  builder := str "/bin/sh"
  args := []
  env := .ofList [(str "dev", []), (str "name", str "hello"), (str "out", [])]

/-- The hash modulo of the derivation. -/
def helloHash : Hash :=
  ⟨.htSHA256, unhex "6197dfc84b64d021b21d7768778ea026315a6073188b21fc844a59ffca1c3f9f"⟩

/-- A store path to refer to. -/
def helloReference : Path := str "/nix/store/0123456789abcdfghijklmnpqrsvwxyz-hello"

/-- Two outputs, a source with the same hash, and a text file, all with one name. -/
def helloObjects : List StoreObject :=
  [.output helloDerivation (str "out") helloHash (str "hello"),
    .output helloDerivation (str "dev") helloHash (str "hello"),
    .fixed true .htSHA256 helloHash (str "hello"),
    .text (str "hello") (str "hello") (.ofList [helloReference])]

/-- The hashes of the texts in question. -/
def helloDigests : List (Str × Str) :=
  [(moduloText helloDerivation ∅, helloHash.hash),
    (str "hello", unhex "2cf24dba5fb0a30e26e83b2ac5b9e29e1b161e5c1fa7425e73043362938b9824"),
    (fingerprint defaultConfig (str "output:out") helloHash (str "hello"),
      unhex "c294d10892f4d9f26bfd606d4a7a1e86b15c65cefe146846114a4fbb60de621f"),
    (fingerprint defaultConfig (str "output:dev") helloHash (str "hello-dev"),
      unhex "75e29e7f7d76b4b34c47b4b9989413df27b80b32c8a17829761299bfbb589feb"),
    (fingerprint defaultConfig (str "source") helloHash (str "hello"),
      unhex "a9886957382c5f5d18235c257c23585977713feca785e05505279d1181fc7ad2"),
    (fingerprint defaultConfig (str "text:" ++ helloReference)
        ⟨.htSHA256, unhex "2cf24dba5fb0a30e26e83b2ac5b9e29e1b161e5c1fa7425e73043362938b9824"⟩
        (str "hello"),
      unhex "1e90d055640246296d90d15065ad3eb6e01bf392a80e598a60cc4397093522ce")]

/-- SHA-256 on these texts. -/
def helloSha256 (s : Str) : Str := (helloDigests.lookup s).getD (List.replicate 32 0)

/-- The texts are hashed apart, also after the compression to 160 bits. -/
theorem helloDigests_apart :
    (∀ s ∈ helloDigests.map Prod.fst, ∀ t ∈ helloDigests.map Prod.fst,
      helloSha256 s = helloSha256 t → s = t) ∧
    ∀ s ∈ helloDigests.map Prod.fst, ∀ t ∈ helloDigests.map Prod.fst,
      (compressHash (hashString helloSha256 s) 20).hash =
        (compressHash (hashString helloSha256 t) 20).hash → s = t :=
  ⟨by decide, by decide⟩

/-- The texts that the samples hash. -/
theorem helloObjects_hashes (store : DrvStore) {o : StoreObject} (ho : o ∈ helloObjects) {s : Str}
    (hs : o.Hashes helloSha256 store s) : s ∈ helloDigests.map Prod.fst := by
  simp only [helloObjects, List.mem_cons, List.not_mem_nil, or_false] at ho
  have hdrv : ∀ {s}, HashedText helloSha256 store helloDerivation s →
      s = moduloText helloDerivation ∅ := fun ⟨_, _, h⟩ => h
  rcases ho with rfl | rfl | rfl | rfl
  · simp [helloDigests, hdrv hs]
  · simp [helloDigests, hdrv hs]
  · exact absurd ⟨rfl, rfl⟩ hs.1
  · simp [helloDigests, show s = str "hello" from hs]

/-- The texts that the samples compress. -/
theorem helloObjects_compresses {o : StoreObject} (ho : o ∈ helloObjects) {s : Str}
    (hs : o.Compresses defaultConfig helloSha256 s) : s ∈ helloDigests.map Prod.fst := by
  have hfields : ∀ o ∈ helloObjects, ∃ type h name, o.fields helloSha256 = .ok (type, h, name) ∧
      fingerprint defaultConfig type h name ∈ helloDigests.map Prod.fst := by
    simp only [helloObjects, List.forall_mem_cons]
    exact ⟨⟨_, _, _, rfl, by decide⟩, ⟨_, _, _, rfl, by decide⟩,
      ⟨_, _, _, rfl, by decide⟩, ⟨_, _, _, rfl, by decide⟩, by simp⟩
  obtain ⟨type, h, name, hf, rfl⟩ := hs
  obtain ⟨type', h', name', hf', hmem⟩ := hfields o ho
  cases hf.symm.trans hf'
  exact hmem

/-- The samples are accepted. -/
theorem helloObjects_accepted {o : StoreObject} (ho : o ∈ helloObjects) :
    o.Accepted defaultConfig helloSha256 sampleStore := by
  have hmodulo : HashModulo helloSha256 sampleStore helloDerivation helloHash :=
    (hashModulo_iff rfl).mpr ⟨fun _ => .unusable, fun _ hi => absurd hi List.not_mem_nil,
      by decide⟩
  simp only [helloObjects, List.mem_cons, List.not_mem_nil, or_false] at ho
  rcases ho with rfl | rfl | rfl | rfl
  · exact ⟨rfl, hmodulo⟩
  · exact ⟨rfl, hmodulo⟩
  · trivial
  · intro r hr
    rw [SortedSet.mem_ofList, List.mem_singleton] at hr
    exact hr ▸ by decide

/-- The derivation's output and a source with the same hash and name have different paths. -/
theorem storePath_injOn_helloObjects :
    (StoreObject.output helloDerivation (str "out") helloHash (str "hello")).path
        defaultConfig helloSha256 ≠
      (StoreObject.fixed true .htSHA256 helloHash (str "hello")).path
        defaultConfig helloSha256 := by
  intro heq
  have hpath : (StoreObject.output helloDerivation (str "out") helloHash (str "hello")).path
      defaultConfig helloSha256 = .ok (str "/nix/store/rrjmrcc63rx4lwh24c5lk5myhd7bk01w-hello") := by
    decide +kernel
  have hsame := storePath_injOn defaultConfig helloSha256 sampleStore { o | o ∈ helloObjects }
    (fun _ => helloObjects_accepted)
    (fun s ⟨_, ho, hs⟩ t ⟨_, ho', ht⟩ => helloDigests_apart.1 s
      (helloObjects_hashes sampleStore ho hs) t (helloObjects_hashes sampleStore ho' ht))
    (fun s ⟨_, ho, hs⟩ t ⟨_, ho', ht⟩ => helloDigests_apart.2 s (helloObjects_compresses ho hs) t
      (helloObjects_compresses ho' ht))
    _ (by simp [helloObjects]) _ (by simp [helloObjects]) _ hpath (heq ▸ hpath)
  cases hsame

end Nix
