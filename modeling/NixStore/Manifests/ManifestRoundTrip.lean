import NixStore.Manifests.Format

/-!
# Manifests round-trip

What `readManifest` makes of the text of `writeManifest`.  Nothing that is read has a number sign in
it, store paths and bases begin with a slash, and sizes are numbers; a NAR size of 0 is not written.  A
table that the format admits is read back exactly if its entries have these properties.
-/

namespace Nix

/-! ### Lines -/

/-- A line without newline, ended by one, is the first line of the file. -/
theorem fileLines_append {l : Str} (h : '\n'.toUInt8 ∉ l) (s : Str) :
    fileLines (l ++ str "\n" ++ s) = l :: fileLines s := by
  have hnewline : ∀ s, fileLines ('\n'.toUInt8 :: s) = [] :: fileLines s := fun s => if_pos rfl
  induction l with
  | nil => exact hnewline s
  | cons c l ih =>
    rw [List.mem_cons, not_or] at h
    rw [List.cons_append, List.cons_append, fileLines, if_neg (Ne.symm h.1), ih h.2]

/-- Joining lines and cutting the file into lines is the identity. -/
theorem fileLines_flatMap {ls : List Str} (h : ∀ l ∈ ls, '\n'.toUInt8 ∉ l) :
    fileLines (ls.flatMap fun l => l ++ str "\n") = ls := by
  induction ls with
  | nil => rfl
  | cons l ls ih =>
    rw [List.flatMap_cons, fileLines_append (h l List.mem_cons_self),
      ih fun l' hl' => h l' (List.mem_cons_of_mem l hl')]

/-! ### Fields -/

section

variable {name v w : Str} {b : Block} {r : FieldRule}

/-- The name of a field: it has no colon, and does not begin with a space. -/
def isFieldName (name : Str) : Bool := name ≠ [] && name.all isWordByte

/-- A character of a word is no space, colon, newline or number sign. -/
theorem isWordByte_spec {c : UInt8} (h : isWordByte c = true) :
    isSpace c = false ∧ c ≠ ':'.toUInt8 ∧ c ≠ '\n'.toUInt8 ∧ c ≠ '#'.toUInt8 := by
  revert h
  revert c
  decide +kernel

/-- The indentation of a field is skipped. -/
theorem dropWhile_fieldLine (h : isFieldName name = true) (v : Str) :
    (fieldLine (name, v)).dropWhile isSpace = name ++ (str ": " ++ v) := by
  simp only [isFieldName, Bool.and_eq_true, decide_eq_true_eq, List.all_eq_true] at h
  obtain ⟨c, s, rfl⟩ := List.exists_cons_of_ne_nil h.1
  have hc := (isWordByte_spec (h.2 c List.mem_cons_self)).1
  have hline : fieldLine (c :: s, v) = 32 :: 32 :: c :: (s ++ (str ": " ++ v)) := by
    rw [fieldLine]
    simp only [List.append_assoc]
    rfl
  have h32 : isSpace 32 = true := by decide
  rw [hline, List.dropWhile_cons_of_pos h32, List.dropWhile_cons_of_pos h32,
    List.dropWhile_cons_of_neg (by rw [hc]; exact Bool.false_ne_true)]
  rfl

/-- A name and a colon are at the beginning of a line only if the line has this name. -/
theorem isPrefixOf_colon {name' : Str} (h : isFieldName name = true) (h' : isFieldName name' = true)
    (s : Str) : (name' ++ str ":").isPrefixOf (name ++ (str ":" ++ s)) = decide (name' = name) := by
  have hcolon : ∀ {n : Str}, isFieldName n = true → ∀ c ∈ n, decide (c ≠ ':'.toUInt8) = true := by
    intro n hn c hc
    simp only [isFieldName, Bool.and_eq_true, decide_eq_true_eq, List.all_eq_true] at hn
    exact decide_eq_true (isWordByte_spec (hn.2 c hc)).2.1
  have hstop : ∀ {n : Str}, isFieldName n = true → ∀ s,
      (n ++ (str ":" ++ s)).takeWhile (· ≠ ':'.toUInt8) = n := by
    intro n hn s
    rw [List.takeWhile_append_of_pos (hcolon hn)]
    exact List.append_nil n
  by_cases heq : name' = name
  · rw [decide_eq_true heq, heq, ← List.append_assoc, List.isPrefixOf_iff_prefix]
    exact List.prefix_append _ _
  · rw [decide_eq_false heq]
    by_contra hne
    rw [Bool.not_eq_false, List.isPrefixOf_iff_prefix] at hne
    obtain ⟨t, ht⟩ := hne
    rw [List.append_assoc] at ht
    exact heq (by rw [← hstop h' t, ht, hstop h s])

/-- A rule applies to a written field when the names agree. -/
theorem FieldRule.run_fieldLine (h : isFieldName name = true) (hr : isFieldName r.name = true)
    (v : Str) : r.run (fieldLine (name, v)) =
      if r.name = name then (r.captures (v.dropWhile isSpace)).map r.set else none := by
  have hcolon : str ": " ++ v = str ":" ++ (32 :: v) := rfl
  have h32 : isSpace 32 = true := by decide
  rw [FieldRule.run, dropWhile_fieldLine h, hcolon, isPrefixOf_colon h hr]
  by_cases heq : r.name = name
  · have hlen : (r.name ++ str ":").length = r.name.length + 1 := by
      rw [List.length_append]
      rfl
    rw [decide_eq_true heq, if_pos rfl, if_pos heq, ← heq, ← List.append_assoc,
      List.drop_left' hlen, List.dropWhile_cons_of_pos h32]
  · rw [decide_eq_false heq, if_neg Bool.false_ne_true, if_neg heq]

/-- The names in the rules are field names and differ from each other. -/
theorem fieldRules_names : (∀ r ∈ fieldRules, isFieldName r.name = true) ∧
    (fieldRules.map FieldRule.name).Nodup := by
  decide

/-- The regular expression for a field decides about its line. -/
theorem findSome?_run {rules : List FieldRule} (hnames : ∀ r ∈ rules, isFieldName r.name = true)
    (hnodup : (rules.map FieldRule.name).Nodup) (hr : r ∈ rules) (v : Str) :
    (rules.findSome? fun r' => r'.run (fieldLine (r.name, v))) =
      (r.captures (v.dropWhile isSpace)).map r.set := by
  have hname := hnames r hr
  induction rules with
  | nil => cases hr
  | cons r' rules ih =>
    rw [List.map_cons, List.nodup_cons] at hnodup
    rw [List.findSome?_cons, FieldRule.run_fieldLine hname (hnames r' List.mem_cons_self)]
    rcases List.mem_cons.mp hr with rfl | hr
    · rw [if_pos rfl]
      have hother : ∀ r' ∈ rules, r'.run (fieldLine (r.name, v)) = none := by
        intro r' hr'
        have hne : r'.name ≠ r.name := fun heq => hnodup.1 (heq ▸ List.mem_map_of_mem hr')
        rw [FieldRule.run_fieldLine hname (hnames r' (List.mem_cons_of_mem r hr')), if_neg hne]
      cases (r.captures (v.dropWhile isSpace)).map r.set with
      | some set => rfl
      | none => exact List.findSome?_eq_none_iff.mpr hother
    · have hne : r'.name ≠ r.name := fun heq => hnodup.1 (heq ▸ List.mem_map_of_mem hr)
      rw [if_neg hne]
      exact ih (fun r'' hr'' => hnames r'' (List.mem_cons_of_mem r' hr'')) hnodup.2 hr

/-- A line of a field is read by the regular expression for the field. -/
theorem readField_fieldLine (hr : fieldRules.find? (fun r => r.name = name) = some r) (v : Str)
    (b : Block) : readField (fieldLine (name, v)) b =
      ((r.captures (v.dropWhile isSpace)).map fun w => r.set w b).getD b := by
  obtain rfl : r.name = name := by simpa using List.find?_some hr
  rw [readField, findSome?_run fieldRules_names.1 fieldRules_names.2 (List.mem_of_find?_eq_some hr)]
  cases r.captures (v.dropWhile isSpace) <;> rfl

/-! ### Values -/

/-- What is left of a value when comments have been removed. -/
def cutComment (v : Str) : Str := v.takeWhile (· ≠ '#'.toUInt8)

/-- A value without spaces. -/
def NoSpace (v : Str) : Prop := ∀ c ∈ v, isSpace c = false

/-- Behind the cutting of comments there is no number sign. -/
theorem notMem_cutComment (v : Str) : '#'.toUInt8 ∉ cutComment v := fun hmem => by
  simpa using List.mem_takeWhile_imp hmem

/-- Cutting leaves a text without number sign as it is. -/
theorem cutComment_eq_self (h : '#'.toUInt8 ∉ v) : cutComment v = v :=
  List.takeWhile_eq_self_iff.mpr fun _ hc => decide_eq_true fun heq => h (heq ▸ hc)

/-- Cutting brings in no space. -/
theorem NoSpace.cutComment (h : NoSpace v) : NoSpace (cutComment v) := fun c hc =>
  h c ((List.takeWhile_prefix _).subset hc)

/-- A word is a nonempty text without spaces. -/
theorem isWord_iff : isWord v = true ↔ v ≠ [] ∧ NoSpace v := by
  simp [isWord, NoSpace]

/-- A nonempty text without spaces is a word. -/
theorem isWord_of_ne_nil (h : NoSpace v) (hne : v ≠ []) : isWord v = true := isWord_iff.mpr ⟨hne, h⟩

/-- A text without spaces has none at its beginning. -/
theorem NoSpace.dropWhile (h : NoSpace v) : v.dropWhile isSpace = v := by
  cases v with
  | nil => rfl
  | cons c s => rw [List.dropWhile_cons_of_neg (by rw [h c List.mem_cons_self]; exact Bool.false_ne_true)]

/-- A value that does not begin with a space does not do so after comments have been removed. -/
theorem dropWhile_cutComment (h : v.dropWhile isSpace = v) :
    (cutComment v).dropWhile isSpace = cutComment v := by
  cases v with
  | nil => rfl
  | cons c s =>
    have hc : ¬isSpace c = true := by
      intro hspace
      rw [List.dropWhile_cons_of_pos hspace] at h
      have hlength := congrArg List.length h
      rw [List.length_cons] at hlength
      have hle := (List.dropWhile_suffix isSpace (l := s)).length_le
      omega
    rw [cutComment, List.takeWhile_cons]
    split_ifs
    · exact List.dropWhile_cons_of_neg hc
    · rfl

/-- A regular expression captures a value without spaces, or does not match. -/
theorem NoSpace.capture (h : NoSpace v) (accepts : Str → Bool) :
    capture accepts (v.dropWhile isSpace) = (some v).filter accepts := by
  have htrim : v.rdropWhile isSpace = v := by
    rw [List.rdropWhile_eq_self_iff]
    intro hne
    rw [h _ (List.getLast_mem hne)]
    exact Bool.false_ne_true
  rw [h.dropWhile, Nix.capture, htrim]
  rfl

/-- What a line with a value without spaces makes of a block. -/
theorem readField_noSpace (h : NoSpace v) {accepts : Str → Bool} {set : Str → Block → Block}
    (hr : fieldRules.find? (fun r => r.name = name) = some ⟨name, Nix.capture accepts, set⟩)
    (b : Block) : readField (fieldLine (name, v)) b = if accepts v then set v b else b := by
  rw [readField_fieldLine hr]
  dsimp only
  rw [h.capture, Option.filter_some]
  split_ifs <;> rfl

end

/-! ### Blocks -/

/-- What the lines of fields make of a block. -/
def readFields (fields : List FieldLine) (b : Block) : Block :=
  fields.foldl (fun b f => readField (fieldLine (f.1, cutComment f.2)) b) b

/-- Reading fields goes from the first to the last. -/
theorem readFields_cons (f : FieldLine) (fields : List FieldLine) (b : Block) :
    readFields (f :: fields) b =
      readFields fields (readField (fieldLine (f.1, cutComment f.2)) b) := rfl

/-- Reading two lists of fields in a row. -/
theorem readFields_append (fields fields' : List FieldLine) (b : Block) :
    readFields (fields ++ fields') b = readFields fields' (readFields fields b) :=
  List.foldl_append

/-- A field as it is read. -/
def cutField (accepts : Str → Bool) (f : Field) : Field := (f.map cutComment).filter accepts

/-- A field that may be missing is put into a block that does not have it. -/
theorem readFields_ifDefined {f : Field} (h : ∀ v ∈ f, isWord v = true) {name : Str}
    {accepts : Str → Bool} {set : Str → Block → Block}
    (hr : fieldRules.find? (fun r => r.name = name) = some ⟨name, capture accepts, set⟩)
    (put : Field → Block → Block) (hput : ∀ v b, set v b = put (some v) b) {b : Block}
    (hb : put none b = b) : readFields (ifDefined name f) b = put (cutField accepts f) b := by
  cases f with
  | none => exact hb.symm
  | some v =>
    rw [ifDefined, readFields_cons, readField_noSpace (isWord_iff.mp (h v rfl)).2.cutComment hr,
      cutField, Option.map_some, Option.filter_some]
    split_ifs
    · exact hput _ b
    · exact hb.symm

/-- A field that is written if it is true. -/
theorem readFields_ifTrue {f : Field} (h : ∀ v ∈ f, isWord v = true) {name : Str}
    {accepts : Str → Bool} {set : Str → Block → Block}
    (hr : fieldRules.find? (fun r => r.name = name) = some ⟨name, capture accepts, set⟩)
    (put : Field → Block → Block) (hput : ∀ v b, set v b = put (some v) b) {b : Block}
    (hb : put none b = b) :
    readFields (ifTrue name f) b = put (cutField accepts (f.filter (· ≠ str "0"))) b := by
  cases f with
  | none => exact hb.symm
  | some v =>
    have hne : v ≠ [] := (isWord_iff.mp (h v rfl)).1
    have htext : Field.text (some v) = v := rfl
    rw [ifTrue, htext, Option.filter_some]
    by_cases hzero : v = str "0"
    · rw [if_pos (Or.inr hzero), if_neg (by simp [hzero])]
      exact hb.symm
    · rw [if_neg (not_or.mpr ⟨hne, hzero⟩), readFields_cons, if_pos (decide_eq_true hzero),
        readField_noSpace (isWord_iff.mp (h v rfl)).2.cutComment hr, cutField, Option.map_some,
        Option.filter_some]
      split_ifs
      · exact hput _ b
      · exact hb.symm

/-- A NAR file whose fields are words, except for those that may be missing, and for the references. -/
structure NarFile.WellFormed (storePath : Str) (narFile : NarFile) : Prop where
  storePath : isWord storePath = true
  url : ∃ v, narFile.url = some v ∧ isWord v = true
  hash : ∀ v ∈ narFile.hash, isWord v = true
  size : ∀ v ∈ narFile.size, isWord v = true
  narHash : ∃ v, narFile.narHash = some v ∧ isWord v = true
  narSize : ∀ v ∈ narFile.narSize, isWord v = true
  /-- One line that does not begin with a space. -/
  references : ∃ v, narFile.references = some v ∧ '\n'.toUInt8 ∉ v ∧ v.dropWhile isSpace = v
  deriver : ∃ v, narFile.deriver = some v ∧ (v = [] ∨ isWord v = true)
  system : ∀ v ∈ narFile.system, isWord v = true
  compressionType : ∃ v, narFile.compressionType = some v ∧ isWord v = true

/-- A patch whose fields are words, except that its NAR size may be missing. -/
structure Patch.WellFormed (storePath : Str) (patch : Patch) : Prop where
  storePath : isWord storePath = true
  url : ∃ v, patch.url = some v ∧ isWord v = true
  hash : ∃ v, patch.hash = some v ∧ isWord v = true
  size : ∃ v, patch.size = some v ∧ isWord v = true
  basePath : ∃ v, patch.basePath = some v ∧ isWord v = true
  baseHash : ∃ v, patch.baseHash = some v ∧ isWord v = true
  narHash : ∃ v, patch.narHash = some v ∧ isWord v = true
  narSize : ∀ v ∈ patch.narSize, isWord v = true
  patchType : ∃ v, patch.patchType = some v ∧ isWord v = true

/-- What is read of a NAR file. -/
def NarFile.readBack (narFile : NarFile) : NarFile where
  url := cutField isWord narFile.url
  hash := cutField isWord narFile.hash
  size := cutField isNumber narFile.size
  narHash := cutField isWord narFile.narHash
  narSize := cutField isNumber (narFile.narSize.filter (· ≠ str "0"))
  references := narFile.references.map cutComment
  deriver := narFile.deriver.map cutComment
  system := cutField isWord narFile.system
  compressionType := some ((cutField isWord narFile.compressionType).getD (str "bzip2"))

/-- What is read of a patch. -/
def Patch.readBack (patch : Patch) : Patch where
  url := cutField isWord patch.url
  hash := cutField isWord patch.hash
  size := cutField isNumber patch.size
  basePath := cutField isPathWord patch.basePath
  baseHash := cutField isWord patch.baseHash
  narHash := cutField isWord patch.narHash
  narSize := cutField isNumber (patch.narSize.filter (· ≠ str "0"))
  patchType := cutField isWord patch.patchType

/-- What is read of a store path. -/
def readPath (storePath : Str) : Str := (cutField isPathWord (some storePath)).text

section

variable {storePath v : Str} {narFile : NarFile} {patch : Patch}

/-- A field that is always written. -/
theorem readFields_word {name : Str} (h : isWord v = true) {accepts : Str → Bool}
    {set : Str → Block → Block}
    (hr : fieldRules.find? (fun r => r.name = name) = some ⟨name, capture accepts, set⟩)
    (put : Field → Block → Block) (hput : ∀ v b, set v b = put (some v) b) (fields : List FieldLine)
    {b : Block} (hb : put none b = b) : readFields ((name, v) :: fields) b =
      readFields fields (put (cutField accepts (some v)) b) := by
  have hone := readFields_ifDefined (f := some v) (fun w hw => Option.some.inj hw ▸ h) hr put hput hb
  rw [← hone]
  rfl

/-- The fields of a NAR file are read as `readBack` says. -/
theorem readFields_narFile (h : narFile.WellFormed storePath) :
    (readFields (narFileFields storePath narFile) .fresh).storePath.text = readPath storePath ∧
      (readFields (narFileFields storePath narFile) .fresh).narFile = narFile.readBack := by
  obtain ⟨url, hash, size, narHash, narSize, references, deriver, system, compressionType⟩ := narFile
  obtain ⟨hpath, ⟨u, rfl, hu⟩, hhash, hsize, ⟨n, rfl, hn⟩, hnarSize, ⟨refs, rfl, -, hrefs⟩,
    ⟨d, rfl, hd⟩, hsystem, ⟨c, rfl, hc⟩⟩ := h
  have hcompression : ∀ (fields : List FieldLine) (b : Block), b.compressionType = str "bzip2" →
      readFields ((str "Compression", c) :: fields) b = readFields fields
        { b with compressionType := (cutField isWord (some c)).getD (str "bzip2") } := by
    intro fields b hb
    rw [readFields_cons, readField_noSpace (isWord_iff.mp hc).2.cutComment rfl, cutField,
      Option.map_some, Option.filter_some]
    split_ifs
    · rfl
    · rw [Option.getD_none, ← hb]
  have hreferences : ∀ b : Block, b.references = [] →
      readFields (ifNonempty (str "References") (some refs)) b =
        { b with references := cutComment refs } := by
    intro b hb
    have htext : Field.text (some refs) = refs := rfl
    rw [ifNonempty, htext]
    split_ifs with hnil
    · rw [hnil, cutComment, List.takeWhile_nil, ← hb]
      rfl
    · rw [readFields_cons, readField_fieldLine (r := ⟨str "References", some, _⟩) rfl,
        dropWhile_cutComment hrefs]
      rfl
  have hderiver : ∀ b : Block, b.deriver = [] →
      readFields (ifNonempty (str "Deriver") (some d)) b = { b with deriver := cutComment d } := by
    intro b hb
    have htext : Field.text (some d) = d := rfl
    rw [ifNonempty, htext]
    split_ifs with hnil
    · rw [hnil, cutComment, List.takeWhile_nil, ← hb]
      rfl
    · have hspace := (isWord_iff.mp (hd.resolve_left hnil)).2.cutComment
      rw [readFields_cons, readField_noSpace hspace rfl]
      split_ifs with hword
      · rfl
      · have hempty : cutComment d = [] := by_contra fun hne => hword (isWord_of_ne_nil hspace hne)
        rw [hempty, ← hb]
        rfl
  have hall : readFields (narFileFields storePath ⟨some u, hash, size, some n, narSize, some refs,
      some d, system, some c⟩) .fresh = { Block.fresh with
        storePath := cutField isPathWord (some storePath), url := cutField isWord (some u),
        compressionType := (cutField isWord (some c)).getD (str "bzip2"),
        hash := cutField isWord hash, size := cutField isNumber size,
        narHash := cutField isWord (some n),
        narSize := cutField isNumber (narSize.filter (· ≠ str "0")), references := cutComment refs,
        deriver := cutComment d, system := cutField isWord system } := by
    change readFields ([(str "StorePath", storePath), (str "NarURL", u), (str "Compression", c)] ++
      (ifDefined (str "Hash") hash ++ (ifDefined (str "Size") size ++ ((str "NarHash", n) ::
        (ifTrue (str "NarSize") narSize ++ (ifNonempty (str "References") (some refs) ++
          (ifNonempty (str "Deriver") (some d) ++ ifDefined (str "System") system))))))) .fresh = _
    rw [readFields_append,
      readFields_word hpath rfl (fun f b => { b with storePath := f }) (fun _ _ => rfl) _ ?_,
      readFields_word hu rfl (fun f b => { b with url := f }) (fun _ _ => rfl) _ ?_,
      hcompression _ _ ?_, readFields_append,
      readFields_ifDefined hhash rfl (fun f b => { b with hash := f }) (fun _ _ => rfl) ?_,
      readFields_append,
      readFields_ifDefined hsize rfl (fun f b => { b with size := f }) (fun _ _ => rfl) ?_,
      readFields_word hn rfl (fun f b => { b with narHash := f }) (fun _ _ => rfl) _ ?_,
      readFields_append,
      readFields_ifTrue hnarSize rfl (fun f b => { b with narSize := f }) (fun _ _ => rfl) ?_,
      readFields_append, hreferences _ ?_, readFields_append, hderiver _ ?_,
      readFields_ifDefined hsystem rfl (fun f b => { b with system := f }) (fun _ _ => rfl) ?_]
    all_goals rfl
  rw [hall]
  exact ⟨rfl, rfl⟩

/-- The fields of a patch are read as `readBack` says. -/
theorem readFields_patch (h : patch.WellFormed storePath) :
    (readFields (patchFields storePath patch) .fresh).storePath.text = readPath storePath ∧
      (readFields (patchFields storePath patch) .fresh).patch = patch.readBack := by
  obtain ⟨url, hash, size, basePath, baseHash, narHash, narSize, patchType⟩ := patch
  obtain ⟨hpath, ⟨u, rfl, hu⟩, ⟨h, rfl, hh⟩, ⟨s, rfl, hs⟩, ⟨p, rfl, hp⟩, ⟨bh, rfl, hbh⟩, ⟨n, rfl, hn⟩,
    hnarSize, ⟨t, rfl, ht⟩⟩ := h
  have hall : readFields (patchFields storePath ⟨some u, some h, some s, some p, some bh, some n,
      narSize, some t⟩) .fresh = { Block.fresh with
        storePath := cutField isPathWord (some storePath), url := cutField isWord (some u),
        hash := cutField isWord (some h), size := cutField isNumber (some s),
        narHash := cutField isWord (some n),
        narSize := cutField isNumber (narSize.filter (· ≠ str "0")),
        basePath := cutField isPathWord (some p), baseHash := cutField isWord (some bh),
        patchType := cutField isWord (some t) } := by
    change readFields ([(str "StorePath", storePath), (str "NarURL", u), (str "Hash", h),
      (str "Size", s), (str "NarHash", n)] ++ (ifTrue (str "NarSize") narSize ++
        [(str "BasePath", p), (str "BaseHash", bh), (str "Type", t)])) .fresh = _
    rw [readFields_append,
      readFields_word hpath rfl (fun f b => { b with storePath := f }) (fun _ _ => rfl) _ ?_,
      readFields_word hu rfl (fun f b => { b with url := f }) (fun _ _ => rfl) _ ?_,
      readFields_word hh rfl (fun f b => { b with hash := f }) (fun _ _ => rfl) _ ?_,
      readFields_word hs rfl (fun f b => { b with size := f }) (fun _ _ => rfl) _ ?_,
      readFields_word hn rfl (fun f b => { b with narHash := f }) (fun _ _ => rfl) _ ?_,
      readFields_append,
      readFields_ifTrue hnarSize rfl (fun f b => { b with narSize := f }) (fun _ _ => rfl) ?_,
      readFields_word hp rfl (fun f b => { b with basePath := f }) (fun _ _ => rfl) _ ?_,
      readFields_word hbh rfl (fun f b => { b with baseHash := f }) (fun _ _ => rfl) _ ?_,
      readFields_word ht rfl (fun f b => { b with patchType := f }) (fun _ _ => rfl) _ ?_]
    all_goals rfl
  rw [hall]
  exact ⟨rfl, rfl⟩

end

/-! ### The whole text -/

section

variable {st : ManifestReader} {f : FieldLine} {fields : List FieldLine} {header type : Str}

/-- A line of a field is read without its comment. -/
theorem readLine_fieldLine (hin : st.inside = true) (hname : isFieldName f.1 = true) :
    readLine st (fieldLine f) =
      { st with block := readField (fieldLine (f.1, cutComment f.2)) st.block } := by
  have hspaces : ∀ c ∈ str "  ", decide (c ≠ '#'.toUInt8) = true := by decide +kernel
  have hcolon : ∀ c ∈ str ": ", decide (c ≠ '#'.toUInt8) = true := by decide +kernel
  have hall : ∀ c ∈ str "  " ++ f.1 ++ str ": ", decide (c ≠ '#'.toUInt8) = true := by
    intro c hc
    simp only [isFieldName, Bool.and_eq_true, List.all_eq_true] at hname
    rcases List.mem_append.mp hc with hc | hc
    · rcases List.mem_append.mp hc with hc | hc
      · exact hspaces c hc
      · exact decide_eq_true (isWordByte_spec (hname.2 c hc)).2.2.2
    · exact hcolon c hc
  have hcut : (fieldLine f).takeWhile (· ≠ '#'.toUInt8) = fieldLine (f.1, cutComment f.2) := by
    rw [fieldLine, List.takeWhile_append_of_pos hall]
    rfl
  have hstart : ∀ s, fieldLine (f.1, s) = 32 :: 32 :: (f.1 ++ str ": " ++ s) := by
    intro s
    rw [fieldLine, List.append_assoc (str "  "), List.append_assoc (str "  ")]
    rfl
  have hclose : fieldLine (f.1, cutComment f.2) ≠ str "\x7d" := by
    rw [hstart]
    intro heq
    cases heq
  rw [readLine, hcut, if_neg (by rw [hstart]; exact List.cons_ne_nil _ _), if_pos hin, if_neg hclose]

/-- Inside a block, the lines of fields change the block only. -/
theorem foldl_readLine_fields (hin : st.inside = true)
    (hnames : ∀ f ∈ fields, isFieldName f.1 = true) :
    (fields.map fieldLine).foldl readLine st = { st with block := readFields fields st.block } := by
  induction fields generalizing st with
  | nil => rfl
  | cons f fields ih =>
    rw [List.map_cons, List.foldl_cons, readLine_fieldLine hin (hnames f List.mem_cons_self)]
    exact ih hin fun f' hf' => hnames f' (List.mem_cons_of_mem f hf')

/-- What a block does to the tables. -/
def addBlock (type : Str) (fields : List FieldLine) (st : ManifestReader) : ManifestReader :=
  endBlock { st with inside := true, type := type, block := readFields fields .fresh }

/-- A written block is closed at its end. -/
theorem addBlock_inside (type : Str) (fields : List FieldLine) (st : ManifestReader) :
    (addBlock type fields st).inside = false := by
  rw [addBlock, endBlock]
  split_ifs <;> rfl

/-- A block is read line by line, and then added. -/
theorem foldl_readLine_block (hin : st.inside = false)
    (hheader : '#'.toUInt8 ∉ header ∧ header ≠ [] ∧ readHeader header = some type)
    (hnames : ∀ f ∈ fields, isFieldName f.1 = true) :
    (blockLines header fields).foldl readLine st = addBlock type fields st := by
  have hstart : readLine st header = { st with inside := true, type := type, block := .fresh } := by
    have hcut : header.takeWhile (· ≠ '#'.toUInt8) = header := cutComment_eq_self hheader.1
    rw [readLine, hcut, if_neg hheader.2.1, hin, hheader.2.2]
    rfl
  rw [blockLines, List.foldl_cons, hstart, List.foldl_append, foldl_readLine_fields rfl hnames]
  rfl

end

/-- All fields of a NAR file, whether they are written or not. -/
def NarFile.allFields (storePath : Str) (narFile : NarFile) : List FieldLine := [
  (str "StorePath", storePath), (str "NarURL", narFile.url.text),
  (str "Compression", narFile.compressionType.text), (str "Hash", narFile.hash.text),
  (str "Size", narFile.size.text), (str "NarHash", narFile.narHash.text),
  (str "NarSize", narFile.narSize.text), (str "References", narFile.references.text),
  (str "Deriver", narFile.deriver.text), (str "System", narFile.system.text)]

/-- All fields of a patch, whether they are written or not. -/
def Patch.allFields (storePath : Str) (patch : Patch) : List FieldLine := [
  (str "StorePath", storePath), (str "NarURL", patch.url.text), (str "Hash", patch.hash.text),
  (str "Size", patch.size.text), (str "NarHash", patch.narHash.text),
  (str "NarSize", patch.narSize.text), (str "BasePath", patch.basePath.text),
  (str "BaseHash", patch.baseHash.text), (str "Type", patch.patchType.text)]

section

variable {storePath name : Str} {narFile : NarFile} {patch : Patch} {f : FieldLine} {x : Field}

/-- A field that is written when it is defined has the text of the value. -/
theorem eq_of_mem_ifDefined (h : f ∈ ifDefined name x) : f = (name, x.text) := by
  cases x with
  | none => cases h
  | some v => exact List.mem_singleton.mp h

/-- A field that is written when it is nonempty has the text of the value. -/
theorem eq_of_mem_ifNonempty (h : f ∈ ifNonempty name x) : f = (name, x.text) := by
  rw [ifNonempty] at h
  split_ifs at h
  · cases h
  · exact List.mem_singleton.mp h

/-- A field that is written when it is true for Perl has the text of the value. -/
theorem eq_of_mem_ifTrue (h : f ∈ ifTrue name x) : f = (name, x.text) := by
  rw [ifTrue] at h
  split_ifs at h
  · cases h
  · exact List.mem_singleton.mp h

/-- The written fields of a NAR file are among all of them. -/
theorem mem_allFields_of_mem_narFileFields (h : f ∈ narFileFields storePath narFile) :
    f ∈ narFile.allFields storePath := by
  simp only [narFileFields, List.mem_append, List.mem_cons, List.not_mem_nil, or_false] at h
  simp only [NarFile.allFields, List.mem_cons, List.not_mem_nil, or_false]
  rcases h with (h | h | h) | h | h | h | h | h | h | h
  · exact Or.inl h
  · exact Or.inr (Or.inl h)
  · exact Or.inr (Or.inr (Or.inl h))
  · simp [eq_of_mem_ifDefined h]
  · simp [eq_of_mem_ifDefined h]
  · simp [h]
  · simp [eq_of_mem_ifTrue h]
  · simp [eq_of_mem_ifNonempty h]
  · simp [eq_of_mem_ifNonempty h]
  · simp [eq_of_mem_ifDefined h]

/-- The written fields of a patch are among all of them. -/
theorem mem_allFields_of_mem_patchFields (h : f ∈ patchFields storePath patch) :
    f ∈ patch.allFields storePath := by
  simp only [patchFields, List.mem_append, List.mem_cons, List.not_mem_nil, or_false] at h
  simp only [Patch.allFields, List.mem_cons, List.not_mem_nil, or_false]
  rcases h with (h | h | h | h | h) | h | h | h | h
  · simp [h]
  · simp [h]
  · simp [h]
  · simp [h]
  · simp [h]
  · simp [eq_of_mem_ifTrue h]
  · simp [h]
  · simp [h]
  · simp [h]

/-- The names of the fields of a NAR file are field names. -/
theorem isFieldName_narFileFields (h : f ∈ narFileFields storePath narFile) :
    isFieldName f.1 = true := by
  have hall : ∀ name ∈ [str "StorePath", str "NarURL", str "Compression", str "Hash", str "Size",
      str "NarHash", str "NarSize", str "References", str "Deriver", str "System"],
      isFieldName name = true := by
    decide
  exact hall f.1 (List.mem_map_of_mem (f := Prod.fst) (mem_allFields_of_mem_narFileFields h))

/-- The names of the fields of a patch are field names. -/
theorem isFieldName_patchFields (h : f ∈ patchFields storePath patch) : isFieldName f.1 = true := by
  have hall : ∀ name ∈ [str "StorePath", str "NarURL", str "Hash", str "Size", str "NarHash",
      str "NarSize", str "BasePath", str "BaseHash", str "Type"], isFieldName name = true := by
    decide
  exact hall f.1 (List.mem_map_of_mem (f := Prod.fst) (mem_allFields_of_mem_patchFields h))

/-- A newline is a space. -/
theorem NoSpace.newline_notMem (h : NoSpace name) : '\n'.toUInt8 ∉ name := fun hmem =>
  absurd (h _ hmem) (by decide)

/-- A field that is missing or a word has no newline in it. -/
theorem newline_notMem_text (h : ∀ v ∈ x, isWord v = true) : '\n'.toUInt8 ∉ x.text := by
  cases x with
  | none => exact List.not_mem_nil
  | some v => exact (isWord_iff.mp (h v rfl)).2.newline_notMem

/-- A value that is there and is a word. -/
theorem isWord_of_exists (h : ∃ v, x = some v ∧ isWord v = true) : ∀ v ∈ x, isWord v = true := by
  obtain ⟨w, rfl, hw⟩ := h
  rintro v ⟨⟩
  exact hw

/-- No field of a NAR file has a newline. -/
theorem NarFile.WellFormed.newline_notMem (h : narFile.WellFormed storePath)
    (hf : f ∈ narFileFields storePath narFile) : '\n'.toUInt8 ∉ f.2 := by
  have hmem := mem_allFields_of_mem_narFileFields hf
  simp only [NarFile.allFields, List.mem_cons, List.not_mem_nil, or_false] at hmem
  rcases hmem with rfl | rfl | rfl | rfl | rfl | rfl | rfl | rfl | rfl | rfl
  · exact (isWord_iff.mp h.storePath).2.newline_notMem
  · exact newline_notMem_text (isWord_of_exists h.url)
  · exact newline_notMem_text (isWord_of_exists h.compressionType)
  · exact newline_notMem_text h.hash
  · exact newline_notMem_text h.size
  · exact newline_notMem_text (isWord_of_exists h.narHash)
  · exact newline_notMem_text h.narSize
  · obtain ⟨v, hv, hnewline, -⟩ := h.references
    rw [hv]
    exact hnewline
  · obtain ⟨v, hv, hnil | hword⟩ := h.deriver
    · rw [hv, hnil]
      exact List.not_mem_nil
    · rw [hv]
      exact (isWord_iff.mp hword).2.newline_notMem
  · exact newline_notMem_text h.system

/-- No field of a patch has a newline. -/
theorem Patch.WellFormed.newline_notMem (h : patch.WellFormed storePath)
    (hf : f ∈ patchFields storePath patch) : '\n'.toUInt8 ∉ f.2 := by
  have hmem := mem_allFields_of_mem_patchFields hf
  simp only [Patch.allFields, List.mem_cons, List.not_mem_nil, or_false] at hmem
  rcases hmem with rfl | rfl | rfl | rfl | rfl | rfl | rfl | rfl | rfl
  · exact (isWord_iff.mp h.storePath).2.newline_notMem
  · exact newline_notMem_text (isWord_of_exists h.url)
  · exact newline_notMem_text (isWord_of_exists h.hash)
  · exact newline_notMem_text (isWord_of_exists h.size)
  · exact newline_notMem_text (isWord_of_exists h.narHash)
  · exact newline_notMem_text h.narSize
  · exact newline_notMem_text (isWord_of_exists h.basePath)
  · exact newline_notMem_text (isWord_of_exists h.baseHash)
  · exact newline_notMem_text (isWord_of_exists h.patchType)

/-- A block of fields without newlines has lines without newlines. -/
theorem newline_notMem_blockLines {header : Str} {fields : List FieldLine}
    (hheader : '\n'.toUInt8 ∉ header) (hnames : ∀ f ∈ fields, isFieldName f.1 = true)
    (hvalues : ∀ f ∈ fields, '\n'.toUInt8 ∉ f.2) :
    ∀ l ∈ blockLines header fields, '\n'.toUInt8 ∉ l := by
  intro l hl
  rcases List.mem_cons.mp hl with rfl | hl
  · exact hheader
  rcases List.mem_append.mp hl with hl | hl
  · obtain ⟨f, hf, rfl⟩ := List.mem_map.mp hl
    have hname := hnames f hf
    simp only [isFieldName, Bool.and_eq_true, List.all_eq_true] at hname
    simp only [fieldLine, List.mem_append, not_or]
    exact ⟨⟨⟨by decide, fun hmem => (isWordByte_spec (hname.2 _ hmem)).2.2.1 rfl⟩, by decide⟩,
      hvalues f hf⟩
  · rw [List.mem_singleton.mp hl]
    decide

end

/-! ### Tables -/

/-- The entries of both tables are well-formed, and none occurs twice. -/
structure WellFormedTables (narFiles : NarTable) (patches : PatchTable) : Prop where
  narFile : ∀ p, ∀ narFile ∈ narFiles.listAt p, narFile.WellFormed p
  patch : ∀ p, ∀ patch ∈ patches.listAt p, patch.WellFormed p
  narFileKeys : ∀ p, ((narFiles.listAt p).map NarFile.key).Nodup
  patchKeys : ∀ p, ((patches.listAt p).map Patch.key).Nodup

section

variable {st : ManifestReader} {narFiles : NarTable} {patches : PatchTable}

/-- Blocks are read one after the other. -/
theorem foldl_readLine_blocks {α : Type} {header type : Str} {fields : α → List FieldLine} (l : List α)
    (hheader : '#'.toUInt8 ∉ header ∧ header ≠ [] ∧ readHeader header = some type)
    (hnames : ∀ a ∈ l, ∀ f ∈ fields a, isFieldName f.1 = true) (hin : st.inside = false) :
    (l.flatMap fun a => blockLines header (fields a)).foldl readLine st =
        l.foldl (fun st a => addBlock type (fields a) st) st ∧
      (l.foldl (fun st a => addBlock type (fields a) st) st).inside = false := by
  induction l generalizing st with
  | nil => exact ⟨rfl, hin⟩
  | cons a l ih =>
    rw [List.flatMap_cons, List.foldl_append,
      foldl_readLine_block hin hheader (hnames a List.mem_cons_self)]
    exact ih (fun a' ha' => hnames a' (List.mem_cons_of_mem a ha')) (addBlock_inside _ _ _)

/-- Writing NAR files adds their blocks, one by one, and no patch. -/
theorem foldl_addBlock_narFiles {l : List (Str × NarFile)} (h : ∀ e ∈ l, e.2.WellFormed e.1)
    (st : ManifestReader) :
    (l.foldl (fun st e => addBlock (str "narfile") (narFileFields e.1 e.2) st) st).patches =
        st.patches ∧
      (l.foldl (fun st e => addBlock (str "narfile") (narFileFields e.1 e.2) st) st).narFiles =
        (l.map fun e => (readPath e.1, e.2.readBack)).foldl (fun t e => addNAR t e.1 e.2)
          st.narFiles := by
  induction l generalizing st with
  | nil => exact ⟨rfl, rfl⟩
  | cons e l ih =>
    obtain ⟨hpath, hnar⟩ := readFields_narFile (h e List.mem_cons_self)
    obtain ⟨hpatches, hnarFiles⟩ := ih (fun e' he' => h e' (List.mem_cons_of_mem e he'))
      (addBlock (str "narfile") (narFileFields e.1 e.2) st)
    rw [List.foldl_cons, hpatches, hnarFiles, List.map_cons, List.foldl_cons, ← hpath, ← hnar]
    exact ⟨rfl, rfl⟩

/-- Writing patches adds their blocks, one by one, and no NAR file. -/
theorem foldl_addBlock_patches {l : List (Str × Patch)} (h : ∀ e ∈ l, e.2.WellFormed e.1)
    (st : ManifestReader) :
    (l.foldl (fun st e => addBlock (str "patch") (patchFields e.1 e.2) st) st).narFiles =
        st.narFiles ∧
      (l.foldl (fun st e => addBlock (str "patch") (patchFields e.1 e.2) st) st).patches =
        (l.map fun e => (readPath e.1, e.2.readBack)).foldl (fun t e => (addPatch t e.1 e.2).1)
          st.patches := by
  induction l generalizing st with
  | nil => exact ⟨rfl, rfl⟩
  | cons e l ih =>
    obtain ⟨hpath, hpatch⟩ := readFields_patch (h e List.mem_cons_self)
    obtain ⟨hnarFiles, hpatches⟩ := ih (fun e' he' => h e' (List.mem_cons_of_mem e he'))
      (addBlock (str "patch") (patchFields e.1 e.2) st)
    rw [List.foldl_cons, hnarFiles, hpatches, List.map_cons, List.foldl_cons, ← hpath, ← hpatch]
    exact ⟨rfl, rfl⟩

/-- The tables that are read have what is read of each entry. -/
theorem readManifest_writeManifest (h : WellFormedTables narFiles patches) :
    readManifest (writeManifest narFiles patches) =
      ((addEntries NarFile.key (∅, false)
          (narFiles.pairs.map fun e => (readPath e.1, e.2.readBack))).1,
        (addEntries Patch.key (∅, false)
          (patches.pairs.map fun e => (readPath e.1, e.2.readBack))).1) := by
  have hnars : ∀ e ∈ narFiles.pairs, e.2.WellFormed e.1 := fun e he =>
    h.narFile e.1 e.2 (Table.mem_pairs.mp he)
  have hpatches : ∀ e ∈ patches.pairs, e.2.WellFormed e.1 := fun e he =>
    h.patch e.1 e.2 (Table.mem_pairs.mp he)
  have hversion : ∀ f ∈ [(str "ManifestVersion", str "3")], isFieldName f.1 = true := by
    decide
  have hlines : manifestLines narFiles patches =
      blockLines (str "version \x7b") [(str "ManifestVersion", str "3")] ++
        ((narFiles.pairs.flatMap fun e => blockLines (str "\x7b") (narFileFields e.1 e.2)) ++
          patches.pairs.flatMap fun e => blockLines (str "patch \x7b") (patchFields e.1 e.2)) := by
    rw [manifestLines,
      ← Table.flatMap_pairs narFiles fun p narFile => blockLines (str "\x7b") (narFileFields p narFile),
      ← Table.flatMap_pairs patches fun p patch => blockLines (str "patch \x7b") (patchFields p patch)]
  have hnewline : ∀ l ∈ manifestLines narFiles patches, '\n'.toUInt8 ∉ l := by
    intro l hl
    rw [hlines] at hl
    rcases List.mem_append.mp hl with hl | hl
    · exact newline_notMem_blockLines (by decide) hversion (by decide) l hl
    rcases List.mem_append.mp hl with hl | hl
    · obtain ⟨e, he, hl⟩ := List.mem_flatMap.mp hl
      exact newline_notMem_blockLines (by decide) (fun f => isFieldName_narFileFields)
        (fun f => (hnars e he).newline_notMem) l hl
    · obtain ⟨e, he, hl⟩ := List.mem_flatMap.mp hl
      exact newline_notMem_blockLines (by decide) (fun f => isFieldName_patchFields)
        (fun f => (hpatches e he).newline_notMem) l hl
  obtain ⟨hreadNars, hin⟩ := foldl_readLine_blocks narFiles.pairs
    (show '#'.toUInt8 ∉ str "\x7b" ∧ str "\x7b" ≠ [] ∧ readHeader (str "\x7b") = some (str "narfile") by
      decide) (fun e _ f => isFieldName_narFileFields)
    (addBlock_inside (str "version") [(str "ManifestVersion", str "3")]
      ⟨false, [], .fresh, ∅, ∅⟩)
  obtain ⟨hreadPatches, -⟩ := foldl_readLine_blocks patches.pairs
    (show '#'.toUInt8 ∉ str "patch \x7b" ∧ str "patch \x7b" ≠ [] ∧
      readHeader (str "patch \x7b") = some (str "patch") by decide)
    (fun e _ f => isFieldName_patchFields) hin
  have hfresh : (⟨false, [], .fresh, ∅, ∅⟩ : ManifestReader).inside = false := rfl
  have hstart := foldl_readLine_block hfresh
    (show '#'.toUInt8 ∉ str "version \x7b" ∧ str "version \x7b" ≠ [] ∧
      readHeader (str "version \x7b") = some (str "version") by decide) hversion
  obtain ⟨hsamePatches, hnarFiles⟩ := foldl_addBlock_narFiles hnars
    (addBlock (str "version") [(str "ManifestVersion", str "3")] ⟨false, [], .fresh, ∅, ∅⟩)
  rw [readManifest, writeManifest, fileLines_flatMap hnewline, hlines, List.foldl_append, hstart,
    List.foldl_append, hreadNars, hreadPatches]
  rw [(foldl_addBlock_patches hpatches _).1, (foldl_addBlock_patches hpatches _).2, hnarFiles,
    hsamePatches, addEntries_fst, addEntries_fst]
  rfl

end

/-! ### What is read back as it was -/

/-- The NAR file has no comments in it, its path is absolute, and its sizes are numbers, the NAR size
not 0. -/
structure NarFile.Readable (p : Str) (narFile : NarFile) : Prop where
  storePath : isPathWord p = true
  comment : ∀ f ∈ narFile.allFields p, '#'.toUInt8 ∉ f.2
  size : ∀ v ∈ narFile.size, isNumber v = true
  narSize : ∀ v ∈ narFile.narSize, isNumber v = true ∧ v ≠ str "0"

/-- The patch has no comments in it, its path and its base are absolute, and its sizes are numbers, the
NAR size not 0. -/
structure Patch.Readable (p : Str) (patch : Patch) : Prop where
  storePath : isPathWord p = true
  comment : ∀ f ∈ patch.allFields p, '#'.toUInt8 ∉ f.2
  size : ∀ v ∈ patch.size, isNumber v = true
  basePath : ∀ v ∈ patch.basePath, isPathWord v = true
  narSize : ∀ v ∈ patch.narSize, isNumber v = true ∧ v ≠ str "0"

section

variable {storePath p v : Str} {f : Field} {accepts : Str → Bool} {narFile : NarFile} {patch : Patch}

/-- A field without number sign that the rule accepts is read as it is. -/
theorem cutField_eq_self (h : '#'.toUInt8 ∉ f.text) (hf : ∀ v ∈ f, accepts v = true) :
    cutField accepts f = f := by
  cases f with
  | none => rfl
  | some v =>
    have hcut : cutComment v = v := cutComment_eq_self h
    rw [cutField, Option.map_some, hcut, Option.filter_some, if_pos (hf v rfl)]

/-- A field that was read has no number sign. -/
theorem notMem_text_cutField (accepts : Str → Bool) (f : Field) :
    '#'.toUInt8 ∉ (cutField accepts f).text := by
  cases f with
  | none => exact List.not_mem_nil
  | some v =>
    rw [cutField, Option.map_some, Option.filter_some]
    split_ifs
    · exact notMem_cutComment v
    · exact List.not_mem_nil

/-- What is read of a field comes from a value and is accepted. -/
theorem exists_of_mem_cutField (h : v ∈ cutField accepts f) :
    accepts v = true ∧ ∃ w ∈ f, v = cutComment w := by
  cases f with
  | none => cases h
  | some w =>
    rw [cutField, Option.map_some, Option.filter_some] at h
    split_ifs at h with haccepts
    · cases h
      exact ⟨haccepts, w, rfl, rfl⟩
    · cases h

/-- A path without number sign is read as it is. -/
theorem readPath_eq_self (h : isPathWord p = true) (hp : '#'.toUInt8 ∉ p) : readPath p = p := by
  rw [readPath, cutField_eq_self (f := some p) hp fun v hv => Option.some.inj hv ▸ h]
  rfl

/-- A store path that is read is absolute and has no comment in it. -/
theorem isPathWord_of_readPath (h : readPath p ≠ []) :
    isPathWord (readPath p) = true ∧ '#'.toUInt8 ∉ readPath p := by
  refine ⟨?_, notMem_text_cutField _ _⟩
  cases hcut : cutField isPathWord (some p) with
  | none =>
    rw [readPath, hcut] at h
    exact absurd rfl h
  | some v =>
    rw [readPath, hcut]
    exact (exists_of_mem_cutField (show v ∈ cutField isPathWord (some p) from hcut)).1

/-- A size other than `0` survives the truth test of Perl. -/
theorem filter_narSize (h : ∀ v ∈ f, isNumber v = true ∧ v ≠ str "0") :
    f.filter (· ≠ str "0") = f := by
  cases f with
  | none => rfl
  | some v => rw [Option.filter_some, if_pos (decide_eq_true (h v rfl).2)]

/-- A readable NAR file is read back. -/
theorem NarFile.Readable.readBack_eq (hr : narFile.Readable storePath)
    (h : narFile.WellFormed storePath) : readPath storePath = storePath ∧ narFile.readBack = narFile := by
  obtain ⟨url, hash, size, narHash, narSize, references, deriver, system, compressionType⟩ := narFile
  obtain ⟨-, hurl, hhash, -, hnarHash, -, ⟨refs, rfl, -, -⟩, ⟨d, rfl, -⟩, hsystem, ⟨c, rfl, hc⟩⟩ := h
  obtain ⟨hpath, hcomment, hsize, hnarSize⟩ := hr
  simp only [NarFile.allFields, List.forall_mem_cons, List.not_mem_nil, false_implies,
    implies_true, and_true] at hcomment
  obtain ⟨hp, hu, hco, hh, hs, hn, hns, hre, hd, hsy⟩ := hcomment
  refine ⟨readPath_eq_self hpath hp, ?_⟩
  have hrefs : cutComment refs = refs := cutComment_eq_self hre
  have hderiver : cutComment d = d := cutComment_eq_self hd
  rw [NarFile.readBack]
  simp only [cutField_eq_self hu (isWord_of_exists hurl), cutField_eq_self hh hhash,
    cutField_eq_self hs hsize, cutField_eq_self hn (isWord_of_exists hnarHash),
    filter_narSize hnarSize, cutField_eq_self hns fun v hv => (hnarSize v hv).1,
    cutField_eq_self hsy hsystem,
    cutField_eq_self hco (isWord_of_exists ⟨c, rfl, hc⟩), Option.map_some, hrefs, hderiver,
    Option.getD_some]

/-- A readable patch is read back. -/
theorem Patch.Readable.readBack_eq (hr : patch.Readable storePath) (h : patch.WellFormed storePath) :
    readPath storePath = storePath ∧ patch.readBack = patch := by
  obtain ⟨hpath, hcomment, hsize, hbase, hnarSize⟩ := hr
  simp only [Patch.allFields, List.forall_mem_cons, List.not_mem_nil, false_implies,
    implies_true, and_true] at hcomment
  obtain ⟨hp, hu, hh, hs, hn, hns, hb, hbh, ht⟩ := hcomment
  refine ⟨readPath_eq_self hpath hp, ?_⟩
  rw [Patch.readBack, cutField_eq_self hu (isWord_of_exists h.url),
    cutField_eq_self hh (isWord_of_exists h.hash), cutField_eq_self hs hsize,
    cutField_eq_self hb hbase, cutField_eq_self hbh (isWord_of_exists h.baseHash),
    cutField_eq_self hn (isWord_of_exists h.narHash), filter_narSize hnarSize,
    cutField_eq_self hns fun v hv => (hnarSize v hv).1,
    cutField_eq_self ht (isWord_of_exists h.patchType)]

/-- What is read has no comments in it. -/
theorem comment_readBack (narFile : NarFile) (hp : '#'.toUInt8 ∉ p) :
    ∀ f ∈ narFile.readBack.allFields p, '#'.toUInt8 ∉ f.2 := by
  have hmap : ∀ f : Field, '#'.toUInt8 ∉ Field.text (f.map cutComment) := by
    intro f
    cases f with
    | none => exact List.not_mem_nil
    | some v => exact notMem_cutComment v
  have hcompression : '#'.toUInt8 ∉
      (cutField isWord narFile.compressionType).getD (str "bzip2") := by
    cases hcut : cutField isWord narFile.compressionType with
    | none => decide
    | some v =>
      have hnot := notMem_text_cutField isWord narFile.compressionType
      rw [hcut] at hnot
      exact hnot
  intro f hf
  simp only [NarFile.allFields, List.mem_cons, List.not_mem_nil, or_false] at hf
  rcases hf with rfl | rfl | rfl | rfl | rfl | rfl | rfl | rfl | rfl | rfl
  · exact hp
  · exact notMem_text_cutField _ _
  · exact hcompression
  · exact notMem_text_cutField _ _
  · exact notMem_text_cutField _ _
  · exact notMem_text_cutField _ _
  · exact notMem_text_cutField _ _
  · exact hmap _
  · exact hmap _
  · exact notMem_text_cutField _ _

/-- A patch that was read has no number sign. -/
theorem comment_readBack_patch (patch : Patch) (hp : '#'.toUInt8 ∉ p) :
    ∀ f ∈ patch.readBack.allFields p, '#'.toUInt8 ∉ f.2 := by
  intro f hf
  simp only [Patch.allFields, List.mem_cons, List.not_mem_nil, or_false] at hf
  rcases hf with rfl | rfl | rfl | rfl | rfl | rfl | rfl | rfl | rfl
  · exact hp
  all_goals exact notMem_text_cutField _ _

/-- A NAR size that is read is 0 only if it has been cut off. -/
theorem ne_zero_of_mem_cutField (hcomment : '#'.toUInt8 ∉ f.text)
    (h : v ∈ cutField isNumber (f.filter (· ≠ str "0"))) : v ≠ str "0" := by
  obtain ⟨-, w, hw, rfl⟩ := exists_of_mem_cutField h
  cases f with
  | none => cases hw
  | some u =>
    rw [Option.filter_some] at hw
    split_ifs at hw with hzero
    · cases hw
      have hcut : cutComment w = w := cutComment_eq_self hcomment
      rw [hcut]
      exact of_decide_eq_true hzero
    · cases hw

end

/-- Writing the tables and reading them back gives the same entries. -/
def ManifestRoundTrips (narFiles : NarTable) (patches : PatchTable) : Prop :=
  ∀ p, (readManifest (writeManifest narFiles patches)).1.listAt p = narFiles.listAt p ∧
    (readManifest (writeManifest narFiles patches)).2.listAt p = patches.listAt p

/-- All entries can be read back. -/
def ReadableTables (narFiles : NarTable) (patches : PatchTable) : Prop :=
  (∀ p, ∀ narFile ∈ narFiles.listAt p, narFile.Readable p) ∧
    ∀ p, ∀ patch ∈ patches.listAt p, patch.Readable p

section

variable {narFiles : NarTable} {patches : PatchTable}

/-- Tables that are read back have readable entries. -/
theorem readableTables_of_roundTrips (h : WellFormedTables narFiles patches)
    (hround : ManifestRoundTrips narFiles patches) : ReadableTables narFiles patches := by
  have hread := readManifest_writeManifest h
  constructor
  · have horigin : ∀ p, ∀ narFile ∈ narFiles.listAt p, ∃ e ∈ narFiles.pairs, p = readPath e.1 ∧
        narFile = e.2.readBack := by
      intro p narFile hnar
      rw [← (hround p).1, hread] at hnar
      rcases mem_listAt_addEntries hnar with hnar | hnar
      · cases hnar
      · obtain ⟨e, he, heq⟩ := List.mem_map.mp hnar
        exact ⟨e, he, (Prod.mk.inj heq).1.symm, (Prod.mk.inj heq).2.symm⟩
    have hcomment : ∀ p, ∀ narFile ∈ narFiles.listAt p, isPathWord p = true ∧
        ∀ f ∈ narFile.allFields p, '#'.toUInt8 ∉ f.2 := by
      intro p narFile hnar
      obtain ⟨e, -, rfl, rfl⟩ := horigin p narFile hnar
      obtain ⟨hpath, hnot⟩ := isPathWord_of_readPath (isWord_iff.mp (h.narFile _ _ hnar).storePath).1
      exact ⟨hpath, comment_readBack e.2 hnot⟩
    intro p narFile hnar
    obtain ⟨hpath, hnot⟩ := hcomment p narFile hnar
    obtain ⟨e, he, rfl, rfl⟩ := horigin p narFile hnar
    have hfields := (hcomment e.1 e.2 (Table.mem_pairs.mp he)).2
    refine ⟨hpath, hnot, fun v hv => (exists_of_mem_cutField hv).1, fun v hv => ?_⟩
    refine ⟨(exists_of_mem_cutField hv).1, ne_zero_of_mem_cutField ?_ hv⟩
    exact hfields (str "NarSize", e.2.narSize.text) (by simp [NarFile.allFields])
  · have horigin : ∀ p, ∀ patch ∈ patches.listAt p, ∃ e ∈ patches.pairs, p = readPath e.1 ∧
        patch = e.2.readBack := by
      intro p patch hpatch
      rw [← (hround p).2, hread] at hpatch
      rcases mem_listAt_addEntries hpatch with hpatch | hpatch
      · cases hpatch
      · obtain ⟨e, he, heq⟩ := List.mem_map.mp hpatch
        exact ⟨e, he, (Prod.mk.inj heq).1.symm, (Prod.mk.inj heq).2.symm⟩
    have hcomment : ∀ p, ∀ patch ∈ patches.listAt p, isPathWord p = true ∧
        ∀ f ∈ patch.allFields p, '#'.toUInt8 ∉ f.2 := by
      intro p patch hpatch
      obtain ⟨e, -, rfl, rfl⟩ := horigin p patch hpatch
      obtain ⟨hpath, hnot⟩ := isPathWord_of_readPath (isWord_iff.mp (h.patch _ _ hpatch).storePath).1
      exact ⟨hpath, comment_readBack_patch e.2 hnot⟩
    intro p patch hpatch
    obtain ⟨hpath, hnot⟩ := hcomment p patch hpatch
    obtain ⟨e, he, rfl, rfl⟩ := horigin p patch hpatch
    have hfields := (hcomment e.1 e.2 (Table.mem_pairs.mp he)).2
    refine ⟨hpath, hnot, fun v hv => (exists_of_mem_cutField hv).1,
      fun v hv => (exists_of_mem_cutField hv).1, fun v hv => ?_⟩
    refine ⟨(exists_of_mem_cutField hv).1, ne_zero_of_mem_cutField ?_ hv⟩
    exact hfields (str "NarSize", e.2.narSize.text) (by simp [Patch.allFields])

/-- Well-formed tables round-trip exactly if all of their entries can be read back. -/
theorem manifestRoundTrips_iff (h : WellFormedTables narFiles patches) :
    ManifestRoundTrips narFiles patches ↔ ReadableTables narFiles patches := by
  refine ⟨readableTables_of_roundTrips h, fun ⟨hnars, hpatches⟩ p => ?_⟩
  have hsameNars : (narFiles.pairs.map fun e => (readPath e.1, e.2.readBack)) = narFiles.pairs := by
    refine (List.map_congr_left fun e he => ?_).trans (List.map_id _)
    have hmem := Table.mem_pairs.mp he
    obtain ⟨hpath, hback⟩ := (hnars e.1 e.2 hmem).readBack_eq (h.narFile e.1 e.2 hmem)
    rw [hpath, hback]
    rfl
  have hsamePatches : (patches.pairs.map fun e => (readPath e.1, e.2.readBack)) = patches.pairs := by
    refine (List.map_congr_left fun e he => ?_).trans (List.map_id _)
    have hmem := Table.mem_pairs.mp he
    obtain ⟨hpath, hback⟩ := (hpatches e.1 e.2 hmem).readBack_eq (h.patch e.1 e.2 hmem)
    rw [hpath, hback]
    rfl
  rw [readManifest_writeManifest h, hsameNars, hsamePatches]
  exact ⟨listAt_addEntries_pairs h.narFileKeys p, listAt_addEntries_pairs h.patchKeys p⟩

/-- A table with one NAR file, of the given URL and NAR size. -/
def singleNarFile (url narSize : Str) : NarTable :=
  addNAR ∅ (str "/nix/store/a") ⟨some url, none, none, some (str "sha256:0"), some narSize, some [],
    some [], none, some (str "bzip2")⟩

/-- A table with one NAR file is well formed when its URL and size are words. -/
theorem wellFormedTables_singleNarFile {url narSize : Str} (hurl : isWord url = true)
    (hsize : isWord narSize = true) : WellFormedTables (singleNarFile url narSize) ∅ := by
  have hempty : ∀ p, Table.listAt (∅ : NarTable) p = [] := fun p => rfl
  have hnew : (str "/nix/store/a", url) ∉ Table.keysOf NarFile.key (∅ : NarTable) := by
    rintro ⟨b, hb, -⟩
    cases hb
  have hnone : ∀ v ∈ (none : Field), isWord v = true := by
    intro v hv
    cases hv
  refine ⟨fun p narFile hnar => ?_, fun p patch hpatch => ?_, fun p => ?_, fun p => ?_⟩
  · rw [singleNarFile, addNAR, listAt_addEntry hnew, hempty] at hnar
    split_ifs at hnar with hp
    · obtain rfl := List.mem_singleton.mp hnar
      rw [hp]
      exact ⟨by decide, ⟨url, rfl, hurl⟩, hnone, hnone, ⟨_, rfl, by decide⟩,
        fun v hv => Option.some.inj hv ▸ hsize, ⟨[], rfl, List.not_mem_nil, rfl⟩,
        ⟨[], rfl, Or.inl rfl⟩, hnone, ⟨_, rfl, by decide⟩⟩
    · cases hnar
  · cases hpatch
  · rw [singleNarFile, addNAR, listAt_addEntry hnew, hempty]
    split_ifs
    · exact List.nodup_singleton _
    · exact List.nodup_nil
  · exact List.nodup_nil

/-- A NAR file whose NAR size is 0 loses it. -/
theorem not_manifestRoundTrips_zero :
    ¬ ManifestRoundTrips (singleNarFile (str "http://c/a.nar") (str "0")) ∅ := by
  rw [manifestRoundTrips_iff (wellFormedTables_singleNarFile (by decide) (by decide))]
  intro h
  have hzero := ((h.1 (str "/nix/store/a") _ List.mem_cons_self).narSize (str "0") rfl).2
  exact hzero rfl

/-- A URL with a number sign in it is cut off. -/
theorem not_manifestRoundTrips_comment : ¬ ∀ (narFiles : NarTable) (patches : PatchTable),
    WellFormedTables narFiles patches → ManifestRoundTrips narFiles patches := by
  intro h
  have hround := (h (singleNarFile (str "http://c/a.nar#1") (str "1")) ∅
    (wellFormedTables_singleNarFile (by decide) (by decide)) (str "/nix/store/a")).1
  revert hround
  decide

end

end Nix
