import NixStore.Expr.XmlText

/-!
# Reading back what an `XMLWriter` wrote

A reader finds the tags of the calls in their order, and so the elements that the calls made, with a
space for each tab and each carriage return in a value.  The document is read back as it was written
if and only if it has exactly one element that is in no other one, and no value has a tab or a
carriage return (`xmlRoundTrips_iff`).
-/

namespace Nix

/-! ### Tags as they are read -/

/-- Attributes after their line ends were normalised. -/
def readableAttrs (attrs : List (Str × Str)) : Str :=
  attrs.flatMap fun a => str " " ++ (a.1 ++ (str "=" ++
    (str "\"" ++ ((escapeAttr a.2).map endLine ++ str "\""))))

section

variable {name rest s : Str} {attrs : List (Str × Str)} {stop : Str × Bool} {n : ℕ}

/-- A name consists of bytes of names. -/
theorem nameByte_of_isXMLName (h : isXMLName name = true) : ∀ c ∈ name, isXMLNameByte c = true :=
  List.all_eq_true.mp (Bool.and_eq_true_iff.mp h).2

/-- A name begins with a byte of a name. -/
theorem exists_cons_of_isXMLName (h : isXMLName name = true) :
    ∃ c s, name = c :: s ∧ isXMLNameByte c = true := by
  cases name with
  | nil => cases h
  | cons c s => exact ⟨c, s, rfl, nameByte_of_isXMLName h c List.mem_cons_self⟩

/-- A name is read up to the first byte that names do not have. -/
theorem span_name (h : isXMLName name = true) (hrest : ∀ c ∈ rest.head?, isXMLNameByte c = false) :
    (name ++ rest).takeWhile isXMLNameByte = name ∧ (name ++ rest).dropWhile isXMLNameByte = rest := by
  have hnil : rest.takeWhile isXMLNameByte = [] ∧ rest.dropWhile isXMLNameByte = rest := by
    cases rest with
    | nil => exact ⟨rfl, rfl⟩
    | cons c rest =>
      have hc : isXMLNameByte c = false := hrest c rfl
      exact ⟨List.takeWhile_cons_of_neg (by simp [hc]), List.dropWhile_cons_of_neg (by simp [hc])⟩
  rw [List.takeWhile_append_of_pos (nameByte_of_isXMLName h),
    List.dropWhile_append_of_pos (nameByte_of_isXMLName h), hnil.1, hnil.2, List.append_nil]
  exact ⟨rfl, rfl⟩

/-- A name has no end of line in it. -/
theorem map_endLine_name (h : isXMLName name = true) : name.map endLine = name :=
  map_endLine_eq_self fun c hc => (nameByte_spec (nameByte_of_isXMLName h c hc)).2.2.2.2.2.2.1

/-- Reading the breaks of written attributes changes the values only. -/
theorem map_endLine_writeAttrs {attrs : XMLAttrs} (h : ∀ a ∈ attrs.entries, isXMLName a.1 = true) :
    (writeAttrs attrs).map endLine = readableAttrs attrs.entries := by
  rw [writeAttrs, readableAttrs, List.map_flatMap]
  refine List.flatMap_congr fun a ha => ?_
  have hspace : (str " ").map endLine = str " " := by decide
  have hequals : (str "=\"").map endLine = str "=" ++ str "\"" := by decide
  have hquote : (str "\"").map endLine = str "\"" := by decide
  simp only [List.map_append, hspace, hequals, hquote, map_endLine_name (h a ha), List.append_assoc]

/-- There are at least as many characters as attributes. -/
theorem length_le_readableAttrs (attrs : List (Str × Str)) :
    attrs.length ≤ (readableAttrs attrs).length := by
  induction attrs with
  | nil => exact Nat.zero_le _
  | cons a attrs ih =>
    have hspace : (str " ").length = 1 := rfl
    rw [readableAttrs, List.flatMap_cons, List.length_append, List.length_append, List.length_cons,
      hspace]
    rw [readableAttrs] at ih
    omega

/-- How a tag ends, and whether its element is empty. -/
def IsTagEnd (stop : Str × Bool) : Prop := stop = (str ">", false) ∨ stop = (str " />", true)

/-- One attribute is read. -/
theorem readXMLAttrs_succ {q r value : Str} (h : isXMLName name = true)
    (hq : readXMLValue ('"'.toUInt8 :: q) = some (value, r)) :
    readXMLAttrs (n + 1) (32 :: (name ++ '='.toUInt8 :: '"'.toUInt8 :: q)) =
      (readXMLAttrs n r).map fun x => ((name, value) :: x.1, x.2) := by
  obtain ⟨c, s, hname, hc⟩ := exists_cons_of_isXMLName h
  obtain ⟨hspace, -, hgt, hslash, -⟩ := nameByte_spec hc
  obtain ⟨htake, hdrop⟩ : (name ++ '='.toUInt8 :: '"'.toUInt8 :: q).takeWhile isXMLNameByte = name ∧
      (name ++ '='.toUInt8 :: '"'.toUInt8 :: q).dropWhile isXMLNameByte =
        '='.toUInt8 :: '"'.toUInt8 :: q := by
    refine span_name h fun d hd => ?_
    obtain rfl : '='.toUInt8 = d := Option.some.inj hd
    decide
  have hskip : (32 :: (name ++ '='.toUInt8 :: '"'.toUInt8 :: q)).dropWhile isXMLSpace =
      name ++ '='.toUInt8 :: '"'.toUInt8 :: q := by
    rw [List.dropWhile_cons_of_pos (by decide), hname, List.cons_append,
      List.dropWhile_cons_of_neg (by simp [hspace])]
  have hequals : ('='.toUInt8 :: '"'.toUInt8 :: q).dropWhile isXMLSpace =
      '='.toUInt8 :: '"'.toUInt8 :: q := List.dropWhile_cons_of_neg (by decide)
  have hquote : ('"'.toUInt8 :: q).dropWhile isXMLSpace = '"'.toUInt8 :: q :=
    List.dropWhile_cons_of_neg (by decide)
  have hgt' : (name ++ '='.toUInt8 :: '"'.toUInt8 :: q).take 1 ≠ str ">" := by
    rw [hname]
    exact fun heq => hgt (List.cons.inj heq).1
  have hslash' : (name ++ '='.toUInt8 :: '"'.toUInt8 :: q).take 2 ≠ str "/>" := by
    rw [hname]
    exact fun heq => hslash (List.cons.inj heq).1
  have hlength : (name ++ '='.toUInt8 :: '"'.toUInt8 :: q).length ≠
      (32 :: (name ++ '='.toUInt8 :: '"'.toUInt8 :: q)).length := by
    rw [List.length_cons]
    omega
  have hmark : isXMLName name = true ∧ ('='.toUInt8 :: '"'.toUInt8 :: q).take 1 = str "=" := ⟨h, rfl⟩
  rw [readXMLAttrs]
  simp only [hskip, if_neg hgt', if_neg hslash', if_neg hlength, htake, hdrop, hequals, if_pos hmark,
    List.drop_succ_cons, List.drop_zero, hquote, hq, Option.bind_eq_bind, Option.bind_some]
  cases readXMLAttrs n r with
  | none => rfl
  | some x => rfl

/-- The attributes of a tag are read as they were written. -/
theorem readXMLAttrs_readable (h : ∀ a ∈ attrs, isXMLName a.1 = true) (hstop : IsTagEnd stop)
    (hn : attrs.length < n) : readXMLAttrs n (readableAttrs attrs ++ (stop.1 ++ rest)) =
      some (attrs.map fun a => (a.1, flatten a.2), stop.2, rest) := by
  induction n generalizing attrs with
  | zero => exact absurd hn (Nat.not_lt_zero _)
  | succ n ih =>
    cases attrs with
    | nil =>
      rcases hstop with rfl | rfl
      · rfl
      · rfl
    | cons a attrs =>
      have hrest := ih (fun b hb => h b (List.mem_cons_of_mem a hb)) (Nat.lt_of_succ_lt_succ hn)
      have hvalue : readXMLValue ('"'.toUInt8 :: ((escapeAttr a.2).map endLine ++ (str "\"" ++
          (readableAttrs attrs ++ (stop.1 ++ rest))))) =
          some (flatten a.2, readableAttrs attrs ++ (stop.1 ++ rest)) :=
        readXMLValue_escapeAttr a.2 _
      have htext : readableAttrs (a :: attrs) ++ (stop.1 ++ rest) = 32 :: (a.1 ++ '='.toUInt8 ::
          '"'.toUInt8 :: ((escapeAttr a.2).map endLine ++ (str "\"" ++
            (readableAttrs attrs ++ (stop.1 ++ rest))))) := by
        rw [readableAttrs, List.flatMap_cons, ← readableAttrs]
        simp only [List.append_assoc]
        rfl
      rw [htext, readXMLAttrs_succ (h a List.mem_cons_self) hvalue, hrest]
      rfl

end

/-! ### Calls as they are read -/

namespace XMLCall

/-- A call, with a space for each tab and each carriage return in a value. -/
def flatten : XMLCall → XMLCall
  | .openElement name attrs => .openElement name (flattenAttrs attrs)
  | .closeElement => .closeElement
  | .writeEmptyElement name attrs => .writeEmptyElement name (flattenAttrs attrs)

/-- What a reader makes of the tag of a call. -/
def item (elems : List Str) : XMLCall → XMLItem
  | .openElement name attrs => .startTag name (flattenAttrs attrs)
  | .closeElement => .endTag (elems.headD [])
  | .writeEmptyElement name attrs => .emptyTag name (flattenAttrs attrs)

/-- What a call writes in front of its tag. -/
def indentation (indent : Bool) (elems : List Str) (call : XMLCall) : Str :=
  if indent then List.replicate (call.depth elems * 2) ' '.toUInt8 else []

/-- What a call writes behind its tag. -/
def lineEnd (indent : Bool) : Str := if indent then str "\n" else []

/-- What calls write, after line ends were normalised. -/
def readableLines (indent : Bool) : List Str → List XMLCall → Str
  | _, [] => []
  | elems, call :: calls => call.indentation indent elems ++ ((call.tag elems).map endLine ++
      (lineEnd indent ++ readableLines indent (call.pending elems) calls))

/-- The names of the open elements are XML names, and one is open when one is closed. -/
structure Fits (elems : List Str) (call : XMLCall) : Prop where
  wellFormed : call.WellFormed
  names : ∀ name ∈ elems, isXMLName name = true
  close : call = .closeElement → elems ≠ []

end XMLCall

section

variable {name rest : Str} {elems : List Str} {call : XMLCall} {calls : List XMLCall} {indent : Bool}

/-- Flattening the values of a map flattens its entries. -/
theorem entries_flattenAttrs (attrs : XMLAttrs) :
    attrs.entries.map (fun a => (a.1, flatten a.2)) = (flattenAttrs attrs).entries := rfl

/-- A tag with attributes is read as it was written. -/
theorem readXMLTag_readable {attrs : XMLAttrs} {stop : Str × Bool} (hname : isXMLName name = true)
    (hattrs : ∀ a ∈ attrs.entries, isXMLName a.1 = true) (hstop : IsTagEnd stop) :
    readXMLTag (name ++ (readableAttrs attrs.entries ++ (stop.1 ++ rest))) =
      some ((if stop.2 then XMLItem.emptyTag else .startTag) name (flattenAttrs attrs), rest) := by
  obtain ⟨c, s, hcons, hc⟩ := exists_cons_of_isXMLName hname
  have hslash : (name ++ (readableAttrs attrs.entries ++ (stop.1 ++ rest))).take 1 ≠ str "/" := by
    rw [hcons]
    exact fun heq => (nameByte_spec hc).2.2.2.1 (List.cons.inj heq).1
  obtain ⟨htake, hdrop⟩ :
      (name ++ (readableAttrs attrs.entries ++ (stop.1 ++ rest))).takeWhile isXMLNameByte = name ∧
        (name ++ (readableAttrs attrs.entries ++ (stop.1 ++ rest))).dropWhile isXMLNameByte =
          readableAttrs attrs.entries ++ (stop.1 ++ rest) := by
    refine span_name hname fun d hd => ?_
    -- a blank or the end of the tag
    have hhead : d = 32 ∨ d = '>'.toUInt8 := by
      rw [readableAttrs] at hd
      cases hentries : attrs.entries with
      | nil =>
        rw [hentries] at hd
        rcases hstop with rfl | rfl
        · exact .inr (Option.some.inj hd).symm
        · exact .inl (Option.some.inj hd).symm
      | cons a l =>
        rw [hentries] at hd
        exact .inl (Option.some.inj hd).symm
    rcases hhead with rfl | rfl
    · decide
    · decide
  have hlength : attrs.entries.length <
      (name ++ (readableAttrs attrs.entries ++ (stop.1 ++ rest))).length + 1 := by
    have hle := length_le_readableAttrs attrs.entries
    simp only [List.length_append]
    omega
  have hnodup : ((attrs.entries.map fun a => (a.1, flatten a.2)).map Prod.fst).Nodup :=
    (flattenAttrs attrs).keys_nodup
  rw [readXMLTag, if_neg hslash, htake, hdrop, if_pos hname,
    readXMLAttrs_readable hattrs hstop hlength, Option.bind_eq_bind, Option.bind_some]
  dsimp only
  rw [if_pos hnodup, entries_flattenAttrs, SortedMap.ofList_entries]
  rfl

/-- Reading the breaks of a tag changes its attributes only. -/
theorem map_endLine_tag {attrs : XMLAttrs} {stop : Str} (hname : isXMLName name = true)
    (hattrs : ∀ a ∈ attrs.entries, isXMLName a.1 = true) (hstop : stop.map endLine = stop) :
    (str "<" ++ name ++ writeAttrs attrs ++ stop).map endLine =
      '<'.toUInt8 :: (name ++ (readableAttrs attrs.entries ++ stop)) := by
  have hbegin : (str "<").map endLine = str "<" := by decide
  rw [List.map_append, List.map_append, List.map_append, hbegin, map_endLine_name hname,
    map_endLine_writeAttrs hattrs, hstop]
  simp only [List.append_assoc]
  rfl

/-- An end tag is read as it was written. -/
theorem readXMLTag_endTag (hname : isXMLName name = true) :
    readXMLTag ('/'.toUInt8 :: (name ++ (str ">" ++ rest))) = some (.endTag name, rest) := by
  obtain ⟨htake, hdrop⟩ : (name ++ (str ">" ++ rest)).takeWhile isXMLNameByte = name ∧
      (name ++ (str ">" ++ rest)).dropWhile isXMLNameByte = str ">" ++ rest := by
    refine span_name hname fun d hd => ?_
    obtain rfl : '>'.toUInt8 = d := Option.some.inj hd
    decide
  have hspace : (str ">" ++ rest).dropWhile isXMLSpace = str ">" ++ rest :=
    List.dropWhile_cons_of_neg (by decide)
  have hslash : ('/'.toUInt8 :: (name ++ (str ">" ++ rest))).take 1 = str "/" := rfl
  have hmark : isXMLName name = true ∧ (str ">" ++ rest).take 1 = str ">" := ⟨hname, rfl⟩
  rw [readXMLTag, if_pos hslash, List.drop_succ_cons, List.drop_zero, htake, hdrop, hspace]
  dsimp only
  rw [if_pos hmark]
  rfl

/-- A start tag and an empty tag are read as they were written. -/
theorem readXMLTag_startTag {attrs : XMLAttrs} {stop : Str × Bool} (hname : isXMLName name = true)
    (hattrs : ∀ a ∈ attrs.entries, isXMLName a.1 = true) (hstop : IsTagEnd stop) :
    ∃ t, (str "<" ++ name ++ writeAttrs attrs ++ stop.1).map endLine = '<'.toUInt8 :: t ∧
      ∀ rest, readXMLTag (t ++ rest) =
        some ((if stop.2 then XMLItem.emptyTag else .startTag) name (flattenAttrs attrs), rest) := by
  have hend : stop.1.map endLine = stop.1 := by
    rcases hstop with rfl | rfl
    · decide
    · decide
  refine ⟨_, map_endLine_tag hname hattrs hend, fun rest => ?_⟩
  rw [List.append_assoc, List.append_assoc]
  exact readXMLTag_readable hname hattrs hstop

/-- The tag of a call is read as it was written. -/
theorem readXMLTag_tag (h : call.Fits elems) : ∃ t, (call.tag elems).map endLine = '<'.toUInt8 :: t ∧
    ∀ rest, readXMLTag (t ++ rest) = some (call.item elems, rest) := by
  have hattrs : ∀ a ∈ call.attrs.entries, isXMLName a.1 = true := fun a ha => (h.wellFormed.attrs a ha).1
  cases call with
  | openElement name attrs =>
    have hname := h.wellFormed.name name attrs (.inl rfl)
    exact readXMLTag_startTag hname hattrs (.inl rfl)
  | closeElement =>
    obtain ⟨name, elems, rfl⟩ := List.exists_cons_of_ne_nil (h.close rfl)
    have hname := h.names name List.mem_cons_self
    refine ⟨'/'.toUInt8 :: (name ++ str ">"), ?_, fun rest => ?_⟩
    · have hbegin : (str "</").map endLine = str "</" := by decide
      have hend : (str ">").map endLine = str ">" := by decide
      rw [XMLCall.tag, List.headD_cons, List.map_append, List.map_append, hbegin, hend,
        map_endLine_name hname]
      rfl
    · rw [List.cons_append, List.append_assoc]
      exact readXMLTag_endTag hname
  | writeEmptyElement name attrs =>
    have hname := h.wellFormed.name name attrs (.inr rfl)
    exact readXMLTag_startTag hname hattrs (.inr rfl)

/-! ### Line ends -/

/-- The fixed texts of the writer have no break and only bytes of XML. -/
theorem fixed_bytes : ∀ t ∈ [str " ", str "=\"", str "\"", str "<", str ">", str "</", str " />"],
    ∀ c ∈ t, c ≠ 10 ∧ isXMLByte c = true := by
  decide +kernel

/-- A name has no break and only bytes of XML. -/
theorem name_bytes (h : isXMLName name = true) : ∀ c ∈ name, c ≠ 10 ∧ isXMLByte c = true := by
  intro c hc
  obtain ⟨-, -, -, -, -, hlf, -, hbyte⟩ := nameByte_spec (nameByte_of_isXMLName h c hc)
  exact ⟨hlf, hbyte⟩

/-- Written attributes have no break and only bytes of XML. -/
theorem writeAttrs_bytes {attrs : XMLAttrs}
    (h : ∀ a ∈ attrs.entries, isXMLName a.1 = true ∧ ∀ c ∈ a.2, isXMLByte c = true) :
    ∀ c ∈ writeAttrs attrs, c ≠ 10 ∧ isXMLByte c = true := by
  intro c hc
  obtain ⟨a, ha, hc⟩ := List.mem_flatMap.mp hc
  obtain ⟨hkey, hvalue⟩ := h a ha
  simp only [List.mem_append] at hc
  rcases hc with (((hc | hc) | hc) | hc) | hc
  · exact fixed_bytes _ (by simp) c hc
  · exact name_bytes hkey c hc
  · exact fixed_bytes _ (by simp) c hc
  · obtain ⟨d, hd, hc⟩ := List.mem_flatMap.mp hc
    obtain ⟨hlf, -, hbyte⟩ := escape_spec d c hc
    exact ⟨hlf, hbyte (hvalue d hd)⟩
  · exact fixed_bytes _ (by simp) c hc

/-- The bytes of a start tag and of an empty tag. -/
theorem startTag_bytes {attrs : XMLAttrs} {stop : Str × Bool} (hname : isXMLName name = true)
    (hattrs : ∀ a ∈ attrs.entries, isXMLName a.1 = true ∧ ∀ c ∈ a.2, isXMLByte c = true)
    (hstop : IsTagEnd stop) :
    ∀ c ∈ str "<" ++ name ++ writeAttrs attrs ++ stop.1, c ≠ 10 ∧ isXMLByte c = true := by
  intro c hc
  simp only [List.mem_append] at hc
  rcases hc with ((hc | hc) | hc) | hc
  · exact fixed_bytes _ (by simp) c hc
  · exact name_bytes hname c hc
  · exact writeAttrs_bytes hattrs c hc
  · rcases hstop with rfl | rfl
    · exact fixed_bytes _ (by simp) c hc
    · exact fixed_bytes _ (by simp) c hc

/-- All bytes of a tag are allowed, and it has no line feed. -/
theorem tag_bytes (h : call.Fits elems) : ∀ c ∈ call.tag elems, c ≠ 10 ∧ isXMLByte c = true := by
  cases call with
  | openElement name attrs =>
    exact startTag_bytes (h.wellFormed.name name attrs (.inl rfl)) h.wellFormed.attrs (.inl rfl)
  | closeElement =>
    obtain ⟨name, elems, rfl⟩ := List.exists_cons_of_ne_nil (h.close rfl)
    intro c hc
    simp only [XMLCall.tag, List.headD_cons, List.mem_append] at hc
    rcases hc with (hc | hc) | hc
    · exact fixed_bytes _ (by simp) c hc
    · exact name_bytes (h.names name List.mem_cons_self) c hc
    · exact fixed_bytes _ (by simp) c hc
  | writeEmptyElement name attrs =>
    exact startTag_bytes (h.wellFormed.name name attrs (.inr rfl)) h.wellFormed.attrs (.inr rfl)

/-- White space around tags. -/
theorem space_around (indent : Bool) (elems : List Str) (call : XMLCall) :
    (∀ c ∈ call.indentation indent elems, c = 32) ∧ ∀ c ∈ XMLCall.lineEnd indent, c = 10 := by
  constructor
  · intro c hc
    rw [XMLCall.indentation] at hc
    split_ifs at hc
    · exact List.eq_of_mem_replicate hc
    · exact absurd hc List.not_mem_nil
  · intro c hc
    rw [XMLCall.lineEnd] at hc
    split_ifs at hc
    · exact List.mem_singleton.mp hc
    · exact absurd hc List.not_mem_nil

/-- A tag ends with `>`. -/
theorem getLast?_tag (elems : List Str) (call : XMLCall) :
    (call.tag elems).getLast? = some '>'.toUInt8 := by
  have hlast : ∀ s t : Str, t.getLast? = some '>'.toUInt8 → (s ++ t).getLast? = some '>'.toUInt8 := by
    intro s t ht
    rw [List.getLast?_append, ht]
    rfl
  cases call with
  | openElement name attrs => exact hlast _ _ rfl
  | closeElement => exact hlast _ _ rfl
  | writeEmptyElement name attrs => exact hlast _ _ rfl

/-- The line of a call with its line ends normalised, in front of other lines. -/
theorem normalizeBreaks_line (h : call.Fits elems) (rest : Str) :
    normalizeBreaks 13 10 (call.line indent elems ++ rest) = call.indentation indent elems ++
      ((call.tag elems).map endLine ++ (XMLCall.lineEnd indent ++ normalizeBreaks 13 10 rest)) := by
  obtain ⟨hspace, hline⟩ := space_around indent elems call
  have hcut : ∀ {s t : Str} {c : UInt8}, s.getLast? = some c → c ≠ 13 → ¬ CutsBreak 13 10 s t :=
    fun hc hne hcut => hne (Option.some.inj (hc.symm.trans hcut.1))
  have hcut' : ∀ {s t : Str}, (∀ c ∈ s, c ≠ 13) → ¬ CutsBreak 13 10 s t :=
    fun hs hcut => hs 13 (List.mem_of_mem_getLast? hcut.1) rfl
  have hspace' : ∀ c ∈ call.indentation indent elems, c ≠ 13 := fun c hc => by
    rw [hspace c hc]
    decide
  have hline' : ∀ c ∈ XMLCall.lineEnd indent, c ≠ 13 := fun c hc => by
    rw [hline c hc]
    decide
  have hfront : normalizeBreaks 13 10 (call.indentation indent elems) =
      call.indentation indent elems := by
    rw [normalizeBreaks_of_notMem fun hc => absurd (hspace 10 hc) (by decide),
      map_endLine_eq_self hspace']
  have hend : normalizeBreaks 13 10 (XMLCall.lineEnd indent) = XMLCall.lineEnd indent := by
    cases indent
    · rfl
    · decide
  have htag : normalizeBreaks 13 10 (call.tag elems) = (call.tag elems).map endLine :=
    normalizeBreaks_of_notMem fun hc => (tag_bytes h 10 hc).1 rfl
  have hsplit : call.line indent elems ++ rest = call.indentation indent elems ++ (call.tag elems ++
      (XMLCall.lineEnd indent ++ rest)) := by
    rw [XMLCall.line, ← XMLCall.indentation, ← XMLCall.lineEnd, List.append_assoc, List.append_assoc]
  rw [hsplit, normalizeBreaks_append (hcut' hspace'), hfront,
    normalizeBreaks_append (hcut (getLast?_tag elems call) (by decide)), htag,
    normalizeBreaks_append (hcut' hline'), hend]

/-- The calls fit one after the other. -/
def FitsAll : List Str → List XMLCall → Prop
  | elems, [] => elems = []
  | elems, call :: calls => call.Fits elems ∧ FitsAll (call.pending elems) calls

/-- Balanced calls with proper names fit. -/
theorem fitsAll_of_balanced (hbalanced : XMLCall.Balanced elems.length calls)
    (hcalls : ∀ call ∈ calls, call.WellFormed) (hnames : ∀ name ∈ elems, isXMLName name = true) :
    FitsAll elems calls := by
  induction calls generalizing elems with
  | nil => exact List.length_eq_zero_iff.mp hbalanced
  | cons call calls ih =>
    have hcall := hcalls call List.mem_cons_self
    have hrest : ∀ call ∈ calls, call.WellFormed := fun c hc => hcalls c (List.mem_cons_of_mem call hc)
    cases call with
    | openElement name attrs =>
      refine ⟨⟨hcall, hnames, fun h => by cases h⟩, ih hbalanced hrest ?_⟩
      refine List.forall_mem_cons.mpr ⟨?_, hnames⟩
      exact hcall.name name attrs (.inl rfl)
    | closeElement =>
      cases elems with
      | nil => exact hbalanced.elim
      | cons name elems =>
        refine ⟨⟨hcall, hnames, fun _ => List.cons_ne_nil _ _⟩, ih hbalanced hrest ?_⟩
        exact fun n hn => hnames n (List.mem_cons_of_mem name hn)
    | writeEmptyElement name attrs =>
      exact ⟨⟨hcall, hnames, fun h => by cases h⟩, ih hbalanced hrest hnames⟩

/-- Normalising the breaks of the written lines. -/
theorem normalizeBreaks_lines (h : FitsAll elems calls) :
    normalizeBreaks 13 10 (XMLCall.lines indent elems calls) =
      XMLCall.readableLines indent elems calls := by
  induction calls generalizing elems with
  | nil => rfl
  | cons call calls ih =>
    rw [XMLCall.lines, normalizeBreaks_line h.1, ih h.2, XMLCall.readableLines]

/-- All bytes of the lines are allowed. -/
theorem lines_bytes (h : FitsAll elems calls) :
    ∀ c ∈ XMLCall.lines indent elems calls, isXMLByte c = true := by
  induction calls generalizing elems with
  | nil => exact fun c hc => absurd hc List.not_mem_nil
  | cons call calls ih =>
    obtain ⟨hspace, hline⟩ := space_around indent elems call
    intro c hc
    rw [XMLCall.lines, XMLCall.line, ← XMLCall.indentation, ← XMLCall.lineEnd] at hc
    simp only [List.mem_append] at hc
    rcases hc with ((hc | hc) | hc) | hc
    · rw [hspace c hc]
      decide
    · exact (tag_bytes h.1 c hc).2
    · rw [hline c hc]
      decide
    · exact ih h.2 c hc

/-! ### Items -/

variable {b : XMLBuilder} {w : Str}

/-- Text of spaces between the elements is skipped. -/
theorem readItem_space (hw : ∀ c ∈ w, isXMLSpace c = true) : b.readItem (.text w) = some b := by
  have hvalue : ∀ {w : Str}, (∀ c ∈ w, isXMLSpace c = true) → (attrValue none w).isSome = true := by
    intro w hw
    induction w with
    | nil => rfl
    | cons c w ih =>
      have hc : ∀ c, isXMLSpace c = true → c ≠ '&'.toUInt8 ∧ c ≠ '<'.toUInt8 := by decide +kernel
      obtain ⟨hamp, hlt⟩ := hc c (hw c List.mem_cons_self)
      rw [attrValue, if_neg hamp, if_neg hlt, Option.isSome_map]
      exact ih fun d hd => hw d (List.mem_cons_of_mem c hd)
  rw [XMLBuilder.readItem]
  by_cases hstack : b.stack = []
  · rw [if_pos hstack, if_pos (List.all_eq_true.mpr hw)]
  · rw [if_neg hstack, if_pos (hvalue hw)]

/-- A reader does with a tag what its call did. -/
theorem readItem_item (h : call.Fits elems) (hb : b.stack.map Prod.fst = elems) :
    b.readItem (call.item elems) = call.flatten.build b := by
  cases call with
  | openElement name attrs => rfl
  | closeElement =>
    obtain ⟨name, elems, rfl⟩ := List.exists_cons_of_ne_nil (h.close rfl)
    rw [XMLCall.item, XMLBuilder.readItem, hb, List.head?_cons, List.headD_cons, if_pos rfl]
    rfl
  | writeEmptyElement name attrs => rfl

/-- Adding an element leaves the open ones as they are. -/
theorem map_stack_add (b : XMLBuilder) (e : XMLElement) :
    (b.add e).stack.map Prod.fst = b.stack.map Prod.fst := by
  obtain ⟨stack, roots⟩ := b
  cases stack with
  | nil => rfl
  | cons f stack => rfl

/-- The open elements after a call. -/
theorem build_pending (h : call.Fits elems) (hb : b.stack.map Prod.fst = elems) :
    ∃ b', call.flatten.build b = some b' ∧ b'.stack.map Prod.fst = call.pending elems := by
  cases call with
  | openElement name attrs => exact ⟨_, rfl, congrArg (name :: ·) hb⟩
  | closeElement =>
    obtain ⟨stack, roots⟩ := b
    cases stack with
    | nil => exact absurd hb.symm (h.close rfl)
    | cons f stack =>
      refine ⟨_, rfl, ?_⟩
      rw [map_stack_add, ← hb]
      rfl
  | writeEmptyElement name attrs => exact ⟨_, rfl, (map_stack_add _ _).trans hb⟩

/-- A reader finds the tags in their order, and does with them what the calls did. -/
theorem readXMLItems_lines {n : ℕ} (h : FitsAll elems calls) (hn : calls.length < n)
    (hw : ∀ c ∈ w, isXMLSpace c = true) (hb : b.stack.map Prod.fst = elems) :
    ∃ items, readXMLItems n (w ++ XMLCall.readableLines indent elems calls) = some items ∧
      items.foldlM XMLBuilder.readItem b = (calls.map XMLCall.flatten).foldlM XMLCall.build b := by
  have hother : ∀ c, isXMLSpace c = true → decide (c ≠ '<'.toUInt8) = true := by decide +kernel
  induction calls generalizing elems n w b with
  | nil =>
    obtain ⟨n, rfl⟩ := Nat.exists_eq_add_one.mpr hn
    have hdrop : w.dropWhile (· ≠ '<'.toUInt8) = [] :=
      List.dropWhile_eq_nil_iff.mpr fun c hc => hother c (hw c hc)
    refine ⟨[.text w], ?_, ?_⟩
    · rw [XMLCall.readableLines, List.append_nil, readXMLItems, hdrop]
    · rw [List.foldlM_cons, readItem_space hw]
      rfl
  | cons call calls ih =>
    obtain ⟨n, rfl⟩ := Nat.exists_eq_add_one.mpr (Nat.zero_lt_of_lt hn)
    obtain ⟨hspace, hline⟩ := space_around indent elems call
    obtain ⟨t, htag, hread⟩ := readXMLTag_tag h.1
    obtain ⟨b', hbuild, hb'⟩ := build_pending h.1 hb
    have hend : ∀ c ∈ XMLCall.lineEnd indent, isXMLSpace c = true := fun c hc => by
      rw [hline c hc]
      decide
    have hfront : ∀ c ∈ w ++ call.indentation indent elems, isXMLSpace c = true := by
      intro c hc
      rcases List.mem_append.mp hc with hc | hc
      · exact hw c hc
      · rw [hspace c hc]
        decide
    obtain ⟨items, hitems, hfold⟩ := ih h.2 (Nat.lt_of_succ_lt_succ hn) hend hb'
    have hall : ∀ c ∈ w ++ call.indentation indent elems, decide (c ≠ '<'.toUInt8) = true :=
      fun c hc => hother c (hfront c hc)
    refine ⟨.text (w ++ call.indentation indent elems) :: call.item elems :: items, ?_, ?_⟩
    · have hdrop : (w ++ call.indentation indent elems ++ '<'.toUInt8 :: (t ++ (XMLCall.lineEnd indent ++
          XMLCall.readableLines indent (call.pending elems) calls))).dropWhile (· ≠ '<'.toUInt8) =
          '<'.toUInt8 :: (t ++ (XMLCall.lineEnd indent ++
            XMLCall.readableLines indent (call.pending elems) calls)) := by
        rw [List.dropWhile_append_of_pos hall, List.dropWhile_cons_of_neg (by decide)]
      have htake : (w ++ call.indentation indent elems ++ '<'.toUInt8 :: (t ++ (XMLCall.lineEnd indent ++
          XMLCall.readableLines indent (call.pending elems) calls))).takeWhile (· ≠ '<'.toUInt8) =
          w ++ call.indentation indent elems := by
        rw [List.takeWhile_append_of_pos hall, List.takeWhile_cons_of_neg (by decide), List.append_nil]
      rw [XMLCall.readableLines, htag, ← List.append_assoc, List.cons_append, readXMLItems, hdrop, htake]
      dsimp only
      rw [hread, Option.bind_eq_bind, Option.bind_some]
      dsimp only
      rw [hitems]
      rfl
    · rw [List.foldlM_cons, readItem_space hfront, Option.bind_eq_bind, Option.bind_some,
        List.foldlM_cons, readItem_item h.1 hb, hbuild, Option.bind_eq_bind, Option.bind_some, hfold,
        List.map_cons, List.foldlM_cons, hbuild, Option.bind_eq_bind, Option.bind_some]

/-! ### Documents -/

/-- There are at least as many characters as calls. -/
theorem length_le_readableLines (indent : Bool) (elems : List Str) (calls : List XMLCall) :
    calls.length ≤ (XMLCall.readableLines indent elems calls).length := by
  induction calls generalizing elems with
  | nil => exact Nat.zero_le _
  | cons call calls ih =>
    have htag : (call.tag elems).length ≠ 0 := fun hlength => by
      have hlast := getLast?_tag elems call
      rw [List.length_eq_zero_iff.mp hlength] at hlast
      cases hlast
    have hrest := ih (call.pending elems)
    simp only [XMLCall.readableLines, List.length_append, List.length_map, List.length_cons]
    omega

/-- The document of calls is read as the elements that the calls make when the tabs and carriage returns
in their values are spaces. -/
theorem parseXML_lines (h : FitsAll [] calls) :
    parseXML (str "<?xml version='1.0' encoding='utf-8'?>\n" ++ XMLCall.lines indent [] calls) =
      ((calls.map XMLCall.flatten).foldlM XMLCall.build ⟨[], []⟩).bind XMLBuilder.root := by
  have hbytes : (str "<?xml version='1.0' encoding='utf-8'?>\n" ++
      XMLCall.lines indent [] calls).all isXMLByte = true := by
    have hdecl : (str "<?xml version='1.0' encoding='utf-8'?>\n").all isXMLByte = true := by
      decide
    rw [List.all_append, hdecl, Bool.true_and]
    exact List.all_eq_true.mpr (lines_bytes h)
  have hbreaks : normalizeBreaks 13 10 (str "<?xml version='1.0' encoding='utf-8'?>\n" ++
      XMLCall.lines indent [] calls) = str "<?xml version='1.0' encoding='utf-8'?>\n" ++
        XMLCall.readableLines indent [] calls := by
    have hdecl : normalizeBreaks 13 10 (str "<?xml version='1.0' encoding='utf-8'?>\n") =
        str "<?xml version='1.0' encoding='utf-8'?>\n" := by
      decide
    rw [normalizeBreaks_append, hdecl, normalizeBreaks_lines h]
    exact fun hcut => absurd hcut.1 (by decide)
  have hdecl : readXMLDecl (str "<?xml version='1.0' encoding='utf-8'?>\n" ++
      XMLCall.readableLines indent [] calls) = some (str "\n" ++
        XMLCall.readableLines indent [] calls) := by
    have hattrs : readXMLAttrs ((str " version='1.0' encoding='utf-8'").length + 1)
        (str " version='1.0' encoding='utf-8'" ++ str ">") =
          some ([(str "version", str "1.0"), (str "encoding", str "utf-8")], false, []) := by
      decide
    have hbegin : (str "<?xml version='1.0' encoding='utf-8'?>\n" ++
        XMLCall.readableLines indent [] calls).take 6 = str "<?xml " := rfl
    have hsplit : splitXMLDecl ((str "<?xml version='1.0' encoding='utf-8'?>\n" ++
        XMLCall.readableLines indent [] calls).drop 5) =
          some (str " version='1.0' encoding='utf-8'",
            str "\n" ++ XMLCall.readableLines indent [] calls) := rfl
    have hvalid : isXMLDecl [(str "version", str "1.0"), (str "encoding", str "utf-8")] = true := by
      decide
    rw [readXMLDecl, if_pos hbegin, hsplit, Option.bind_eq_bind, Option.bind_some]
    dsimp only
    rw [hattrs, Option.bind_eq_bind, Option.bind_some]
    dsimp only
    rw [if_pos ⟨rfl, rfl, hvalid⟩]
  have hspace : ∀ c ∈ str "\n", isXMLSpace c = true := by decide +kernel
  have hlength : calls.length < (str "\n" ++ XMLCall.readableLines indent [] calls).length + 1 := by
    have hle := length_le_readableLines indent [] calls
    rw [List.length_append]
    omega
  obtain ⟨items, hitems, hfold⟩ : ∃ items, readXMLItems
      ((str "\n" ++ XMLCall.readableLines indent [] calls).length + 1)
      (str "\n" ++ XMLCall.readableLines indent [] calls) = some items ∧
        items.foldlM XMLBuilder.readItem ⟨[], []⟩ =
          (calls.map XMLCall.flatten).foldlM XMLCall.build ⟨[], []⟩ :=
    readXMLItems_lines h hlength hspace rfl
  rw [parseXML, if_pos hbytes, hbreaks, hdecl, Option.bind_eq_bind, Option.bind_some, hitems,
    Option.bind_eq_bind, Option.bind_some, hfold]
  rfl

end

/-! ### Tabs and carriage returns -/

/-- The number of tabs and carriage returns in values of attributes. -/
def attrsWeight (attrs : XMLAttrs) : ℕ :=
  (attrs.entries.map fun a => a.2.countP fun c => c = 9 || c = 13).sum

mutual

/-- The number of tabs and carriage returns in the values in an element. -/
def XMLElement.weight : XMLElement → ℕ
  | .node _ attrs children => attrsWeight attrs + weights children

/-- The number of tabs and carriage returns in the values in elements. -/
def weights : List XMLElement → ℕ
  | [] => 0
  | e :: es => e.weight + weights es

end

/-- The number of tabs and carriage returns in the values that have been read. -/
def XMLBuilder.weight (b : XMLBuilder) : ℕ :=
  (b.stack.map fun f => attrsWeight f.2.1 + weights f.2.2).sum + weights b.roots

section

variable {b b' : XMLBuilder} {call : XMLCall} {calls : List XMLCall} {attrs : XMLAttrs}

/-- The weight of two lists of elements is the sum. -/
theorem weights_append (es fs : List XMLElement) : weights (es ++ fs) = weights es + weights fs := by
  induction es with
  | nil => rw [List.nil_append, weights, Nat.zero_add]
  | cons e es ih => rw [List.cons_append, weights, weights, ih, Nat.add_assoc]

/-- The order of elements does not matter for their weight. -/
theorem weights_reverse (es : List XMLElement) : weights es.reverse = weights es := by
  induction es with
  | nil => rfl
  | cons e es ih =>
    rw [List.reverse_cons, weights_append, ih, weights, weights, weights, Nat.add_zero, Nat.add_comm]

/-- Adding an element adds its weight. -/
theorem weight_add (b : XMLBuilder) (e : XMLElement) : (b.add e).weight = b.weight + e.weight := by
  obtain ⟨stack, roots⟩ := b
  cases stack with
  | nil =>
    simp only [XMLBuilder.add, XMLBuilder.weight, weights]
    omega
  | cons f stack =>
    obtain ⟨name, attrs, children⟩ := f
    simp only [XMLBuilder.add, XMLBuilder.weight, List.map_cons, List.sum_cons, weights]
    omega

/-- A call adds the tabs and carriage returns of its own attributes. -/
theorem weight_build (h : call.build b = some b') : b'.weight = b.weight + attrsWeight call.attrs := by
  have hnil : weights [] = 0 := rfl
  cases call with
  | openElement name attrs =>
    cases h
    simp only [XMLBuilder.start, XMLBuilder.weight, List.map_cons, List.sum_cons, XMLCall.attrs, hnil]
    omega
  | closeElement =>
    obtain ⟨stack, roots⟩ := b
    cases stack with
    | nil => cases h
    | cons f stack =>
      obtain ⟨name, attrs, children⟩ := f
      cases h
      have hnone : attrsWeight XMLCall.closeElement.attrs = 0 := rfl
      rw [weight_add, hnone]
      simp only [XMLBuilder.weight, XMLElement.weight, weights_reverse, List.map_cons, List.sum_cons]
      omega
  | writeEmptyElement name attrs =>
    cases h
    rw [weight_add, XMLElement.weight, hnil]
    rfl

/-- A run of calls adds the weights of their attributes. -/
theorem weight_run (h : calls.foldlM XMLCall.build b = some b') :
    b'.weight = b.weight + (calls.map fun call => attrsWeight call.attrs).sum := by
  induction calls generalizing b with
  | nil =>
    cases h
    rfl
  | cons call calls ih =>
    rw [List.foldlM_cons] at h
    obtain ⟨b₁, hcall, hrun⟩ := Option.bind_eq_some_iff.mp h
    rw [ih hrun, weight_build hcall, List.map_cons, List.sum_cons, Nat.add_assoc]

/-- Attributes without weight have no tab and no carriage return. -/
theorem attrsWeight_eq_zero_iff :
    attrsWeight attrs = 0 ↔ ∀ a ∈ attrs.entries, ∀ c ∈ a.2, c ≠ 9 ∧ c ≠ 13 := by
  simp only [attrsWeight, List.sum_eq_zero_iff, List.forall_mem_map, List.countP_eq_zero,
    Bool.or_eq_true, decide_eq_true_eq, not_or, ne_eq]

/-- Nothing is left of the tabs and carriage returns. -/
theorem attrsWeight_flattenAttrs (attrs : XMLAttrs) : attrsWeight (flattenAttrs attrs) = 0 := by
  have hbyte : ∀ c, flattenByte c ≠ 9 ∧ flattenByte c ≠ 13 := by decide +kernel
  refine attrsWeight_eq_zero_iff.mpr ?_
  intro a ha c hc
  rw [← entries_flattenAttrs] at ha
  obtain ⟨e, -, rfl⟩ := List.mem_map.mp ha
  obtain ⟨d, -, rfl⟩ := List.mem_map.mp hc
  exact hbyte d

/-- Attributes without weight stay as they are. -/
theorem flattenAttrs_eq_self (h : attrsWeight attrs = 0) : flattenAttrs attrs = attrs := by
  have hzero := attrsWeight_eq_zero_iff.mp h
  have hentries : (flattenAttrs attrs).entries = attrs.entries := by
    rw [← entries_flattenAttrs]
    refine (List.map_congr_left fun a ha => ?_).trans (List.map_id _)
    have hvalue : flatten a.2 = a.2 := by
      refine (List.map_congr_left fun c hc => ?_).trans (List.map_id _)
      obtain ⟨htab, hcr⟩ := hzero a ha c hc
      exact if_neg (not_or.mpr ⟨htab, hcr⟩)
    rw [hvalue]
    rfl
  exact SortedMap.ext_entries fun e => by rw [hentries]

/-- Flattened calls have no weight. -/
theorem weight_flatten (calls : List XMLCall) :
    ((calls.map XMLCall.flatten).map fun call => attrsWeight call.attrs).sum = 0 := by
  rw [List.sum_eq_zero_iff]
  intro n hn
  obtain ⟨call', hcall', rfl⟩ := List.mem_map.mp hn
  obtain ⟨call, -, rfl⟩ := List.mem_map.mp hcall'
  cases call with
  | openElement name attrs => exact attrsWeight_flattenAttrs attrs
  | closeElement => rfl
  | writeEmptyElement name attrs => exact attrsWeight_flattenAttrs attrs

/-- A call without weight stays as it is. -/
theorem flatten_eq_self (h : attrsWeight call.attrs = 0) : call.flatten = call := by
  cases call with
  | openElement name attrs => exact congrArg _ (flattenAttrs_eq_self h)
  | closeElement => rfl
  | writeEmptyElement name attrs => exact congrArg _ (flattenAttrs_eq_self h)

/-- The document of calls with one element. -/
theorem weight_of_root {e : XMLElement} (h : b.root = some e) : b.weight = e.weight := by
  obtain ⟨stack, roots⟩ := b
  rw [XMLBuilder.root] at h
  split at h
  next e' hstack hroots =>
    cases h
    dsimp only at hstack hroots
    rw [XMLBuilder.weight, hstack, hroots]
    simp only [List.map_nil, List.sum_nil, weights]
    omega
  next => cases h

/-! ### Elements at top level -/

/-- Adding an element outside all others makes a root. -/
theorem length_add (b : XMLBuilder) (e : XMLElement) :
    (b.add e).stack.length = b.stack.length ∧
      (b.add e).roots.length = b.roots.length + if b.stack.length = 0 then 1 else 0 := by
  obtain ⟨stack, roots⟩ := b
  cases stack with
  | nil => exact ⟨rfl, rfl⟩
  | cons f stack => exact ⟨rfl, rfl⟩

/-- Balanced calls make their top elements, and the one that is still open. -/
theorem build_balanced (h : XMLCall.Balanced b.stack.length calls) :
    ∃ b', calls.foldlM XMLCall.build b = some b' ∧ b'.stack = [] ∧
      b'.roots.length = b.roots.length + (if b.stack.length = 0 then 0 else 1) +
        XMLCall.topElements b.stack.length calls := by
  induction calls generalizing b with
  | nil =>
    have hlength : b.stack.length = 0 := h
    refine ⟨b, rfl, List.length_eq_zero_iff.mp hlength, ?_⟩
    rw [if_pos hlength]
    rfl
  | cons call calls ih =>
    cases call with
    | openElement name attrs =>
      obtain ⟨b', hrun, hstack, hroots⟩ := ih (b := b.start name attrs) h
      refine ⟨b', hrun, hstack, ?_⟩
      simp only [XMLBuilder.start, List.length_cons, Nat.succ_ne_zero, if_false] at hroots
      rw [hroots, XMLCall.topElements]
      split_ifs <;> omega
    | closeElement =>
      obtain ⟨stack, roots⟩ := b
      cases stack with
      | nil => exact h.elim
      | cons f stack =>
        obtain ⟨hlength, hcount⟩ := length_add ⟨stack, roots⟩ (.node f.1 f.2.1 f.2.2.reverse)
        obtain ⟨b', hrun, hstack, hroots⟩ :=
          ih (b := XMLBuilder.add ⟨stack, roots⟩ (.node f.1 f.2.1 f.2.2.reverse)) (by
            rw [hlength]
            exact h)
        refine ⟨b', hrun, hstack, ?_⟩
        rw [hlength, hcount] at hroots
        simp only [List.length_cons, XMLCall.topElements, Nat.add_sub_cancel, Nat.succ_ne_zero,
          if_false] at hroots ⊢
        rw [hroots]
        split_ifs <;> omega
    | writeEmptyElement name attrs =>
      obtain ⟨hlength, hcount⟩ := length_add b (.node name attrs [])
      obtain ⟨b', hrun, hstack, hroots⟩ := ih (b := b.add (.node name attrs [])) (by
        rw [hlength]
        exact h)
      refine ⟨b', hrun, hstack, ?_⟩
      rw [hroots, hlength, hcount, XMLCall.topElements]
      split_ifs <;> omega

/-- Without another top element there is nothing left to call. -/
theorem eq_nil_of_topElements (h : XMLCall.Balanced 0 calls) (htop : XMLCall.topElements 0 calls = 0) :
    calls = [] := by
  cases calls with
  | nil => rfl
  | cons call calls =>
    cases call with
    | openElement name attrs =>
      rw [XMLCall.topElements, if_pos rfl] at htop
      omega
    | closeElement => exact h.elim
    | writeEmptyElement name attrs =>
      rw [XMLCall.topElements, if_pos rfl] at htop
      omega

/-- Balanced calls with at most one top element violate no assertion. -/
theorem exists_run_of_topElements {st : XMLDocument}
    (h : XMLCall.Balanced st.doc.pendingElems.length calls) (hclosed : st.closed = true → calls = [])
    (htop : (if st.doc.pendingElems.length = 0 then 0 else 1) +
      XMLCall.topElements st.doc.pendingElems.length calls ≤ 1) :
    ∃ st', calls.foldlM XMLDocument.step st = some st' := by
  induction calls generalizing st with
  | nil => exact ⟨st, rfl⟩
  | cons call calls ih =>
    have hopen : st.closed = false := by
      cases hst : st.closed with
      | false => rfl
      | true => cases hclosed hst
    have hnever : ∀ {c : XMLDocument}, c.closed = st.closed → c.closed = true → calls = [] :=
      fun heq hc => absurd (hopen.symm.trans (heq.symm.trans hc)) Bool.false_ne_true
    cases call with
    | openElement name attrs =>
      have hstep : st.step (.openElement name attrs) =
          some { st with doc := st.doc.openElement name attrs } := if_neg (by simp [hopen])
      rw [List.foldlM_cons, hstep, Option.bind_eq_bind, Option.bind_some]
      refine ih h (hnever rfl) ?_
      have hlength : (st.doc.openElement name attrs).pendingElems.length =
          st.doc.pendingElems.length + 1 := rfl
      rw [XMLCall.topElements] at htop
      simp only [hlength, Nat.succ_ne_zero, if_false]
      split_ifs at htop <;> omega
    | closeElement =>
      obtain ⟨⟨output, elems, indent⟩, closed⟩ := st
      cases elems with
      | nil => exact h.elim
      | cons name elems =>
        dsimp only at hopen htop h
        have hstep : XMLDocument.step ⟨⟨output, name :: elems, indent⟩, closed⟩ .closeElement = some
            ⟨XMLWriter.closeElement ⟨output, name :: elems, indent⟩, closed || decide (elems = [])⟩ := rfl
        have hlength : (XMLWriter.closeElement ⟨output, name :: elems, indent⟩).pendingElems.length =
            elems.length := rfl
        simp only [XMLCall.topElements, List.length_cons, Nat.succ_ne_zero, if_false,
          Nat.add_sub_cancel] at htop
        rw [List.foldlM_cons, hstep, Option.bind_eq_bind, Option.bind_some]
        refine ih h ?_ ?_
        · -- the last element is closed, so no call may follow
          intro hlast
          simp only [hopen, Bool.false_or, decide_eq_true_eq] at hlast
          rw [hlast] at h htop
          refine eq_nil_of_topElements h ?_
          rw [List.length_nil] at htop
          omega
        · rw [hlength]
          split_ifs <;> omega
    | writeEmptyElement name attrs =>
      have hstep : st.step (.writeEmptyElement name attrs) =
          some { st with doc := st.doc.writeEmptyElement name attrs } := if_neg (by simp [hopen])
      have hlength : (st.doc.writeEmptyElement name attrs).pendingElems.length =
          st.doc.pendingElems.length := rfl
      rw [XMLCall.topElements] at htop
      rw [List.foldlM_cons, hstep, Option.bind_eq_bind, Option.bind_some]
      refine ih h (hnever rfl) ?_
      dsimp only
      rw [hlength]
      split_ifs at htop ⊢ <;> omega

end

/-! ### Round trips -/

/-- The calls make one element, what they write is a document, and its element is the one that they
made. -/
def XMLRoundTrips (indent : Bool) (calls : List XMLCall) : Prop :=
  ∃ text e, writeXML indent calls = some text ∧ XMLCall.elements calls = some [e] ∧
    parseXML text = some e

section

variable {calls : List XMLCall} {indent : Bool}

/-- Balanced calls fit from the start. -/
theorem fitsAll_nil (hbalanced : XMLCall.Balanced 0 calls)
    (hcalls : ∀ call ∈ calls, call.WellFormed) : FitsAll [] calls :=
  fitsAll_of_balanced hbalanced hcalls fun _ hname => absurd hname List.not_mem_nil

/-- No tab and no carriage return is read back. -/
theorem XMLRoundTrips.weight_eq_zero (h : XMLRoundTrips indent calls)
    (hbalanced : XMLCall.Balanced 0 calls) (hcalls : ∀ call ∈ calls, call.WellFormed) :
    XMLCall.topElements 0 calls = 1 ∧ ∀ call ∈ calls, attrsWeight call.attrs = 0 := by
  obtain ⟨text, e, hwrite, helements, hparse⟩ := h
  obtain ⟨b, hrun, hstack, hroots⟩ := build_balanced (b := ⟨[], []⟩) hbalanced
  rw [XMLCall.elements, hrun, Option.map_some, Option.some.injEq, List.reverse_eq_iff] at helements
  have hroot : b.root = some e := by
    rw [XMLBuilder.root, hstack, helements]
    rfl
  rw [writeXML_eq hwrite, parseXML_lines (fitsAll_nil hbalanced hcalls)] at hparse
  obtain ⟨b', hrun', hroot'⟩ := Option.bind_eq_some_iff.mp hparse
  have hnew : XMLBuilder.weight ⟨[], []⟩ = 0 := rfl
  have hzero : b.weight = 0 := by
    rw [weight_of_root hroot, ← weight_of_root hroot', weight_run hrun', weight_flatten, hnew]
  rw [weight_run hrun, hnew, Nat.zero_add, List.sum_eq_zero_iff] at hzero
  constructor
  · rw [helements] at hroots
    simpa using hroots.symm
  · exact fun call hcall => hzero _ (List.mem_map_of_mem hcall)

end

/-- Balanced calls with proper names and characters are read back as they were made if and only if they
make one top element and no value has a tab or a carriage return in it. -/
theorem xmlRoundTrips_iff (indent : Bool) (calls : List XMLCall)
    (hbalanced : XMLCall.Balanced 0 calls) (hcalls : ∀ call ∈ calls, call.WellFormed) :
    XMLRoundTrips indent calls ↔ XMLCall.topElements 0 calls = 1 ∧
      ∀ call ∈ calls, ∀ a ∈ call.attrs.entries, ∀ c ∈ a.2, c ≠ 9 ∧ c ≠ 13 := by
  constructor
  · intro h
    obtain ⟨htop, hzero⟩ := h.weight_eq_zero hbalanced hcalls
    exact ⟨htop, fun call hcall => attrsWeight_eq_zero_iff.mp (hzero call hcall)⟩
  · rintro ⟨htop, hplain⟩
    obtain ⟨b, hrun, hstack, hroots⟩ := build_balanced (b := ⟨[], []⟩) hbalanced
    have hclosed : (⟨.new indent, false⟩ : XMLDocument).closed = true → calls = [] :=
      fun h => absurd h Bool.false_ne_true
    have hbound : (if ([] : List Str).length = 0 then 0 else 1) + XMLCall.topElements 0 calls ≤ 1 := by
      rw [if_pos List.length_nil, htop]
    obtain ⟨st, hst⟩ : ∃ st, calls.foldlM XMLDocument.step ⟨.new indent, false⟩ = some st :=
      exists_run_of_topElements hbalanced hclosed hbound
    have hwrite : writeXML indent calls = some st.doc.output := by
      rw [writeXML, hst]
      rfl
    have hsame : calls.map XMLCall.flatten = calls :=
      (List.map_congr_left fun call hcall => flatten_eq_self
        (attrsWeight_eq_zero_iff.mpr (hplain call hcall))).trans (List.map_id _)
    have hone : b.roots.length = 1 := by
      rw [hroots]
      simpa using htop
    obtain ⟨e, he⟩ := List.length_eq_one_iff.mp hone
    refine ⟨st.doc.output, e, hwrite, ?_, ?_⟩
    · rw [XMLCall.elements, hrun, Option.map_some, he]
      rfl
    · rw [writeXML_eq hwrite, parseXML_lines (fitsAll_nil hbalanced hcalls), hsame, hrun,
        Option.bind_some, XMLBuilder.root, hstack, he]

/-- How a string with the given text is shown. -/
def stringCalls (s : Str) : List XMLCall :=
  [.openElement (str "expr") ∅, .writeEmptyElement (str "string") (singletonAttrs (str "value") s),
    .closeElement]

/-- The calls for a string are well formed. -/
theorem stringCalls_wellFormed {s : Str} (hs : ∀ c ∈ s, isXMLByte c = true) :
    ∀ call ∈ stringCalls s, call.WellFormed := by
  have hvalue : ∀ a ∈ (singletonAttrs (str "value") s).entries,
      isXMLName a.1 = true ∧ ∀ c ∈ a.2, isXMLByte c = true := by
    intro a ha
    obtain rfl : a = (str "value", s) := List.mem_singleton.mp ha
    have hname : isXMLName (str "value") = true := by decide
    exact ⟨hname, hs⟩
  have hnone : ∀ a ∈ (∅ : XMLAttrs).entries, isXMLName a.1 = true ∧ ∀ c ∈ a.2, isXMLByte c = true :=
    fun a ha => absurd ha List.not_mem_nil
  intro call hcall
  simp only [stringCalls, List.mem_cons, List.not_mem_nil, or_false] at hcall
  rcases hcall with rfl | rfl | rfl
  · refine ⟨?_, hnone⟩
    rintro name attrs (h | h)
    · cases h
      decide
    · cases h
  · refine ⟨?_, hvalue⟩
    rintro name attrs (h | h)
    · cases h
    · cases h
      decide
  · refine ⟨?_, hnone⟩
    rintro name attrs (h | h)
    · cases h
    · cases h

/-- A line feed in a string is read back. -/
theorem xmlRoundTrips_lineFeed : XMLRoundTrips true (stringCalls (str "a\nb")) := by
  have hbalanced : XMLCall.Balanced 0 (stringCalls (str "a\nb")) := rfl
  have hcalls : ∀ call ∈ stringCalls (str "a\nb"), call.WellFormed :=
    stringCalls_wellFormed (by decide +kernel)
  exact (xmlRoundTrips_iff true _ hbalanced hcalls).mpr ⟨rfl, by decide +kernel⟩

/-- A tab in a string is not read back. -/
theorem not_xmlRoundTrips_tab : XMLCall.Balanced 0 (stringCalls (str "a\tb")) ∧
    (∀ call ∈ stringCalls (str "a\tb"), call.WellFormed) ∧
    ¬ XMLRoundTrips true (stringCalls (str "a\tb")) := by
  have hbalanced : XMLCall.Balanced 0 (stringCalls (str "a\tb")) := rfl
  have hcalls : ∀ call ∈ stringCalls (str "a\tb"), call.WellFormed :=
    stringCalls_wellFormed (by decide +kernel)
  refine ⟨hbalanced, hcalls, fun h => ?_⟩
  have hzero := (h.weight_eq_zero hbalanced hcalls).2 (.writeEmptyElement (str "string")
    (singletonAttrs (str "value") (str "a\tb"))) (List.mem_cons_of_mem _ List.mem_cons_self)
  exact absurd hzero (by decide)

end Nix
