import NixStore.Expr.ValueToXml
import NixStore.Lib.XmlReader

/-!
# The text of XML documents

What the calls of an `XMLWriter` write, and what a reader makes of each tag.  Line breaks in attribute
values are written as references, but tabs and carriage returns are not, and a reader takes them for
spaces.
-/

namespace Nix

/-! ### Calls -/

/-- The calls of an `XMLWriter`. -/
inductive XMLCall where
  | openElement (name : Str) (attrs : XMLAttrs)
  | closeElement
  | writeEmptyElement (name : Str) (attrs : XMLAttrs)

/-- An `XMLWriter` with its field `closed`. -/
structure XMLDocument where
  doc : XMLWriter
  closed : Bool

/-- A call; an assertion can fail. -/
def XMLDocument.step (st : XMLDocument) : XMLCall → Option XMLDocument
  | .openElement name attrs =>
    if st.closed then none else some { st with doc := st.doc.openElement name attrs }
  | .closeElement =>
    if st.doc.pendingElems = [] then none
    else some ⟨st.doc.closeElement, st.closed || st.doc.closeElement.pendingElems = []⟩
  | .writeEmptyElement name attrs =>
    if st.closed then none else some { st with doc := st.doc.writeEmptyElement name attrs }

/-- What the calls write, if no assertion fails. -/
def writeXML (indent : Bool) (calls : List XMLCall) : Option Str :=
  (calls.foldlM XMLDocument.step ⟨.new indent, false⟩).map fun st => st.doc.output

namespace XMLCall

/-- Each element that is opened, is closed; the first argument is the number of open elements. -/
def Balanced : ℕ → List XMLCall → Prop
  | depth, [] => depth = 0
  | depth, .openElement _ _ :: calls => Balanced (depth + 1) calls
  | depth, .writeEmptyElement _ _ :: calls => Balanced depth calls
  | 0, .closeElement :: _ => False
  | depth + 1, .closeElement :: calls => Balanced depth calls

/-- The number of elements that are in no other element. -/
def topElements : ℕ → List XMLCall → ℕ
  | _, [] => 0
  | depth, .openElement _ _ :: calls =>
    (if depth = 0 then 1 else 0) + topElements (depth + 1) calls
  | depth, .writeEmptyElement _ _ :: calls => (if depth = 0 then 1 else 0) + topElements depth calls
  | depth, .closeElement :: calls => topElements (depth - 1) calls

/-- The element that a call begins or ends. -/
def build (b : XMLBuilder) : XMLCall → Option XMLBuilder
  | .openElement name attrs => some (b.start name attrs)
  | .closeElement => b.finish
  | .writeEmptyElement name attrs => some (b.add (.node name attrs []))

/-- The elements that the calls write. -/
def elements (calls : List XMLCall) : Option (List XMLElement) :=
  (calls.foldlM build ⟨[], []⟩).map fun b => b.roots.reverse

/-- The attributes in a call. -/
def attrs : XMLCall → XMLAttrs
  | .openElement _ attrs => attrs
  | .closeElement => ∅
  | .writeEmptyElement _ attrs => attrs

/-- The names in a call are XML names, and the values of its attributes consist of characters that
documents may have. -/
structure WellFormed (call : XMLCall) : Prop where
  name : ∀ name attrs, call = .openElement name attrs ∨ call = .writeEmptyElement name attrs →
    isXMLName name = true
  attrs : ∀ a ∈ call.attrs.entries, isXMLName a.1 = true ∧ ∀ c ∈ a.2, isXMLByte c = true

/-- The open elements after a call. -/
def pending (elems : List Str) : XMLCall → List Str
  | .openElement name _ => name :: elems
  | .closeElement => elems.tail
  | .writeEmptyElement _ _ => elems

/-- The tag that a call writes. -/
def tag (elems : List Str) : XMLCall → Str
  | .openElement name attrs => str "<" ++ name ++ writeAttrs attrs ++ str ">"
  | .closeElement => str "</" ++ elems.headD [] ++ str ">"
  | .writeEmptyElement name attrs => str "<" ++ name ++ writeAttrs attrs ++ str " />"

/-- The depth at which a call writes its tag. -/
def depth (elems : List Str) : XMLCall → ℕ
  | .closeElement => elems.length - 1
  | _ => elems.length

/-- What a call writes. -/
def line (indent : Bool) (elems : List Str) (call : XMLCall) : Str :=
  (if indent then List.replicate (call.depth elems * 2) ' '.toUInt8 else []) ++ call.tag elems ++
    if indent then str "\n" else []

/-- What calls write. -/
def lines (indent : Bool) : List Str → List XMLCall → Str
  | _, [] => []
  | elems, call :: calls => call.line indent elems ++ lines indent (call.pending elems) calls

end XMLCall

section

variable {call : XMLCall} {calls : List XMLCall} {st st' : XMLDocument} {indent : Bool}

/-- A step writes one line and changes the open elements. -/
theorem XMLDocument.step_output (h : st.step call = some st') :
    st'.doc.output = st.doc.output ++ call.line st.doc.indent st.doc.pendingElems ∧
      st'.doc.pendingElems = call.pending st.doc.pendingElems ∧ st'.doc.indent = st.doc.indent := by
  cases call with
  | openElement name attrs =>
    rw [step] at h
    split_ifs at h
    cases h
    exact ⟨rfl, rfl, rfl⟩
  | closeElement =>
    rw [step] at h
    split_ifs at h
    cases h
    exact ⟨rfl, rfl, rfl⟩
  | writeEmptyElement name attrs =>
    rw [step] at h
    split_ifs at h
    cases h
    exact ⟨rfl, rfl, rfl⟩

/-- A run writes its lines. -/
theorem XMLDocument.run_output (h : calls.foldlM XMLDocument.step st = some st') :
    st'.doc.output = st.doc.output ++ XMLCall.lines st.doc.indent st.doc.pendingElems calls := by
  induction calls generalizing st with
  | nil =>
    cases h
    exact (List.append_nil _).symm
  | cons call calls ih =>
    rw [List.foldlM_cons] at h
    obtain ⟨st₁, hstep, hrun⟩ := Option.bind_eq_some_iff.mp h
    obtain ⟨houtput, hpending, hindent⟩ := step_output hstep
    rw [ih hrun, houtput, hpending, hindent, List.append_assoc, XMLCall.lines]

/-- The text that is written: the declaration and the lines. -/
theorem writeXML_eq (h : writeXML indent calls = some text) : text =
    str "<?xml version='1.0' encoding='utf-8'?>\n" ++ XMLCall.lines indent [] calls := by
  obtain ⟨st, hrun, rfl⟩ := Option.map_eq_some_iff.mp h
  exact XMLDocument.run_output hrun

end

/-! ### Bytes -/

/-- What is left of a byte of a value: tabs and carriage returns become spaces. -/
def flattenByte (c : UInt8) : UInt8 := if c = 9 ∨ c = 13 then 32 else c

/-- A value after it has been written and read. -/
def flatten (v : Str) : Str := v.map flattenByte

/-- Attributes after they have been written and read. -/
def flattenAttrs (attrs : XMLAttrs) : XMLAttrs := attrs.mapVal fun _ v => flatten v

/-- A line feed for a carriage return. -/
def endLine (c : UInt8) : UInt8 := if c = 13 then 10 else c

/-- A byte of a name is no space and no sign of the markup. -/
theorem nameByte_spec {c : UInt8} (h : isXMLNameByte c = true) :
    isXMLSpace c = false ∧ c ≠ '<'.toUInt8 ∧ c ≠ '>'.toUInt8 ∧ c ≠ '/'.toUInt8 ∧ c ≠ '='.toUInt8 ∧
      c ≠ 10 ∧ c ≠ 13 ∧ isXMLByte c = true := by
  revert h
  revert c
  decide +kernel

/-- An escaped character has no line break and no quotation mark. -/
theorem escape_spec (c : UInt8) : ∀ d ∈ escapeAttrChar c,
    d ≠ 10 ∧ d ≠ '"'.toUInt8 ∧ (isXMLByte c = true → isXMLByte d = true) := by
  have hreference : ∀ t ∈ [str "&quot;", str "&lt;", str "&gt;", str "&amp;", str "&#xA;"],
      ∀ d ∈ t, d ≠ 10 ∧ d ≠ '"'.toUInt8 ∧ isXMLByte d = true := by
    decide +kernel
  have hall : ∀ {t : Str}, t ∈ [str "&quot;", str "&lt;", str "&gt;", str "&amp;", str "&#xA;"] →
      ∀ d ∈ t, d ≠ 10 ∧ d ≠ '"'.toUInt8 ∧ (isXMLByte c = true → isXMLByte d = true) := by
    intro t ht d hd
    obtain ⟨hlf, hquote, hbyte⟩ := hreference t ht d hd
    exact ⟨hlf, hquote, fun _ => hbyte⟩
  rw [escapeAttrChar]
  split_ifs with hquote hlt hgt hamp hlf
  · exact hall (by simp)
  · exact hall (by simp)
  · exact hall (by simp)
  · exact hall (by simp)
  · exact hall (by simp)
  · intro d hd
    rw [List.mem_singleton.mp hd]
    exact ⟨hlf, hquote, fun hbyte => hbyte⟩

/-- Without line feeds, normalising breaks goes character by character. -/
theorem normalizeBreaks_of_notMem {s : Str} (h : 10 ∉ s) :
    normalizeBreaks 13 10 s = s.map endLine := by
  induction s with
  | nil => rfl
  | cons c s ih =>
    rw [List.mem_cons, not_or] at h
    rw [List.map_cons, endLine]
    split_ifs with hc
    · have hhead : s.head? ≠ some 10 := fun hhead => h.2 (List.mem_of_mem_head? hhead)
      rw [hc, normalizeBreaks_cr hhead, ih h.2]
    · rw [normalizeBreaks_cons hc, ih h.2]

/-- Without carriage returns nothing is normalised. -/
theorem map_endLine_eq_self {s : Str} (h : ∀ c ∈ s, c ≠ 13) : s.map endLine = s := by
  refine (List.map_congr_left fun c hc => ?_).trans (List.map_id s)
  exact if_neg (h c hc)

/-! ### Values -/

section

variable {v rest : Str}

/-- A reference is replaced by what it stands for. -/
theorem attrValue_reference {ref acc : Str} (h : ';'.toUInt8 ∉ ref) (s : Str) :
    attrValue (some acc) (ref ++ ';'.toUInt8 :: s) = (xmlReference (acc.reverse ++ ref)).bind fun r =>
      (attrValue none s).map fun v => r ++ v := by
  induction ref generalizing acc with
  | nil =>
    rw [List.nil_append, attrValue, if_pos rfl, List.append_nil]
    cases xmlReference acc.reverse with
    | none => rfl
    | some r => cases attrValue none s <;> rfl
  | cons c ref ih =>
    rw [List.mem_cons, not_or] at h
    rw [List.cons_append, attrValue, if_neg (Ne.symm h.1), ih h.2, List.reverse_cons,
      List.append_assoc, List.singleton_append]

/-- What a reader makes of a character of a value. -/
theorem attrValue_escapeAttrChar (c : UInt8) (s : Str) :
    attrValue none ((escapeAttrChar c).map endLine ++ s) =
      (attrValue none s).map fun v => flattenByte c :: v := by
  have href : ∀ (ref : Str) (d : UInt8), ';'.toUInt8 ∉ ref → xmlReference ref = some [d] →
      attrValue none (('&'.toUInt8 :: (ref ++ [';'.toUInt8])) ++ s) =
        (attrValue none s).map fun v => d :: v := by
    intro ref d hsemicolon hd
    have hnil : attrValue none ('&'.toUInt8 :: (ref ++ [';'.toUInt8]) ++ s) =
        attrValue (some []) (ref ++ ';'.toUInt8 :: s) := by
      rw [List.cons_append, attrValue, if_pos rfl, List.append_assoc]
      rfl
    rw [hnil, attrValue_reference hsemicolon, List.reverse_nil, List.nil_append, hd,
      Option.bind_some]
    rfl
  rw [escapeAttrChar]
  split_ifs with h1 h2 h3 h4 h5
  · rw [h1]
    exact href (str "quot") '"'.toUInt8 (by decide) (by decide)
  · rw [h2]
    exact href (str "lt") '<'.toUInt8 (by decide) (by decide)
  · rw [h3]
    exact href (str "gt") '>'.toUInt8 (by decide) (by decide)
  · rw [h4]
    exact href (str "amp") '&'.toUInt8 (by decide) (by decide)
  · rw [h5]
    exact href (str "#xA") 10 (by decide) (by decide)
  · have hplain : endLine c ≠ '&'.toUInt8 ∧ endLine c ≠ '<'.toUInt8 ∧
        (if isXMLSpace (endLine c) then 32 else endLine c) = flattenByte c := by
      clear href h1 h3
      revert h2 h4 h5
      revert c
      decide +kernel
    rw [List.map_cons, List.map_nil, List.singleton_append, attrValue, if_neg hplain.1,
      if_neg hplain.2.1, hplain.2.2]

/-- An escaped value is read back, with its breaks flattened. -/
theorem attrValue_escapeAttr (v : Str) :
    attrValue none ((escapeAttr v).map endLine) = some (flatten v) := by
  induction v with
  | nil => rfl
  | cons c v ih =>
    rw [escapeAttr, List.flatMap_cons, List.map_append, attrValue_escapeAttrChar]
    rw [escapeAttr] at ih
    rw [ih]
    rfl

/-- A quoted value is read back up to its quotation mark. -/
theorem readXMLValue_escapeAttr (v rest : Str) :
    readXMLValue (str "\"" ++ ((escapeAttr v).map endLine ++ (str "\"" ++ rest))) =
      some (flatten v, rest) := by
  have hquote : ∀ c ∈ (escapeAttr v).map endLine, c ≠ '"'.toUInt8 := by
    intro c hc
    obtain ⟨d, hd, rfl⟩ := List.mem_map.mp hc
    obtain ⟨e, -, hd⟩ := List.mem_flatMap.mp hd
    rw [endLine]
    split_ifs
    · decide
    · exact (escape_spec e d hd).2.1
  have htake : ((escapeAttr v).map endLine ++ (str "\"" ++ rest)).takeWhile (· ≠ '"'.toUInt8) =
      (escapeAttr v).map endLine := by
    rw [List.takeWhile_append_of_pos fun c hc => decide_eq_true (hquote c hc)]
    exact List.append_nil _
  have hdrop : ((escapeAttr v).map endLine ++ (str "\"" ++ rest)).dropWhile (· ≠ '"'.toUInt8) =
      str "\"" ++ rest :=
    List.dropWhile_append_of_pos fun c hc => decide_eq_true (hquote c hc)
  have hmem : '"'.toUInt8 ∈ (escapeAttr v).map endLine ++ (str "\"" ++ rest) :=
    List.mem_append_right _ List.mem_cons_self
  have hcons : str "\"" ++ ((escapeAttr v).map endLine ++ (str "\"" ++ rest)) =
      '"'.toUInt8 :: ((escapeAttr v).map endLine ++ (str "\"" ++ rest)) := rfl
  rw [hcons, readXMLValue, if_pos (Or.inl rfl), if_pos hmem, htake, hdrop, attrValue_escapeAttr]
  rfl

end

end Nix
