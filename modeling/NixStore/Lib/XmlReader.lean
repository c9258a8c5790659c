import NixStore.Lib.Decimal
import NixStore.Lib.LineBreaks
import NixStore.Lib.SortedMap

/-!
# Reading XML documents

A reader for XML 1.0 documents without a document type, comments, CDATA sections and processing
instructions: line ends are normalised first, then tags and the text between them are read, with the
references and the white space in attribute values, and at last the tags are matched.  Documents are
in UTF-8; the bytes of a character outside ASCII are not looked at.
-/

namespace Nix

/-! ### Elements -/

/-- An element with its attributes, and the elements in it. -/
inductive XMLElement where
  | node (name : Str) (attrs : SortedMap Str Str) (children : List XMLElement)

/-- The elements that have been read, in reverse, and those that are still open, from the innermost
one. -/
structure XMLBuilder where
  stack : List (Str × SortedMap Str Str × List XMLElement)
  roots : List XMLElement

namespace XMLBuilder

/-- An element in the innermost open element, or on its own. -/
def add (b : XMLBuilder) (e : XMLElement) : XMLBuilder :=
  match b.stack with
  | [] => { b with roots := e :: b.roots }
  | (name, attrs, children) :: stack => { b with stack := (name, attrs, e :: children) :: stack }

/-- The beginning of an element. -/
def start (b : XMLBuilder) (name : Str) (attrs : SortedMap Str Str) : XMLBuilder :=
  { b with stack := (name, attrs, []) :: b.stack }

/-- The end of the innermost element. -/
def finish (b : XMLBuilder) : Option XMLBuilder :=
  match b.stack with
  | [] => none
  | (name, attrs, children) :: stack =>
    some (add { b with stack := stack } (.node name attrs children.reverse))

/-- The single element that has been read. -/
def root (b : XMLBuilder) : Option XMLElement :=
  match b.stack, b.roots with
  | [], [e] => some e
  | _, _ => none

end XMLBuilder

/-! ### Characters and references -/

/-- White space. -/
def isXMLSpace (c : UInt8) : Bool := c = 32 || c = 9 || c = 10 || c = 13

/-- A byte of a character that documents may have. -/
def isXMLByte (c : UInt8) : Bool := 32 ≤ c || c = 9 || c = 10 || c = 13

/-- A byte of a character that names may begin with. -/
def isXMLNameStart (c : UInt8) : Bool :=
  (65 ≤ c && c ≤ 90) || (97 ≤ c && c ≤ 122) || c = '_'.toUInt8 || c = ':'.toUInt8 || 128 ≤ c

/-- A byte of a character that names may have. -/
def isXMLNameByte (c : UInt8) : Bool :=
  isXMLNameStart c || isDigit c || c = '-'.toUInt8 || c = '.'.toUInt8

/-- A name. -/
def isXMLName (s : Str) : Bool := (s.head?.map isXMLNameStart).getD false && s.all isXMLNameByte

/-- The value of a hexadecimal digit. -/
def hexDigit (c : UInt8) : Option ℕ :=
  if isDigit c then some (c.toNat - 48)
  else if 65 ≤ c ∧ c ≤ 70 then some (c.toNat - 55)
  else if 97 ≤ c ∧ c ≤ 102 then some (c.toNat - 87)
  else none

/-- A character by its number, if documents may have it. -/
def xmlChar (n : ℕ) : Option Str :=
  if n = 9 ∨ n = 10 ∨ n = 13 ∨ (32 ≤ n ∧ n ≤ 0xD7FF) ∨ (0xE000 ≤ n ∧ n ≤ 0xFFFD) ∨
      (0x10000 ≤ n ∧ n ≤ 0x10FFFF) then
    some (String.utf8EncodeChar (Char.ofNat n))
  else none

/-- What a reference stands for, given what is between `&` and `;`. -/
def xmlReference (ref : Str) : Option Str :=
  if ref = str "lt" then some (str "<")
  else if ref = str "gt" then some (str ">")
  else if ref = str "amp" then some (str "&")
  else if ref = str "apos" then some (str "'")
  else if ref = str "quot" then some (str "\"")
  else if ref.take 2 = str "#x" ∧ ref.length ≠ 2 then do
    let digits ← (ref.drop 2).mapM hexDigit
    xmlChar (digits.foldl (fun n d => n * 16 + d) 0)
  else if ref.take 1 = str "#" ∧ ref.length ≠ 1 ∧ (ref.drop 1).all isDigit then
    xmlChar (digitsValue (ref.drop 1))
  else none

/-- The normalised value of an attribute.  The first argument is the reference that is being read, in
reverse. -/
def attrValue : Option Str → Str → Option Str
  | none, [] => some []
  | some _, [] => none
  | none, c :: s =>
    if c = '&'.toUInt8 then attrValue (some []) s
    else if c = '<'.toUInt8 then none
    else (attrValue none s).map fun v => (if isXMLSpace c then 32 else c) :: v
  | some ref, c :: s =>
    if c = ';'.toUInt8 then do
      let r ← xmlReference ref.reverse
      let v ← attrValue none s
      return r ++ v
    else attrValue (some (c :: ref)) s

/-! ### Tags -/

/-- A tag, or text between tags. -/
inductive XMLItem where
  | text (raw : Str)
  | startTag (name : Str) (attrs : SortedMap Str Str)
  | emptyTag (name : Str) (attrs : SortedMap Str Str)
  | endTag (name : Str)

/-- A value in quotes, and what is behind it. -/
def readXMLValue : Str → Option (Str × Str)
  | [] => none
  | q :: s =>
    if q = '"'.toUInt8 ∨ q = '\''.toUInt8 then
      if q ∈ s then
        (attrValue none (s.takeWhile (· ≠ q))).map fun v => (v, (s.dropWhile (· ≠ q)).tail)
      else none
    else none

/-- The attributes of a tag, whether it is the tag of an empty element, and what is behind it. -/
def readXMLAttrs : ℕ → Str → Option (List (Str × Str) × Bool × Str)
  | 0, _ => none
  | n + 1, s =>
    let t := s.dropWhile isXMLSpace
    if t.take 1 = str ">" then some ([], false, t.drop 1)
    else if t.take 2 = str "/>" then some ([], true, t.drop 2)
    else if t.length = s.length then none
    else
      let u := (t.dropWhile isXMLNameByte).dropWhile isXMLSpace
      if isXMLName (t.takeWhile isXMLNameByte) ∧ u.take 1 = str "=" then do
        let (value, s) ← readXMLValue ((u.drop 1).dropWhile isXMLSpace)
        let (attrs, empty, s) ← readXMLAttrs n s
        return ((t.takeWhile isXMLNameByte, value) :: attrs, empty, s)
      else none

/-- The tag behind a `<`, and what is behind it. -/
def readXMLTag (s : Str) : Option (XMLItem × Str) :=
  if s.take 1 = str "/" then
    let t := ((s.drop 1).dropWhile isXMLNameByte).dropWhile isXMLSpace
    if isXMLName ((s.drop 1).takeWhile isXMLNameByte) ∧ t.take 1 = str ">" then
      some (.endTag ((s.drop 1).takeWhile isXMLNameByte), t.drop 1)
    else none
  else if isXMLName (s.takeWhile isXMLNameByte) then do
    let (attrs, empty, t) ← readXMLAttrs (s.length + 1) (s.dropWhile isXMLNameByte)
    if (attrs.map Prod.fst).Nodup then
      let make := if empty then XMLItem.emptyTag else XMLItem.startTag
      return (make (s.takeWhile isXMLNameByte) (.ofList attrs), t)
    else none
  else none

/-- The tags of a document, and the text between them. -/
def readXMLItems : ℕ → Str → Option (List XMLItem)
  | 0, _ => none
  | n + 1, s =>
    match s.dropWhile (· ≠ '<'.toUInt8) with
    | [] => some [.text s]
    | _ :: t => do
      let (tag, t) ← readXMLTag t
      let items ← readXMLItems n t
      return .text (s.takeWhile (· ≠ '<'.toUInt8)) :: tag :: items

/-! ### Documents -/

/-- A tag or a text is matched: outside of elements only white space is allowed, an end tag has the name
of the innermost element. -/
def XMLBuilder.readItem (b : XMLBuilder) : XMLItem → Option XMLBuilder
  | .text raw =>
    if if b.stack = [] then raw.all isXMLSpace else (attrValue none raw).isSome then some b else none
  | .startTag name attrs => some (b.start name attrs)
  | .emptyTag name attrs => some (b.add (.node name attrs []))
  | .endTag name => if (b.stack.map Prod.fst).head? = some name then b.finish else none

/-- What is in front of the first `?>`, and what is behind it. -/
def splitXMLDecl : Str → Option (Str × Str)
  | c :: d :: s =>
    if c = '?'.toUInt8 ∧ d = '>'.toUInt8 then some ([], s)
    else (splitXMLDecl (d :: s)).map fun p => (c :: p.1, p.2)
  | _ => none

/-- An XML declaration has the version, and possibly the encoding, which has to be UTF-8, and whether the
document stands alone. -/
def isXMLDecl : List (Str × Str) → Bool
  | [] => false
  | (name, version) :: attrs =>
    decide (name = str "version") && decide (version.take 2 = str "1.") &&
      decide (version.length ≠ 2) && (version.drop 2).all isDigit &&
      (decide (attrs.map Prod.fst = []) || decide (attrs.map Prod.fst = [str "encoding"]) ||
        decide (attrs.map Prod.fst = [str "standalone"]) ||
        decide (attrs.map Prod.fst = [str "encoding", str "standalone"])) &&
      attrs.all fun a =>
        if a.1 = str "encoding" then decide (a.2 = str "utf-8") || decide (a.2 = str "UTF-8")
        else decide (a.2 = str "yes") || decide (a.2 = str "no")

/-- What is behind the XML declaration, if there is one. -/
def readXMLDecl (s : Str) : Option Str :=
  if s.take 6 = str "<?xml " then do
    let (decl, t) ← splitXMLDecl (s.drop 5)
    let (attrs, empty, u) ← readXMLAttrs (decl.length + 1) (decl ++ str ">")
    if empty = false ∧ u = [] ∧ isXMLDecl attrs then some t else none
  else some s

/-- The element of a document. -/
def parseXML (text : Str) : Option XMLElement :=
  if text.all isXMLByte then do
    let s ← readXMLDecl (normalizeBreaks 13 10 text)
    let items ← readXMLItems (s.length + 1) s
    let b ← items.foldlM XMLBuilder.readItem ⟨[], []⟩
    b.root
  else none

end Nix
