import NixStore.Expr.Coerce

/-!
# Values as XML

Model of `xml-writer.cc` and of `value-to-xml.cc`, as `toXML` uses them: every value is forced before
it is shown.  The derivations that have been shown are threaded through; the recursion is bounded by
an argument.  `xmlCopies` lists the strings whose text the XML contains, and `printValueAsXML_copies`
says which of their contexts are kept.
-/

namespace Nix

/-! ### Writing XML -/

/-- Model of `XMLAttrs`. -/
abbrev XMLAttrs := SortedMap Str Str

/-- Model of `singletonAttrs`. -/
def singletonAttrs (name value : Str) : XMLAttrs := (∅ : XMLAttrs).insert name value

/-- What `writeAttrs` writes for a character of a value. -/
def escapeAttrChar (c : UInt8) : Str :=
  if c = '"'.toUInt8 then str "&quot;"
  else if c = '<'.toUInt8 then str "&lt;"
  else if c = '>'.toUInt8 then str "&gt;"
  else if c = '&'.toUInt8 then str "&amp;"
  else if c = '\n'.toUInt8 then str "&#xA;"
  else [c]

/-- The text of a string, as it is written. -/
def escapeAttr (s : Str) : Str := s.flatMap escapeAttrChar

/-- Model of `writeAttrs`. -/
def writeAttrs (attrs : XMLAttrs) : Str :=
  attrs.entries.flatMap fun a => str " " ++ a.1 ++ str "=\"" ++ escapeAttr a.2 ++ str "\""

/-- Model of `XMLWriter`.  The assertions are left out: every element that is opened is closed by its
`XMLOpenElement`, and the document is closed by the first one. -/
structure XMLWriter where
  output : Str
  /-- The elements that are open, from the innermost one. -/
  pendingElems : List Str
  indent : Bool

namespace XMLWriter

/-- Model of the constructor. -/
def new (indent : Bool) : XMLWriter :=
  ⟨str "<?xml version='1.0' encoding='utf-8'?>\n", [], indent⟩

/-- Write the indentation in front of a text, and the end of the line after it. -/
def writeLine (doc : XMLWriter) (depth : ℕ) (text : Str) : XMLWriter :=
  { doc with output := doc.output ++
      ((if doc.indent then List.replicate (depth * 2) ' '.toUInt8 else []) ++ text ++
        if doc.indent then str "\n" else []) }

/-- Model of `openElement`. -/
def openElement (doc : XMLWriter) (name : Str) (attrs : XMLAttrs) : XMLWriter :=
  { doc.writeLine doc.pendingElems.length (str "<" ++ name ++ writeAttrs attrs ++ str ">") with
    pendingElems := name :: doc.pendingElems }

/-- Model of `closeElement`. -/
def closeElement (doc : XMLWriter) : XMLWriter :=
  { doc.writeLine (doc.pendingElems.length - 1)
      (str "</" ++ doc.pendingElems.headD [] ++ str ">") with
    pendingElems := doc.pendingElems.tail }

/-- Model of `writeEmptyElement`. -/
def writeEmptyElement (doc : XMLWriter) (name : Str) (attrs : XMLAttrs) : XMLWriter :=
  doc.writeLine doc.pendingElems.length (str "<" ++ name ++ writeAttrs attrs ++ str " />")

end XMLWriter

/-! ### Showing values -/

/-- What `printValueAsXML` changes. -/
structure XMLState where
  doc : XMLWriter
  context : PathSet
  drvsSeen : PathSet

namespace XMLState

def writeEmptyElement (st : XMLState) (name : Str) (attrs : XMLAttrs) : XMLState :=
  { st with doc := st.doc.writeEmptyElement name attrs }

/-- Model of `XMLOpenElement`, around what is written in its scope. -/
def element (name : Str) (attrs : XMLAttrs) (body : XMLState → Outcome Str XMLState)
    (st : XMLState) : Outcome Str XMLState := do
  let st ← body { st with doc := st.doc.openElement name attrs }
  return { st with doc := st.doc.closeElement }

end XMLState

/-- `noPos` -/
def noPos : Pos := ⟨[], 0, 0⟩

/-- Model of `posToXML`. -/
def posToXML (xmlAttrs : XMLAttrs) (pos : Pos) : XMLAttrs :=
  ((xmlAttrs.insert (str "path") pos.file).insert (str "line") (decimal pos.line)).insert
    (str "column") (decimal pos.column)

/-- Set an attribute to the text of a string, if there is one. -/
def setAttr (xmlAttrs : XMLAttrs) (name : Str) : Option (Str × PathSet) → XMLAttrs
  | none => xmlAttrs
  | some (s, _) => xmlAttrs.insert name s

section

variable {α : Type} (env : EvalEnv α)

/-- The attributes of a set, in the order of their names. -/
def attrsByName (attrs : List (Attr α)) : List (Attr α) :=
  (SortedSet.ofList (attrs.map Attr.name)).toList.filterMap (findAttr attrs)

/-- The value of an attribute, if it is a string, with its context. -/
def EvalEnv.stringAttr (attrs : List (Attr α)) (name : Str) : Outcome Str (Option (Str × PathSet)) :=
  match findAttr attrs name with
  | none => return none
  | some a => do
    match ← env.forceValue a.value with
    | .tString s context => return some (s, context)
    | _ => return none

/-- Model of `showAttrs`, given how a value is shown. -/
def showAttrs (location : Bool) (print : α → XMLState → Outcome Str XMLState)
    (attrs : List (Attr α)) (st : XMLState) : Outcome Str XMLState :=
  (attrsByName attrs).foldlM (fun st a =>
    let xmlAttrs := singletonAttrs (str "name") a.name
    st.element (str "attr") (if location ∧ a.pos ≠ noPos then posToXML xmlAttrs a.pos else xmlAttrs)
      (print a.value)) st

/-- How a function is shown. -/
def showLambda (location : Bool) (l : ExprLambda) (st : XMLState) : Outcome Str XMLState :=
  st.element (str "function") (if location then posToXML ∅ l.pos else ∅) fun st =>
    if l.matchAttrs then
      let attrs : XMLAttrs := if l.arg ≠ [] then (∅ : XMLAttrs).insert (str "name") l.arg else ∅
      st.element (str "attrspat")
        (if l.ellipsis then attrs.insert (str "ellipsis") (str "1") else attrs) fun st =>
          return l.formals.foldl
            (fun st i => st.writeEmptyElement (str "attr") (singletonAttrs (str "name") i)) st
    else return st.writeEmptyElement (str "varpat") (singletonAttrs (str "name") l.arg)

/-- Model of `printValueAsXML` with the argument `strict`. -/
def printValueAsXML (location : Bool) : ℕ → α → XMLState → Outcome Str XMLState
  | 0, _, _ => .diverge
  | fuel + 1, v, st => do
    match ← env.forceValue v with
    | .tInt n => return st.writeEmptyElement (str "int") (singletonAttrs (str "value") (int2String n))
    | .tBool b =>
      return st.writeEmptyElement (str "bool")
        (singletonAttrs (str "value") (if b then str "true" else str "false"))
    | .tString s context =>
      let st := { st with context := context.toList.foldl SortedSet.insert st.context }
      return st.writeEmptyElement (str "string") (singletonAttrs (str "value") s)
    | .tPath path =>
      return st.writeEmptyElement (str "path") (singletonAttrs (str "value") path)
    | .tNull => return st.writeEmptyElement (str "null") ∅
    | .tAttrs attrs => do
      if ← env.isDerivation attrs then
        let drv ← env.stringAttr attrs (str "drvPath")
        let out ← env.stringAttr attrs (str "outPath")
        let drvPath := (drv.map Prod.fst).getD []
        st.element (str "derivation") (setAttr (setAttr ∅ (str "drvPath") drv) (str "outPath") out)
          fun st =>
            if drvPath ≠ [] ∧ drvPath ∉ st.drvsSeen then
              showAttrs location (printValueAsXML location fuel) attrs
                { st with drvsSeen := st.drvsSeen.insert drvPath }
            else return st.writeEmptyElement (str "repeated") ∅
      else st.element (str "attrs") ∅ (showAttrs location (printValueAsXML location fuel) attrs)
    | .tList elems =>
      st.element (str "list") ∅ fun st =>
        elems.foldlM (fun st v => printValueAsXML location fuel v st) st
    | .tLambda l => showLambda location l st
    | .tPrimOp => return st.writeEmptyElement (str "unevaluated") ∅
    | .tPrimOpApp => return st.writeEmptyElement (str "unevaluated") ∅

/-- The XML document of a value: its text and its context. -/
def valueToXML (location : Bool) (fuel : ℕ) (v : α) : Outcome Str (Str × PathSet) := do
  let st : XMLState := ⟨.new true, ∅, ∅⟩
  let st ← st.element (str "expr") ∅ (printValueAsXML env location fuel v)
  return (st.doc.output, st.context)

end

/-! ### The strings that are shown -/

/-- Where the text of a string stands: as a value, or as the `drvPath` or `outPath` of a derivation
whose attributes are shown, or are not shown. -/
inductive XMLPlace where
  | value
  | derivation
  | repeated
deriving DecidableEq

/-- A string whose text is copied. -/
structure XMLCopy where
  place : XMLPlace
  text : Str
  context : PathSet
deriving DecidableEq

/-- The copies of the strings that a derivation is shown with. -/
def drvCopies (place : XMLPlace) (drv out : Option (Str × PathSet)) : List XMLCopy :=
  (drv.toList ++ out.toList).map fun s => ⟨place, s.1, s.2⟩

/-- The copies for a list of values, given those for a value. -/
def copiesOf {α : Type} (copies : α → PathSet → Outcome Str (List XMLCopy × PathSet)) :
    List α → PathSet → Outcome Str (List XMLCopy × PathSet)
  | [], seen => return ([], seen)
  | v :: vs, seen => do
    let (l, seen) ← copies v seen
    let (l', seen) ← copiesOf copies vs seen
    return (l ++ l', seen)

/-- The strings whose text is copied when a value is shown, and the derivations that have been shown
afterwards. -/
def xmlCopies {α : Type} (env : EvalEnv α) : ℕ → α → PathSet → Outcome Str (List XMLCopy × PathSet)
  | 0, _, _ => .diverge
  | fuel + 1, v, seen => do
    match ← env.forceValue v with
    | .tString s context => return ([⟨.value, s, context⟩], seen)
    | .tAttrs attrs => do
      let values := (attrsByName attrs).map Attr.value
      if ← env.isDerivation attrs then
        let drv ← env.stringAttr attrs (str "drvPath")
        let out ← env.stringAttr attrs (str "outPath")
        let drvPath := (drv.map Prod.fst).getD []
        if drvPath ≠ [] ∧ drvPath ∉ seen then do
          let (l, seen) ← copiesOf (xmlCopies env fuel) values (seen.insert drvPath)
          return (drvCopies .derivation drv out ++ l, seen)
        else return (drvCopies .repeated drv out, seen)
      else copiesOf (xmlCopies env fuel) values seen
    | .tList elems => copiesOf (xmlCopies env fuel) elems seen
    | _ => return ([], seen)

/-! ### What showing a value adds -/

/-- What has been added is text in which the copies stand, and the contexts of those copies that are
values. -/
structure Shows (st st' : XMLState) (l : List XMLCopy) : Prop where
  context : ∀ c, c ∈ st'.context ↔ c ∈ st.context ∨ ∃ x ∈ l, x.place = .value ∧ c ∈ x.context
  output : ∃ s, st'.doc.output = st.doc.output ++ s ∧ ∀ x ∈ l, escapeAttr x.text <:+: s

section

variable {st st₁ st' : XMLState} {l l' : List XMLCopy}

/-- Text without copies. -/
theorem Shows.of_text (hcontext : st'.context = st.context) {s : Str}
    (houtput : st'.doc.output = st.doc.output ++ s) : Shows st st' [] where
  context c := by simp [hcontext]
  output := ⟨s, houtput, by simp⟩

/-- What is shown by two steps in a row. -/
theorem Shows.trans (h : Shows st st₁ l) (h' : Shows st₁ st' l') : Shows st st' (l ++ l') where
  context c := by
    rw [h'.context, h.context, or_assoc]
    simp only [List.mem_append, or_and_right, exists_or]
  output := by
    obtain ⟨s, hs, hl⟩ := h.output
    obtain ⟨s', hs', hl'⟩ := h'.output
    refine ⟨s ++ s', by rw [hs', hs, List.append_assoc], fun x hx => ?_⟩
    rcases List.mem_append.mp hx with hx | hx
    · exact (hl x hx).trans (List.prefix_append s s').isInfix
    · exact (hl' x hx).trans (List.suffix_append s s').isInfix

/-- An empty element shows no copies. -/
theorem shows_writeEmptyElement (st : XMLState) (name : Str) (attrs : XMLAttrs) :
    Shows st (st.writeEmptyElement name attrs) [] := .of_text rfl rfl

/-- The text of a string that is set as an attribute. -/
theorem infix_writeAttrs {attrs : XMLAttrs} {n s : Str} (h : attrs.find? n = some s) :
    escapeAttr s <:+: writeAttrs attrs := by
  have hmem : (n, s) ∈ attrs.entries := SortedMap.find?_eq_some_iff.mp h
  obtain ⟨before, after, hsplit⟩ := List.append_of_mem hmem
  rw [writeAttrs, hsplit, List.flatMap_append, List.flatMap_cons]
  refine ⟨(before.flatMap fun a => str " " ++ a.1 ++ str "=\"" ++ escapeAttr a.2 ++ str "\"") ++
    (str " " ++ n ++ str "=\""), str "\"" ++
    after.flatMap fun a => str " " ++ a.1 ++ str "=\"" ++ escapeAttr a.2 ++ str "\"", ?_⟩
  simp only [List.append_assoc]

/-- What is written in the scope of an element, with the attributes of the element. -/
theorem shows_of_element {name : Str} {attrs : XMLAttrs} {body : XMLState → Outcome Str XMLState}
    (h : st.element name attrs body = .ok st') :
    ∃ st₁ st₂, st₁.drvsSeen = st.drvsSeen ∧ body st₁ = .ok st₂ ∧ st'.drvsSeen = st₂.drvsSeen ∧
      ∀ l₀ l, (∀ x ∈ l₀, x.place ≠ .value ∧ escapeAttr x.text <:+: writeAttrs attrs) →
        Shows st₁ st₂ l → Shows st st' (l₀ ++ l) := by
  obtain ⟨st₂, hbody, h⟩ := Outcome.bind_eq_ok.mp h
  cases h
  refine ⟨{ st with doc := st.doc.openElement name attrs }, st₂, rfl, hbody, rfl,
    fun l₀ l hl₀ hl => ?_⟩
  have hopen : Shows st { st with doc := st.doc.openElement name attrs } l₀ := by
    refine ⟨fun c => ⟨Or.inl, fun hc => hc.elim id ?_⟩, ⟨_, rfl, fun x hx => ?_⟩⟩
    · rintro ⟨x, hx, hplace, -⟩
      exact absurd hplace (hl₀ x hx).1
    · refine (hl₀ x hx).2.trans ⟨(if st.doc.indent then
        List.replicate (st.doc.pendingElems.length * 2) ' '.toUInt8 else []) ++ (str "<" ++ name),
        str ">" ++ if st.doc.indent then str "\n" else [], ?_⟩
      simp only [List.append_assoc]
  have hclose : Shows st₂ { st₂ with doc := st₂.doc.closeElement } [] := .of_text rfl rfl
  simpa using (hopen.trans hl).trans hclose

/-- A loop over values of which each is shown with its copies. -/
theorem shows_of_foldlM {α : Type} {print : α → XMLState → Outcome Str XMLState}
    {copies : α → PathSet → Outcome Str (List XMLCopy × PathSet)}
    (hprint : ∀ v st st', print v st = .ok st' →
      ∃ l, copies v st.drvsSeen = .ok (l, st'.drvsSeen) ∧ Shows st st' l) {vs : List α}
    (h : vs.foldlM (fun st v => print v st) st = .ok st') :
    ∃ l, copiesOf copies vs st.drvsSeen = .ok (l, st'.drvsSeen) ∧ Shows st st' l := by
  induction vs generalizing st with
  | nil =>
    cases h
    exact ⟨[], rfl, .of_text rfl (List.append_nil _).symm⟩
  | cons v vs ih =>
    rw [List.foldlM_cons] at h
    obtain ⟨st₁, hst₁, h⟩ := Outcome.bind_eq_ok.mp h
    obtain ⟨l, hl, hshows⟩ := hprint v st st₁ hst₁
    obtain ⟨l', hl', hshows'⟩ := ih h
    exact ⟨l ++ l', by simp [copiesOf, hl, hl'], hshows.trans hshows'⟩

/-- The copies of a mapped list. -/
theorem copiesOf_map {α β : Type} (f : β → α)
    (copies : α → PathSet → Outcome Str (List XMLCopy × PathSet)) (vs : List β) (seen : PathSet) :
    copiesOf copies (vs.map f) seen = copiesOf (fun v => copies (f v)) vs seen := by
  induction vs generalizing seen with
  | nil => rfl
  | cons v vs ih => simp only [List.map_cons, copiesOf, ih]

variable {α : Type} {env : EvalEnv α} {location : Bool}

/-- The attributes of a set are shown one by one. -/
theorem shows_of_showAttrs {print : α → XMLState → Outcome Str XMLState}
    {copies : α → PathSet → Outcome Str (List XMLCopy × PathSet)}
    (hprint : ∀ v st st', print v st = .ok st' →
      ∃ l, copies v st.drvsSeen = .ok (l, st'.drvsSeen) ∧ Shows st st' l) {attrs : List (Attr α)}
    (h : showAttrs location print attrs st = .ok st') :
    ∃ l, copiesOf copies ((attrsByName attrs).map Attr.value) st.drvsSeen = .ok (l, st'.drvsSeen) ∧
      Shows st st' l := by
  rw [copiesOf_map]
  refine shows_of_foldlM (fun a st st' ha => ?_) h
  obtain ⟨st₁, st₂, hseen, hbody, hseen', hshows⟩ := shows_of_element ha
  obtain ⟨l, hl, hl'⟩ := hprint a.value st₁ st₂ hbody
  exact ⟨l, by rw [← hseen, hl, hseen'], hshows [] l (by simp) hl'⟩

/-- No string is copied when a function is shown. -/
theorem shows_of_showLambda {fn : ExprLambda} (h : showLambda location fn st = .ok st') :
    st'.drvsSeen = st.drvsSeen ∧ Shows st st' [] := by
  have hformals : ∀ (formals : List Str) (st : XMLState),
      (formals.foldl (fun st i => st.writeEmptyElement (str "attr")
        (singletonAttrs (str "name") i)) st).drvsSeen = st.drvsSeen ∧
      Shows st (formals.foldl (fun st i => st.writeEmptyElement (str "attr")
        (singletonAttrs (str "name") i)) st) [] := by
    intro formals
    induction formals with
    | nil => exact fun st => ⟨rfl, .of_text rfl (List.append_nil _).symm⟩
    | cons i formals ih =>
      intro st
      obtain ⟨hseen, hshows⟩ := ih (st.writeEmptyElement (str "attr") (singletonAttrs (str "name") i))
      exact ⟨hseen, (shows_writeEmptyElement st _ _).trans hshows⟩
  obtain ⟨st₁, st₂, hseen, hbody, hseen', hshows⟩ := shows_of_element h
  dsimp only at hbody
  by_cases hmatch : fn.matchAttrs = true
  · rw [if_pos hmatch] at hbody
    obtain ⟨st₃, st₄, hseen₃, hbody₃, hseen₄, hshows₃⟩ := shows_of_element hbody
    cases hbody₃
    obtain ⟨hsame, hl⟩ := hformals fn.formals st₃
    exact ⟨by rw [hseen', hseen₄, hsame, hseen₃, hseen],
      hshows [] [] (by simp) (hshows₃ [] [] (by simp) hl)⟩
  · rw [if_neg hmatch] at hbody
    cases hbody
    exact ⟨by rw [hseen', ← hseen]; rfl,
      hshows [] [] (by simp) (shows_writeEmptyElement st₁ _ _)⟩

/-- The strings that a derivation is shown with are in its attributes. -/
theorem infix_of_mem_drvCopies {place : XMLPlace} {drv out : Option (Str × PathSet)} {x : XMLCopy}
    (hx : x ∈ drvCopies place drv out) : x.place = place ∧ escapeAttr x.text <:+:
      writeAttrs (setAttr (setAttr ∅ (str "drvPath") drv) (str "outPath") out) := by
  obtain ⟨⟨s, context⟩, hs, rfl⟩ := List.mem_map.mp hx
  refine ⟨rfl, ?_⟩
  rcases List.mem_append.mp hs with hs | hs
  · obtain rfl := Option.mem_toList.mp hs
    refine infix_writeAttrs (n := str "drvPath") ?_
    cases out with
    | none => simp [setAttr]
    | some o => simp [setAttr, show str "drvPath" ≠ str "outPath" by decide]
  · obtain rfl := Option.mem_toList.mp hs
    exact infix_writeAttrs (n := str "outPath") (by simp [setAttr])

/-- Showing a value copies the strings that `xmlCopies` lists, and keeps the contexts of those that
are shown as values, and no others. -/
theorem printValueAsXML_copies {fuel : ℕ} {v : α}
    (h : printValueAsXML env location fuel v st = .ok st') :
    ∃ l, xmlCopies env fuel v st.drvsSeen = .ok (l, st'.drvsSeen) ∧ Shows st st' l := by
  induction fuel generalizing v st st' with
  | zero => cases h
  | succ fuel ih =>
    have hprint : ∀ v st st', printValueAsXML env location fuel v st = .ok st' →
        ∃ l, xmlCopies env fuel v st.drvsSeen = .ok (l, st'.drvsSeen) ∧ Shows st st' l :=
      fun _ _ _ => ih
    rw [printValueAsXML] at h
    obtain ⟨x, hx, h⟩ := Outcome.bind_eq_ok.mp h
    rw [xmlCopies, hx, Outcome.ok_bind]
    cases x with
    | tString s context =>
      cases h
      refine ⟨[⟨.value, s, context⟩], rfl, ⟨fun c => ?_, _, rfl, fun x hx => ?_⟩⟩
      · simp [XMLState.writeEmptyElement, SortedSet.mem_foldl_insert, or_comm]
      · rw [List.mem_singleton.mp hx]
        have htext : escapeAttr s <:+: writeAttrs (singletonAttrs (str "value") s) :=
          infix_writeAttrs (n := str "value") (by simp [singletonAttrs])
        refine htext.trans ⟨(if st.doc.indent then
          List.replicate (st.doc.pendingElems.length * 2) ' '.toUInt8 else []) ++
            (str "<" ++ str "string"), str " />" ++ if st.doc.indent then str "\n" else [], ?_⟩
        simp only [List.append_assoc]
    | tAttrs attrs =>
      obtain ⟨isDrv, hisDrv, h⟩ := Outcome.bind_eq_ok.mp h
      simp only [hisDrv, Outcome.ok_bind]
      cases isDrv with
      | false =>
        obtain ⟨st₁, st₂, hseen, hbody, hseen', hshows⟩ := shows_of_element h
        obtain ⟨l, hl, hl'⟩ := shows_of_showAttrs hprint hbody
        exact ⟨l, by simpa [← hseen, hseen'] using hl, hshows [] l (by simp) hl'⟩
      | true =>
        obtain ⟨drv, hdrv, h⟩ := Outcome.bind_eq_ok.mp h
        obtain ⟨out, hout, h⟩ := Outcome.bind_eq_ok.mp h
        simp only [hdrv, hout, Outcome.ok_bind]
        obtain ⟨st₁, st₂, hseen, hbody, hseen', hshows⟩ := shows_of_element h
        have hcopies : ∀ place : XMLPlace, place ≠ .value → ∀ x ∈ drvCopies place drv out,
            x.place ≠ .value ∧ escapeAttr x.text <:+:
              writeAttrs (setAttr (setAttr ∅ (str "drvPath") drv) (str "outPath") out) := by
          intro place hplace x hx
          obtain ⟨hxplace, htext⟩ := infix_of_mem_drvCopies hx
          exact ⟨hxplace ▸ hplace, htext⟩
        rw [hseen] at hbody
        split_ifs at hbody with hnew
        · obtain ⟨l, hl, hl'⟩ := shows_of_showAttrs hprint hbody
          refine ⟨drvCopies .derivation drv out ++ l, ?_, hshows _ l (hcopies _ (by decide)) ⟨?_, ?_⟩⟩
          · rw [hseen']
            simp only [↓reduceIte, if_pos hnew]
            rw [hl]
            rfl
          · exact hl'.context
          · exact hl'.output
        · cases hbody
          refine ⟨drvCopies .repeated drv out, ?_, ?_⟩
          · rw [hseen']
            simp only [↓reduceIte, if_neg hnew]
            rw [← hseen]
            rfl
          · simpa using hshows _ [] (hcopies _ (by decide)) (shows_writeEmptyElement st₁ _ _)
    | tList elems =>
      obtain ⟨st₁, st₂, hseen, hbody, hseen', hshows⟩ := shows_of_element h
      obtain ⟨l, hl, hl'⟩ := shows_of_foldlM hprint hbody
      refine ⟨l, ?_, hshows [] l (by simp) hl'⟩
      rw [← hseen, hseen']
      exact hl
    | tLambda fn =>
      obtain ⟨hseen, hshows⟩ := shows_of_showLambda h
      exact ⟨[], by rw [hseen]; rfl, hshows⟩
    | _ =>
      -- no string is copied
      cases h
      exact ⟨[], rfl, shows_writeEmptyElement st _ _⟩

/-- The copies for a list are those for its elements. -/
theorem copiesOf_parts {copies : α → PathSet → Outcome Str (List XMLCopy × PathSet)} {vs : List α}
    {seen seen' : PathSet} (h : copiesOf copies vs seen = .ok (l, seen')) :
    (∀ v ∈ vs, ∃ s l' s', copies v s = .ok (l', s') ∧ ∀ x ∈ l', x ∈ l) ∧
      ∀ x ∈ l, ∃ v ∈ vs, ∃ s l' s', copies v s = .ok (l', s') ∧ (∀ y ∈ l', y ∈ l) ∧ x ∈ l' := by
  induction vs generalizing seen l with
  | nil =>
    cases h
    simp
  | cons v vs ih =>
    obtain ⟨⟨l₁, seen₁⟩, h₁, h⟩ := Outcome.bind_eq_ok.mp h
    obtain ⟨⟨l₂, seen₂⟩, h₂, h⟩ := Outcome.bind_eq_ok.mp h
    cases h
    obtain ⟨hparts, hfrom⟩ := ih h₂
    refine ⟨fun w hw => ?_, fun x hx => ?_⟩
    · rcases List.mem_cons.mp hw with rfl | hw
      · exact ⟨seen, l₁, seen₁, h₁, fun x hx => List.mem_append_left _ hx⟩
      · obtain ⟨s, l', s', hl', hsub⟩ := hparts w hw
        exact ⟨s, l', s', hl', fun x hx => List.mem_append_right _ (hsub x hx)⟩
    · rcases List.mem_append.mp hx with hx | hx
      · exact ⟨v, List.mem_cons_self, seen, l₁, seen₁, h₁,
          fun y hy => List.mem_append_left _ hy, hx⟩
      · obtain ⟨w, hw, s, l', s', hl', hsub, hx'⟩ := hfrom x hx
        exact ⟨w, List.mem_cons_of_mem v hw, s, l', s', hl',
          fun y hy => List.mem_append_right _ (hsub y hy), hx'⟩

/-- The attributes by name are all the attributes that can be found. -/
theorem mem_attrsByName {attrs : List (Attr α)} {name : Str} {a : Attr α}
    (h : findAttr attrs name = some a) : a ∈ attrsByName attrs := by
  obtain ⟨hmem, hname⟩ := mem_of_findAttr h
  refine List.mem_filterMap.mpr ⟨name, ?_, h⟩
  simpa using ⟨a, hmem, hname⟩

/-- The attribute that was asked for is a string. -/
theorem stringAttr_eq_some {attrs : List (Attr α)} {name s : Str} {context : PathSet}
    (h : env.stringAttr attrs name = .ok (some (s, context))) :
    ∃ a, findAttr attrs name = some a ∧ env.forceValue a.value = .ok (.tString s context) := by
  unfold EvalEnv.stringAttr at h
  cases ha : findAttr attrs name with
  | none => simp [ha] at h
  | some a =>
    simp only [ha] at h
    obtain ⟨x, hx, h⟩ := Outcome.bind_eq_ok.mp h
    cases x <;> cases h
    exact ⟨a, rfl, hx⟩

/-- The strings with which a derivation is shown are attributes of it. -/
theorem exists_attr_of_mem_drvCopies {attrs : List (Attr α)} {drv out : Option (Str × PathSet)}
    (hdrv : env.stringAttr attrs (str "drvPath") = .ok drv)
    (hout : env.stringAttr attrs (str "outPath") = .ok out) {place : XMLPlace} {x : XMLCopy}
    (hx : x ∈ drvCopies place drv out) : x.place = place ∧ ∃ name a,
      findAttr attrs name = some a ∧ env.forceValue a.value = .ok (.tString x.text x.context) := by
  obtain ⟨⟨s, context⟩, hs, rfl⟩ := List.mem_map.mp hx
  rcases List.mem_append.mp hs with hs | hs
  · exact ⟨rfl, _, stringAttr_eq_some (Option.mem_toList.mp hs ▸ hdrv)⟩
  · exact ⟨rfl, _, stringAttr_eq_some (Option.mem_toList.mp hs ▸ hout)⟩

/-- A string that is copied is the value itself, or an attribute of the derivation that is shown, or
it is copied from within.  The attributes of a derivation are shown again, unless it is shown as a
repeated one. -/
theorem mem_xmlCopies_cases {fuel : ℕ} {v : α} {seen seen' : PathSet}
    (h : xmlCopies env (fuel + 1) v seen = .ok (l, seen')) {x : XMLCopy} (hx : x ∈ l) :
    (x.place = .value ∧ env.forceValue v = .ok (.tString x.text x.context)) ∨
      (∃ w, env.forceValue w = .ok (.tString x.text x.context) ∧ x.place ≠ .value ∧
        (x.place = .derivation → ∃ y ∈ l, y.place = .value ∧ y.context = x.context)) ∨
      ∃ w s l' s', xmlCopies env fuel w s = .ok (l', s') ∧ (∀ y ∈ l', y ∈ l) ∧ x ∈ l' := by
  have hlist : ∀ {vs : List α} {seen seen' : PathSet} {l₁ : List XMLCopy},
      copiesOf (xmlCopies env fuel) vs seen = .ok (l₁, seen') → (∀ y ∈ l₁, y ∈ l) → x ∈ l₁ →
      ∃ w s l' s', xmlCopies env fuel w s = .ok (l', s') ∧ (∀ y ∈ l', y ∈ l) ∧ x ∈ l' := by
    intro vs seen seen' l₁ h hl₁ hx
    obtain ⟨w, -, s, l', s', hl', hsub, hx'⟩ := (copiesOf_parts h).2 x hx
    exact ⟨w, s, l', s', hl', fun y hy => hl₁ y (hsub y hy), hx'⟩
  rw [xmlCopies] at h
  obtain ⟨value, hvalue, h⟩ := Outcome.bind_eq_ok.mp h
  cases value with
  | tString s context =>
    cases h
    rw [List.mem_singleton.mp hx]
    exact Or.inl ⟨rfl, hvalue⟩
  | tAttrs attrs =>
    obtain ⟨isDrv, -, h⟩ := Outcome.bind_eq_ok.mp h
    cases isDrv with
    | false => exact Or.inr (Or.inr (hlist h (fun _ => id) hx))
    | true =>
      obtain ⟨drv, hdrv, h⟩ := Outcome.bind_eq_ok.mp h
      obtain ⟨out, hout, h⟩ := Outcome.bind_eq_ok.mp h
      dsimp only at h
      split_ifs at h with hnew
      · obtain ⟨⟨l', s'⟩, hl', h⟩ := Outcome.bind_eq_ok.mp h
        cases h
        rcases List.mem_append.mp hx with hx | hx
        · obtain ⟨hplace, name, a, ha, hforce⟩ := exists_attr_of_mem_drvCopies hdrv hout hx
          refine Or.inr (Or.inl ⟨a.value, hforce, by simp [hplace], fun _ => ?_⟩)
          obtain ⟨t, l₁, t', hl₁, hsub⟩ := (copiesOf_parts hl').1 a.value
            (List.mem_map_of_mem (mem_attrsByName ha))
          cases fuel with
          | zero => cases hl₁
          | succ fuel =>
            rw [xmlCopies, hforce] at hl₁
            cases hl₁
            exact ⟨_, List.mem_append_right _ (hsub _ List.mem_cons_self), rfl, rfl⟩
        · exact Or.inr (Or.inr (hlist hl' (fun _ => List.mem_append_right _) hx))
      · cases h
        obtain ⟨hplace, name, a, -, hforce⟩ := exists_attr_of_mem_drvCopies hdrv hout hx
        refine Or.inr (Or.inl ⟨a.value, hforce, by simp [hplace], fun h => ?_⟩)
        rw [hplace] at h
        cases h
  | tList elems => exact Or.inr (Or.inr (hlist h (fun _ => id) hx))
  | _ =>
    cases h
    cases hx

/-- The strings with which a derivation is shown are shown as values too, unless it is shown as a
repeated one. -/
theorem value_of_derivation {fuel : ℕ} {v : α} {seen seen' : PathSet}
    (h : xmlCopies env fuel v seen = .ok (l, seen')) {x : XMLCopy} (hx : x ∈ l)
    (hplace : x.place = .derivation) : ∃ y ∈ l, y.place = .value ∧ y.context = x.context := by
  induction fuel generalizing v seen l seen' with
  | zero => cases h
  | succ fuel ih =>
    rcases mem_xmlCopies_cases h hx with ⟨hvalue, -⟩ | ⟨-, -, -, hshown⟩ | ⟨w, s, l', s', hl', hsub, hx⟩
    · rw [hplace] at hvalue
      cases hvalue
    · exact hshown hplace
    · obtain ⟨y, hy, hvalue⟩ := ih hl' hx
      exact ⟨y, hsub y hy, hvalue⟩

/-- The strings that are copied are values. -/
theorem exists_force_of_mem_xmlCopies {fuel : ℕ} {v : α} {seen seen' : PathSet}
    (h : xmlCopies env fuel v seen = .ok (l, seen')) {x : XMLCopy} (hx : x ∈ l) :
    ∃ w, env.forceValue w = .ok (.tString x.text x.context) := by
  induction fuel generalizing v seen l seen' with
  | zero => cases h
  | succ fuel ih =>
    rcases mem_xmlCopies_cases h hx with ⟨-, hforce⟩ | ⟨w, hforce, -⟩ | ⟨w, s, l', s', hl', -, hx⟩
    · exact ⟨v, hforce⟩
    · exact ⟨w, hforce⟩
    · exact ih hl' hx

end

end Nix
