import NixStore.Util.Paths
import NixStore.Lib.Lines

/-!
# Indented strings

Model of `stripIndentation` of `parser.y`.  It runs twice over a list of parts that is cut at arbitrary
places, once to find the indentation and once to remove it.  The result is described line by line
(`stripIndentation_spec`), where each character remembers the part that it comes from.
-/

namespace Nix

/-- An element of the list that `stripIndentation` is given: an `ExprIndStr`, or any other
expression. -/
inductive IndPart (ε : Type) where
  | indStr (s : Str)
  | expr (e : ε)
deriving DecidableEq

/-- An element of the list that it makes: an `ExprString`, or an expression of the first list. -/
inductive StringPart (ε : Type) where
  | string (s : Str)
  | expr (e : ε)
deriving DecidableEq

/-- The expression that it returns: a single part, or an `ExprConcatStrings`. -/
inductive StrippedExpr (ε : Type) where
  | single (part : StringPart ε)
  | concatStrings (es : List (StringPart ε))
deriving DecidableEq

/-- A space. -/
def spaceChar : UInt8 := ' '.toUInt8

/-- The end of a line. -/
def newlineChar : UInt8 := '\n'.toUInt8

/-- `++` for an `unsigned int`. -/
def incrUnsigned (n : ℕ) : ℕ := (n + 1) % 2 ^ 32

/-! ### The minimum indentation -/

/-- The variables of the first loop. -/
structure IndentScan where
  atStartOfLine : Bool
  minIndent : ℕ
  curIndent : ℕ

namespace IndentScan

/-- Something other than a space ends the whitespace at the start of the line. -/
def endIndent (st : IndentScan) : IndentScan :=
  { st with
    atStartOfLine := false
    minIndent := if st.curIndent < st.minIndent then st.curIndent else st.minIndent }

/-- A character of a literal part. -/
def char (st : IndentScan) (c : UInt8) : IndentScan :=
  if st.atStartOfLine then
    if c = spaceChar then { st with curIndent := incrUnsigned st.curIndent }
    -- an empty line doesn't influence the minimum indentation
    else if c = newlineChar then { st with curIndent := 0 }
    else st.endIndent
  else if c = newlineChar then { st with atStartOfLine := true, curIndent := 0 }
  else st

/-- An anti-quotation. -/
def antiquotation (st : IndentScan) : IndentScan := if st.atStartOfLine then st.endIndent else st

/-- A part of the string. -/
def part {ε : Type} (st : IndentScan) : IndPart ε → IndentScan
  | .indStr s => s.foldl char st
  | .expr _ => st.antiquotation

end IndentScan

/-- The minimum indentation. -/
def minIndent {ε : Type} (es : List (IndPart ε)) : ℕ :=
  (es.foldl IndentScan.part ⟨true, 1000000, 0⟩).minIndent

/-! ### The removal of spaces -/

/-- The variables of the second loop. -/
structure DropScan where
  atStartOfLine : Bool
  curDropped : ℕ

namespace DropScan

/-- A character of a literal part, and what it adds to `s2`. -/
def char (minIndent : ℕ) (st : DropScan) (c : UInt8) : DropScan × Str :=
  if st.atStartOfLine then
    if c = spaceChar then
      ({ st with curDropped := incrUnsigned st.curDropped },
        if minIndent ≤ st.curDropped then [c] else [])
    else if c = newlineChar then ({ st with curDropped := 0 }, [c])
    else (⟨false, 0⟩, [c])
  else if c = newlineChar then ({ st with atStartOfLine := true }, [c])
  else (st, [c])

/-- The characters of a literal part, and the string `s2`. -/
def chars (minIndent : ℕ) : DropScan → Str → DropScan × Str
  | st, [] => (st, [])
  | st, c :: s =>
    let (st, added) := st.char minIndent c
    let (st, s2) := chars minIndent st s
    (st, added ++ s2)

end DropScan

/-- Remove the last line if it is empty and consists only of spaces. -/
def removeLastLine (s2 : Str) : Str :=
  let last := (s2.reverse.takeWhile (· ≠ newlineChar)).reverse
  if last.length < s2.length ∧ last.all (· = spaceChar) then s2.take (s2.length - last.length)
  else s2

/-- The second loop. -/
def stripParts {ε : Type} (minIndent : ℕ) : DropScan → List (IndPart ε) → List (StringPart ε)
  | _, [] => []
  | _, .expr e :: es => .expr e :: stripParts minIndent ⟨false, 0⟩ es
  | st, .indStr s :: es =>
    let (st, s2) := st.chars minIndent s
    .string (if es.isEmpty then removeLastLine s2 else s2) :: stripParts minIndent st es

/-- Model of `stripIndentation`. -/
def stripIndentation {ε : Type} (es : List (IndPart ε)) : StrippedExpr ε :=
  if es.isEmpty then .single (.string [])
  else
    match stripParts (minIndent es) ⟨true, 0⟩ es with
    | [part] => .single part
    | es2 => .concatStrings es2

/-! ### The specification -/

/-- A character of a literal part, or an anti-quotation, with the number of its part. -/
structure TextSymbol where
  part : ℕ
  char : Option UInt8
deriving DecidableEq

namespace TextSymbol

/-- Whether the symbol is a space. -/
def isSpace (s : TextSymbol) : Bool := s.char = some spaceChar

/-- Whether the symbol ends a line. -/
def isNewline (s : TextSymbol) : Bool := s.char = some newlineChar

end TextSymbol

section

variable {ε : Type}

/-- The symbols of a part. -/
def IndPart.symbols (i : ℕ) : IndPart ε → List TextSymbol
  | .indStr s => s.map fun c => ⟨i, some c⟩
  | .expr _ => [⟨i, none⟩]

/-- The text of the parts, of which the first has the number `i`. -/
def textFrom : ℕ → List (IndPart ε) → List TextSymbol
  | _, [] => []
  | i, p :: es => p.symbols i ++ textFrom (i + 1) es

/-- The lines of an indented string. -/
def textLines (es : List (IndPart ε)) : List (List TextSymbol) :=
  lines TextSymbol.isNewline (textFrom 0 es)

/-- The characters of a text that come from a part. -/
def partText (t : List TextSymbol) (i : ℕ) : Str :=
  t.filterMap fun s => if s.part = i then s.char else none

/-- If the last line, after a newline, consists of spaces only, these spaces are dropped. -/
def dropLastSpaces (s : Str) : Str :=
  let kept := s.rdropWhile (· = spaceChar)
  if kept.getLast? = some newlineChar then kept else s

/-- The parts with the characters that are left of them in a text. -/
def partsOf (t : List TextSymbol) : ℕ → List (IndPart ε) → List (StringPart ε)
  | _, [] => []
  | i, .expr e :: es => .expr e :: partsOf t (i + 1) es
  | i, .indStr _ :: es =>
    .string (if es.isEmpty then dropLastSpaces (partText t i) else partText t i) ::
      partsOf t (i + 1) es

/-- The parts of the text without its indentation. -/
def unindentParts (es : List (IndPart ε)) : List (StringPart ε) :=
  partsOf (unindentLines TextSymbol.isSpace TextSymbol.isNewline (textFrom 0 es)) 0 es

/-- The expression with these parts; without parts it is the empty string. -/
def exprOfParts : List (StringPart ε) → StrippedExpr ε
  | [] => .single (.string [])
  | [part] => .single part
  | es => .concatStrings es

end

/-! ### The two loops, symbol by symbol -/

section

open TextSymbol

/-- The first loop at a symbol. -/
def IndentScan.symbol (st : IndentScan) (s : TextSymbol) : IndentScan :=
  match s.char with
  | some c => st.char c
  | none => st.antiquotation

/-- The symbols that the second loop keeps. -/
def DropScan.symbols (minIndent : ℕ) : DropScan → List TextSymbol → List TextSymbol
  | _, [] => []
  | st, s :: t =>
    match s.char with
    | some c =>
      ((st.char minIndent c).2.map fun c => ⟨s.part, some c⟩) ++
        symbols minIndent (st.char minIndent c).1 t
    | none => s :: symbols minIndent ⟨false, 0⟩ t

/-- What a symbol is to the two loops. -/
theorem TextSymbol.cases (s : TextSymbol) :
    (s.char = some spaceChar ∧ s.isSpace = true ∧ s.isNewline = false) ∨
      (s.char = some newlineChar ∧ s.isSpace = false ∧ s.isNewline = true) ∨
        s.char ≠ some spaceChar ∧ s.char ≠ some newlineChar ∧ s.isSpace = false ∧
          s.isNewline = false := by
  unfold TextSymbol.isSpace isNewline
  by_cases hspace : s.char = some spaceChar
  · exact Or.inl ⟨hspace, decide_eq_true hspace, by rw [hspace]; decide⟩
  · by_cases hnewline : s.char = some newlineChar
    · exact Or.inr (Or.inl ⟨hnewline, by rw [hnewline]; decide, decide_eq_true hnewline⟩)
    · exact Or.inr (Or.inr ⟨hspace, hnewline, decide_eq_false hspace, decide_eq_false hnewline⟩)

variable {ε : Type}

/-- The first pass goes over the symbols of the text. -/
theorem foldl_part_eq_foldl_symbol (es : List (IndPart ε)) (i : ℕ) (st : IndentScan) :
    es.foldl IndentScan.part st = (textFrom i es).foldl IndentScan.symbol st := by
  induction es generalizing i st with
  | nil => rfl
  | cons p es ih =>
    rw [List.foldl_cons, textFrom, List.foldl_append, ih (i + 1)]
    congr 1
    cases p with
    | indStr s =>
      rw [IndPart.symbols, List.foldl_map]
      rfl
    | expr e => rfl

/-- Below the initial minimum the counter does not overflow. -/
theorem incrUnsigned_eq {n : ℕ} (h : n < 1000000) : incrUnsigned n = n + 1 :=
  Nat.mod_eq_of_lt (by omega)

/-- An anti-quotation ends the indentation, and so does any other character. -/
theorem IndentScan.symbol_of_not {st : IndentScan} {s : TextSymbol}
    (hspace : s.char ≠ some spaceChar) (hnewline : s.char ≠ some newlineChar) :
    st.symbol s = st.antiquotation := by
  unfold symbol
  rcases hc : s.char with _ | c
  · rfl
  · rw [hc, ne_eq, Option.some.injEq] at hspace hnewline
    simp only [char, hspace, hnewline, if_false, antiquotation]

/-- The first loop takes the minimum over the lines that are not blank; at the start of a line
`curIndent` spaces of it have been seen. -/
theorem minIndent_foldl_symbol {t : List TextSymbol} {l : List TextSymbol}
    {ls : List (List TextSymbol)} (ht : lines isNewline t = l :: ls) {st : IndentScan}
    (hl : st.atStartOfLine = true → st.curIndent + leading TextSymbol.isSpace l < 1000000)
    (hls : ∀ l' ∈ ls, leading TextSymbol.isSpace l' < 1000000) :
    (t.foldl IndentScan.symbol st).minIndent =
      ((if st.atStartOfLine && !isBlank TextSymbol.isSpace isNewline l then
        [st.curIndent + leading TextSymbol.isSpace l] else []) ++
          indents TextSymbol.isSpace isNewline ls).foldl min st.minIndent := by
  induction t generalizing st l ls with
  | nil =>
    cases ht
    simp [isBlank, indents]
  | cons s t ih =>
    obtain ⟨l₁, ls₁, ht₁⟩ := @exists_lines_eq_cons _ isNewline t
    rw [List.foldl_cons]
    rcases s.cases with ⟨hs, hspace, hnewline⟩ | ⟨hs, hspace, hnewline⟩ |
      ⟨hs, hs', hspace, hnewline⟩
    · -- a space
      rw [lines_cons hnewline ht₁] at ht
      cases ht
      rw [leading_cons_space hspace] at hl ⊢
      rw [isBlank_cons, hspace, Bool.true_or, Bool.true_and]
      rcases hst : st.atStartOfLine with _ | _
      · have hsame : st.symbol s = st := by
          simp only [IndentScan.symbol, hs, IndentScan.char, hst]
          rfl
        rw [hsame, ih ht₁ (by simp [hst]) hls, hst]
        simp
      · have hl := hl hst
        have hnext : st.symbol s = { st with curIndent := st.curIndent + 1 } := by
          simp only [IndentScan.symbol, hs, IndentScan.char, hst, if_true]
          rw [incrUnsigned_eq (by omega)]
        rw [hnext, ih ht₁ (fun _ => by dsimp only; omega) hls]
        simp only [hst, Nat.add_assoc, Nat.add_comm 1]
    · -- the end of the line
      rw [lines_cons_newline hnewline, ht₁] at ht
      cases ht
      have hnext : st.symbol s = { st with atStartOfLine := true, curIndent := 0 } := by
        simp only [IndentScan.symbol, hs, IndentScan.char]
        rcases hst : st.atStartOfLine with _ | _ <;> rfl
      rw [List.forall_mem_cons] at hls
      rw [hnext, ih ht₁ (fun _ => by simpa using hls.1) hls.2, indents_cons, isBlank_cons, hnewline]
      cases hblank : isBlank TextSymbol.isSpace isNewline l₁ <;> simp [isBlank]
    · -- something else
      rw [lines_cons hnewline ht₁] at ht
      cases ht
      rw [IndentScan.symbol_of_not hs hs', leading_cons_of_not hspace, isBlank_cons, hspace,
        hnewline]
      rcases hst : st.atStartOfLine with _ | _
      · have hsame : st.antiquotation = st := by simp [IndentScan.antiquotation, hst]
        rw [hsame, ih ht₁ (by simp [hst]) hls, hst]
        simp
      · have hnext : st.antiquotation = st.endIndent := by
          simp [IndentScan.antiquotation, hst]
        have hmin : st.endIndent.minIndent = min st.minIndent st.curIndent := by
          simp only [IndentScan.endIndent]
          split_ifs <;> omega
        rw [hnext, ih ht₁ (by simp [IndentScan.endIndent]) hls, hmin]
        simp [IndentScan.endIndent]

/-- The second loop drops spaces at the start of each line; of the first line `curDropped` spaces have
been dropped already. -/
theorem DropScan.symbols_eq {m : ℕ} {t : List TextSymbol} {l : List TextSymbol}
    {ls : List (List TextSymbol)} (ht : lines isNewline t = l :: ls) {st : DropScan}
    (hst : st.atStartOfLine = false → st.curDropped = 0)
    (hl : st.atStartOfLine = true → st.curDropped + leading TextSymbol.isSpace l < 1000000)
    (hls : ∀ l' ∈ ls, leading TextSymbol.isSpace l' < 1000000) :
    DropScan.symbols m st t =
      (if st.atStartOfLine then l.drop (min (m - st.curDropped) (leading TextSymbol.isSpace l))
        else l) ++
        ls.flatMap (unindent TextSymbol.isSpace (some m)) := by
  induction t generalizing st l ls with
  | nil =>
    cases ht
    simp [DropScan.symbols]
  | cons s t ih =>
    obtain ⟨l₁, ls₁, ht₁⟩ := @exists_lines_eq_cons _ isNewline t
    rcases s.cases with ⟨hs, hspace, hnewline⟩ | ⟨hs, hspace, hnewline⟩ |
      ⟨hs, hs', hspace, hnewline⟩
    · -- a space
      rw [lines_cons hnewline ht₁] at ht
      cases ht
      have hchar : (⟨s.part, some spaceChar⟩ : TextSymbol) = s := by rw [← hs]
      rw [leading_cons_space hspace] at hl ⊢
      rcases hstart : st.atStartOfLine with _ | _
      · have hnext : st.char m spaceChar = (st, [spaceChar]) := by
          simp only [char, hstart]
          rfl
        simp only [symbols, hs, hnext]
        rw [ih ht₁ hst (by simp [hstart]) hls, hstart]
        simp [hchar]
      · have hl := hl hstart
        have hnext : st.char m spaceChar = ({ st with curDropped := st.curDropped + 1 },
            if m ≤ st.curDropped then [spaceChar] else []) := by
          simp only [char, hstart, if_true]
          rw [incrUnsigned_eq (by omega)]
        simp only [symbols, hs, hnext]
        rw [ih ht₁ (by simp [hstart]) (fun _ => by dsimp only; omega) hls]
        simp only [hstart, if_true]
        by_cases hm : m ≤ st.curDropped
        · have hzero : m - st.curDropped = 0 := by omega
          have hzero' : m - (st.curDropped + 1) = 0 := by omega
          simp [hm, hzero, hzero', hchar]
        · have hsucc : min (m - st.curDropped) (leading TextSymbol.isSpace l₁ + 1) =
              min (m - (st.curDropped + 1)) (leading TextSymbol.isSpace l₁) + 1 := by omega
          rw [if_neg hm, hsucc, List.drop_succ_cons]
          rfl
    · -- the end of the line
      rw [lines_cons_newline hnewline, ht₁] at ht
      cases ht
      have hchar : (⟨s.part, some newlineChar⟩ : TextSymbol) = s := by rw [← hs]
      have hnext : st.char m newlineChar = (⟨true, 0⟩, [newlineChar]) := by
        rcases hstart : st.atStartOfLine with _ | _
        · simp only [char, hstart, hst hstart]
          rfl
        · simp only [char, hstart]
          rfl
      rw [List.forall_mem_cons] at hls
      simp only [symbols, hs, hnext]
      rw [ih ht₁ (by simp) (fun _ => by simpa using hls.1) hls.2, leading_cons_of_not hspace]
      simp [hchar, unindent]
    · -- something else
      rw [lines_cons hnewline ht₁] at ht
      cases ht
      rw [leading_cons_of_not hspace]
      have hnext : symbols m st (s :: t) = s :: symbols m ⟨false, 0⟩ t := by
        rcases hc : s.char with _ | c
        · simp only [symbols, hc]
        · rw [hc, ne_eq, Option.some.injEq] at hs hs'
          have hkeep : st.char m c = (⟨false, 0⟩, [c]) := by
            rcases hstart : st.atStartOfLine with _ | _
            · have : st = ⟨false, 0⟩ := by rw [← hstart, ← hst hstart]
              simp [char, this, hs']
            · simp [char, hstart, hs, hs']
          simp only [symbols, hc, hkeep, List.map_singleton, List.singleton_append]
          rw [← hc]
      rw [hnext, ih ht₁ (by simp) (by simp) hls]
      simp

/-! ### Parts -/

/-- No line has so many leading spaces that they exceed the initial value of `minIndent`. -/
def IndentBounded (es : List (IndPart ε)) : Prop :=
  ∀ l ∈ textLines es, leading TextSymbol.isSpace l < 1000000

/-- The least indentation is the least of the lines that have something behind their spaces. -/
theorem minIndent_eq {es : List (IndPart ε)} (h : IndentBounded es) :
    minIndent es = (indents TextSymbol.isSpace isNewline (textLines es)).foldl min 1000000 := by
  obtain ⟨l, ls, ht⟩ := @exists_lines_eq_cons _ isNewline (textFrom 0 es)
  have hlines : textLines es = l :: ls := ht
  rw [IndentBounded, hlines, List.forall_mem_cons] at h
  rw [minIndent, foldl_part_eq_foldl_symbol es 0,
    minIndent_foldl_symbol ht (fun _ => by simpa using h.1) h.2, hlines, indents_cons]
  cases isBlank TextSymbol.isSpace isNewline l <;> simp

/-- The minimum that starts at a great number is the least element, if there is one. -/
theorem foldl_min_eq {l : List ℕ} {n : ℕ} (h : ∀ a ∈ l, a < n) : l.foldl min n = l.min?.getD n := by
  cases l with
  | nil => rfl
  | cons a l =>
    rw [List.foldl_cons, List.min?_cons', min_eq_right (h a List.mem_cons_self).le]
    rfl

/-- The second pass drops the indentation of every line. -/
theorem symbols_eq_unindentLines {es : List (IndPart ε)} (h : IndentBounded es) :
    DropScan.symbols (minIndent es) ⟨true, 0⟩ (textFrom 0 es) =
      unindentLines TextSymbol.isSpace isNewline (textFrom 0 es) := by
  obtain ⟨l, ls, ht⟩ := @exists_lines_eq_cons _ isNewline (textFrom 0 es)
  have hlines : textLines es = l :: ls := ht
  have hbound : ∀ l' ∈ l :: ls, leading TextSymbol.isSpace l' < 1000000 := hlines ▸ h
  have hmin : minIndent es =
      ((indents TextSymbol.isSpace isNewline (l :: ls)).min?).getD 1000000 := by
    rw [minIndent_eq h, hlines]
    refine foldl_min_eq fun a ha => ?_
    obtain ⟨l', hl', rfl⟩ := List.mem_map.mp ha
    exact hbound l' (List.mem_filter.mp hl').1
  -- without lines that count, the minimum exceeds the number of spaces of every line
  have hline : ∀ l' ∈ l :: ls, unindent TextSymbol.isSpace (some (minIndent es)) l' =
      unindent TextSymbol.isSpace (indents TextSymbol.isSpace isNewline (l :: ls)).min? l' := by
    intro l' hl'
    rw [hmin]
    rcases (indents TextSymbol.isSpace isNewline (l :: ls)).min? with _ | m
    · rw [Option.getD_none, unindent, unindent, min_eq_right (hbound l' hl').le]
    · rfl
  rw [List.forall_mem_cons] at hbound
  rw [DropScan.symbols_eq ht (by simp) (fun _ => by simpa using hbound.1) hbound.2, unindentLines,
    ht, List.flatMap_cons, ← hline l List.mem_cons_self, if_pos rfl, Nat.sub_zero, unindent]
  congr 1
  exact List.flatMap_congr fun l' hl' => hline l' (List.mem_cons_of_mem _ hl')

/-- The second pass over a string and what follows. -/
theorem DropScan.symbols_append (m : ℕ) (st : DropScan) (i : ℕ) (s : Str) (t : List TextSymbol) :
    DropScan.symbols m st ((s.map fun c => ⟨i, some c⟩) ++ t) =
      ((st.chars m s).2.map fun c => ⟨i, some c⟩) ++ DropScan.symbols m (st.chars m s).1 t := by
  induction s generalizing st with
  | nil => rfl
  | cons c s ih =>
    rw [List.map_cons, List.cons_append]
    simp only [symbols, chars]
    rw [ih, List.map_append, List.append_assoc]

/-- The text of a part, of two texts. -/
theorem partText_append (t t' : List TextSymbol) (i : ℕ) :
    partText (t ++ t') i = partText t i ++ partText t' i :=
  List.filterMap_append

/-- A part that does not occur has no text. -/
theorem partText_eq_nil {t : List TextSymbol} {i : ℕ} (h : ∀ s ∈ t, s.part ≠ i) :
    partText t i = [] :=
  List.filterMap_eq_nil_iff.mpr fun s hs => if_neg (h s hs)

/-- The text of the part a string was made from. -/
theorem partText_map (s : Str) (i : ℕ) : partText (s.map fun c => ⟨i, some c⟩) i = s := by
  simp [partText, List.filterMap_map]

/-- What the second loop keeps comes from the parts that are left. -/
theorem le_part_of_mem_symbols {m : ℕ} {st : DropScan} {t : List TextSymbol} {i : ℕ}
    (ht : ∀ s ∈ t, i ≤ s.part) : ∀ s ∈ DropScan.symbols m st t, i ≤ s.part := by
  induction t generalizing st with
  | nil => simp [DropScan.symbols]
  | cons a t ih =>
    rw [List.forall_mem_cons] at ht
    intro s hs
    unfold DropScan.symbols at hs
    split at hs
    · rcases List.mem_append.mp hs with hs | hs
      · obtain ⟨c, -, rfl⟩ := List.mem_map.mp hs
        exact ht.1
      · exact ih ht.2 s hs
    · rcases List.mem_cons.mp hs with rfl | hs
      · exact ht.1
      · exact ih ht.2 s hs

/-- Parts are numbered from the start. -/
theorem le_part_of_mem_textFrom {es : List (IndPart ε)} {i : ℕ} :
    ∀ s ∈ textFrom i es, i ≤ s.part := by
  induction es generalizing i with
  | nil => simp [textFrom]
  | cons p es ih =>
    intro s hs
    rcases List.mem_append.mp hs with hs | hs
    · cases p with
      | indStr s' =>
        obtain ⟨c, -, rfl⟩ := List.mem_map.mp hs
        exact le_rfl
      | expr e =>
        rw [List.mem_singleton.mp hs]
    · exact (Nat.le_succ i).trans (ih s hs)

/-- If a line of spaces, read backwards, comes after a newline, it is the last line. -/
theorem takeWhile_eq_of_dropWhile {r r' : Str}
    (h : r.dropWhile (· = spaceChar) = newlineChar :: r') :
    r.takeWhile (· ≠ newlineChar) = r.takeWhile (· = spaceChar) := by
  have hspaces : ∀ c ∈ r.takeWhile (· = spaceChar), c ≠ newlineChar := by
    intro c hc
    have hc : c = spaceChar := by simpa using List.mem_takeWhile_imp hc
    rw [hc]
    decide
  have hsplit := List.takeWhile_append_dropWhile (p := fun c => decide (c = spaceChar)) (l := r)
  rw [h] at hsplit
  conv_lhs => rw [← hsplit]
  rw [List.takeWhile_append_of_pos fun c hc => by simpa using hspaces c hc]
  simp

/-- A line of spaces is what drops to a newline. -/
theorem dropWhile_eq_newline_iff {r : Str} :
    (∃ r', r.dropWhile (· = spaceChar) = newlineChar :: r') ↔
      (r.takeWhile (· ≠ newlineChar)).length < r.length ∧
        ∀ c ∈ r.takeWhile (· ≠ newlineChar), c = spaceChar := by
  constructor
  · rintro ⟨r', hr'⟩
    rw [takeWhile_eq_of_dropWhile hr']
    refine ⟨?_, fun c hc => by simpa using List.mem_takeWhile_imp hc⟩
    have hsplit := List.takeWhile_append_dropWhile (p := fun c => decide (c = spaceChar)) (l := r)
    conv_rhs => rw [← hsplit, hr']
    simp
  · rintro ⟨hlen, hspaces⟩
    have hsplit := List.takeWhile_append_dropWhile (p := fun c => decide (c ≠ newlineChar)) (l := r)
    have hhead := List.head?_dropWhile_not (fun c => decide (c ≠ newlineChar)) r
    rcases hdrop : r.dropWhile (· ≠ newlineChar) with _ | ⟨c, r'⟩
    · rw [hdrop, List.append_nil] at hsplit
      exact absurd hlen (by rw [hsplit]; exact lt_irrefl _)
    · rw [hdrop] at hhead hsplit
      obtain rfl : c = newlineChar := by simpa using hhead
      refine ⟨r', ?_⟩
      rw [← hsplit, List.dropWhile_append_of_pos fun c hc => by simpa using hspaces c hc]
      exact List.dropWhile_cons_of_neg (by decide)

/-- Both ways to look at the last line drop the same. -/
theorem removeLastLine_eq (s : Str) : removeLastLine s = dropLastSpaces s := by
  obtain ⟨r, rfl⟩ : ∃ r, s = r.reverse := ⟨s.reverse, (List.reverse_reverse s).symm⟩
  have hlast : (r.dropWhile (· = spaceChar)).reverse.getLast? = some newlineChar ↔
      ∃ r', r.dropWhile (· = spaceChar) = newlineChar :: r' := by
    rw [List.getLast?_reverse, List.head?_eq_some_iff]
  unfold removeLastLine dropLastSpaces
  simp only [List.rdropWhile, List.reverse_reverse, List.length_reverse, hlast,
    dropWhile_eq_newline_iff, List.all_reverse, List.all_eq_true, decide_eq_true_eq]
  by_cases h : (r.takeWhile (· ≠ newlineChar)).length < r.length ∧
      ∀ c ∈ r.takeWhile (· ≠ newlineChar), c = spaceChar
  · obtain ⟨r', hr'⟩ := dropWhile_eq_newline_iff.mpr h
    have hsplit := List.takeWhile_append_dropWhile (p := fun c => decide (c = spaceChar)) (l := r)
    have hdrop := congrArg (List.drop (r.takeWhile (· = spaceChar)).length) hsplit
    rw [List.drop_left] at hdrop
    have hle : (r.takeWhile (· = spaceChar)).length ≤ r.length :=
      (List.takeWhile_prefix _).length_le
    rw [if_pos h, if_pos h, takeWhile_eq_of_dropWhile hr', List.take_reverse,
      Nat.sub_sub_self hle, ← hdrop]
  · rw [if_neg h, if_neg h]

/-- The second loop returns the parts of the text that it keeps. -/
theorem stripParts_eq_partsOf (m : ℕ) (st : DropScan) (i : ℕ) (es : List (IndPart ε))
    {before : List TextSymbol} (hbefore : ∀ s ∈ before, s.part < i) :
    stripParts m st es = partsOf (before ++ DropScan.symbols m st (textFrom i es)) i es := by
  induction es generalizing st i before with
  | nil => rfl
  | cons p es ih =>
    cases p with
    | expr e =>
      have hnext := @ih ⟨false, 0⟩ (i + 1) (before ++ [⟨i, none⟩]) (by
        intro s hs
        rcases List.mem_append.mp hs with hs | hs
        · exact (hbefore s hs).trans (Nat.lt_succ_self i)
        · rw [List.mem_singleton.mp hs]
          exact Nat.lt_succ_self i)
      rw [stripParts, partsOf, hnext, List.append_assoc]
      rfl
    | indStr s =>
      have hnext := @ih (st.chars m s).1 (i + 1)
        (before ++ (st.chars m s).2.map fun c => ⟨i, some c⟩) (by
        intro s' hs
        rcases List.mem_append.mp hs with hs | hs
        · exact (hbefore s' hs).trans (Nat.lt_succ_self i)
        · obtain ⟨c, -, rfl⟩ := List.mem_map.mp hs
          exact Nat.lt_succ_self i)
      have htext : before ++ DropScan.symbols m st (textFrom i (.indStr s :: es)) =
          before ++ ((st.chars m s).2.map fun c => ⟨i, some c⟩) ++
            DropScan.symbols m (st.chars m s).1 (textFrom (i + 1) es) := by
        rw [textFrom, IndPart.symbols, DropScan.symbols_append, List.append_assoc]
      have hafter := @le_part_of_mem_symbols m (st.chars m s).1 _ _
        (@le_part_of_mem_textFrom _ es (i + 1))
      have hpart : partText (before ++ DropScan.symbols m st (textFrom i (.indStr s :: es))) i =
          (st.chars m s).2 := by
        rw [htext, partText_append, partText_append, partText_map,
          partText_eq_nil fun s hs => (hbefore s hs).ne,
          partText_eq_nil fun s hs => (Nat.lt_of_succ_le (hafter s hs)).ne', List.nil_append,
          List.append_nil]
      rw [partsOf, hpart, htext, ← hnext, stripParts]
      simp only [removeLastLine_eq]

/-- The second loop makes the parts of the specification. -/
theorem stripParts_eq {es : List (IndPart ε)} (h : IndentBounded es) :
    stripParts (minIndent es) ⟨true, 0⟩ es = unindentParts es := by
  have hparts := @stripParts_eq_partsOf _ (minIndent es) ⟨true, 0⟩ 0 es [] (by simp)
  rw [hparts, List.nil_append, symbols_eq_unindentLines h, unindentParts]

/-- The first part of the result. -/
theorem stripIndentation_cons (p : IndPart ε) (es : List (IndPart ε)) :
    stripIndentation (p :: es) =
      exprOfParts (stripParts (minIndent (p :: es)) ⟨true, 0⟩ (p :: es)) := by
  have hne : stripParts (minIndent (p :: es)) ⟨true, 0⟩ (p :: es) ≠ [] := by
    cases p <;> simp [stripParts]
  rw [stripIndentation]
  rcases hparts : stripParts (minIndent (p :: es)) ⟨true, 0⟩ (p :: es) with _ | ⟨q, _ | ⟨q', qs⟩⟩
  · exact absurd hparts hne
  · simp [exprOfParts]
  · simp [exprOfParts]

end

/-! ### More spaces in front of every line -/

section

variable {ε : Type}

/-- A literal with `k` spaces behind every newline. -/
def indentLiteral (k : ℕ) (s : Str) : Str :=
  s.flatMap fun c => if c = newlineChar then c :: List.replicate k spaceChar else [c]

/-- A part with `k` spaces behind every newline. -/
def IndPart.indent (k : ℕ) : IndPart ε → IndPart ε
  | .indStr s => .indStr (indentLiteral k s)
  | .expr e => .expr e

/-- The parts with `k` spaces in front of every line.  In front of an anti-quotation at the start they
make a part of their own. -/
def indentParts (k : ℕ) : List (IndPart ε) → List (IndPart ε)
  | .indStr s :: es =>
    .indStr (List.replicate k spaceChar ++ indentLiteral k s) :: es.map (IndPart.indent k)
  | es => .indStr (List.replicate k spaceChar) :: es.map (IndPart.indent k)

/-- The text begins with an anti-quotation. -/
def startsWithExpr : List (IndPart ε) → Bool
  | .expr _ :: _ => true
  | _ => false

/-- A space in the part of a symbol. -/
def TextSymbol.toSpace (s : TextSymbol) : TextSymbol := ⟨s.part, some spaceChar⟩

open TextSymbol

/-- Indenting the parts indents the text. -/
theorem textFrom_map_indent (k i : ℕ) (es : List (IndPart ε)) :
    textFrom i (es.map (IndPart.indent k)) = indentText isNewline toSpace k (textFrom i es) := by
  induction es generalizing i with
  | nil => rfl
  | cons p es ih =>
    rw [List.map_cons, textFrom, textFrom, ih, indentText, indentText, List.flatMap_append]
    congr 1
    cases p with
    | expr e => rfl
    | indStr s =>
      rw [IndPart.indent, IndPart.symbols, IndPart.symbols, indentLiteral, List.map_flatMap,
        List.flatMap_map]
      refine List.flatMap_congr fun c _ => ?_
      by_cases hc : c = newlineChar
      · simp [hc, isNewline, toSpace]
      · simp [hc, isNewline]

/-- Indenting keeps the parts. -/
theorem partsOf_map_indent (t : List TextSymbol) (k i : ℕ) (es : List (IndPart ε)) :
    partsOf t i (es.map (IndPart.indent k)) = partsOf t i es := by
  induction es generalizing i with
  | nil => rfl
  | cons p es ih =>
    cases p with
    | expr e => rw [List.map_cons, IndPart.indent, partsOf, partsOf, ih]
    | indStr s =>
      rw [List.map_cons, IndPart.indent, partsOf, partsOf, ih]
      simp

/-- Each line of a string that starts with a literal gets its spaces. -/
theorem indented_indentParts (k : ℕ) (s : Str) (es : List (IndPart ε)) :
    Indented TextSymbol.isSpace k (textLines (.indStr s :: es))
      (textLines (indentParts k (.indStr s :: es))) := by
  obtain ⟨l, ls, ht⟩ := @exists_lines_eq_cons _ isNewline (textFrom 0 (.indStr s :: es))
  obtain ⟨ls', hls', hind⟩ := @lines_indentText _ TextSymbol.isSpace _ toSpace (fun _ => rfl)
    (fun _ => rfl) k _ _ _ ht
  have htext : textFrom 0 (indentParts k (.indStr s :: es)) =
      List.replicate k ⟨0, some spaceChar⟩ ++
        indentText isNewline toSpace k (textFrom 0 (.indStr s :: es)) := by
    rw [← textFrom_map_indent, List.map_cons, indentParts, textFrom, textFrom, IndPart.indent,
      IndPart.symbols, IndPart.symbols, List.map_append, List.map_replicate, List.append_assoc]
  rw [textLines, textLines, htext, ht, lines_append_of_not _ hls']
  · exact .cons ⟨_, List.length_replicate, fun c hc => (List.mem_replicate.mp hc).2 ▸ rfl, rfl⟩ hind
  · exact fun c hc => (List.mem_replicate.mp hc).2 ▸ rfl

/-- Indenting by any amount is taken back. -/
theorem unindentParts_indentParts (k : ℕ) (s : Str) (es : List (IndPart ε)) :
    unindentParts (indentParts k (.indStr s :: es)) = unindentParts (.indStr s :: es) := by
  rw [unindentParts, unindentLines_of_indented (indented_indentParts k s es), unindentParts,
    indentParts, partsOf, partsOf, partsOf_map_indent]
  simp

/-- The result of `stripIndentation` is that of the description by lines.  More spaces in front of every
line make no difference, but for an empty literal in front of an anti-quotation at the start. -/
theorem stripIndentation_spec {es : List (IndPart ε)} (h : IndentBounded es) :
    stripIndentation es = exprOfParts (unindentParts es) ∧
      ∀ k, IndentBounded (indentParts k es) → stripIndentation (indentParts k es) =
        if startsWithExpr es then exprOfParts (.string [] :: unindentParts es)
        else stripIndentation es := by
  have hspec : ∀ {es : List (IndPart ε)}, IndentBounded es →
      stripIndentation es = exprOfParts (unindentParts es) := by
    intro es h
    cases es with
    | nil => rfl
    | cons p es => rw [stripIndentation_cons, stripParts_eq h]
  refine ⟨hspec h, fun k hk => ?_⟩
  rw [hspec hk, hspec h]
  -- without a literal at the start, the spaces go to an empty one
  have hinsert : ∀ es : List (IndPart ε), (∀ s es', es ≠ .indStr s :: es') →
      indentParts k es = indentParts k (.indStr [] :: es) := by
    intro es hes
    rcases es with _ | ⟨_ | e, es⟩
    · simp [indentParts, indentLiteral]
    · exact absurd rfl (hes _ _)
    · simp [indentParts, indentLiteral]
  rcases es with _ | ⟨s | e, es⟩
  · rw [hinsert [] (by simp), unindentParts_indentParts]
    rfl
  · rw [unindentParts_indentParts]
    rfl
  · have heq := hinsert (.expr e :: es) (by simp)
    have hbounded : IndentBounded (.indStr [] :: .expr e :: es) :=
      (indented_indentParts k [] (.expr e :: es)).leading_le (heq ▸ hk)
    rw [heq, unindentParts_indentParts, ← stripParts_eq hbounded, ← stripParts_eq h]
    rfl

/-- The specification at a string of two lines, of which the second one has an anti-quotation. -/
theorem stripIndentation_spec_sample :
    stripIndentation [.indStr (str "    a\n  "), .expr 0, .indStr (str " b\n ")] =
      .concatStrings [.string (str "  a\n"), .expr 0, .string (str " b\n")] := by
  have hspec := @stripIndentation_spec ℕ
    [.indStr (str "    a\n  "), .expr 0, .indStr (str " b\n ")] (by unfold IndentBounded; decide)
  rw [hspec.1]
  decide

/-- Spaces in front of an anti-quotation at the start make a difference. -/
theorem stripIndentation_indent_ne : ¬ ∀ (es : List (IndPart ℕ)) (k : ℕ), IndentBounded es →
    IndentBounded (indentParts k es) →
      stripIndentation (indentParts k es) = stripIndentation es := by
  intro h
  have hdiff := h [.expr 0] 2 (by unfold IndentBounded; decide) (by unfold IndentBounded; decide)
  exact absurd hdiff (by decide)

end

end Nix
