import NixStore.Lib.Bytes
import NixStore.Lib.Parser

/-!
# Strings and lists of the ATerm format

The printing half of the format is in `derivations.cc` (`printString`, `printStrings`), the reading
half in `util.cc` (`expect`, `parseString`, `endOfList`).  This file has both and shows that they
fit: `printString` writes the part of a string in front of its first NUL byte, and `parseString`
reads exactly this part back; a list printed with separating commas and a closing bracket is read
back item by item.
-/

namespace Nix

/-- A reader over an `std::istream` of bytes that throws `Error` messages. -/
abbrev StreamReader (α : Type) := Reader Str UInt8 α

/-! ### Reading -/

section

variable (uninit : Str → Str)

/-- Model of `expect`: the next bytes must be `s`.  They are read into an array that has not been
written before; at the end of the stream fewer bytes are read, and the others are compared as they are.
`uninit s` is what the array had in it.  One function is enough for a run of the parser: behind a
short read that is accepted come reads of other texts, up to a string, which never ends. -/
def expect (s : Str) : StreamReader Unit := fun stream =>
  if (stream ++ (uninit s).drop stream.length).take s.length = s then .ok ((), stream.drop s.length)
  else .error (str "expected string `" ++ s ++ str "'")

end

/-- The byte that an escape sequence stands for. -/
def unescape (c : UInt8) : UInt8 :=
  if c = 'n'.toUInt8 then '\n'.toUInt8
  else if c = 'r'.toUInt8 then '\r'.toUInt8
  else if c = 't'.toUInt8 then '\t'.toUInt8
  else c

/-- The loop of `parseString`.  At the end of the stream `get()` returns `EOF` over and over, which
is never the closing quote, so the loop does not end. -/
def parseStringLoop (res : Str) : Str → Outcome Str (Str × Str)
  | [] => .diverge
  | c :: stream =>
    if c = '"'.toUInt8 then .ok (res, stream)
    else if c = '\\'.toUInt8 then
      match stream with
      | [] => .diverge
      | c :: stream => parseStringLoop (res ++ [unescape c]) stream
    else parseStringLoop (res ++ [c]) stream

/-- Model of `parseString`. -/
def parseString (uninit : Str → Str) : StreamReader Str := do
  expect uninit (str "\"")
  parseStringLoop []

/-- Model of `endOfList`: skips a comma, or a closing bracket that ends the list. -/
def endOfList : StreamReader Bool := fun stream =>
  match stream with
  | [] => .ok (false, [])
  | c :: rest =>
    if c = ','.toUInt8 then .ok (false, rest)
    else if c = ']'.toUInt8 then .ok (true, rest)
    else .ok (false, c :: rest)

/-- `while (!endOfList(str)) acc = step(acc, item(str));`  Every item starts with at least one byte
of its own, so the length of the stream bounds the number of rounds. -/
def whileNotEndOfList {α σ : Type} (item : StreamReader α) (step : σ → α → σ) (acc : σ) :
    StreamReader σ := fun stream =>
  Reader.loop endOfList item step (stream.length + 1) acc stream

/-! ### Printing -/

/-- How `printString` writes one byte. -/
def escapeByte (c : UInt8) : Str :=
  if c = '"'.toUInt8 ∨ c = '\\'.toUInt8 then str "\\" ++ [c]
  else if c = '\n'.toUInt8 then str "\\n"
  else if c = '\r'.toUInt8 then str "\\r"
  else if c = '\t'.toUInt8 then str "\\t"
  else [c]

/-- The loop of `printString` over `s.c_str()`, which ends at the first NUL byte. -/
def printStringLoop : Str → Str
  | [] => []
  | c :: s => if c = 0 then [] else escapeByte c ++ printStringLoop s

/-- Model of `printString` (the text it appends). -/
def printString (s : Str) : Str := str "\"" ++ printStringLoop s ++ str "\""

/-- The items of a list with commas between them; `first` is the flag of the printing loops. -/
def printItems {α : Type} (print : α → Str) (first : Bool) : List α → Str
  | [] => []
  | a :: l => (if first then [] else str ",") ++ print a ++ printItems print false l

/-- Model of `printStrings`. -/
def printStrings (l : List Str) : Str := str "[" ++ printItems printString true l ++ str "]"

/-! ### Printed strings are read back -/

open Reader (Reads)

section

variable {uninit : Str → Str}

/-- What is in the stream is read into the whole array. -/
theorem reads_expect (s : Str) : Reads (expect uninit s) s () := by
  intro rest
  have htake : (s ++ rest ++ (uninit s).drop (s ++ rest).length).take s.length = s := by
    rw [List.append_assoc]
    exact List.take_left
  rw [expect, if_pos htake, List.drop_left]

end

/-- `printString` only looks at the part in front of the first NUL. -/
theorem printStringLoop_eq (s : Str) : printStringLoop s = s.cut.flatMap escapeByte := by
  induction s with
  | nil => rfl
  | cons c s ih =>
    by_cases h : c = 0
    · simp [printStringLoop, Str.cut, h]
    · rw [printStringLoop, if_neg h, ih]
      simp [Str.cut, h]

/-- The loop of `parseString` undoes the escape of one byte. -/
theorem parseStringLoop_escapeByte (res : Str) (c : UInt8) (rest : Str) :
    parseStringLoop res (escapeByte c ++ rest) = parseStringLoop (res ++ [c]) rest := by
  have hbs : ¬ '\\'.toUInt8 = '"'.toUInt8 := by decide
  unfold escapeByte
  split_ifs with h₁ h₂ h₃ h₄
  · have hu : unescape c = c := by
      rcases h₁ with rfl | rfl <;> decide
    change parseStringLoop res ('\\'.toUInt8 :: c :: rest) = _
    rw [parseStringLoop, if_neg hbs, if_pos rfl, hu]
  · change parseStringLoop res ('\\'.toUInt8 :: 'n'.toUInt8 :: rest) = _
    rw [parseStringLoop, if_neg hbs, if_pos rfl, h₂]
    rfl
  · change parseStringLoop res ('\\'.toUInt8 :: 'r'.toUInt8 :: rest) = _
    rw [parseStringLoop, if_neg hbs, if_pos rfl, h₃]
    rfl
  · change parseStringLoop res ('\\'.toUInt8 :: 't'.toUInt8 :: rest) = _
    rw [parseStringLoop, if_neg hbs, if_pos rfl, h₄]
    rfl
  · rw [not_or] at h₁
    change parseStringLoop res (c :: rest) = _
    rw [parseStringLoop.eq_def]
    simp [h₁.1, h₁.2]

/-- An escaped string is read back up to its quotation mark. -/
theorem parseStringLoop_flatMap_escapeByte (res s rest : Str) :
    parseStringLoop res (s.flatMap escapeByte ++ '"'.toUInt8 :: rest) = .ok (res ++ s, rest) := by
  induction s generalizing res with
  | nil =>
    rw [List.flatMap_nil, List.nil_append, parseStringLoop.eq_def]
    simp
  | cons c s ih =>
    rw [List.flatMap_cons, List.append_assoc, parseStringLoop_escapeByte, ih, List.append_assoc,
      List.singleton_append]

/-- What `printString` writes is read as the visible part of the string. -/
theorem reads_parseString {uninit : Str → Str} (s : Str) :
    Reads (parseString uninit) (printString s) s.cut := by
  rw [printString, List.append_assoc]
  refine (reads_expect (str "\"")).bind fun rest => ?_
  rw [printStringLoop_eq, List.append_assoc]
  exact parseStringLoop_flatMap_escapeByte [] s.cut rest

/-- A string without NUL bytes is read back as it is. -/
theorem reads_parseString_of_nulFree {uninit : Str → Str} {s : Str} (h : s.NulFree) :
    Reads (parseString uninit) (printString s) s := by
  simpa [Str.cut_eq_self h] using reads_parseString s

/-! ### Printed lists are read back -/

/-- `text` neither is empty nor starts with a character that `endOfList` consumes. -/
def StartsItem (text : Str) : Prop :=
  ∃ c rest, text = c :: rest ∧ c ≠ ','.toUInt8 ∧ c ≠ ']'.toUInt8

/-- What begins an element: no comma and no bracket. -/
theorem startsItem_cons {c : UInt8} {text : Str} (h : c ≠ ','.toUInt8 ∧ c ≠ ']'.toUInt8) :
    StartsItem (c :: text) := ⟨c, text, rfl, h⟩

/-- A string begins with a quotation mark. -/
theorem startsItem_printString (s : Str) : StartsItem (printString s) :=
  startsItem_cons (by decide)

/-- Before an element the list goes on. -/
theorem endOfList_item {text : Str} (h : StartsItem text) (rest : Str) :
    endOfList (text ++ rest) = .ok (false, text ++ rest) := by
  obtain ⟨c, t, rfl, h₁, h₂⟩ := h
  simp [endOfList, h₁, h₂]

/-- A comma says that the list goes on. -/
theorem reads_endOfList_comma : Reads endOfList (str ",") false := fun _ => rfl

/-- A bracket says that the list ends. -/
theorem reads_endOfList_bracket : Reads endOfList (str "]") true := fun _ => rfl

/-- The loop over the items of a list, from its first item or from a comma on. -/
theorem loop_printItems {α β σ : Type} {print : α → Str} {item : StreamReader β} {val : α → β}
    {step : σ → β → σ} {l : List α} (hitem : ∀ a ∈ l, Reads item (print a) (val a))
    (hstart : ∀ a ∈ l, StartsItem (print a)) (first : Bool) {n : ℕ} (hn : l.length < n) (acc : σ) :
    Reads (Reader.loop endOfList item step n acc) (printItems print first l ++ str "]")
      (l.foldl (fun acc a => step acc (val a)) acc) := by
  induction l generalizing first n acc with
  | nil =>
    obtain ⟨n, rfl⟩ := Nat.exists_eq_succ_of_ne_zero (Nat.ne_of_gt hn)
    exact Reads.loop_stop reads_endOfList_bracket
  | cons a l ih =>
    obtain ⟨n, rfl⟩ := Nat.exists_eq_succ_of_ne_zero (Nat.ne_of_gt (Nat.zero_lt_of_lt hn))
    have htail := ih (fun b hb => hitem b (List.mem_cons_of_mem _ hb))
      (fun b hb => hstart b (List.mem_cons_of_mem _ hb)) false (Nat.lt_of_succ_lt_succ hn)
      (step acc (val a))
    have ha := hitem a List.mem_cons_self
    cases first with
    | false =>
      have hstep := Reads.loop_step reads_endOfList_comma ha htail
      simpa [printItems, List.append_assoc] using hstep
    | true =>
      -- the first item has no comma in front of it, so `endOfList` consumes nothing
      intro rest
      have hend := endOfList_item (hstart a List.mem_cons_self)
        (printItems print false l ++ str "]" ++ rest)
      have hrest := (ha.bind (f := fun b => Reader.loop endOfList item step n (step acc b)) htail) rest
      simp only [printItems, if_true, List.nil_append, List.append_assoc] at hend hrest ⊢
      change Reader.bind endOfList _ _ = _
      rw [Reader.bind, hend]
      exact hrest

/-- There are more characters than elements. -/
theorem length_lt_of_startsItem {α : Type} {print : α → Str} {l : List α}
    (hstart : ∀ a ∈ l, StartsItem (print a)) (first : Bool) (rest : Str) :
    l.length < (printItems print first l ++ str "]" ++ rest).length + 1 := by
  induction l generalizing first with
  | nil => simp
  | cons a l ih =>
    obtain ⟨c, t, ht, -, -⟩ := hstart a List.mem_cons_self
    have hl := ih (fun b hb => hstart b (List.mem_cons_of_mem _ hb)) false
    simp only [printItems, ht, List.length_append, List.length_cons] at hl ⊢
    omega

/-- A printed list is read back by a loop over its items. -/
theorem reads_whileNotEndOfList {α β σ : Type} {print : α → Str} {item : StreamReader β}
    {val : α → β} (step : σ → β → σ) (acc : σ) {l : List α}
    (hitem : ∀ a ∈ l, Reads item (print a) (val a)) (hstart : ∀ a ∈ l, StartsItem (print a)) :
    Reads (whileNotEndOfList item step acc) (printItems print true l ++ str "]")
      (l.foldl (fun acc a => step acc (val a)) acc) := by
  intro rest
  exact loop_printItems hitem hstart true (length_lt_of_startsItem hstart true rest) acc rest

end Nix
