import NixStore.Lib.Bytes
import NixStore.Lib.LineBreaks

/-!
# Positions of tokens

Model of `initLoc` and `adjustLoc` of `lexer.l`.  The text of a token lies in a buffer, and
`adjustLoc` gets a pointer to it and a length.  At a carriage return it looks at the next character,
and skips it if it is a line feed, without counting it, so that the loop goes on behind the token by
as many characters as there are pairs in it.
-/

namespace Nix

/-- A carriage return. -/
def crChar : UInt8 := '\r'.toUInt8

/-- A line feed. -/
def lfChar : UInt8 := '\n'.toUInt8

/-- Model of `YYLTYPE`. -/
structure Location where
  firstLine : ℕ
  firstColumn : ℕ
  lastLine : ℕ
  lastColumn : ℕ
deriving DecidableEq

/-- A token, and what stands behind it in the buffer. -/
structure LexerToken where
  text : Str
  beyond : ℕ → UInt8

namespace Location

/-- Model of `initLoc`. -/
def initLoc : Location := ⟨1, 1, 1, 1⟩

/-- Where the token begins. -/
def first (loc : Location) : ℕ × ℕ := (loc.firstLine, loc.firstColumn)

/-- Where the token ends. -/
def last (loc : Location) : ℕ × ℕ := (loc.lastLine, loc.lastColumn)

/-- A line break. -/
def newLine (loc : Location) : Location := { loc with lastLine := loc.lastLine + 1, lastColumn := 1 }

/-- Another character. -/
def nextColumn (loc : Location) : Location := { loc with lastColumn := loc.lastColumn + 1 }

/-- The loop of `adjustLoc` over the memory from the token on: `len` more rounds from `pos`, where
`read` characters have been looked at.  Returns how many characters have been looked at in the end. -/
def adjustLoop (s : ℕ → UInt8) : ℕ → ℕ → ℕ → Location → Location × ℕ
  | 0, _, read, loc => (loc, read)
  | len + 1, pos, _, loc =>
    if s pos = crChar then
      let next := if s (pos + 1) = lfChar then pos + 2 else pos + 1
      adjustLoop s len next (pos + 2) loc.newLine
    else if s pos = lfChar then adjustLoop s len (pos + 1) (pos + 1) loc.newLine
    else adjustLoop s len (pos + 1) (pos + 1) loc.nextColumn

end Location

/-- The memory from the first character of a token on. -/
def LexerToken.memory (t : LexerToken) (i : ℕ) : UInt8 :=
  if h : i < t.text.length then t.text[i] else t.beyond (i - t.text.length)

/-- Model of `adjustLoc`, with the number of characters that it looks at. -/
def adjustLoc (loc : Location) (t : LexerToken) : Location × ℕ :=
  Location.adjustLoop t.memory t.text.length 0 0
    { loc with firstLine := loc.lastLine, firstColumn := loc.lastColumn }

/-- The location after some tokens. -/
def adjustAll (tokens : List LexerToken) : Location :=
  tokens.foldl (fun loc t => (adjustLoc loc t).1) .initLoc

/-- The text of some tokens. -/
def textOf (tokens : List LexerToken) : Str := tokens.flatMap LexerToken.text

/-- No line break is cut by a boundary between tokens. -/
def KeepsBreaks (tokens : List LexerToken) : Prop :=
  ∀ before after, tokens = before ++ after → ¬ CutsBreak crChar lfChar (textOf before) (textOf after)

/-- Each token begins at the position that is counted on the text before it. -/
def PositionsCounted (tokens : List LexerToken) : Prop :=
  ∀ before t after, tokens = before ++ t :: after →
    (adjustLoc (adjustAll before) t).1.first =
      endPosition lfChar (normalizeBreaks crChar lfChar (textOf before))

/-- No token is left while the location is adjusted to it. -/
def ReadsWithin (tokens : List LexerToken) : Prop :=
  ∀ before t after, tokens = before ++ t :: after →
    (adjustLoc (adjustAll before) t).2 ≤ t.text.length

/-! ### The loop -/

namespace Location

/-- The place behind a line feed. -/
@[simp] theorem last_newLine (loc : Location) :
    loc.newLine.last = nextPosition lfChar loc.last lfChar := by
  simp [last, newLine, nextPosition]

/-- The place behind any other character. -/
theorem last_nextColumn (loc : Location) {c : UInt8} (hc : c ≠ lfChar) :
    loc.nextColumn.last = nextPosition lfChar loc.last c := by
  simp [last, nextColumn, nextPosition, hc]

variable {s : ℕ → UInt8} {len pos read : ℕ} {loc : Location}

/-- What a round does: it looks at a character, goes on and moves the position. -/
theorem adjustLoop_succ : ∃ pos' read' loc',
    adjustLoop s (len + 1) pos read loc = adjustLoop s len pos' read' loc' ∧
      pos < pos' ∧ pos < read' ∧ loc'.first = loc.first ∧ toLex loc.last < toLex loc'.last := by
  have hline : toLex loc.last < toLex loc.newLine.last := last_newLine loc ▸ lt_nextPosition _ _
  by_cases hcr : s pos = crChar
  · refine ⟨_, pos + 2, loc.newLine, by rw [adjustLoop, if_pos hcr], ?_, by omega, rfl, hline⟩
    split_ifs <;> omega
  by_cases hlf : s pos = lfChar
  · exact ⟨pos + 1, pos + 1, loc.newLine, by rw [adjustLoop, if_neg hcr, if_pos hlf], by omega,
      by omega, rfl, hline⟩
  · refine ⟨pos + 1, pos + 1, loc.nextColumn, by rw [adjustLoop, if_neg hcr, if_neg hlf], by omega,
      by omega, rfl, ?_⟩
    rw [last_nextColumn loc hlf]
    exact lt_nextPosition _ _

/-- What has been looked at stays so, the beginning of the token stays, and its end does not move
back. -/
theorem adjustLoop_spec {n : ℕ} (hpos : n < pos) (hread : n < read) :
    n < (adjustLoop s len pos read loc).2 ∧ (adjustLoop s len pos read loc).1.first = loc.first ∧
      toLex loc.last ≤ toLex (adjustLoop s len pos read loc).1.last := by
  induction len generalizing pos read loc with
  | zero => exact ⟨hread, rfl, le_rfl⟩
  | succ len ih =>
    obtain ⟨pos', read', loc', heq, hpos', hread', hfirst, hlast⟩ :=
      @adjustLoop_succ s len pos read loc
    obtain ⟨hn, hf, hl⟩ := @ih pos' read' loc' (hpos.trans hpos') (hpos.trans hread')
    rw [heq]
    exact ⟨hn, hf.trans hfirst, hlast.le.trans hl⟩

/-- As long as rounds are left, the character at which the loop is gets looked at, and the position
moves on. -/
theorem adjustLoop_succ_spec : pos < (adjustLoop s (len + 1) pos read loc).2 ∧
    (adjustLoop s (len + 1) pos read loc).1.first = loc.first ∧
      toLex loc.last < toLex (adjustLoop s (len + 1) pos read loc).1.last := by
  obtain ⟨pos', read', loc', heq, hpos', hread', hfirst, hlast⟩ :=
    @adjustLoop_succ s len pos read loc
  obtain ⟨hn, hf, hl⟩ := @adjustLoop_spec s len pos' read' loc' _ hpos' hread'
  rw [heq]
  exact ⟨hn, hf.trans hfirst, hlast.trans_le hl⟩

/-- A text lies in memory. -/
def HoldsAt (s : ℕ → UInt8) : ℕ → Str → Prop
  | _, [] => True
  | pos, c :: w => s pos = c ∧ HoldsAt s (pos + 1) w

/-- Where the end of a text has been looked at: also behind a carriage return. -/
def readEnd (w : Str) : ℕ := w.length + if w.getLast? = some crChar then 1 else 0

/-- The end of what was read, one character further. -/
theorem readEnd_cons {c : UInt8} {w : Str} (hw : w ≠ []) : readEnd (c :: w) = readEnd w + 1 := by
  rw [readEnd, readEnd, List.getLast?_cons_of_ne_nil hw, List.length_cons]
  omega

/-- The rounds for a text in memory, one for each symbol of the normalized text. -/
theorem adjustLoop_text {w : Str} {k : ℕ} (hs : HoldsAt s pos w) :
    ∃ pos' read' loc', adjustLoop s ((normalizeBreaks crChar lfChar w).length + k) pos read loc =
      adjustLoop s k pos' read' loc' ∧ pos + w.length ≤ pos' ∧
        read' = (if w = [] then read else pos + readEnd w) ∧ loc'.first = loc.first ∧
          loc'.last = (normalizeBreaks crChar lfChar w).foldl (nextPosition lfChar) loc.last := by
  induction w using @breaksInduction _ _ crChar lfChar generalizing pos read loc with
  | hnil => exact ⟨pos, read, loc, by simp [normalizeBreaks], by simp, by simp, rfl, rfl⟩
  | hpair w ih =>
    obtain ⟨h0, h1, hw⟩ := hs
    obtain ⟨pos', read', loc', heq, hpos, hread, hfirst, hlast⟩ := @ih _ (pos + 2) loc.newLine hw
    refine ⟨pos', read', loc', ?_, ?_, ?_, hfirst, ?_⟩
    · rw [normalizeBreaks_cr_lf, List.length_cons, Nat.add_right_comm, adjustLoop, if_pos h0]
      simp only [h1, if_true]
      exact heq
    · simp only [List.length_cons]
      omega
    · rw [hread]
      by_cases hnil : w = []
      · rw [hnil, if_pos rfl, if_neg (by simp)]
        rfl
      · rw [if_neg hnil, if_neg (by simp), readEnd_cons (by simp), readEnd_cons hnil]
        omega
    · rw [hlast, normalizeBreaks_cr_lf, List.foldl_cons, last_newLine]
  | hcr w hw ih =>
    obtain ⟨h0, hrest⟩ := hs
    cases w with
    | nil =>
      refine ⟨if s (pos + 1) = lfChar then pos + 2 else pos + 1, pos + 2, loc.newLine, ?_, ?_, ?_, rfl,
        last_newLine loc⟩
      · rw [normalizeBreaks, if_pos rfl, List.length_singleton, Nat.add_comm, adjustLoop, if_pos h0]
      · simp only [List.length_singleton]
        split_ifs <;> omega
      · rfl
    | cons d w =>
      have hd : s (pos + 1) ≠ lfChar := fun h => hw (by rw [← h, hrest.1]; rfl)
      obtain ⟨pos', read', loc', heq, hpos, hread, hfirst, hlast⟩ :=
        @ih _ (pos + 2) loc.newLine hrest
      refine ⟨pos', read', loc', ?_, ?_, ?_, hfirst, ?_⟩
      · rw [normalizeBreaks_cr hw, List.length_cons, Nat.add_right_comm, adjustLoop, if_pos h0,
          if_neg hd]
        exact heq
      · simp only [List.length_cons] at hpos ⊢
        omega
      · rw [hread, if_neg (by simp), if_neg (by simp), @readEnd_cons crChar _ (by simp)]
        omega
      · rw [hlast, normalizeBreaks_cr hw, List.foldl_cons, last_newLine]
  | hother c w hc ih =>
    obtain ⟨h0, hrest⟩ := hs
    obtain ⟨loc₁, hround, hfirst₁, hlast₁⟩ : ∃ loc₁,
        (∀ len, adjustLoop s (len + 1) pos read loc = adjustLoop s len (pos + 1) (pos + 1) loc₁) ∧
          loc₁.first = loc.first ∧ loc₁.last = nextPosition lfChar loc.last c := by
      by_cases hlf : c = lfChar
      · exact ⟨loc.newLine, fun len => by rw [adjustLoop, h0, if_neg hc, if_pos hlf], rfl,
          hlf ▸ last_newLine loc⟩
      · exact ⟨loc.nextColumn, fun len => by rw [adjustLoop, h0, if_neg hc, if_neg hlf], rfl,
          last_nextColumn loc hlf⟩
    obtain ⟨pos', read', loc', heq, hpos, hread, hfirst, hlast⟩ := @ih _ (pos + 1) loc₁ hrest
    refine ⟨pos', read', loc', ?_, ?_, ?_, hfirst.trans hfirst₁, ?_⟩
    · rw [normalizeBreaks_cons hc, List.length_cons, Nat.add_right_comm, hround, heq]
    · simp only [List.length_cons]
      omega
    · rw [hread]
      by_cases hnil : w = []
      · have hend : readEnd [c] = 1 := by
          simp [readEnd, hc]
        rw [hnil, if_pos rfl, if_neg (by simp), hend]
      · rw [if_neg hnil, if_neg (by simp), readEnd_cons hnil]
        omega
    · rw [hlast, hlast₁, normalizeBreaks_cons hc, List.foldl_cons]

end Location

/-! ### One token -/

open Location

/-- The text of a token lies at its start in memory. -/
theorem holdsAt_memory (t : LexerToken) : HoldsAt t.memory 0 t.text := by
  have hdrop : ∀ w k, t.text.drop k = w → HoldsAt t.memory k w := by
    intro w
    induction w with
    | nil => exact fun k hk => trivial
    | cons c w ih =>
      intro k hk
      have hget : t.text[k]? = some c := by
        rw [← List.head?_drop, hk]
        rfl
      obtain ⟨hlt, hc⟩ := List.getElem?_eq_some_iff.mp hget
      refine ⟨by rw [LexerToken.memory, dif_pos hlt, hc], ih (k + 1) ?_⟩
      rw [← List.drop_drop, hk]
      rfl
  exact hdrop t.text 0 rfl

/-- A token begins where the one before it ends. -/
theorem first_adjustLoc (loc : Location) (t : LexerToken) : (adjustLoc loc t).1.first = loc.last := by
  unfold adjustLoc
  cases h : t.text.length with
  | zero => rfl
  | succ len => exact (adjustLoop_succ_spec).2.1

/-- Without a pair in the token, `adjustLoc` stays in it and counts its line breaks. -/
theorem adjustLoc_of_not_pair {loc : Location} {t : LexerToken}
    (h : ¬ [crChar, lfChar] <:+: t.text) :
    (adjustLoc loc t).1.last =
        (normalizeBreaks crChar lfChar t.text).foldl (nextPosition lfChar) loc.last ∧
      (adjustLoc loc t).2 = readEnd t.text := by
  obtain ⟨pos, read, loc', heq, -, hread, -, hlast⟩ := @adjustLoop_text t.memory 0 0
    { loc with firstLine := loc.lastLine, firstColumn := loc.lastColumn } t.text 0 (holdsAt_memory t)
  rw [length_normalizeBreaks_eq_iff.mpr h, Nat.add_zero] at heq
  rw [adjustLoc, heq]
  refine ⟨hlast, ?_⟩
  rw [adjustLoop, hread]
  split_ifs with hnil
  · rw [hnil]
    rfl
  · exact Nat.zero_add _

/-- With a pair in the token, `adjustLoc` leaves it and counts too much. -/
theorem adjustLoc_of_pair {loc : Location} {t : LexerToken} (h : [crChar, lfChar] <:+: t.text) :
    toLex ((normalizeBreaks crChar lfChar t.text).foldl (nextPosition lfChar) loc.last) <
        toLex (adjustLoc loc t).1.last ∧
      t.text.length < (adjustLoc loc t).2 := by
  have hlt : (normalizeBreaks crChar lfChar t.text).length < t.text.length :=
    lt_of_le_of_ne (length_normalizeBreaks_le _) fun heq => length_normalizeBreaks_eq_iff.mp heq h
  obtain ⟨k, hk⟩ := Nat.exists_eq_add_of_lt hlt
  obtain ⟨pos, read, loc', heq, hpos, -, -, hlast⟩ := @adjustLoop_text t.memory 0 0
    { loc with firstLine := loc.lastLine, firstColumn := loc.lastColumn } t.text (k + 1)
    (holdsAt_memory t)
  rw [← Nat.add_assoc, ← hk] at heq
  rw [adjustLoc, heq]
  obtain ⟨hread, -, hlt'⟩ := @adjustLoop_succ_spec t.memory k pos read loc'
  rw [hlast] at hlt'
  exact ⟨hlt', by omega⟩

/-! ### Runs over the tokens of a text -/

variable {tokens : List LexerToken}

/-- One more token is adjusted from where the others ended. -/
theorem adjustAll_concat (before : List LexerToken) (t : LexerToken) :
    adjustAll (before ++ [t]) = (adjustLoc (adjustAll before) t).1 := by
  simp [adjustAll]

/-- Earlier tokens keep their breaks together. -/
theorem KeepsBreaks.of_append {before after : List LexerToken}
    (h : KeepsBreaks (before ++ after)) : KeepsBreaks before := by
  rintro u v rfl ⟨hlast, hhead⟩
  refine h u (v ++ after) (by rw [List.append_assoc]) ⟨hlast, ?_⟩
  rw [textOf, List.flatMap_append, ← textOf, List.head?_append, hhead]
  rfl

/-- The line breaks of a text can be counted token by token. -/
theorem KeepsBreaks.endPosition_concat {before : List LexerToken} {t : LexerToken}
    (h : KeepsBreaks (before ++ [t])) :
    endPosition lfChar (normalizeBreaks crChar lfChar (textOf (before ++ [t]))) =
      (normalizeBreaks crChar lfChar t.text).foldl (nextPosition lfChar)
        (endPosition lfChar (normalizeBreaks crChar lfChar (textOf before))) := by
  have hcut := h before [t] rfl
  have ht : textOf [t] = t.text := by simp [textOf]
  rw [ht] at hcut
  rw [textOf, List.flatMap_append, ← textOf, ← textOf, ht, normalizeBreaks_append hcut,
    endPosition_append]

/-- As long as no token has a pair in it, the position is right. -/
theorem last_adjustAll (h : KeepsBreaks tokens)
    (hpair : ∀ t ∈ tokens, ¬ [crChar, lfChar] <:+: t.text) :
    (adjustAll tokens).last = endPosition lfChar (normalizeBreaks crChar lfChar (textOf tokens)) := by
  induction tokens using List.reverseRecOn with
  | nil => rfl
  | append_singleton before t ih =>
    rw [adjustAll_concat, h.endPosition_concat, (adjustLoc_of_not_pair (hpair t (by simp))).1,
      ih h.of_append fun u hu => hpair u (by simp [hu])]

/-- The positions are right exactly when no token but the last one has a pair in it. -/
theorem positionsCounted_iff (h : KeepsBreaks tokens) : PositionsCounted tokens ↔
    ∀ before t after, tokens = before ++ t :: after → after ≠ [] →
      ¬ [crChar, lfChar] <:+: t.text := by
  constructor
  · rintro hcounted before t after htokens hafter hpair
    obtain ⟨u, rest, rfl⟩ := List.exists_cons_of_ne_nil hafter
    have hsplit : tokens = (before ++ [t]) ++ u :: rest := by simpa using htokens
    have ht := hcounted before t (u :: rest) htokens
    have hu := hcounted (before ++ [t]) u rest hsplit
    rw [hsplit] at h
    rw [first_adjustLoc] at ht
    rw [first_adjustLoc, adjustAll_concat, h.of_append.endPosition_concat, ← ht] at hu
    have hlt := (@adjustLoc_of_pair (adjustAll before) t hpair).1
    rw [hu] at hlt
    exact lt_irrefl _ hlt
  · rintro hpair before t after rfl
    rw [first_adjustLoc]
    refine last_adjustAll h.of_append fun u hu => ?_
    obtain ⟨v, w, rfl⟩ := List.append_of_mem hu
    exact hpair v u (w ++ t :: after) (by simp) (by simp)

/-- The tokens are not left exactly when none of them has a pair in it or ends in front of one. -/
theorem readsWithin_iff : ReadsWithin tokens ↔
    ∀ t ∈ tokens, ¬ [crChar, lfChar] <:+: t.text ∧ t.text.getLast? ≠ some crChar := by
  constructor
  · rintro hwithin t ht
    obtain ⟨before, after, htokens⟩ := List.append_of_mem ht
    have hread := hwithin before t after htokens
    have hpair : ¬ [crChar, lfChar] <:+: t.text := fun hpair =>
      absurd (adjustLoc_of_pair hpair).2 (not_lt.mpr hread)
    refine ⟨hpair, fun hlast => ?_⟩
    rw [(adjustLoc_of_not_pair hpair).2, readEnd, if_pos hlast] at hread
    omega
  · rintro h before t after rfl
    obtain ⟨hpair, hlast⟩ := h t (by simp)
    rw [(adjustLoc_of_not_pair hpair).2, readEnd, if_neg hlast]
    exact le_rfl

/-- All positions are right and no token is left exactly when no token has a pair of a carriage return
and a line feed in it, and none ends with a carriage return. -/
theorem adjustLoc_correct_iff (h : KeepsBreaks tokens) :
    (PositionsCounted tokens ∧ ReadsWithin tokens) ↔
      ∀ t ∈ tokens, ¬ [crChar, lfChar] <:+: t.text ∧ t.text.getLast? ≠ some crChar := by
  rw [readsWithin_iff, and_iff_right_iff_imp]
  intro hall
  refine (positionsCounted_iff h).mpr ?_
  rintro before t after rfl -
  exact (hall t (by simp)).1

/-- White space with a line break of two characters, and a name. -/
def twoTokens : List LexerToken := [⟨[crChar, lfChar], fun _ => 0⟩, ⟨str "x", fun _ => 0⟩]

/-- The sample keeps its breaks together. -/
theorem keepsBreaks_twoTokens : KeepsBreaks twoTokens := by
  rintro before after htokens ⟨hlast, hhead⟩
  rcases before with _ | ⟨t, _ | ⟨u, before⟩⟩
  · cases hlast
  · cases htokens
    revert hlast
    decide
  · rw [twoTokens, List.cons_append, List.cons_append, List.cons.injEq, List.cons.injEq] at htokens
    obtain ⟨-, -, hnil⟩ := htokens
    rw [(List.append_eq_nil_iff.mp hnil.symm).2] at hhead
    cases hhead

/-- The sample is counted as it should be. -/
theorem adjustLoc_correct_iff_twoTokens :
    (PositionsCounted twoTokens ∧ ReadsWithin twoTokens) ↔ ∀ t ∈ twoTokens,
      ¬ [crChar, lfChar] <:+: t.text ∧ t.text.getLast? ≠ some crChar :=
  adjustLoc_correct_iff keepsBreaks_twoTokens

/-- The name begins at column 2 for `adjustLoc`, and at column 1 of the second line in the text. -/
theorem not_positionsCounted_twoTokens : KeepsBreaks twoTokens ∧ ¬ PositionsCounted twoTokens ∧
    ¬ ReadsWithin twoTokens := by
  refine ⟨keepsBreaks_twoTokens, fun h => ?_, fun h => ?_⟩
  · have hname := h [⟨[crChar, lfChar], fun _ => 0⟩] _ _ rfl
    revert hname
    decide
  · have hspace := h [] _ _ rfl
    revert hspace
    decide

end Nix
