import NixStore.Lib.Grammar
import NixStore.Derivations.Basic

/-!
# When the parser of derivations returns

`parseString` does not notice the end of the stream.  All the other loops of `parseDerivation` fail
there, unless `expect` finds what it wants in memory that has not been written, so the parser returns on
every input but those that end inside a string that it has begun to read.  The format of derivations says
which these are.
-/

namespace Nix

open Reader

/-! ### Strings -/

/-- There is no closing quote among the bytes behind an opening one. -/
def unclosed : Str → Bool
  | [] => true
  | c :: s =>
    if c = '"'.toUInt8 then false
    else if c = '\\'.toUInt8 then
      match s with
      | [] => true
      | _ :: s => unclosed s
    else unclosed s

/-- The string that the bytes between two quotes stand for. -/
def bodyValue : Str → Option Str
  | [] => some []
  | c :: s =>
    if c = '"'.toUInt8 then none
    else if c = '\\'.toUInt8 then
      match s with
      | [] => none
      | c :: s => (bodyValue s).map (unescape c :: ·)
    else (bodyValue s).map (c :: ·)

/-- The cases that the three functions on the bytes behind an opening quote have in common. -/
theorem body_induction {P : Str → Prop} (nil : P []) (quote : ∀ s, P ('"'.toUInt8 :: s))
    (escape_nil : P ['\\'.toUInt8]) (escape : ∀ c s, P s → P ('\\'.toUInt8 :: c :: s))
    (other : ∀ c s, c ≠ '"'.toUInt8 → c ≠ '\\'.toUInt8 → P s → P (c :: s)) (s : Str) : P s := by
  induction hlen : s.length using Nat.strong_induction_on generalizing s with
  | _ n ih =>
    match s with
    | [] => exact nil
    | c :: t =>
      have hlt : t.length < n := by
        rw [← hlen, List.length_cons]
        exact Nat.lt_succ_self _
      by_cases hquote : c = '"'.toUInt8
      · rw [hquote]
        exact quote t
      · by_cases hescape : c = '\\'.toUInt8
        · subst hescape
          match t with
          | [] => exact escape_nil
          | d :: u =>
            refine escape d u (ih u.length ?_ u rfl)
            rw [List.length_cons] at hlt
            omega
        · exact other c t hquote hescape (ih t.length hlt t rfl)

section

variable (res s : Str) (c : UInt8)

/-- A quotation mark ends the string. -/
theorem parseStringLoop_quote : parseStringLoop res ('"'.toUInt8 :: s) = .ok (res, s) := by
  rw [parseStringLoop.eq_def]
  exact if_pos rfl

/-- Behind a backslash the next character is unescaped. -/
theorem parseStringLoop_escape :
    parseStringLoop res ('\\'.toUInt8 :: c :: s) = parseStringLoop (res ++ [unescape c]) s := by
  rw [parseStringLoop.eq_def]
  exact (if_neg (by decide)).trans (if_pos rfl)

/-- A backslash at the end of the text makes the loop run for ever. -/
theorem parseStringLoop_escape_nil : parseStringLoop res ['\\'.toUInt8] = .diverge := by
  rw [parseStringLoop.eq_def]
  exact (if_neg (by decide)).trans (if_pos rfl)

/-- A quotation mark closes the string. -/
theorem unclosed_quote : unclosed ('"'.toUInt8 :: s) = false := by
  rw [unclosed.eq_def]
  exact if_pos rfl

/-- An escaped character closes nothing. -/
theorem unclosed_escape : unclosed ('\\'.toUInt8 :: c :: s) = unclosed s := by
  rw [unclosed.eq_def]
  exact (if_neg (by decide)).trans (if_pos rfl)

/-- A backslash at the end leaves the string open. -/
theorem unclosed_escape_nil : unclosed ['\\'.toUInt8] = true := by decide

/-- The body of a string has no quotation mark of its own. -/
theorem bodyValue_quote : bodyValue ('"'.toUInt8 :: s) = none := by
  rw [bodyValue.eq_def]
  exact if_pos rfl

/-- The value of an escaped character. -/
theorem bodyValue_escape :
    bodyValue ('\\'.toUInt8 :: c :: s) = (bodyValue s).map (unescape c :: ·) := by
  rw [bodyValue.eq_def]
  exact (if_neg (by decide)).trans (if_pos rfl)

/-- A body does not end within an escape. -/
theorem bodyValue_escape_nil : bodyValue ['\\'.toUInt8] = none := by decide

variable {c} (hquote : c ≠ '"'.toUInt8) (hescape : c ≠ '\\'.toUInt8)

include hquote hescape

/-- Any other character is taken as it is. -/
theorem parseStringLoop_other :
    parseStringLoop res (c :: s) = parseStringLoop (res ++ [c]) s := by
  rw [parseStringLoop.eq_def]
  exact (if_neg hquote).trans (if_neg hescape)

/-- Any other character closes nothing. -/
theorem unclosed_other : unclosed (c :: s) = unclosed s := by
  rw [unclosed.eq_def]
  exact (if_neg hquote).trans (if_neg hescape)

/-- The value of any other character is the character. -/
theorem bodyValue_other : bodyValue (c :: s) = (bodyValue s).map (c :: ·) := by
  rw [bodyValue.eq_def]
  exact (if_neg hquote).trans (if_neg hescape)

end

/-- The loop runs for ever exactly on a string that is not closed. -/
theorem parseStringLoop_eq_diverge (s : Str) :
    ∀ res, parseStringLoop res s = .diverge ↔ unclosed s = true := by
  induction s using body_induction with
  | nil => exact fun res => iff_of_true rfl rfl
  | quote s => exact fun res => by simp [parseStringLoop_quote, unclosed_quote]
  | escape_nil => exact fun res => by simp [parseStringLoop_escape_nil, unclosed_escape_nil]
  | escape c s ih =>
    intro res
    rw [parseStringLoop_escape, unclosed_escape]
    exact ih _
  | other c s hquote hescape ih =>
    intro res
    rw [parseStringLoop_other res s hquote hescape, unclosed_other s hquote hescape]
    exact ih _

/-- The loop returns exactly when the text is a body, a quotation mark and the rest. -/
theorem parseStringLoop_eq_ok (s : Str) : ∀ {res a r : Str}, parseStringLoop res s = .ok (a, r) ↔
    ∃ body v, bodyValue body = some v ∧ a = res ++ v ∧ s = body ++ '"'.toUInt8 :: r := by
  -- the bytes in front of the closing quote, from the first one on
  have hcons : ∀ {body : Str} {c : UInt8} {t r : Str},
      c :: t = body ++ '"'.toUInt8 :: r → c ≠ '"'.toUInt8 →
      ∃ b, body = c :: b ∧ t = b ++ '"'.toUInt8 :: r := by
    intro body c t r h hc
    cases body with
    | nil => exact absurd (List.cons.inj h).1 hc
    | cons d b =>
      obtain ⟨rfl, rfl⟩ := List.cons.inj h
      exact ⟨b, rfl, rfl⟩
  have hbackslash : '\\'.toUInt8 ≠ '"'.toUInt8 := by decide
  induction s using body_induction with
  | nil =>
    refine fun {res a r} => iff_of_false (by simp [parseStringLoop]) ?_
    rintro ⟨body, v, -, -, h⟩
    simp at h
  | quote s =>
    intro res a r
    rw [parseStringLoop_quote, Outcome.ok.injEq, Prod.mk.injEq]
    constructor
    · rintro ⟨rfl, rfl⟩
      exact ⟨[], [], rfl, by simp, rfl⟩
    · rintro ⟨body, v, hv, rfl, h⟩
      cases body with
      | nil =>
        cases hv
        exact ⟨(List.append_nil _).symm, (List.cons.inj h).2⟩
      | cons d b =>
        rw [← (List.cons.inj h).1, bodyValue_quote] at hv
        cases hv
  | escape_nil =>
    refine fun {res a r} => iff_of_false (by simp [parseStringLoop_escape_nil]) ?_
    rintro ⟨body, v, -, -, h⟩
    obtain ⟨b, -, h⟩ := hcons h hbackslash
    simp at h
  | escape c s ih =>
    intro res a r
    rw [parseStringLoop_escape, ih]
    constructor
    · rintro ⟨body, v, hv, rfl, rfl⟩
      refine ⟨'\\'.toUInt8 :: c :: body, unescape c :: v, ?_, by simp, rfl⟩
      rw [bodyValue_escape, hv]
      rfl
    · rintro ⟨body, v, hv, rfl, h⟩
      obtain ⟨b, rfl, hrest⟩ := hcons h hbackslash
      cases b with
      | nil =>
        rw [bodyValue_escape_nil] at hv
        cases hv
      | cons d b =>
        obtain ⟨rfl, rfl⟩ := List.cons.inj hrest
        rw [bodyValue_escape, Option.map_eq_some_iff] at hv
        obtain ⟨v, hv, rfl⟩ := hv
        exact ⟨b, v, hv, by simp, rfl⟩
  | other c s hquote hescape ih =>
    intro res a r
    rw [parseStringLoop_other res s hquote hescape, ih]
    constructor
    · rintro ⟨body, v, hv, rfl, rfl⟩
      refine ⟨c :: body, c :: v, ?_, by simp, rfl⟩
      rw [bodyValue_other body hquote hescape, hv]
      rfl
    · rintro ⟨body, v, hv, rfl, h⟩
      obtain ⟨b, rfl, rfl⟩ := hcons h hquote
      rw [bodyValue_other b hquote hescape, Option.map_eq_some_iff] at hv
      obtain ⟨v, hv, rfl⟩ := hv
      exact ⟨b, v, hv, by simp, rfl⟩

/-- The ends of streams that `expect` takes for a text, because the rest of it is in memory already. -/
def shortFor (uninit : Str → Str) (t : Str) : Language UInt8 :=
  {w | w.length < t.length ∧ (w ++ (uninit t).drop w.length).take t.length = t}

/-- The format of a fixed text. -/
def expected (uninit : Str → Str) (t : Str) : Format UInt8 := .lit t (shortFor uninit t)

/-- Opening quotes without a closing one. -/
def unclosedStrings : Language UInt8 := {w | ∃ body, unclosed body = true ∧ w = '"'.toUInt8 :: body}

/-- Strings in quotes whose value satisfies `P`, and opening quotes without a closing one.  The opening
quote can be in memory only. -/
def quoted (uninit : Str → Str) (P : Str → Prop) : Format UInt8 where
  text := {w | ∃ body v, bodyValue body = some v ∧ P v ∧ w = '"'.toUInt8 :: body ++ ['"'.toUInt8]}
  short := 0
  cut := unclosedStrings + shortFor uninit (str "\"")

section

variable {uninit : Str → Str}

/-- `expect` succeeds on the text, or on a shorter one when the uninitialised bytes happen to fit. -/
theorem expect_eq_ok {t s r : Str} :
    expect uninit t s = .ok ((), r) ↔ s = t ++ r ∨ s ∈ shortFor uninit t ∧ r = [] := by
  by_cases hlen : s.length < t.length
  · have hne : s ≠ t ++ r := by
      rintro rfl
      rw [List.length_append] at hlen
      omega
    have hdrop : s.drop t.length = [] := List.drop_eq_nil_of_le hlen.le
    rw [or_iff_right hne, expect, hdrop]
    constructor
    · intro h
      split_ifs at h with ht
      obtain rfl : [] = r := by simpa using h
      exact ⟨⟨hlen, ht⟩, rfl⟩
    · rintro ⟨⟨-, ht⟩, rfl⟩
      exact if_pos ht
  · have htake : (s ++ (uninit t).drop s.length).take t.length = s.take t.length :=
      List.take_append_of_le_length (not_lt.mp hlen)
    rw [or_iff_left fun h => hlen h.1.1, expect, htake]
    constructor
    · intro h
      split_ifs at h with ht
      obtain rfl : s.drop t.length = r := by simpa using h
      conv_lhs => rw [← List.take_append_drop t.length s, ht]
    · rintro rfl
      simp

/-- `expect` follows its format. -/
theorem follows_expect (t : Str) : Follows (expect uninit t) (expected uninit t) where
  ok_iff s r := by
    constructor
    · rintro ⟨⟨⟩, h⟩
      exact (expect_eq_ok.mp h).imp_left fun h => ⟨t, rfl, h⟩
    · rintro (⟨w, rfl, h⟩ | h)
      · exact ⟨(), expect_eq_ok.mpr (.inl h)⟩
      · exact ⟨(), expect_eq_ok.mpr (.inr h)⟩
  diverge_iff s := by
    unfold expect
    split_ifs <;> simp [expected, Format.lit, Language.notMem_zero]

/-- `parseString` returns exactly on a quoted body. -/
theorem parseString_eq_ok {s a r : Str} : parseString uninit s = .ok (a, r) ↔
    ∃ body, bodyValue body = some a ∧ s = '"'.toUInt8 :: body ++ '"'.toUInt8 :: r := by
  refine (bind_eq_ok (p := expect uninit (str "\"")) (f := fun _ => parseStringLoop [])).trans ?_
  constructor
  · rintro ⟨⟨⟩, t, hquote, hloop⟩
    rcases expect_eq_ok.mp hquote with rfl | ⟨-, rfl⟩
    · obtain ⟨body, v, hv, rfl, rfl⟩ := (parseStringLoop_eq_ok t).mp hloop
      exact ⟨body, hv, rfl⟩
    · cases hloop
  · rintro ⟨body, hv, rfl⟩
    exact ⟨(), body ++ '"'.toUInt8 :: r, expect_eq_ok.mpr (.inl rfl),
      (parseStringLoop_eq_ok _).mpr ⟨body, a, hv, rfl, rfl⟩⟩

/-- `parseString` runs for ever exactly on what is a quoted string cut off. -/
theorem parseString_eq_diverge {P : Str → Prop} {s : Str} :
    parseString uninit s = .diverge ↔ s ∈ (quoted uninit P).cut := by
  refine (bind_eq_diverge (p := expect uninit (str "\"")) (f := fun _ => parseStringLoop [])).trans ?_
  rw [(follows_expect _).diverge_iff, quoted, Language.mem_add]
  constructor
  · rintro (h | ⟨⟨⟩, t, hquote, hloop⟩)
    · exact absurd h (Language.notMem_zero _)
    · rcases expect_eq_ok.mp hquote with rfl | ⟨hshort, -⟩
      · exact .inl ⟨t, (parseStringLoop_eq_diverge t _).mp hloop, rfl⟩
      · exact .inr hshort
  · rintro (⟨body, hbody, rfl⟩ | hshort)
    · exact .inr ⟨(), body, expect_eq_ok.mpr (.inl rfl), (parseStringLoop_eq_diverge body _).mpr hbody⟩
    · exact .inr ⟨(), [], expect_eq_ok.mpr (.inr ⟨hshort, rfl⟩), rfl⟩

/-- `parseString` follows its format. -/
theorem follows_parseString : Follows (parseString uninit) (quoted uninit fun _ => True) where
  ok_iff s r := by
    refine Iff.trans ?_ (or_iff_left fun h => Language.notMem_zero _ h.1).symm
    constructor
    · rintro ⟨a, h⟩
      obtain ⟨body, hv, rfl⟩ := parseString_eq_ok.mp h
      exact ⟨_, ⟨body, a, hv, trivial, rfl⟩, by simp⟩
    · rintro ⟨_, ⟨body, a, hv, -, rfl⟩, rfl⟩
      exact ⟨a, parseString_eq_ok.mpr ⟨body, hv, by simp⟩⟩
  diverge_iff s := parseString_eq_diverge

/-- `parsePath` follows its format, and throws for what is no absolute path. -/
theorem follows_parsePath :
    Follows (parsePath uninit) (quoted uninit fun v => isAbsolute v = true) where
  ok_iff s r := by
    refine Iff.trans ?_ (or_iff_left fun h => Language.notMem_zero _ h.1).symm
    unfold parsePath
    simp only [Reader.bind_eq_ok]
    constructor
    · rintro ⟨a, v, t, h, hcheck⟩
      obtain ⟨body, hv, rfl⟩ := parseString_eq_ok.mp h
      split_ifs at hcheck with habs
      · obtain ⟨-, rfl⟩ : v = a ∧ t = r := by simpa using Outcome.ok.inj hcheck
        exact ⟨_, ⟨body, v, hv, habs, rfl⟩, by simp⟩
      · cases hcheck
    · rintro ⟨_, ⟨body, v, hv, habs, rfl⟩, rfl⟩
      refine ⟨v, v, r, parseString_eq_ok.mpr ⟨body, hv, by simp⟩, ?_⟩
      rw [if_pos habs]
      rfl
  diverge_iff s := by
    unfold parsePath
    rw [Reader.bind_eq_diverge, ← parseString_eq_diverge]
    refine or_iff_left ?_
    rintro ⟨a, t, -, h⟩
    split_ifs at h <;> cases h

/-! ### Lists -/

/-- A list goes on with a comma and ends with a bracket. -/
theorem separates_endOfList : Separates endOfList ','.toUInt8 ']'.toUInt8 where
  skips s := by
    unfold endOfList
    exact if_pos rfl
  ends s := by
    unfold endOfList
    exact (if_neg (by decide)).trans (if_pos rfl)
  other s hsep hclose := by
    cases s with
    | nil => rfl
    | cons c s =>
      rw [List.head?_cons, ne_eq, Option.some.injEq] at hsep hclose
      unfold endOfList
      exact (if_neg hsep).trans (if_neg hclose)

/-- The format of a list, behind its opening bracket. -/
def listOf (F : Format UInt8) : Format UInt8 := listFormat ','.toUInt8 ']'.toUInt8 F

/-- The items of the lists of derivations. -/
abbrev IsListItem (F : Format UInt8) : Prop := IsItem ','.toUInt8 ']'.toUInt8 F

/-- A text of one character has only the empty one shorter than it. -/
theorem cons_notMem_shortFor {t w : Str} {c : UInt8} (ht : t.length = 1) : c :: w ∉ shortFor uninit t := by
  rintro ⟨hlen, -⟩
  rw [ht, List.length_cons] at hlen
  omega

/-- A quoted string can be an element of a list. -/
theorem isListItem_quoted (P : Str → Prop) : IsListItem (quoted uninit P) where
  text := by
    rintro c t ⟨body, v, -, -, heq⟩
    rw [(List.cons.inj heq).1]
    decide
  short c t h := absurd h (Language.notMem_zero _)
  cut := by
    rintro c t (⟨body, -, heq⟩ | h)
    · rw [(List.cons.inj heq).1]
      decide
    · exact absurd h (cons_notMem_shortFor rfl)
  text_ne := by
    rintro ⟨body, v, -, -, heq⟩
    cases heq
  short_ne := Language.notMem_zero _

/-- Items in parentheses that begin with a string. -/
theorem isListItem_open (P : Str → Prop) (F : Format UInt8) :
    IsListItem ((expected uninit (str "(")).seq ((quoted uninit P).seq F)) := by
  have hitem : IsListItem (quoted uninit P) := isListItem_quoted P
  have hbegin : ∀ (L : Language UInt8) c t, c :: t ∈ ({str "("} : Language UInt8) * L →
      c ≠ ','.toUInt8 ∧ c ≠ ']'.toUInt8 := by
    rintro L c t ⟨u, hu, v, -, heq⟩
    rw [Set.mem_singleton_iff.mp hu] at heq
    rw [← (List.cons.inj heq).1]
    decide
  have hparen : ∀ L : Language UInt8, [] ∉ ({str "("} : Language UInt8) * L := by
    rintro L ⟨u, hu, v, -, heq⟩
    rw [Set.mem_singleton_iff.mp hu] at heq
    cases heq
  -- the string is not empty
  have hmul : ∀ L : Language UInt8, [] ∉ (quoted uninit P).text * L := by
    rintro L ⟨u, hu, v, -, heq⟩
    obtain ⟨rfl, -⟩ := List.append_eq_nil_iff.mp heq
    exact hitem.text_ne hu
  have hseq : [] ∉ ((quoted uninit P).seq F).text + ((quoted uninit P).seq F).short := by
    rintro (h | h | h)
    · exact hmul _ h
    · exact hmul _ h
    · exact Language.notMem_zero _ h.1
  constructor
  · exact hbegin _
  · rintro c t (h | h)
    · exact hbegin _ c t h
    · exact absurd h.2 hseq
  · rintro c t (h | h | h)
    · exact absurd h (Language.notMem_zero _)
    · exact hbegin _ c t h
    · exact absurd h.1 (cons_notMem_shortFor rfl)
  · exact hparen _
  · rintro (h | h)
    · exact hparen _ h
    · exact hseq h.2

/-- The loop over a list follows the format of lists, by induction on the elements. -/
theorem follows_whileNotEndOfList {α σ : Type} {item : StreamReader α} {F : Format UInt8}
    (hitem : Follows item F) (hF : IsListItem F) (step : σ → α → σ) (acc : σ) :
    Follows (whileNotEndOfList item step acc) (listOf F) where
  ok_iff s r :=
    ((Follows.loop separates_endOfList hitem hF _ s acc (Nat.lt_succ_self _)).1 r).trans
      (or_iff_left fun h => Language.notMem_zero _ h.1).symm
  diverge_iff s := (Follows.loop separates_endOfList hitem hF _ s acc (Nat.lt_succ_self _)).2

end

/-! ### Derivations -/

section

variable (uninit : Str → Str)

/-- The format of a string. -/
def stringFormat : Format UInt8 := quoted uninit fun _ => True

/-- The format of a path. -/
def pathFormat : Format UInt8 := quoted uninit fun v => isAbsolute v = true

/-- The format of an output. -/
def outputFormat : Format UInt8 :=
  (expected uninit (str "(")).seq <| (stringFormat uninit).seq <|
    (expected uninit (str ",")).seq <| (pathFormat uninit).seq <|
    (expected uninit (str ",")).seq <| (stringFormat uninit).seq <|
    (expected uninit (str ",")).seq <| (stringFormat uninit).seq <| expected uninit (str ")")

/-- The format of an input derivation. -/
def inputFormat : Format UInt8 :=
  (expected uninit (str "(")).seq <| (pathFormat uninit).seq <|
    (expected uninit (str ",[")).seq <| (listOf (stringFormat uninit)).seq <| expected uninit (str ")")

/-- The format of an environment variable. -/
def envVarFormat : Format UInt8 :=
  (expected uninit (str "(")).seq <| (stringFormat uninit).seq <|
    (expected uninit (str ",")).seq <| (stringFormat uninit).seq <| expected uninit (str ")")

/-- The format of a derivation. -/
def derivationFormat : Format UInt8 :=
  (expected uninit (str "Derive([")).seq <| (listOf (outputFormat uninit)).seq <|
    (expected uninit (str ",[")).seq <| (listOf (inputFormat uninit)).seq <|
    (expected uninit (str ",[")).seq <| (listOf (pathFormat uninit)).seq <|
    (expected uninit (str ",")).seq <| (stringFormat uninit).seq <|
    (expected uninit (str ",")).seq <| (stringFormat uninit).seq <|
    (expected uninit (str ",[")).seq <| (listOf (stringFormat uninit)).seq <|
    (expected uninit (str ",[")).seq <| (listOf (envVarFormat uninit)).seq <| expected uninit (str ")")

end

section

variable {uninit : Str → Str}

/-- `parseOutput` follows its format. -/
theorem follows_parseOutput : Follows (parseOutput uninit) (outputFormat uninit) := by
  refine (follows_expect _).bind fun _ => follows_parseString.bind fun _ => ?_
  refine (follows_expect _).bind fun _ => follows_parsePath.bind fun _ => ?_
  refine (follows_expect _).bind fun _ => follows_parseString.bind fun _ => ?_
  refine (follows_expect _).bind fun _ => follows_parseString.bind fun _ => ?_
  exact (follows_expect _).bind_pure

/-- `parseInput` follows its format. -/
theorem follows_parseInput : Follows (parseInput uninit) (inputFormat uninit) := by
  refine (follows_expect _).bind fun _ => follows_parsePath.bind fun _ => ?_
  refine (follows_expect _).bind fun _ => ?_
  refine (follows_whileNotEndOfList follows_parseString (isListItem_quoted _) _ _).bind fun _ => ?_
  exact (follows_expect _).bind_pure

/-- `parseEnvVar` follows its format. -/
theorem follows_parseEnvVar : Follows (parseEnvVar uninit) (envVarFormat uninit) := by
  refine (follows_expect _).bind fun _ => follows_parseString.bind fun _ => ?_
  refine (follows_expect _).bind fun _ => follows_parseString.bind fun _ => ?_
  exact (follows_expect _).bind_pure

/-- `parseDerivationStream` follows its format. -/
theorem follows_parseDerivationStream :
    Follows (parseDerivationStream uninit) (derivationFormat uninit) := by
  refine (follows_expect _).bind fun _ => ?_
  refine (follows_whileNotEndOfList follows_parseOutput (isListItem_open _ _) _ _).bind fun _ => ?_
  refine (follows_expect _).bind fun _ => ?_
  refine (follows_whileNotEndOfList follows_parseInput (isListItem_open _ _) _ _).bind fun _ => ?_
  refine (follows_expect _).bind fun _ => ?_
  refine (follows_whileNotEndOfList follows_parsePath (isListItem_quoted _) _ _).bind fun _ => ?_
  refine (follows_expect _).bind fun _ => follows_parseString.bind fun _ => ?_
  refine (follows_expect _).bind fun _ => follows_parseString.bind fun _ => ?_
  refine (follows_expect _).bind fun _ => ?_
  refine (follows_whileNotEndOfList follows_parseString (isListItem_quoted _) _ _).bind fun _ => ?_
  refine (follows_expect _).bind fun _ => ?_
  refine (follows_whileNotEndOfList follows_parseEnvVar (isListItem_open _ _) _ _).bind fun _ => ?_
  exact (follows_expect _).bind_pure

/-- `parseDerivation` runs for ever exactly on a text that the format has as cut off within a string. -/
theorem parseDerivation_eq_diverge {s : Str} :
    parseDerivation uninit s = .diverge ↔ s ∈ (derivationFormat uninit).cut := by
  rw [← follows_parseDerivationStream.diverge_iff]
  unfold parseDerivation
  rcases parseDerivationStream uninit s with ⟨drv, r⟩ | e | _ <;> simp

end

/-- `parseDerivation` returns a derivation behind a part of the input, or throws a format error. -/
def ParserFinishes (uninit : Str → Str) (s : Str) : Prop :=
  (∃ drv w rest, parseDerivation uninit s = .ok drv ∧
    parseDerivationStream uninit s = .ok (drv, rest) ∧ s = w ++ rest) ∨
      ∃ e, parseDerivation uninit s = .error e

/-- The parser returns unless the input is cut off inside a string where the format has one. -/
theorem parserFinishes_iff (uninit : Str → Str) (s : Str) :
    ParserFinishes uninit s ↔ s ∉ (derivationFormat uninit).cut := by
  rw [← parseDerivation_eq_diverge]
  unfold ParserFinishes
  constructor
  · rintro (⟨drv, w, rest, h, -⟩ | ⟨e, h⟩) hd
    all_goals
      rw [hd] at h
      cases h
  · intro hd
    unfold parseDerivation at *
    rcases h : parseDerivationStream uninit s with ⟨drv, rest⟩ | e | _
    · rcases (follows_parseDerivationStream.ok_iff s rest).mp ⟨drv, h⟩ with ⟨w, -, hw⟩ | ⟨-, rfl⟩
      · exact .inl ⟨drv, w, rest, rfl, rfl, hw⟩
      · exact .inl ⟨drv, s, [], rfl, rfl, (List.append_nil s).symm⟩
    · exact .inr ⟨e, rfl⟩
    · exact absurd (by rw [h]) hd

/-- An input that ends behind the opening quote of the name of an output, whatever is in memory; and one
that ends behind a path, when the array still has the quote of the path. -/
theorem not_parserFinishes : (∀ uninit, ¬ParserFinishes uninit (str "Derive([(\"")) ∧
    ¬ParserFinishes (fun s => s) (str "Derive([],[],[\"/s\"") := by
  constructor
  · intro uninit
    rw [parserFinishes_iff, not_not]
    have hname : str "\"" ∈ (stringFormat uninit).cut := .inl ⟨[], rfl, rfl⟩
    have houtput : str "(\"" ∈ (outputFormat uninit).cut :=
      .inr (.inl ⟨str "(", rfl, str "\"", .inl hname, rfl⟩)
    have houtputs : str "(\"" ∈ (listOf (outputFormat uninit)).cut :=
      mem_listCut.mpr (.inl ⟨[], mem_optional.mpr (.inl rfl), _, .inl houtput, rfl⟩)
    exact .inr (.inl ⟨str "Derive([", rfl, str "(\"", .inl houtputs, rfl⟩)
  · rw [parserFinishes_iff, not_not]
    generalize hmem : (fun s : Str => s) = uninit
    have hclose : ∀ F : Format UInt8, str "]" ∈ (listOf F).text := fun F =>
      mem_listText.mpr (.inl rfl)
    have hquote : [] ∈ (pathFormat uninit).cut := by
      rw [← hmem]
      exact .inr ⟨Nat.zero_lt_one, rfl⟩
    have hpath : str "\"/s\"" ∈ (pathFormat uninit).text := ⟨str "/s", str "/s", rfl, rfl, rfl⟩
    have hend : [] ∈ (listOf (pathFormat uninit)).cut :=
      mem_listCut.mpr (.inl ⟨[], mem_optional.mpr (.inl rfl), [], .inl hquote, rfl⟩)
    have hpaths : str "\"/s\"" ∈ (listOf (pathFormat uninit)).cut :=
      mem_listCut.mpr (.inr ⟨[], mem_optional.mpr (.inl rfl), _, hpath, [], hend, rfl⟩)
    refine .inr (.inl ⟨str "Derive([", rfl, str "],[],[\"/s\"", ?_, rfl⟩)
    refine .inr (.inl ⟨str "]", hclose _, str ",[],[\"/s\"", ?_, rfl⟩)
    refine .inr (.inl ⟨str ",[", rfl, str "],[\"/s\"", ?_, rfl⟩)
    refine .inr (.inl ⟨str "]", hclose _, str ",[\"/s\"", ?_, rfl⟩)
    exact .inr (.inl ⟨str ",[", rfl, str "\"/s\"", .inl hpaths, rfl⟩)

end Nix
