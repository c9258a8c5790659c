import NixStore.Lib.Bytes

/-!
# Input streams that are read by lines

Model of `std::istream` with its two flags as far as `getline` depends on them.  A line that is ended
by the end of the stream instead of a newline sets `eofbit`; if nothing is left at all, or if a flag is
set already, `failbit` is set, and in the second case the string keeps its old contents.
-/

namespace Nix

/-- An input stream: what is left of it, `eofbit` and `failbit`. -/
structure IStream where
  rest : Str
  eof : Bool
  fail : Bool

namespace IStream

/-- A stream with nothing read yet. -/
def ofStr (s : Str) : IStream := ⟨s, false, false⟩

/-- No flag is set. -/
def good (st : IStream) : Bool := !st.eof && !st.fail

/-- Model of `getline` into a string that holds `s`. -/
def getline (st : IStream) (s : Str) : IStream × Str :=
  if st.good then
    match st.rest.dropWhile (· ≠ '\n'.toUInt8) with
    | [] => (⟨[], true, st.rest.isEmpty⟩, st.rest)
    | _ :: rest => (⟨rest, false, false⟩, st.rest.takeWhile (· ≠ '\n'.toUInt8))
  else ({ st with fail := true }, s)

/-- A line with the newline that ends it. -/
def line (s : Str) : Str := s ++ str "\n"

variable {l rest s : Str} {st : IStream}

/-- A line has one character more than its text. -/
theorem length_line (s : Str) : (line s).length = s.length + 1 := by
  rw [line, List.length_append]
  rfl

/-- A line that ends with a newline. -/
theorem getline_line (h : '\n'.toUInt8 ∉ l) (rest s : Str) :
    (ofStr (line l ++ rest)).getline s = (ofStr rest, l) := by
  have hall : ∀ c ∈ l, decide (c ≠ '\n'.toUInt8) = true := fun c hc =>
    decide_eq_true fun heq => h (heq ▸ hc)
  have heq : line l ++ rest = l ++ '\n'.toUInt8 :: rest := by
    rw [line, List.append_assoc]
    rfl
  have hstop : decide ('\n'.toUInt8 ≠ '\n'.toUInt8) = false := by decide
  have hdrop : (l ++ '\n'.toUInt8 :: rest).dropWhile (· ≠ '\n'.toUInt8) = '\n'.toUInt8 :: rest := by
    rw [List.dropWhile_append_of_pos hall, List.dropWhile_cons, hstop]
    rfl
  have htake : (l ++ '\n'.toUInt8 :: rest).takeWhile (· ≠ '\n'.toUInt8) = l := by
    rw [List.takeWhile_append_of_pos hall, List.takeWhile_cons, hstop]
    exact List.append_nil l
  have hgood : (ofStr (l ++ '\n'.toUInt8 :: rest)).good = true := rfl
  rw [heq, getline, if_pos hgood]
  simp only [ofStr, hdrop, htake]

/-- A last line without a newline. -/
theorem getline_last (h : '\n'.toUInt8 ∉ l) (s : Str) :
    (ofStr l).getline s = (⟨[], true, l.isEmpty⟩, l) := by
  have hdrop : l.dropWhile (· ≠ '\n'.toUInt8) = [] :=
    List.dropWhile_eq_nil_iff.mpr fun c hc => decide_eq_true fun heq => h (heq ▸ hc)
  have hgood : (ofStr l).good = true := rfl
  rw [getline, if_pos hgood]
  simp only [ofStr, hdrop]

/-- After a flag has been set nothing more is read. -/
theorem getline_of_not_good (h : st.good = false) (s : Str) :
    st.getline s = ({ st with fail := true }, s) := by
  rw [getline, h]
  rfl

/-- A stream on which a flag is set stays so. -/
theorem not_good_getline (h : st.good = false) (s : Str) : (st.getline s).1.good = false := by
  rw [getline_of_not_good h, good]
  exact Bool.and_false _

/-- A text that is cut off inside of a line and what follows it is cut off in the line or behind it. -/
theorem cut_line {t : Str} (h : t <+: line l ++ rest) (hne : t ≠ line l ++ rest) :
    t <+: l ∨ ∃ t', t = line l ++ t' ∧ t' <+: rest ∧ t' ≠ rest := by
  rcases List.prefix_or_prefix_of_prefix h (List.prefix_append (line l) rest) with h' | ⟨t', rfl⟩
  · rcases List.prefix_concat_iff.mp h' with rfl | h'
    · refine Or.inr ⟨[], (List.append_nil _).symm, List.nil_prefix, ?_⟩
      rintro rfl
      exact hne (List.append_nil _).symm
    · exact Or.inl h'
  · refine Or.inr ⟨t', rfl, (List.prefix_append_right_inj _).mp h, ?_⟩
    rintro rfl
    exact hne rfl

end IStream

end Nix
