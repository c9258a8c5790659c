import Mathlib

/-!
# Lines and their indentation

A text is a list of symbols, some of which are spaces and some of which end a line.  The indentation
of a text is the least number of leading spaces of a line that has something else in it.
-/

namespace Nix

variable {σ : Type*} (space newline : σ → Bool)

/-- The lines of a text; all but the last end with a newline. -/
def lines : List σ → List (List σ)
  | [] => [[]]
  | c :: t => if newline c then [c] :: lines t else (lines t).modifyHead (c :: ·)

/-- The number of spaces at the start of a line. -/
def leading (l : List σ) : ℕ := (l.takeWhile space).length

/-- The line has nothing but spaces in it. -/
def isBlank (l : List σ) : Bool := l.all fun c => space c || newline c

/-- The numbers of leading spaces of the lines that have something else in them. -/
def indents (ls : List (List σ)) : List ℕ :=
  (ls.filter fun l => !isBlank space newline l).map (leading space)

/-- A line with up to so many leading spaces removed, or with all of them removed. -/
def unindent : Option ℕ → List σ → List σ
  | none, l => l.drop (leading space l)
  | some m, l => l.drop (min m (leading space l))

/-- A text without its indentation. -/
def unindentLines (t : List σ) : List σ :=
  (lines newline t).flatMap (unindent space (indents space newline (lines newline t)).min?)

variable {space newline}

@[simp] theorem lines_nil : lines newline [] = [[]] := rfl

/-- A newline is a line of its own at the end. -/
theorem lines_cons_newline {c : σ} (hc : newline c = true) (t : List σ) :
    lines newline (c :: t) = [c] :: lines newline t := by
  rw [lines, if_pos hc]

/-- A text has a first line. -/
theorem exists_lines_eq_cons (t : List σ) : ∃ l ls, lines newline t = l :: ls := by
  induction t with
  | nil => exact ⟨[], [], rfl⟩
  | cons c t ih =>
    obtain ⟨l, ls, ht⟩ := ih
    rw [lines, ht]
    split_ifs
    · exact ⟨[c], l :: ls, rfl⟩
    · exact ⟨c :: l, ls, rfl⟩

/-- Any other character belongs to the line that follows. -/
theorem lines_cons {c : σ} (hc : newline c = false) {t l : List σ} {ls : List (List σ)}
    (ht : lines newline t = l :: ls) : lines newline (c :: t) = (c :: l) :: ls := by
  rw [lines, hc, ht]
  rfl

@[simp] theorem leading_nil : leading space ([] : List σ) = 0 := rfl

/-- A space adds one to the indentation. -/
theorem leading_cons_space {c : σ} (hc : space c = true) (l : List σ) :
    leading space (c :: l) = leading space l + 1 := by
  rw [leading, List.takeWhile_cons_of_pos hc, List.length_cons]
  rfl

/-- Any other character ends it. -/
theorem leading_cons_of_not {c : σ} (hc : space c = false) (l : List σ) :
    leading space (c :: l) = 0 := by
  rw [leading, List.takeWhile_cons_of_neg (by simp [hc])]
  rfl

/-- Spaces in front of a line. -/
theorem leading_append {s : List σ} (hs : ∀ c ∈ s, space c = true) (l : List σ) :
    leading space (s ++ l) = s.length + leading space l := by
  rw [leading, List.takeWhile_append_of_pos hs, List.length_append]
  rfl

/-- Spaces in front do not matter for being blank. -/
theorem isBlank_append {s : List σ} (hs : ∀ c ∈ s, space c = true) (l : List σ) :
    isBlank space newline (s ++ l) = isBlank space newline l := by
  have hblank : isBlank space newline s = true := by
    rw [isBlank, List.all_eq_true]
    exact fun c hc => by rw [hs c hc, Bool.true_or]
  rw [isBlank, List.all_append, ← isBlank, hblank, Bool.true_and]
  rfl

/-- A blank line begins with a space or a newline. -/
theorem isBlank_cons (c : σ) (l : List σ) : isBlank space newline (c :: l) =
    ((space c || newline c) && isBlank space newline l) :=
  List.all_cons

/-- The indentations of the lines that are not blank. -/
theorem indents_cons (l : List σ) (ls : List (List σ)) : indents space newline (l :: ls) =
    (if isBlank space newline l then [] else [leading space l]) ++ indents space newline ls := by
  unfold indents
  rw [List.filter_cons]
  cases isBlank space newline l <;> simp

/-! ### Indentation -/

/-- Each line of the second list is a line of the first one behind `k` spaces. -/
def Indented (space : σ → Bool) (k : ℕ) : List (List σ) → List (List σ) → Prop :=
  List.Forall₂ fun l l' => ∃ s : List σ, s.length = k ∧ (∀ c ∈ s, space c = true) ∧ l' = s ++ l

/-- Indenting adds to every indentation. -/
theorem Indented.indents {k : ℕ} {ls ls' : List (List σ)} (h : Indented space k ls ls') :
    indents space newline ls' = (indents space newline ls).map (· + k) := by
  induction h with
  | nil => rfl
  | @cons l l' ls ls' hl _ ih =>
    obtain ⟨s, rfl, hs, rfl⟩ := hl
    unfold Nix.indents at ih ⊢
    rw [List.filter_cons, List.filter_cons, isBlank_append hs]
    split_ifs
    · rw [List.map_cons, List.map_cons, List.map_cons, ih, leading_append hs, Nat.add_comm]
    · exact ih

/-- A text with `k` spaces behind every newline; `mk` makes a space at the place of a symbol. -/
def indentText (newline : σ → Bool) (mk : σ → σ) (k : ℕ) (t : List σ) : List σ :=
  t.flatMap fun c => if newline c then c :: List.replicate k (mk c) else [c]

/-- Spaces in front of a text go to its first line. -/
theorem lines_append_of_not {s t l : List σ} {ls : List (List σ)} (hs : ∀ c ∈ s, newline c = false)
    (ht : lines newline t = l :: ls) : lines newline (s ++ t) = (s ++ l) :: ls := by
  induction s with
  | nil => exact ht
  | cons c s ih =>
    rw [List.forall_mem_cons] at hs
    rw [List.cons_append, lines_cons hs.1 (ih hs.2), List.cons_append]

/-- Indenting the text indents its lines. -/
theorem lines_indentText {mk : σ → σ} (hspace : ∀ c, space (mk c) = true)
    (hmk : ∀ c, newline (mk c) = false) (k : ℕ) {t l : List σ} {ls : List (List σ)}
    (ht : lines newline t = l :: ls) :
    ∃ ls', lines newline (indentText newline mk k t) = l :: ls' ∧ Indented space k ls ls' := by
  induction t generalizing l ls with
  | nil =>
    cases ht
    exact ⟨[], rfl, .nil⟩
  | cons c t ih =>
    obtain ⟨l₁, ls₁, ht₁⟩ := @exists_lines_eq_cons _ newline t
    obtain ⟨ls', hls', hind⟩ := ih ht₁
    rw [indentText, List.flatMap_cons, ← indentText]
    rcases hc : newline c with _ | _
    · rw [lines_cons hc ht₁] at ht
      cases ht
      exact ⟨ls', lines_cons hc hls', hind⟩
    · rw [lines_cons_newline hc, ht₁] at ht
      cases ht
      refine ⟨(List.replicate k (mk c) ++ l₁) :: ls', ?_, .cons ?_ hind⟩
      · rw [if_pos rfl, List.cons_append, lines_cons_newline hc, lines_append_of_not _ hls']
        exact fun d hd => (List.mem_replicate.mp hd).2 ▸ hmk c
      · exact ⟨_, List.length_replicate, fun d hd => (List.mem_replicate.mp hd).2 ▸ hspace c, rfl⟩

/-- The lines were indented less before. -/
theorem Indented.leading_le {k : ℕ} {ls ls' : List (List σ)} (h : Indented space k ls ls') {n : ℕ}
    (hls' : ∀ l ∈ ls', leading space l < n) : ∀ l ∈ ls, leading space l < n := by
  induction h with
  | nil => simp
  | @cons l l' ls ls' hl _ ih =>
    obtain ⟨s, rfl, hs, rfl⟩ := hl
    rw [List.forall_mem_cons, leading_append hs] at hls'
    exact List.forall_mem_cons.mpr ⟨by omega, ih hls'.2⟩

/-- Unindenting takes back what was added. -/
theorem unindent_append {s : List σ} (hs : ∀ c ∈ s, space c = true) (m : Option ℕ) (l : List σ) :
    unindent space (m.map (· + s.length)) (s ++ l) = unindent space m l := by
  cases m with
  | none =>
    rw [Option.map_none, unindent, unindent, leading_append hs, List.drop_length_add_append]
  | some m =>
    rw [Option.map_some, unindent, unindent, leading_append hs, Nat.add_comm m,
      Nat.add_min_add_left, List.drop_length_add_append]

/-- Adding a number to all adds it to the least. -/
theorem min?_map_add (l : List ℕ) (k : ℕ) : (l.map (· + k)).min? = l.min?.map (· + k) := by
  cases l with
  | nil => rfl
  | cons a l =>
    rw [List.map_cons, List.min?_cons', List.min?_cons', Option.map_some]
    congr 1
    induction l generalizing a with
    | nil => rfl
    | cons b l ih =>
      rw [List.map_cons, List.foldl_cons, List.foldl_cons, ← ih, Nat.add_min_add_right]

/-- The same number of spaces in front of every line makes no difference to a text without its
indentation. -/
theorem unindentLines_of_indented {k : ℕ} {t t' : List σ}
    (h : Indented space k (lines newline t) (lines newline t')) :
    unindentLines space newline t' = unindentLines space newline t := by
  have hm : (indents space newline (lines newline t')).min? =
      (indents space newline (lines newline t)).min?.map (· + k) := by
    rw [h.indents, min?_map_add]
  rw [unindentLines, unindentLines, hm]
  generalize (indents space newline (lines newline t)).min? = m
  generalize lines newline t = ls, lines newline t' = ls' at h
  induction h with
  | nil => rfl
  | @cons l l' ls ls' hl _ ih =>
    obtain ⟨s, rfl, hs, rfl⟩ := hl
    rw [List.flatMap_cons, List.flatMap_cons, unindent_append hs, ih]

end Nix
