import NixStore.Lib.Lines

/-!
# Line breaks

A text in which a line ends with a carriage return, with a line feed or with both, the text with a
line feed for each of its line breaks, and the position at its end, as a line and a column.
-/

namespace Nix

variable {σ : Type*} [DecidableEq σ] (cr lf : σ)

/-- A text with a line feed for each line break. -/
def normalizeBreaks : List σ → List σ
  | [] => []
  | [c] => if c = cr then [lf] else [c]
  | c :: d :: t =>
    if c = cr then lf :: (if d = lf then normalizeBreaks t else normalizeBreaks (d :: t))
    else c :: normalizeBreaks (d :: t)

/-- The line and the column at the end of a text whose lines end with line feeds. -/
def endPosition (t : List σ) : ℕ × ℕ :=
  ((lines (· = lf) t).length, ((lines (· = lf) t).getLast?.getD []).length + 1)

/-- The position behind one more symbol. -/
def nextPosition (p : ℕ × ℕ) (c : σ) : ℕ × ℕ := if c = lf then (p.1 + 1, 1) else (p.1, p.2 + 1)

/-- A line break is cut between two texts. -/
def CutsBreak (s t : List σ) : Prop := s.getLast? = some cr ∧ t.head? = some lf

variable {cr lf}

/-- Any other character stays. -/
theorem normalizeBreaks_cons {c : σ} (hc : c ≠ cr) (t : List σ) :
    normalizeBreaks cr lf (c :: t) = c :: normalizeBreaks cr lf t := by
  cases t <;> simp [normalizeBreaks, hc]

/-- The two characters together are one break. -/
theorem normalizeBreaks_cr_lf (t : List σ) :
    normalizeBreaks cr lf (cr :: lf :: t) = lf :: normalizeBreaks cr lf t := by
  simp [normalizeBreaks]

/-- A carriage return alone is a break. -/
theorem normalizeBreaks_cr {t : List σ} (ht : t.head? ≠ some lf) :
    normalizeBreaks cr lf (cr :: t) = lf :: normalizeBreaks cr lf t := by
  cases t with
  | nil => simp [normalizeBreaks]
  | cons d t =>
    have hd : d ≠ lf := fun h => ht (congrArg some h)
    simp [normalizeBreaks, hd]

/-- Induction on a text along its line breaks. -/
theorem breaksInduction {P : List σ → Prop} (hnil : P []) (hpair : ∀ t, P t → P (cr :: lf :: t))
    (hcr : ∀ t, t.head? ≠ some lf → P t → P (cr :: t)) (hother : ∀ c t, c ≠ cr → P t → P (c :: t)) :
    ∀ t, P t
  | [] => hnil
  | [c] =>
    if hc : c = cr then hc ▸ hcr [] (by simp) hnil else hother c [] hc hnil
  | c :: d :: t =>
    have ht := breaksInduction hnil hpair hcr hother t
    have hdt := breaksInduction hnil hpair hcr hother (d :: t)
    if hc : c = cr then
      if hd : d = lf then hc ▸ hd ▸ hpair t ht
      else hc ▸ hcr (d :: t) (by simpa using hd) hdt
    else hother c (d :: t) hc hdt

/-- Line breaks that are not cut. -/
theorem normalizeBreaks_append {s t : List σ} (h : ¬ CutsBreak cr lf s t) :
    normalizeBreaks cr lf (s ++ t) = normalizeBreaks cr lf s ++ normalizeBreaks cr lf t := by
  have hrest : ∀ {u v : List σ}, ¬ CutsBreak cr lf (v ++ u) t → ¬ CutsBreak cr lf u t :=
    fun h hcut => h ⟨by rw [List.getLast?_append, hcut.1]; rfl, hcut.2⟩
  induction s using @breaksInduction _ _ cr lf with
  | hnil => rfl
  | hpair s ih =>
    rw [List.cons_append, List.cons_append, normalizeBreaks_cr_lf, normalizeBreaks_cr_lf,
      ih (@hrest s [cr, lf] h), List.cons_append]
  | hcr s hs ih =>
    have hhead : (s ++ t).head? ≠ some lf := by
      cases s with
      | nil => exact fun ht => h ⟨rfl, ht⟩
      | cons d s => exact hs
    rw [List.cons_append, normalizeBreaks_cr hhead, normalizeBreaks_cr hs,
      ih (@hrest s [cr] h), List.cons_append]
  | hother c s hc ih =>
    rw [List.cons_append, normalizeBreaks_cons hc, normalizeBreaks_cons hc,
      ih (@hrest s [c] h), List.cons_append]

/-- Normalising makes no text longer. -/
theorem length_normalizeBreaks_le (t : List σ) : (normalizeBreaks cr lf t).length ≤ t.length := by
  induction t using @breaksInduction _ _ cr lf with
  | hnil => exact le_rfl
  | hpair t ih =>
    rw [normalizeBreaks_cr_lf, List.length_cons, List.length_cons, List.length_cons]
    omega
  | hcr t ht ih =>
    rw [normalizeBreaks_cr ht, List.length_cons, List.length_cons]
    omega
  | hother c t hc ih =>
    rw [normalizeBreaks_cons hc, List.length_cons, List.length_cons]
    omega

/-- Only a line break of two symbols makes a text shorter. -/
theorem length_normalizeBreaks_eq_iff {t : List σ} :
    (normalizeBreaks cr lf t).length = t.length ↔ ¬ [cr, lf] <:+: t := by
  induction t using @breaksInduction _ _ cr lf with
  | hnil => simp [normalizeBreaks]
  | hpair t ih =>
    have hle := @length_normalizeBreaks_le _ _ cr lf t
    have hpart : [cr, lf] <:+: cr :: lf :: t := ⟨[], t, rfl⟩
    rw [normalizeBreaks_cr_lf, List.length_cons, List.length_cons, List.length_cons]
    exact ⟨fun h => by omega, fun h => absurd hpart h⟩
  | hcr t ht ih =>
    have hstart : ¬ [cr, lf] <+: cr :: t := by
      rintro ⟨u, hu⟩
      rw [List.cons_append, List.cons.injEq] at hu
      exact ht (by rw [← hu.2]; rfl)
    rw [normalizeBreaks_cr ht, List.length_cons, List.length_cons, List.infix_cons_iff, not_or,
      ← ih]
    exact ⟨fun h => ⟨hstart, Nat.succ_injective h⟩, fun h => congrArg Nat.succ h.2⟩
  | hother c t hc ih =>
    have hstart : ¬ [cr, lf] <+: c :: t := by
      rintro ⟨u, hu⟩
      rw [List.cons_append, List.cons.injEq] at hu
      exact hc hu.1.symm
    rw [normalizeBreaks_cons hc, List.length_cons, List.length_cons, List.infix_cons_iff, not_or,
      ← ih]
    exact ⟨fun h => ⟨hstart, Nat.succ_injective h⟩, fun h => congrArg Nat.succ h.2⟩

/-! ### Positions -/

/-- The position behind a text, counted symbol by symbol. -/
theorem foldl_nextPosition {t l : List σ} {ls : List (List σ)}
    (ht : lines (· = lf) t = l :: ls) (p : ℕ × ℕ) : t.foldl (nextPosition lf) p =
      (p.1 + ls.length, if ls = [] then p.2 + l.length else (ls.getLast?.getD []).length + 1) := by
  induction t generalizing p l ls with
  | nil =>
    cases ht
    rfl
  | cons c t ih =>
    obtain ⟨l₁, ls₁, ht₁⟩ := @exists_lines_eq_cons _ (fun d => decide (d = lf)) t
    rw [List.foldl_cons, ih ht₁]
    by_cases hc : c = lf
    · rw [@lines_cons_newline _ (fun d => decide (d = lf)) c (decide_eq_true hc), ht₁] at ht
      cases ht
      rw [nextPosition, if_pos hc, if_neg (List.cons_ne_nil _ _), List.length_cons]
      refine Prod.ext (by dsimp only; omega) ?_
      cases ls₁ with
      | nil => simp [Nat.add_comm]
      | cons l₂ ls₂ => simp
    · rw [@lines_cons _ (fun d => decide (d = lf)) c (decide_eq_false hc) _ _ _ ht₁] at ht
      cases ht
      rw [nextPosition, if_neg hc, List.length_cons]
      split_ifs
      · exact Prod.ext rfl (by dsimp only; omega)
      · rfl

/-- The end position, from the first character on. -/
theorem endPosition_eq_foldl (t : List σ) : endPosition lf t = t.foldl (nextPosition lf) (1, 1) := by
  obtain ⟨l, ls, ht⟩ := @exists_lines_eq_cons _ (fun d => decide (d = lf)) t
  rw [foldl_nextPosition ht, endPosition, ht, List.length_cons]
  refine Prod.ext (Nat.add_comm _ _) ?_
  cases ls with
  | nil => simp [Nat.add_comm]
  | cons l₁ ls => simp

/-- The end position of two texts. -/
theorem endPosition_append (s t : List σ) :
    endPosition lf (s ++ t) = t.foldl (nextPosition lf) (endPosition lf s) := by
  rw [endPosition_eq_foldl, endPosition_eq_foldl, List.foldl_append]

/-- Every symbol moves the position. -/
theorem lt_nextPosition (p : ℕ × ℕ) (c : σ) : toLex p < toLex (nextPosition lf p c) := by
  rw [Prod.Lex.toLex_lt_toLex, nextPosition]
  split_ifs
  · exact Or.inl (Nat.lt_succ_self p.1)
  · exact Or.inr ⟨rfl, Nat.lt_succ_self p.2⟩

end Nix
