import NixStore.Lib.Parser

/-!
# Readers and formats

A format has three languages: the texts that a reader accepts, the short streams that it takes for texts
although they end too early, and the streams on which it never returns.  `Follows p F` says that the
reader `p` returns behind the texts of `F`, at the ends of its short streams and nowhere else, and that it
hangs on the cut streams of `F` and no others.  The rules below build the format of a reader along its
definition, so that the streams on which it hangs are given by a grammar.
-/

namespace Nix

/-- The texts of a format, the streams that end too early and are taken for texts, and the streams that
end in the middle of something. -/
structure Format (τ : Type) where
  text : Language τ
  short : Language τ
  cut : Language τ

namespace Reader

open Computability

variable {ε τ α β σ : Type}

/-- The reader returns behind a text of the format and at the end of a short stream, and does not return
on a cut stream. -/
structure Follows (p : Reader ε τ α) (F : Format τ) : Prop where
  ok_iff : ∀ s r, (∃ a, p s = .ok (a, r)) ↔ (∃ w ∈ F.text, s = w ++ r) ∨ s ∈ F.short ∧ r = []
  diverge_iff : ∀ s, p s = .diverge ↔ s ∈ F.cut

end Reader

namespace Format

variable {τ : Type}

/-- The format of nothing. -/
protected def empty : Format τ := ⟨1, 0, 0⟩

/-- The streams of a language, if another one has the empty stream. -/
def atEnd (L K : Language τ) : Language τ := {w | w ∈ L ∧ [] ∈ K}

/-- One format after another.  Behind a short stream there is nothing. -/
def seq (F G : Format τ) : Format τ :=
  ⟨F.text * G.text, F.text * G.short + atEnd F.short (G.text + G.short),
    F.cut + (F.text * G.cut + atEnd F.short G.cut)⟩

/-- A fixed text, and the short streams that are taken for it. -/
def lit (s : List τ) (short : Language τ) : Format τ := ⟨{s}, short, 0⟩

theorem mem_atEnd {L K : Language τ} {w : List τ} : w ∈ atEnd L K ↔ w ∈ L ∧ [] ∈ K := Iff.rfl

/-- Nothing behind a format is the format itself. -/
theorem seq_empty (F : Format τ) : F.seq .empty = F := by
  obtain ⟨text, short, cut⟩ := F
  have hshort : atEnd short 1 = short := by
    ext w
    rw [mem_atEnd, Language.mem_one]
    exact and_iff_left rfl
  have hcut : atEnd short 0 = (0 : Language τ) := by
    ext w
    exact iff_of_false (fun h => Language.notMem_zero _ h.2) (Language.notMem_zero w)
  simp only [seq, Format.empty, mul_one, mul_zero, zero_add, add_zero, hshort, hcut]

end Format

namespace Reader

open Computability

variable {ε τ α β σ : Type}

/-- Returning a value follows the empty format. -/
theorem follows_pure (a : α) : Follows (pure a : Reader ε τ α) .empty where
  ok_iff s r := by
    change (∃ b, Outcome.ok (a, s) = .ok (b, r)) ↔
      (∃ w ∈ (1 : Language τ), s = w ++ r) ∨ s ∈ (0 : Language τ) ∧ r = []
    simp [Language.mem_one, Language.notMem_zero]
  diverge_iff s := by
    change (Outcome.ok (a, s) : Outcome ε (α × List τ)) = .diverge ↔ s ∈ (0 : Language τ)
    simp [Language.notMem_zero]

section

variable {p : Reader ε τ α} {f : α → Reader ε τ β} {F G : Format τ}

/-- Two readers in a row return when both do. -/
theorem bind_eq_ok {s r : List τ} {b : β} :
    (p >>= f) s = .ok (b, r) ↔ ∃ a t, p s = .ok (a, t) ∧ f a t = .ok (b, r) := by
  change Reader.bind p f s = _ ↔ _
  unfold Reader.bind
  rcases p s with ⟨a, t⟩ | e | _ <;> simp

/-- Two readers in a row run for ever when one of them does. -/
theorem bind_eq_diverge {s : List τ} :
    (p >>= f) s = .diverge ↔ p s = .diverge ∨ ∃ a t, p s = .ok (a, t) ∧ f a t = .diverge := by
  change Reader.bind p f s = _ ↔ _
  unfold Reader.bind
  rcases p s with ⟨a, t⟩ | e | _ <;> simp

/-- One reader after another. -/
theorem Follows.bind (hp : Follows p F) (hf : ∀ a, Follows (f a) G) :
    Follows (p >>= f) (F.seq G) where
  ok_iff s r := by
    simp only [bind_eq_ok, Format.seq, Language.mem_add, Language.mem_mul, Format.mem_atEnd]
    constructor
    · rintro ⟨b, a, t, ha, hb⟩
      rcases (hp.ok_iff s t).mp ⟨a, ha⟩ with ⟨w, hw, rfl⟩ | ⟨hs, rfl⟩
      · rcases ((hf a).ok_iff t r).mp ⟨b, hb⟩ with ⟨v, hv, rfl⟩ | ⟨ht, rfl⟩
        · exact .inl ⟨w ++ v, ⟨w, hw, v, hv, rfl⟩, by simp⟩
        · exact .inr ⟨.inl ⟨w, hw, t, ht, rfl⟩, rfl⟩
      · rcases ((hf a).ok_iff [] r).mp ⟨b, hb⟩ with ⟨v, hv, heq⟩ | ⟨hnil, rfl⟩
        · obtain ⟨rfl, rfl⟩ := List.append_eq_nil_iff.mp heq.symm
          exact .inr ⟨.inr ⟨hs, .inl hv⟩, rfl⟩
        · exact .inr ⟨.inr ⟨hs, .inr hnil⟩, rfl⟩
    · rintro (⟨_, ⟨w, hw, v, hv, rfl⟩, rfl⟩ | ⟨⟨w, hw, t, ht, rfl⟩ | ⟨hs, hnil⟩, rfl⟩)
      · obtain ⟨a, ha⟩ := (hp.ok_iff (w ++ v ++ r) (v ++ r)).mpr (.inl ⟨w, hw, by simp⟩)
        obtain ⟨b, hb⟩ := ((hf a).ok_iff (v ++ r) r).mpr (.inl ⟨v, hv, rfl⟩)
        exact ⟨b, a, v ++ r, ha, hb⟩
      · obtain ⟨a, ha⟩ := (hp.ok_iff (w ++ t) t).mpr (.inl ⟨w, hw, rfl⟩)
        obtain ⟨b, hb⟩ := ((hf a).ok_iff t []).mpr (.inr ⟨ht, rfl⟩)
        exact ⟨b, a, t, ha, hb⟩
      · obtain ⟨a, ha⟩ := (hp.ok_iff s []).mpr (.inr ⟨hs, rfl⟩)
        obtain ⟨b, hb⟩ := ((hf a).ok_iff [] []).mpr
          (hnil.imp (fun h => ⟨[], h, rfl⟩) fun h => ⟨h, rfl⟩)
        exact ⟨b, a, [], ha, hb⟩
  diverge_iff s := by
    rw [bind_eq_diverge, Format.seq, Language.mem_add, hp.diverge_iff, Language.mem_add,
      Language.mem_mul, Format.mem_atEnd]
    refine or_congr_right ⟨?_, ?_⟩
    · rintro ⟨a, t, ha, hd⟩
      have ht := ((hf a).diverge_iff t).mp hd
      rcases (hp.ok_iff s t).mp ⟨a, ha⟩ with ⟨w, hw, rfl⟩ | ⟨hs, rfl⟩
      · exact .inl ⟨w, hw, t, ht, rfl⟩
      · exact .inr ⟨hs, ht⟩
    · rintro (⟨w, hw, t, ht, rfl⟩ | ⟨hs, hnil⟩)
      · obtain ⟨a, ha⟩ := (hp.ok_iff (w ++ t) t).mpr (.inl ⟨w, hw, rfl⟩)
        exact ⟨a, t, ha, ((hf a).diverge_iff t).mpr ht⟩
      · obtain ⟨a, ha⟩ := (hp.ok_iff s []).mpr (.inr ⟨hs, rfl⟩)
        exact ⟨a, [], ha, ((hf a).diverge_iff []).mpr hnil⟩

/-- A reader whose result is only wrapped up. -/
theorem Follows.bind_pure {g : α → β} (hp : Follows p F) :
    Follows (p >>= fun a => pure (g a)) F := by
  have h := hp.bind fun a => follows_pure (ε := ε) (g a)
  rwa [Format.seq_empty] at h

end

/-! ### Lists -/

/-- How a loop finds out whether its list ends: `sep` is skipped if it is there, and `close` ends the
list. -/
structure Separates (stop : Reader ε τ Bool) (sep close : τ) : Prop where
  skips : ∀ s, stop (sep :: s) = .ok (false, s)
  ends : ∀ s, stop (close :: s) = .ok (true, s)
  other : ∀ s, s.head? ≠ some sep → s.head? ≠ some close → stop s = .ok (false, s)

/-- A separator, which can be missing. -/
def optional (sep : τ) : Language τ := 1 + {[sep]}

/-- The text of a list, up to its end. -/
def listText (sep close : τ) (M : Language τ) : Language τ := (optional sep * M)∗ * {[close]}

/-- The streams in which an item of a list does not come to its end. -/
def listCut (sep : τ) (M D : Language τ) : Language τ := (optional sep * M)∗ * (optional sep * D)

/-- All words begin with something else than a separator or the end of a list, if they are not empty. -/
def StartsApart (sep close : τ) (M : Language τ) : Prop :=
  ∀ c t, c :: t ∈ M → c ≠ sep ∧ c ≠ close

/-- The items of lists: they are not empty, and do not begin like the end of a list. -/
structure IsItem (sep close : τ) (F : Format τ) : Prop where
  text : StartsApart sep close F.text
  short : StartsApart sep close F.short
  cut : StartsApart sep close F.cut
  text_ne : [] ∉ F.text
  short_ne : [] ∉ F.short

/-- The format of a list, up to its end.  The loop does not stop at the end of the stream, so no stream
without the end of the list is taken for one. -/
def listFormat (sep close : τ) (F : Format τ) : Format τ :=
  ⟨listText sep close F.text, 0, listCut sep F.text (F.cut + Format.atEnd F.short F.cut)⟩

section

variable {sep close : τ} {M D : Language τ}

/-- The separator, or nothing. -/
theorem mem_optional {w : List τ} : w ∈ optional sep ↔ w = [] ∨ w = [sep] := by
  rw [optional, Language.mem_add, Language.mem_one]
  exact Iff.rfl

/-- A repetition is empty or begins with one of its parts. -/
theorem kstar_mul_eq (L K : Language τ) : L∗ * K = K + L * (L∗ * K) := by
  conv_lhs => rw [← Language.one_add_self_mul_kstar_eq_kstar]
  rw [add_mul, one_mul, mul_assoc]

/-- A list is closed at once, or has an element and goes on. -/
theorem mem_listText {w : List τ} : w ∈ listText sep close M ↔ w = [close] ∨
    ∃ c ∈ optional sep, ∃ u ∈ M, ∃ v ∈ listText sep close M, w = c ++ (u ++ v) := by
  have heq : listText sep close M = {[close]} + optional sep * (M * listText sep close M) := by
    rw [← mul_assoc]
    exact kstar_mul_eq _ _
  constructor
  · intro h
    rw [heq, Language.mem_add] at h
    rcases h with h | h
    · exact .inl h
    · obtain ⟨c, hc, x, hx, rfl⟩ := h
      obtain ⟨u, hu, v, hv, rfl⟩ := hx
      exact .inr ⟨c, hc, u, hu, v, hv, rfl⟩
  · rintro (h | ⟨c, hc, u, hu, v, hv, rfl⟩)
    · rw [heq]
      exact .inl h
    · rw [heq]
      exact .inr ⟨c, hc, u ++ v, ⟨u, hu, v, hv, rfl⟩, rfl⟩

/-- A list is cut off within an element, or behind one. -/
theorem mem_listCut {w : List τ} : w ∈ listCut sep M D ↔
    (∃ c ∈ optional sep, ∃ v ∈ D, w = c ++ v) ∨
    ∃ c ∈ optional sep, ∃ u ∈ M, ∃ v ∈ listCut sep M D, w = c ++ (u ++ v) := by
  have heq : listCut sep M D = optional sep * D + optional sep * (M * listCut sep M D) := by
    rw [← mul_assoc]
    exact kstar_mul_eq _ _
  constructor
  · intro h
    rw [heq, Language.mem_add] at h
    rcases h with ⟨c, hc, v, hv, rfl⟩ | ⟨c, hc, x, hx, rfl⟩
    · exact .inl ⟨c, hc, v, hv, rfl⟩
    · obtain ⟨u, hu, v, hv, rfl⟩ := hx
      exact .inr ⟨c, hc, u, hu, v, hv, rfl⟩
  · rintro (⟨c, hc, v, hv, rfl⟩ | ⟨c, hc, u, hu, v, hv, rfl⟩)
    · rw [heq]
      exact .inl ⟨c, hc, v, hv, rfl⟩
    · rw [heq]
      exact .inr ⟨c, hc, u ++ v, ⟨u, hu, v, hv, rfl⟩, rfl⟩

/-- A list has an end. -/
theorem nil_notMem_listText : [] ∉ listText sep close M := by
  rintro ⟨u, -, v, hv, heq⟩
  have hv' : v = [close] := hv
  rw [hv'] at heq
  exact absurd heq (by simp)

/-- The empty text is a list cut off when it is an element cut off. -/
theorem nil_mem_listCut (hM : [] ∉ M) : [] ∈ listCut sep M D ↔ [] ∈ D := by
  rw [mem_listCut]
  constructor
  · rintro (⟨c, -, v, hv, heq⟩ | ⟨c, -, u, hu, v, -, heq⟩)
    · obtain ⟨-, rfl⟩ := List.append_eq_nil_iff.mp heq.symm
      exact hv
    · obtain ⟨-, huv⟩ := List.append_eq_nil_iff.mp heq.symm
      obtain ⟨rfl, -⟩ := List.append_eq_nil_iff.mp huv
      exact absurd hu hM
  · exact fun h => .inl ⟨[], mem_optional.mpr (.inl rfl), [], h, rfl⟩

/-- Whether the list ends here, or where the next item is. -/
theorem Separates.cases {stop : Reader ε τ Bool} (h : Separates stop sep close) (s : List τ) :
    (∃ r, s = close :: r ∧ stop s = .ok (true, r)) ∨
      ∃ c ∈ optional sep, ∃ t, s = c ++ t ∧ stop s = .ok (false, t) := by
  by_cases hclose : s.head? = some close
  · obtain ⟨r, rfl⟩ := List.head?_eq_some_iff.mp hclose
    exact .inl ⟨r, rfl, h.ends r⟩
  · by_cases hsep : s.head? = some sep
    · obtain ⟨t, rfl⟩ := List.head?_eq_some_iff.mp hsep
      exact .inr ⟨[sep], mem_optional.mpr (.inr rfl), t, rfl, h.skips t⟩
    · exact .inr ⟨[], mem_optional.mpr (.inl rfl), s, rfl, h.other s hsep hclose⟩

/-- In front of an item the list does not end. -/
theorem Separates.of_startsApart {stop : Reader ε τ Bool} (h : Separates stop sep close)
    {c w t : List τ} (hM : StartsApart sep close M) (hne : w = [] → t = []) (hc : c ∈ optional sep)
    (hw : w ∈ M) : stop (c ++ (w ++ t)) = .ok (false, w ++ t) := by
  have happly : stop (w ++ t) = .ok (false, w ++ t) := by
    cases w with
    | nil =>
      rw [hne rfl]
      exact h.other [] (by simp) (by simp)
    | cons x w =>
      obtain ⟨hsep, hclose⟩ := hM x w hw
      exact h.other _ (by simpa using hsep) (by simpa using hclose)
  rcases mem_optional.mp hc with rfl | rfl
  · exact happly
  · exact h.skips _

variable {stop : Reader ε τ Bool} {item : Reader ε τ α} {step : σ → α → σ} {F : Format τ}

/-- A loop over a list, with a bound that the length of the stream does not reach. -/
theorem Follows.loop (hstop : Separates stop sep close) (hitem : Follows item F)
    (hF : IsItem sep close F) (n : ℕ) : ∀ (s : List τ) (acc : σ), s.length < n →
      (∀ r, (∃ a, loop stop item step n acc s = .ok (a, r)) ↔
        ∃ w ∈ (listFormat sep close F).text, s = w ++ r) ∧
      (loop stop item step n acc s = .diverge ↔ s ∈ (listFormat sep close F).cut) := by
  induction n with
  | zero => exact fun s acc h => absurd h (Nat.not_lt_zero _)
  | succ n ih =>
    intro s acc hlen
    have hrest : ∀ {c u v : List τ}, u ≠ [] → s = c ++ (u ++ v) → v.length < n := by
      rintro c u v hu rfl
      have hpos : 0 < u.length := List.length_pos_iff.mpr hu
      simp only [List.length_append] at hlen
      omega
    -- behind an item that is taken for one at the end of the stream the loop does not return
    have hend : ∀ {c u : List τ} (acc : σ), u ∈ F.short → s = c ++ u →
        (∀ a r, Reader.loop stop item step n acc [] ≠ .ok (a, r)) ∧
          (Reader.loop stop item step n acc [] = .diverge ↔ [] ∈ F.cut) := by
      intro c u acc hu hs
      have hne : u ≠ [] := fun h => hF.short_ne (h ▸ hu)
      obtain ⟨hok, hdiverge⟩ := ih [] acc (hrest (v := []) hne (by rw [hs, List.append_nil]))
      refine ⟨fun a r ha => ?_, ?_⟩
      · obtain ⟨w, hw, heq⟩ := (hok r).mp ⟨a, ha⟩
        obtain ⟨rfl, -⟩ := List.append_eq_nil_iff.mp heq.symm
        exact nil_notMem_listText hw
      · rw [hdiverge, listFormat, nil_mem_listCut hF.text_ne, Language.mem_add, Format.mem_atEnd]
        exact or_iff_left fun h => hF.short_ne h.1
    have htext : ∀ {u : List τ}, u ∈ F.text → u ≠ [] := fun hu h => hF.text_ne (h ▸ hu)
    refine ⟨fun r => ⟨?_, ?_⟩, ?_, ?_⟩
    · rintro ⟨a, ha⟩
      obtain ⟨b, t, hb, hafter⟩ := bind_eq_ok.mp ha
      rcases hstop.cases s with ⟨r', rfl, hs⟩ | ⟨c, hc, t', rfl, hs⟩
      · obtain ⟨rfl, rfl⟩ : true = b ∧ r' = t := by simpa [hs] using hb
        obtain ⟨-, rfl⟩ : acc = a ∧ r' = r := by
          simpa using (Outcome.ok.inj hafter)
        exact ⟨[close], mem_listText.mpr (.inl rfl), rfl⟩
      · obtain ⟨rfl, rfl⟩ : false = b ∧ t' = t := by simpa [hs] using hb
        obtain ⟨x, t, hx, hloop⟩ := bind_eq_ok.mp hafter
        rcases (hitem.ok_iff _ _).mp ⟨x, hx⟩ with ⟨u, hu, rfl⟩ | ⟨hshort, rfl⟩
        · obtain ⟨v, hv, rfl⟩ := ((ih t (step acc x) (hrest (htext hu) rfl)).1 r).mp ⟨a, hloop⟩
          exact ⟨c ++ (u ++ v), mem_listText.mpr (.inr ⟨c, hc, u, hu, v, hv, rfl⟩), by simp⟩
        · exact absurd hloop ((hend (step acc x) hshort rfl).1 a r)
    · rintro ⟨w, hw, rfl⟩
      rcases mem_listText.mp hw with rfl | ⟨c, hc, u, hu, v, hv, rfl⟩
      · exact ⟨acc, bind_eq_ok.mpr ⟨true, r, hstop.ends r, rfl⟩⟩
      · rw [List.append_assoc, List.append_assoc] at hrest ⊢
        obtain ⟨x, hx⟩ := (hitem.ok_iff (u ++ (v ++ r)) (v ++ r)).mpr (.inl ⟨u, hu, rfl⟩)
        obtain ⟨a, ha⟩ := ((ih (v ++ r) (step acc x) (hrest (htext hu) rfl)).1 r).mpr ⟨v, hv, rfl⟩
        have hnext := hstop.of_startsApart (t := v ++ r) hF.text (fun h => absurd h (htext hu)) hc hu
        exact ⟨a, bind_eq_ok.mpr ⟨false, _, hnext, bind_eq_ok.mpr ⟨x, v ++ r, hx, ha⟩⟩⟩
    · intro hd
      rcases bind_eq_diverge.mp hd with hd | ⟨b, t, hb, hafter⟩
      · rcases hstop.cases s with ⟨r', rfl, hs⟩ | ⟨c, hc, t', rfl, hs⟩
        all_goals simp [hs] at hd
      · rcases hstop.cases s with ⟨r', rfl, hs⟩ | ⟨c, hc, t', rfl, hs⟩
        · obtain ⟨rfl, rfl⟩ : true = b ∧ r' = t := by simpa [hs] using hb
          cases hafter
        · obtain ⟨rfl, rfl⟩ : false = b ∧ t' = t := by simpa [hs] using hb
          rcases bind_eq_diverge.mp hafter with hitem' | ⟨x, t, hx, hloop⟩
          · exact mem_listCut.mpr (.inl ⟨c, hc, _, .inl ((hitem.diverge_iff _).mp hitem'), rfl⟩)
          · rcases (hitem.ok_iff _ _).mp ⟨x, hx⟩ with ⟨u, hu, rfl⟩ | ⟨hshort, rfl⟩
            · have hv := (ih t (step acc x) (hrest (htext hu) rfl)).2.mp hloop
              exact mem_listCut.mpr (.inr ⟨c, hc, u, hu, t, hv, rfl⟩)
            · have hcut := (hend (step acc x) hshort rfl).2.mp hloop
              exact mem_listCut.mpr (.inl ⟨c, hc, _, .inr ⟨hshort, hcut⟩, rfl⟩)
    · intro hs
      rcases mem_listCut.mp hs with ⟨c, hc, v, hv | ⟨hshort, hcut⟩, rfl⟩ | ⟨c, hc, u, hu, v, hv, rfl⟩
      · have hnext := hstop.of_startsApart (t := []) hF.cut (fun _ => rfl) hc hv
        rw [List.append_nil] at hnext
        refine bind_eq_diverge.mpr (.inr ⟨false, v, hnext, ?_⟩)
        exact bind_eq_diverge.mpr (.inl ((hitem.diverge_iff v).mpr hv))
      · have hnext := hstop.of_startsApart (t := []) hF.short (fun _ => rfl) hc hshort
        rw [List.append_nil] at hnext
        obtain ⟨x, hx⟩ := (hitem.ok_iff v []).mpr (.inr ⟨hshort, rfl⟩)
        refine bind_eq_diverge.mpr (.inr ⟨false, v, hnext, ?_⟩)
        exact bind_eq_diverge.mpr (.inr ⟨x, [], hx, (hend (step acc x) hshort rfl).2.mpr hcut⟩)
      · obtain ⟨x, hx⟩ := (hitem.ok_iff (u ++ v) v).mpr (.inl ⟨u, hu, rfl⟩)
        have hd := (ih v (step acc x) (hrest (htext hu) rfl)).2.mpr hv
        have hnext := hstop.of_startsApart (t := v) hF.text (fun h => absurd h (htext hu)) hc hu
        refine bind_eq_diverge.mpr (.inr ⟨false, _, hnext, ?_⟩)
        exact bind_eq_diverge.mpr (.inr ⟨x, v, hx, hd⟩)

end

end Reader

end Nix
