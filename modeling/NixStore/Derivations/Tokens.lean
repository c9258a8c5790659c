import NixStore.Derivations.OutputRequests

/-!
# The tokens of a string

The loop of `tokenizeString` goes from position to position with `find_first_not_of` and
`find_first_of`.  It finds every maximal piece of the string that is not empty and has no separator in
it, once and in the order of the positions.
-/

namespace Nix

/-! ### Pieces -/

section

variable {σ : Type*} {separator : σ → Bool} {done w t t' r s : List σ} {i : ℕ}

/-- The piece `t` stands at a position of `s`; it is not empty, has no separator in it, and cannot be
made longer on either side. -/
def IsPiece (separator : σ → Bool) (s : List σ) (i : ℕ) (t : List σ) : Prop :=
  ∃ pre post, s = pre ++ (t ++ post) ∧ pre.length = i ∧ t ≠ [] ∧ (∀ c ∈ t, separator c = false) ∧
    (∀ c ∈ pre.getLast?, separator c = true) ∧ ∀ c ∈ post.head?, separator c = true

/-- Two pieces at the same position are the same. -/
theorem eq_of_piece_append (h : t ++ r = t' ++ w) (ht : ∀ c ∈ t, separator c = false)
    (ht' : ∀ c ∈ t', separator c = false) (hr : ∀ c ∈ r.head?, separator c = true)
    (hw : ∀ c ∈ w.head?, separator c = true) : t = t' := by
  -- one of the two is longer by a piece `y` without separators that begins with a separator
  have hnil : ∀ {y u v : List σ}, (∀ c ∈ y, separator c = false) → u = y ++ v →
      (∀ c ∈ u.head?, separator c = true) → y = [] := by
    intro y u v hy hu hhead
    cases y with
    | nil => rfl
    | cons c y =>
      have hsep : separator c = true := hhead c (by rw [hu]; rfl)
      rw [hy c List.mem_cons_self] at hsep
      cases hsep
  rcases List.append_eq_append_iff.mp h with ⟨y, rfl, hy⟩ | ⟨y, rfl, hy⟩
  · rw [hnil (fun c hc => ht' c (List.mem_append_right _ hc)) hy hr, List.append_nil]
  · rw [hnil (fun c hc => ht c (List.mem_append_right _ hc)) hy hw, List.append_nil]

/-- Without anything but separators there is no piece. -/
theorem not_isPiece_of_all (hw : ∀ c ∈ w, separator c = true) (hi : done.length ≤ i) :
    ¬ IsPiece separator (done ++ w) i t := by
  rintro ⟨pre, post, heq, rfl, hne, ht, -, -⟩
  obtain ⟨c, hc⟩ := List.exists_mem_of_ne_nil t hne
  have hmem : c ∈ w := by
    rcases List.append_eq_append_iff.mp heq with ⟨y, rfl, hy⟩ | ⟨y, rfl, hy⟩
    · rw [hy]
      exact List.mem_append_right _ (List.mem_append_left _ hc)
    · rw [List.length_append] at hi
      obtain rfl : y = [] := List.length_eq_zero_iff.mp (by omega)
      rw [List.nil_append] at hy
      rw [← hy]
      exact List.mem_append_left _ hc
  have hsep := hw c hmem
  rw [ht c hc] at hsep
  cases hsep

/-- The first piece behind `done`: it stands behind the separators, and all other pieces stand behind
it. -/
theorem isPiece_append_iff (hdone : done = [] ∨ ∀ c ∈ (w ++ (t ++ r)).head?, separator c = true)
    (hw : ∀ c ∈ w, separator c = true) (hne : t ≠ []) (ht : ∀ c ∈ t, separator c = false)
    (hr : ∀ c ∈ r.head?, separator c = true) (hi : done.length ≤ i) :
    IsPiece separator (done ++ (w ++ (t ++ r))) i t' ↔ i = done.length + w.length ∧ t' = t ∨
      done.length + w.length + t.length ≤ i ∧ IsPiece separator (done ++ (w ++ (t ++ r))) i t' := by
  constructor
  · intro hpiece
    obtain ⟨pre, post, heq, rfl, hne', ht', hpre, hpost⟩ := id hpiece
    obtain ⟨x, rfl, hx⟩ : ∃ x, pre = done ++ x ∧ w ++ (t ++ r) = x ++ (t' ++ post) := by
      rcases List.append_eq_append_iff.mp heq with ⟨y, hy, hy'⟩ | ⟨y, hy, hy'⟩
      · exact ⟨y, hy, hy'⟩
      · rw [hy, List.length_append] at hi
        obtain rfl : y = [] := List.length_eq_zero_iff.mp (by omega)
        exact ⟨[], by rw [hy, List.append_nil, List.append_nil], hy'.symm⟩
    rcases List.append_eq_append_iff.mp hx with ⟨y, rfl, hy⟩ | ⟨y, rfl, hy⟩
    · -- the piece begins behind the separators: with `t`, in it or behind it
      rcases List.append_eq_append_iff.mp hy with ⟨z, rfl, -⟩ | ⟨z, rfl, hz⟩
      · refine .inr ⟨?_, hpiece⟩
        simp only [List.length_append]
        omega
      · rcases List.eq_nil_or_concat y with rfl | ⟨y, c, rfl⟩
        · refine .inl ⟨by rw [List.append_nil, List.length_append], ?_⟩
          exact eq_of_piece_append hz ht' (fun c hc => ht c hc) hpost hr
        · have hsep : separator c = true := hpre c (by simp)
          rw [ht c (by simp)] at hsep
          cases hsep
    · -- the piece begins among the separators, so it begins with `t`
      rcases y with - | ⟨c, y⟩
      · rw [List.append_nil, List.nil_append] at *
        refine .inl ⟨List.length_append, ?_⟩
        exact (eq_of_piece_append hy.symm ht ht' hr hpost).symm
      · obtain ⟨d, t', rfl⟩ := List.exists_cons_of_ne_nil hne'
        rw [List.cons_append, List.cons_append, List.cons.injEq] at hy
        have hsep : separator c = true := hw c (by simp)
        rw [← hy.1, ht' d List.mem_cons_self] at hsep
        cases hsep
  · rintro (⟨rfl, rfl⟩ | ⟨-, hpiece⟩)
    · refine ⟨done ++ w, r, (List.append_assoc _ _ _).symm, List.length_append, hne, ht, fun c hc => ?_,
        hr⟩
      rcases List.eq_nil_or_concat w with rfl | ⟨w, d, rfl⟩
      · rcases hdone with rfl | hdone
        · cases hc
        · -- the piece would begin with a separator
          obtain ⟨d, t', rfl⟩ := List.exists_cons_of_ne_nil hne
          have hsep : separator d = true := hdone d rfl
          rw [ht d List.mem_cons_self] at hsep
          cases hsep
      · obtain rfl : d = c := by simpa using hc
        exact hw d (by simp)
    · exact hpiece

end

/-! ### The search loop -/

/-- The searches of a string, `npos` being `none`: the first position from `pos` on at which `p` holds. -/
def findFrom (p : UInt8 → Bool) (s : Str) (pos : ℕ) : Option ℕ :=
  ((s.drop pos).findIdx? p).map (pos + ·)

/-- Model of `find_first_of`. -/
def findFirstOf (s separators : Str) (pos : ℕ) : Option ℕ := findFrom separators.contains s pos

/-- Model of `find_first_not_of`. -/
def findFirstNotOf (s separators : Str) (pos : ℕ) : Option ℕ :=
  findFrom (fun c => !separators.contains c) s pos

/-- The loop of `tokenizeString` from position to position, with a bound on the number of tokens; each
token comes with the position at which it was found. -/
def tokenSpans (s separators : Str) : ℕ → Option ℕ → List (ℕ × Str)
  | 0, _ => []
  | _ + 1, none => []
  | n + 1, some pos =>
    let stop := (findFirstOf s separators (pos + 1)).getD s.length
    (pos, (s.drop pos).take (stop - pos)) :: tokenSpans s separators n (findFirstNotOf s separators stop)

section

variable {separators s done rest w t r : Str} {n i : ℕ}

/-- A search passes over what it does not look for. -/
theorem findFrom_append {p : UInt8 → Bool} {x y : Str} (hx : ∀ c ∈ x, p c = false) :
    findFrom p (done ++ (x ++ y)) done.length =
      (y.findIdx? p).map (done.length + x.length + ·) := by
  have hnone : x.findIdx? p = none := List.findIdx?_eq_none_iff.mpr hx
  rw [findFrom, List.drop_left, List.findIdx?_append, hnone, Option.none_or, Option.map_map]
  congr 1
  funext k
  simp only [Function.comp_apply]
  omega

/-- What is left of a string has separators only, or there is a first token in it. -/
theorem exists_first_token (separators rest : Str) : (∀ c ∈ rest, separators.contains c = true) ∨
    ∃ w t r, rest = w ++ (t ++ r) ∧ (∀ c ∈ w, separators.contains c = true) ∧ t ≠ [] ∧
      (∀ c ∈ t, separators.contains c = false) ∧ ∀ c ∈ r.head?, separators.contains c = true := by
  by_cases hall : ∀ c ∈ rest, separators.contains c = true
  · exact .inl hall
  have hne : rest.dropWhile separators.contains ≠ [] := mt List.dropWhile_eq_nil_iff.mp hall
  refine .inr ⟨rest.takeWhile separators.contains,
    (rest.dropWhile separators.contains).takeWhile fun c => !separators.contains c,
    (rest.dropWhile separators.contains).dropWhile fun c => !separators.contains c, ?_, ?_, ?_, ?_, ?_⟩
  · rw [List.takeWhile_append_dropWhile, List.takeWhile_append_dropWhile]
  · exact fun c hc => List.mem_takeWhile_imp hc
  · obtain ⟨c, s, hs⟩ := List.exists_cons_of_ne_nil hne
    have hhead := List.head?_dropWhile_not separators.contains rest
    rw [hs] at hhead ⊢
    have hc : separators.contains c = false := by simpa using hhead
    rw [List.takeWhile_cons_of_pos (by rw [hc]; rfl)]
    exact List.cons_ne_nil _ _
  · intro c hc
    simpa using List.mem_takeWhile_imp hc
  · intro c hc
    have hhead := List.head?_dropWhile_not (fun c => !separators.contains c)
      (rest.dropWhile separators.contains)
    rw [Option.mem_def.mp hc] at hhead
    simpa using hhead

/-- The loop ends when there are separators only. -/
theorem tokenSpans_of_all (hrest : ∀ c ∈ rest, separators.contains c = true) :
    tokenSpans (done ++ rest) separators n
      (findFirstNotOf (done ++ rest) separators done.length) = [] := by
  have hnone : findFirstNotOf (done ++ rest) separators done.length = none := by
    have hfind : findFrom (fun c => !separators.contains c) (done ++ (rest ++ [])) done.length = none :=
      findFrom_append fun c hc => by rw [hrest c hc]; rfl
    rwa [List.append_nil] at hfind
  rw [hnone]
  cases n with
  | zero => rfl
  | succ n => rfl

/-- One round of the loop: it finds the first token and goes on behind it. -/
theorem tokenSpans_succ (hw : ∀ c ∈ w, separators.contains c = true) (hne : t ≠ [])
    (ht : ∀ c ∈ t, separators.contains c = false)
    (hr : ∀ c ∈ r.head?, separators.contains c = true) :
    tokenSpans (done ++ (w ++ (t ++ r))) separators (n + 1)
        (findFirstNotOf (done ++ (w ++ (t ++ r))) separators done.length) =
      (done.length + w.length, t) :: tokenSpans (done ++ (w ++ (t ++ r))) separators n
        (findFirstNotOf (done ++ (w ++ (t ++ r))) separators (done ++ (w ++ t)).length) := by
  obtain ⟨c, t, rfl⟩ := List.exists_cons_of_ne_nil hne
  have hc : separators.contains c = false := ht c List.mem_cons_self
  have hstart : findFirstNotOf (done ++ (w ++ (c :: t ++ r))) separators done.length =
      some (done.length + w.length) := by
    rw [findFirstNotOf, findFrom_append fun c hc => by rw [hw c hc]; rfl, List.cons_append,
      List.findIdx?_cons, hc]
    rfl
  have hstop : (findFirstOf (done ++ (w ++ (c :: t ++ r))) separators
      (done.length + w.length + 1)).getD (done ++ (w ++ (c :: t ++ r))).length =
        (done ++ (w ++ c :: t)).length := by
    have hlength : (done ++ (w ++ [c])).length = done.length + w.length + 1 := by
      simp only [List.length_append, List.length_singleton]
      omega
    have hsplit : done ++ (w ++ (c :: t ++ r)) = done ++ (w ++ [c]) ++ (t ++ r) := by simp
    rw [findFirstOf, hsplit, ← hlength,
      findFrom_append fun c hc => ht c (List.mem_cons_of_mem _ hc)]
    cases r with
    | nil => simp
    | cons d r =>
      rw [List.findIdx?_cons, hr d rfl]
      simp
      omega
  have htoken : ((done ++ (w ++ (c :: t ++ r))).drop (done.length + w.length)).take
      ((done ++ (w ++ c :: t)).length - (done.length + w.length)) = c :: t := by
    have hlength : (done ++ (w ++ c :: t)).length - (done.length + w.length) = (c :: t).length := by
      simp only [List.length_append]
      omega
    rw [hlength, ← List.length_append, ← List.append_assoc, List.drop_left, List.take_left]
  rw [hstart, tokenSpans, hstop, htoken]

/-- The first token of a string in `tokens`. -/
theorem tokens_first (hw : ∀ c ∈ w, separators.contains c = true) (hne : t ≠ [])
    (ht : ∀ c ∈ t, separators.contains c = false)
    (hr : ∀ c ∈ r.head?, separators.contains c = true) :
    tokens separators.contains (n + 1) (w ++ (t ++ r)) =
      t :: tokens separators.contains n r := by
  induction w with
  | nil => exact tokens_append hne ht hr n
  | cons c w ih =>
    rw [List.cons_append, tokens_separator (hw c List.mem_cons_self)]
    exact ih fun d hd => hw d (List.mem_cons_of_mem c hd)

/-- The loop from position to position has the same tokens as `tokens`. -/
theorem map_snd_tokenSpans (n : ℕ) (done rest : Str) :
    (tokenSpans (done ++ rest) separators n
      (findFirstNotOf (done ++ rest) separators done.length)).map Prod.snd =
      tokens separators.contains n rest := by
  induction n generalizing done rest with
  | zero => rfl
  | succ n ih =>
    rcases exists_first_token separators rest with hall | ⟨w, t, r, rfl, hw, hne, ht, hr⟩
    · rw [tokenSpans_of_all hall, tokens, List.dropWhile_eq_nil_iff.mpr hall]
      rfl
    · have hsplit : done ++ (w ++ (t ++ r)) = done ++ (w ++ t) ++ r := by simp
      rw [tokenSpans_succ hw hne ht hr, tokens_first hw hne ht hr, List.map_cons, hsplit, ih]

/-- From the end of what was looked at, the loop finds exactly the pieces that are left. -/
theorem mem_tokenSpans_iff (hn : rest.length ≤ n)
    (hdone : done = [] ∨ ∀ c ∈ rest.head?, separators.contains c = true) :
    (i, t) ∈ tokenSpans (done ++ rest) separators n
        (findFirstNotOf (done ++ rest) separators done.length) ↔
      done.length ≤ i ∧ IsPiece separators.contains (done ++ rest) i t := by
  induction n generalizing done rest with
  | zero =>
    obtain rfl : rest = [] := List.length_eq_zero_iff.mp (Nat.le_zero.mp hn)
    rw [tokenSpans_of_all fun c hc => absurd hc List.not_mem_nil]
    refine ⟨fun h => absurd h List.not_mem_nil, fun h => ?_⟩
    exact absurd h.2 (not_isPiece_of_all (fun c hc => absurd hc List.not_mem_nil) h.1)
  | succ n ih =>
    rcases exists_first_token separators rest with hall | ⟨w, u, r, rfl, hw, hne, hu, hr⟩
    · rw [tokenSpans_of_all hall]
      refine ⟨fun h => absurd h List.not_mem_nil, fun h => ?_⟩
      exact absurd h.2 (not_isPiece_of_all hall h.1)
    · have hsplit : done ++ (w ++ (u ++ r)) = done ++ (w ++ u) ++ r := by simp
      have hpos : 0 < u.length := List.length_pos_iff.mpr hne
      have hlength : (done ++ (w ++ u)).length = done.length + w.length + u.length := by
        simp only [List.length_append]
        omega
      have hrest : (i, t) ∈ tokenSpans (done ++ (w ++ (u ++ r))) separators n
          (findFirstNotOf (done ++ (w ++ (u ++ r))) separators (done ++ (w ++ u)).length) ↔
          done.length + w.length + u.length ≤ i ∧
            IsPiece separators.contains (done ++ (w ++ (u ++ r))) i t := by
        rw [hsplit, ← hlength]
        refine ih ?_ (.inr hr)
        simp only [List.length_append] at hn
        omega
      rw [tokenSpans_succ hw hne hu hr, List.mem_cons, Prod.mk.injEq, hrest]
      constructor
      · rintro (⟨rfl, rfl⟩ | ⟨hle, hpiece⟩)
        · have hle : done.length ≤ done.length + w.length := Nat.le_add_right _ _
          exact ⟨hle, (isPiece_append_iff hdone hw hne hu hr hle).mpr (.inl ⟨rfl, rfl⟩)⟩
        · exact ⟨by omega, hpiece⟩
      · rintro ⟨hle, hpiece⟩
        exact (isPiece_append_iff hdone hw hne hu hr hle).mp hpiece

/-- The tokens come in the order of their positions. -/
theorem pairwise_tokenSpans (hn : rest.length ≤ n)
    (hdone : done = [] ∨ ∀ c ∈ rest.head?, separators.contains c = true) :
    (tokenSpans (done ++ rest) separators n
      (findFirstNotOf (done ++ rest) separators done.length)).Pairwise (fun a b => a.1 < b.1) := by
  induction n generalizing done rest with
  | zero => exact .nil
  | succ n ih =>
    rcases exists_first_token separators rest with hall | ⟨w, t, r, rfl, hw, hne, ht, hr⟩
    · rw [tokenSpans_of_all hall]
      exact .nil
    · have hsplit : done ++ (w ++ (t ++ r)) = done ++ (w ++ t) ++ r := by simp
      have hpos : 0 < t.length := List.length_pos_iff.mpr hne
      have hlength : r.length ≤ n := by
        simp only [List.length_append] at hn
        omega
      rw [tokenSpans_succ hw hne ht hr, hsplit]
      refine List.pairwise_cons.mpr ⟨?_, ih hlength (.inr hr)⟩
      rintro ⟨j, u⟩ hmem
      -- the later tokens stand behind the end of this one
      have hle := ((mem_tokenSpans_iff hlength (.inr hr)).mp hmem).1
      simp only [List.length_append] at hle
      dsimp only
      omega

end

/-- Model of `tokenizeString` as it is written: the tokens with the positions at which they are found. -/
def tokenizeSpans (s separators : Str) : List (ℕ × Str) :=
  tokenSpans s separators s.length (findFirstNotOf s separators 0)

/-- The loop of the source returns the tokens of `tokenizeString`. -/
theorem map_snd_tokenizeSpans (s separators : Str) :
    (tokenizeSpans s separators).map Prod.snd = tokenizeString s separators :=
  map_snd_tokenSpans s.length [] s

/-- The loop of the source finds exactly the pieces of the string. -/
theorem mem_tokenizeSpans_iff {s separators t : Str} {i : ℕ} :
    (i, t) ∈ tokenizeSpans s separators ↔ IsPiece separators.contains s i t := by
  have hiff : (i, t) ∈ tokenSpans ([] ++ s) separators s.length (findFirstNotOf ([] ++ s) separators 0) ↔
      0 ≤ i ∧ IsPiece separators.contains ([] ++ s) i t := mem_tokenSpans_iff le_rfl (.inl rfl)
  exact hiff.trans (and_iff_right (Nat.zero_le i))

/-- The loop of the source finds the pieces in the order of their positions. -/
theorem pairwise_tokenizeSpans (s separators : Str) :
    (tokenizeSpans s separators).Pairwise (fun a b => a.1 < b.1) := by
  have hpairwise : (tokenSpans ([] ++ s) separators s.length
      (findFirstNotOf ([] ++ s) separators 0)).Pairwise (fun a b => a.1 < b.1) :=
    pairwise_tokenSpans le_rfl (.inl rfl)
  exact hpairwise

example : tokenizeSpans (str ",,out,dev,") (str ",") = [(2, str "out"), (6, str "dev")] := by decide

end Nix
