import NixStore.Expr.StringOps
import NixStore.Store.PathForm
import NixStore.Util.ResolveLinks

/-!
# Elements of contexts

What a context can hold is a store path, possibly with a mark in front of it: `~` or `=`, or the name
of an output between two `!` (`IsElem`).  `decodeContext` knows the last of these marks only, so it
finds a store path exactly in the elements without the other two (`IsElem.decodesElem_iff`).  The
operations of `NixStore.Expr.StringOps` make such elements out of such elements.
-/

namespace Nix

variable {cfg : StoreConfig} {sha256 : Str → Str}

/-! ### Paths of proper components -/

/-- Two slashes in a row. -/
def doubleSlash : Str := [slash, slash]

/-- In a path of proper components there are no two slashes in a row. -/
theorem not_doubleSlash_subPath {names : List Str} (h : ∀ n ∈ names, IsCanonName n) :
    ¬ doubleSlash <:+: subPath names := by
  induction names with
  | nil => simp [doubleSlash, subPath]
  | cons n names ih =>
    have hn := h n List.mem_cons_self
    have hname : ∀ m : Str, slash ∉ m → doubleSlash <:+: m ++ subPath names →
        doubleSlash <:+: subPath names := by
      intro m hm hinfix
      induction m with
      | nil => exact hinfix
      | cons c m ihm =>
        rw [List.mem_cons, not_or] at hm
        rcases List.infix_cons_iff.mp hinfix with hpre | hinfix
        · exact absurd (List.cons_prefix_cons.mp hpre).1 hm.1
        · exact ihm hm.2 hinfix
    intro hinfix
    refine ih (fun m hm => h m (List.mem_cons_of_mem _ hm)) (hname n hn.noSlash ?_)
    have hcons : subPath (n :: names) = slash :: (n ++ subPath names) := rfl
    rw [hcons] at hinfix
    rcases List.infix_cons_iff.mp hinfix with hpre | hinfix
    · obtain ⟨c, m, rfl⟩ := List.exists_cons_of_ne_nil hn.ne_nil
      have hhead := (List.cons_prefix_cons.mp (List.cons_prefix_cons.mp hpre).2).1
      exact absurd (hhead ▸ List.mem_cons_self) hn.noSlash
    · exact hinfix

/-- The store path of a path of proper components is one. -/
theorem isStorePath_of_toStorePath {names : List Str} (h : ∀ n ∈ names, IsCanonName n) {p : Path}
    (hp : toStorePath cfg (joinComponents names) = .ok p) : isStorePath cfg p = true := by
  obtain ⟨c, rest, hpath, rfl⟩ := toStorePath_eq hp
  refine isStorePath_iff.mpr ⟨_, ?_, noSlash_takeWhile _, rfl⟩
  have hc : c ≠ slash := by
    rintro rfl
    rw [joinComponents] at hpath
    split_ifs at hpath
    · have hlen := congrArg List.length hpath
      have hstore : cfg.nixStore ≠ [] := by
        intro hnil
        have habs := cfg.absolute
        rw [hnil] at habs
        cases habs
      have hpos := List.length_pos_iff.mpr hstore
      simp only [List.length_append, List.length_cons] at hlen
      have hone : (str "/").length = 1 := rfl
      omega
    · exact not_doubleSlash_subPath h ⟨cfg.nixStore, rest, by rw [hpath]; simp [doubleSlash]⟩
  rw [List.takeWhile_cons_of_pos (by simpa using hc)]
  exact List.cons_ne_nil _ _

/-- A name of store paths has no `!`. -/
theorem noMark_of_isNameChar {n : Str} (h : ∀ c ∈ n, isNameChar c = true) : '!'.toUInt8 ∉ n :=
  fun hc => absurd (h _ hc) (by decide)

/-- An output that has a path has a proper name. -/
theorem isNameChar_of_makeOutputPath {id name : Str} {hash : Hash} {p : Path}
    (h : makeOutputPath cfg sha256 id hash name = .ok p) : ∀ c ∈ id, isNameChar c = true := by
  intro c hc
  obtain ⟨-, -, hname⟩ := makeStorePath_spec h
  by_cases hout : id = str "out"
  · have hall : ∀ c ∈ str "out", isNameChar c = true := by decide +kernel
    exact hall c (hout ▸ hc)
  · exact hname c (by simp [outputName, hout, hc])

/-! ### Elements -/

/-- The path of an element. -/
def ContextElem.storePath : ContextElem → Path
  | .path p _ => p
  | .discarded p => p
  | .output _ p _ => p
  | .closure p => p

/-- What a context can hold: an encoding of a store path. -/
def IsElem (cfg : StoreConfig) (c : Str) : Prop :=
  ∃ e : ContextElem, e.text = c ∧ isStorePath cfg e.storePath = true ∧ c.NulFree

/-- An element with a mark in front of it that `decodeContext` does not know. -/
def UnknownMark (c : Str) : Prop := c.head? = some '='.toUInt8 ∨ c.head? = some '~'.toUInt8

instance (c : Str) : Decidable (UnknownMark c) := inferInstanceAs (Decidable (_ ∨ _))

/-- `decodeContext` finds a store path, and whatever output of a store path the element names. -/
structure DecodesElem (cfg : StoreConfig) (c : Str) : Prop where
  isStorePath : isStorePath cfg (decodeContext c).1 = true
  output : ∀ o p, Nix.isStorePath cfg p = true → c = outputContext o p → decodeContext c = (p, o)

/-- The encoding of an output is unique. -/
theorem outputContext_inj {o o' : Str} {p p' : Path} (ho : '!'.toUInt8 ∉ o)
    (hp : isStorePath cfg p = true) (hp' : isStorePath cfg p' = true)
    (h : outputContext o p = outputContext o' p') : o = o' ∧ p = p' := by
  have hcons : ∀ o p, outputContext o p = '!'.toUInt8 :: (o ++ '!'.toUInt8 :: p) := fun o p => by
    simp [outputContext, str]
  rw [hcons, hcons, List.cons_inj_right] at h
  rcases List.append_eq_append_iff.mp h with ⟨a, rfl, ha⟩ | ⟨a, rfl, ha⟩
  · cases a with
    | nil => exact ⟨(List.append_nil o).symm, (List.cons.inj ha).2⟩
    | cons c a =>
      -- then the second path stands inside the first one, whose last slash comes too late
      obtain ⟨-, ha⟩ := List.cons.inj ha
      obtain ⟨n, -, hslash, hpath⟩ := isStorePath_iff.mp hp
      obtain ⟨n', -, -, hpath'⟩ := isStorePath_iff.mp hp'
      have hdrop : p.drop (cfg.nixStore.length + 1) = n := by rw [hpath, drop_store_succ]
      have hlen : cfg.nixStore.length + 1 ≤ (a ++ '!'.toUInt8 :: cfg.nixStore).length := by
        simp
      have heq : p = (a ++ '!'.toUInt8 :: cfg.nixStore) ++ slash :: n' :=
        ha.trans (by rw [hpath', List.append_assoc]; rfl)
      rw [heq, List.drop_append_of_le_length hlen] at hdrop
      exact absurd (hdrop ▸ List.mem_append_right _ List.mem_cons_self) hslash
  · cases a with
    | nil => exact ⟨List.append_nil o', (List.cons.inj ha).2.symm⟩
    | cons c a =>
      obtain ⟨rfl, -⟩ := List.cons.inj ha
      exact absurd (List.mem_append_right _ List.mem_cons_self) ho

namespace IsElem

/-- A proper element has no NUL. -/
theorem nulFree {c : Str} (h : IsElem cfg c) : c.NulFree := by
  obtain ⟨-, -, -, hnul⟩ := h
  exact hnul

/-- So nothing of it is cut. -/
theorem cut_eq {c : Str} (h : IsElem cfg c) : c.cut = c := Str.cut_eq_self h.nulFree

/-- A store path is a proper element. -/
theorem of_path {p : Path} (hp : isStorePath cfg p = true) (hnul : p.NulFree) : IsElem cfg p := by
  have hplain : ∀ c ∈ str "=~!", p.head? ≠ some c := by
    rw [head?_of_isStorePath hp]
    decide +kernel
  exact ⟨.path p hplain, rfl, hp, hnul⟩

/-- The closure of a derivation is a proper element. -/
theorem of_closure {p : Path} (hp : isStorePath cfg p = true) (hnul : p.NulFree) :
    IsElem cfg (drvPathContext p) :=
  ⟨.closure p, rfl, hp, nulFree_append.mpr ⟨by decide, hnul⟩⟩

/-- A path whose outputs are discarded is a proper element. -/
theorem of_discarded {p : Path} (hp : isStorePath cfg p = true) (hnul : p.NulFree) :
    IsElem cfg (str "~" ++ p) :=
  ⟨.discarded p, rfl, hp, nulFree_append.mpr ⟨by decide, hnul⟩⟩

/-- An output of a derivation is a proper element. -/
theorem of_output {o : Str} {p : Path} (ho : ∀ c ∈ o, isNameChar c = true)
    (hp : isStorePath cfg p = true) (hnul : p.NulFree) : IsElem cfg (outputContext o p) := by
  refine ⟨.output o p (noMark_of_isNameChar ho), rfl, hp, ?_⟩
  simp only [outputContext, nulFree_append]
  exact ⟨⟨⟨by decide, nulFree_of_isNameChar ho⟩, by decide⟩, hnul⟩

/-- The elements in which `decodeContext` finds a store path are those without an unknown mark. -/
theorem isStorePath_decodeContext_iff {c : Str} (h : IsElem cfg c) :
    isStorePath cfg (decodeContext c).1 = true ↔ ¬ UnknownMark c := by
  obtain ⟨e, rfl, hp, -⟩ := h
  have hmarked : ∀ m p, m = '='.toUInt8 ∨ m = '~'.toUInt8 →
      (isStorePath cfg (decodeContext (m :: p)).1 = true ↔ ¬ UnknownMark (m :: p)) := by
    intro m p hm
    have hdecode : decodeContext (m :: p) = (m :: p, []) := by
      rw [decodeContext, if_neg]
      rintro ⟨⟩
      exact absurd hm (by decide)
    refine iff_of_false (fun hstore => ?_) (not_not.mpr ?_)
    · have hhead := head?_of_isStorePath (hdecode ▸ hstore)
      obtain rfl : m = slash := Option.some.inj hhead
      exact absurd hm (by decide)
    · exact hm.imp (congrArg some) (congrArg some)
  cases e with
  | path p plain =>
    have hhead : p.head? = some slash := head?_of_isStorePath hp
    change isStorePath cfg (decodeContext p).1 = true ↔ ¬ UnknownMark p
    refine iff_of_true ?_ ?_
    · rw [decodeContext, if_neg (by rw [hhead]; decide)]
      exact hp
    · rw [UnknownMark, hhead]
      decide
  | discarded p => exact hmarked _ p (Or.inr rfl)
  | output o p noMark =>
    change isStorePath cfg (decodeContext (outputContext o p)).1 = true ↔ ¬ UnknownMark (outputContext o p)
    refine iff_of_true ?_ ?_
    · rw [decodeContext_outputContext noMark p]
      exact hp
    · have hhead : (outputContext o p).head? = some '!'.toUInt8 := rfl
      rw [UnknownMark, hhead]
      decide
  | closure p => exact hmarked _ p (Or.inl rfl)

/-- The elements that `decodeContext` decodes are those without an unknown mark. -/
theorem decodesElem_iff {c : Str} (h : IsElem cfg c) : DecodesElem cfg c ↔ ¬ UnknownMark c := by
  refine ⟨fun hdecodes => h.isStorePath_decodeContext_iff.mp hdecodes.isStorePath, fun hmark =>
    ⟨h.isStorePath_decodeContext_iff.mpr hmark, fun o p hp heq => ?_⟩⟩
  obtain ⟨e, htext, hstore, -⟩ := h
  have hhead : c.head? = some '!'.toUInt8 := by rw [heq]; rfl
  cases e with
  | path q plain => exact absurd (htext ▸ hhead) (plain _ (by decide))
  | discarded q => exact absurd (htext ▸ Or.inr rfl : UnknownMark c) hmark
  | output o' q noMark =>
    obtain ⟨rfl, rfl⟩ := outputContext_inj noMark hstore hp (htext.trans heq)
    rw [heq, decodeContext_outputContext noMark]
  | closure q => exact absurd (htext ▸ Or.inl rfl : UnknownMark c) hmark

/-- The characters that an element can begin with. -/
theorem head?_mem {c : Str} (h : IsElem cfg c) :
    ∃ b rest, c = b :: rest ∧ b ∈ str "!/=~" := by
  obtain ⟨e, rfl, hp, -⟩ := h
  cases e with
  | path p plain =>
    obtain ⟨rest, hrest⟩ := List.head?_eq_some_iff.mp (head?_of_isStorePath hp)
    exact ⟨slash, rest, hrest, by decide⟩
  | discarded p => exact ⟨'~'.toUInt8, p, rfl, by decide⟩
  | output o p noMark =>
    exact ⟨'!'.toUInt8, o ++ str "!" ++ p, by simp [ContextElem.text, outputContext, str], by decide⟩
  | closure p => exact ⟨'='.toUInt8, p, rfl, by decide⟩

/-- The elements with an unknown mark come last. -/
theorem marked_of_lt {c d : Str} (hc : IsElem cfg c) (hd : IsElem cfg d) (hlt : c < d)
    (hm : UnknownMark c) : UnknownMark d := by
  obtain ⟨b, rest, rfl, hb⟩ := hc.head?_mem
  obtain ⟨b', rest', rfl, hb'⟩ := hd.head?_mem
  have hle : b ≤ b' := by
    rcases List.cons_lt_cons_iff.mp hlt with hlt | ⟨rfl, -⟩
    · exact le_of_lt hlt
    · exact le_refl b
  simp only [UnknownMark, List.head?_cons, Option.some.injEq] at hm ⊢
  have hcases : ∀ b ∈ str "!/=~", ∀ b' ∈ str "!/=~", b ≤ b' → b = '='.toUInt8 ∨ b = '~'.toUInt8 →
      b' = '='.toUInt8 ∨ b' = '~'.toUInt8 := by decide +kernel
  exact hcases b hb b' hb' hle hm

end IsElem

end Nix
