import NixStore.Expr.Values

/-!
# Equality of values

Model of `eqValues` of `eval.cc`.  Attribute sets are compared in two ways: two derivations by their
output paths, all others attribute by attribute.  A value without functions stands for a datum in
which a derivation is reduced to its output path, and `eqValues` compares these data
(`eqValues_of_denote`), so that it is an equivalence.
-/

namespace Nix

variable {α : Type}

/-! ### The comparison -/

/-- The context of a string as it is stored: an array of C strings, or a null pointer. -/
def contextArray (context : PathSet) : Option (List Str) :=
  if context.toList = [] then none else some context.toList

/-- The loop over the elements of two contexts. -/
def eqContextElems : List Str → List Str → Bool
  | p :: ps, q :: qs => if p ≠ q then false else eqContextElems ps qs
  | [], [] => true
  | _, _ => false

/-- The comparison of two strings, with their contexts. -/
def eqStrings (s1 : Str) (context1 : PathSet) (s2 : Str) (context2 : PathSet) : Bool :=
  if s1 ≠ s2 then false
  else
    match contextArray context1, contextArray context2 with
    | none, none => true
    | some ps, some qs => eqContextElems ps qs
    | _, _ => false

/-- The loop over the elements of two lists of the same length. -/
def eqElems (eq : α → α → Outcome Str Bool) : List α → List α → Outcome Str Bool
  | x :: xs, y :: ys => do
    if ← eq x y then eqElems eq xs ys else return false
  | _, _ => return true

/-- The loop over the attributes of two sets of the same size. -/
def eqAttrs (eq : α → α → Outcome Str Bool) : List (Attr α) → List (Attr α) → Outcome Str Bool
  | a :: as, b :: bs => do
    if a.name ≠ b.name then return false
    else if ← eq a.value b.value then eqAttrs eq as bs else return false
  | _, _ => return true

namespace EvalEnv

variable [DecidableEq α] (env : EvalEnv α)

/-- Whether both sets are derivations; the second one is looked at only if the first one is. -/
def bothDerivations (attrs1 attrs2 : List (Attr α)) : Outcome Str Bool := do
  if ← env.isDerivation attrs1 then env.isDerivation attrs2 else return false

/-- The comparison of two attribute sets. -/
def eqSets (eq : α → α → Outcome Str Bool) (attrs1 attrs2 : List (Attr α)) : Outcome Str Bool := do
  let derivations ← env.bothDerivations attrs1 attrs2
  match derivations, findAttr attrs1 (str "outPath"), findAttr attrs2 (str "outPath") with
  | true, some i, some j => eq i.value j.value
  | _, _, _ =>
    if attrs1.length ≠ attrs2.length then return false
    else eqAttrs eq attrs1 attrs2

/-- Model of `eqValues`; values in the same cell are equal. -/
def eqValues : ℕ → α → α → Outcome Str Bool
  | 0, _, _ => .diverge
  | fuel + 1, v1, v2 => do
    let w1 ← env.forceValue v1
    let w2 ← env.forceValue v2
    if v1 = v2 then return true
    else
      match w1, w2 with
      | .tInt m, .tInt n => return decide (m = n)
      | .tBool a, .tBool b => return decide (a = b)
      | .tString s1 context1, .tString s2 context2 =>
        return eqStrings s1 context1 s2 context2
      | .tPath p, .tPath q => return decide (p = q)
      | .tNull, .tNull => return true
      | .tList xs, .tList ys =>
        if xs.length ≠ ys.length then return false else eqElems (eqValues fuel) xs ys
      | .tAttrs attrs1, .tAttrs attrs2 => env.eqSets (eqValues fuel) attrs1 attrs2
      -- functions are incomparable, and so are values of different types
      | _, _ => return false

end EvalEnv

/-! ### The data that values stand for -/

/-- What a finite value without functions stands for. -/
inductive Datum where
  | int (integer : ℤ)
  | bool (boolean : Bool)
  | string (s : Str) (context : PathSet)
  | path (path : Str)
  | null
  | list (elems : List Datum)
  | set (attrs : List (Str × Datum))
  /-- A derivation, given by its output path. -/
  | derivation (outPath : Datum)

/-- The attributes say that the set is a derivation. -/
def IsDerivationSet (attrs : List (Str × Datum)) : Prop :=
  attrs.lookup (str "type") = some (.string (str "derivation") ∅)

/-- What a set of attributes stands for; the type of a derivation has no context. -/
def denoteSet (attrs : List (Str × Datum)) : Option Datum :=
  match attrs.lookup (str "type") with
  | some (.string s context) =>
    if context ≠ ∅ then none
    else
      match decide (s = str "derivation"), attrs.lookup (str "outPath") with
      | true, some d => some (.derivation d)
      | _, _ => some (.set attrs)
  | _ => some (.set attrs)

/-- What the value in a cell stands for, if it is nested at most as deep as the first argument. -/
def EvalEnv.denote (env : EvalEnv α) : ℕ → α → Option Datum
  | 0, _ => none
  | depth + 1, v =>
    match env.forceValue v with
    | .ok (.tInt n) => some (.int n)
    | .ok (.tBool b) => some (.bool b)
    | .ok (.tString s context) => some (.string s context)
    | .ok (.tPath p) => some (.path p)
    | .ok .tNull => some .null
    | .ok (.tList elems) => (elems.mapM (env.denote depth)).map .list
    | .ok (.tAttrs attrs) =>
      (attrs.mapM fun a => (env.denote depth a.value).map (a.name, ·)).bind denoteSet
    | _ => none

/-- A value without functions: finite, evaluated as a whole, and the type of a set, where it is a
string, has no context. -/
inductive EvalEnv.Plain (env : EvalEnv α) : α → Prop
  | int {v n} : env.forceValue v = .ok (.tInt n) → Plain env v
  | bool {v b} : env.forceValue v = .ok (.tBool b) → Plain env v
  | string {v s context} : env.forceValue v = .ok (.tString s context) → Plain env v
  | path {v p} : env.forceValue v = .ok (.tPath p) → Plain env v
  | null {v} : env.forceValue v = .ok .tNull → Plain env v
  | list {v elems} : env.forceValue v = .ok (.tList elems) → (∀ e ∈ elems, Plain env e) → Plain env v
  | attrs {v attrs} : env.forceValue v = .ok (.tAttrs attrs) →
      (∀ a ∈ attrs, Plain env a.value) →
      (∀ a s context, findAttr attrs (str "type") = some a →
        env.forceValue a.value = .ok (.tString s context) → context = ∅) → Plain env v

/-! ### Data of sequences -/

/-- A list of options is one of lists when the elements are related one by one. -/
theorem mapM_eq_some_iff_forall₂ {β γ : Type*} {f : β → Option γ} {l : List β} {l' : List γ} :
    l.mapM f = some l' ↔ List.Forall₂ (fun a b => f a = some b) l l' := by
  induction l generalizing l' with
  | nil => simp [eq_comm]
  | cons a l ih =>
    rw [List.mapM_cons, List.forall₂_cons_left_iff]
    simp only [Option.bind_eq_bind, Option.bind_eq_some_iff, Option.pure_def, Option.some.injEq]
    constructor
    · rintro ⟨b, hb, bs, hbs, rfl⟩
      exact ⟨b, bs, hb, ih.mp hbs, rfl⟩
    · rintro ⟨b, bs, hb, hbs, rfl⟩
      exact ⟨b, hb, bs, ih.mpr hbs, rfl⟩

/-- Functions that are defined for great enough bounds are defined on a list for a common bound. -/
theorem exists_mapM_eq_some {β γ : Type*} {f : ℕ → β → Option γ}
    (hmono : ∀ {m n a c}, f m a = some c → m ≤ n → f n a = some c) {l : List β}
    (h : ∀ a ∈ l, ∃ n c, f n a = some c) : ∃ n cs, l.mapM (f n) = some cs := by
  induction l with
  | nil => exact ⟨0, [], rfl⟩
  | cons a l ih =>
    obtain ⟨m, c, hc⟩ := h a List.mem_cons_self
    obtain ⟨n, cs, hcs⟩ := ih fun b hb => h b (List.mem_cons_of_mem _ hb)
    refine ⟨max m n, c :: cs, mapM_eq_some_iff_forall₂.mpr (.cons ?_ ?_)⟩
    · exact hmono hc (le_max_left m n)
    · exact (mapM_eq_some_iff_forall₂.mp hcs).imp fun _ _ h => hmono h (le_max_right m n)

/-- A set stands for a derivation or for its attributes. -/
theorem denoteSet_cases {attrs : List (Str × Datum)} {d : Datum} (h : denoteSet attrs = some d) :
    (∃ e, IsDerivationSet attrs ∧ attrs.lookup (str "outPath") = some e ∧ d = .derivation e) ∨
      (¬ IsDerivationSet attrs ∨ attrs.lookup (str "outPath") = none) ∧ d = .set attrs := by
  unfold denoteSet at h
  split at h
  · next s context htype =>
    split_ifs at h with hctx
    rw [ne_eq, not_not] at hctx
    subst hctx
    split at h
    · next e hs hout =>
      rw [decide_eq_true_iff] at hs
      subst hs
      exact Or.inl ⟨e, htype, hout, (Option.some.inj h).symm⟩
    · next hno =>
      refine Or.inr ⟨?_, (Option.some.inj h).symm⟩
      by_cases hs : s = str "derivation"
      · right
        rw [Option.eq_none_iff_forall_ne_some]
        exact fun e he => hno e (decide_eq_true hs) he
      · left
        intro hd
        rw [IsDerivationSet, htype] at hd
        cases hd
        exact hs rfl
  · next hno =>
    refine Or.inr ⟨Or.inl fun hd => hno _ _ hd, (Option.some.inj h).symm⟩

/-- In a set whose datum exists, a type that is a string has no context. -/
theorem context_eq_empty_of_denoteSet {attrs : List (Str × Datum)} {d : Datum} {s : Str}
    {context : PathSet} (h : denoteSet attrs = some d)
    (htype : attrs.lookup (str "type") = some (.string s context)) : context = ∅ := by
  unfold denoteSet at h
  rw [htype] at h
  by_contra hctx
  simp [hctx] at h

/-- A set whose `type` has no context stands for something. -/
theorem denoteSet_ne_none {attrs : List (Str × Datum)}
    (h : ∀ s context, attrs.lookup (str "type") = some (.string s context) → context = ∅) :
    ∃ d, denoteSet attrs = some d := by
  unfold denoteSet
  split
  · next s context htype =>
    rw [if_neg (not_not.mpr (h s context htype))]
    split
    · exact ⟨_, rfl⟩
    · exact ⟨_, rfl⟩
  · exact ⟨_, rfl⟩

namespace EvalEnv

variable {env : EvalEnv α}

/-- The attributes of a set stand for these names and data. -/
def DenoteAttrs (env : EvalEnv α) (depth : ℕ) (attrs : List (Attr α)) (ds : List (Str × Datum)) :
    Prop :=
  List.Forall₂ (fun a d => (env.denote depth a.value).map (a.name, ·) = some d) attrs ds

/-- A value stands for a datum, given what the cells in it stand for. -/
inductive Represents (env : EvalEnv α) (depth : ℕ) : Value α → Datum → Prop
  | int (n) : Represents env depth (.tInt n) (.int n)
  | bool (b) : Represents env depth (.tBool b) (.bool b)
  | string (s context) : Represents env depth (.tString s context) (.string s context)
  | path (p) : Represents env depth (.tPath p) (.path p)
  | null : Represents env depth .tNull .null
  | list {elems ds} : List.Forall₂ (fun v d => env.denote depth v = some d) elems ds →
      Represents env depth (.tList elems) (.list ds)
  | set {attrs ds} : env.DenoteAttrs depth attrs ds → denoteSet ds = some (.set ds) →
      Represents env depth (.tAttrs attrs) (.set ds)
  | derivation {attrs ds e} : env.DenoteAttrs depth attrs ds → denoteSet ds = some (.derivation e) →
      Represents env depth (.tAttrs attrs) (.derivation e)

/-- A value stands for what it represents after it was forced. -/
theorem denote_succ_eq_some_iff {depth : ℕ} {v : α} {d : Datum} :
    env.denote (depth + 1) v = some d ↔
      ∃ w, env.forceValue v = .ok w ∧ env.Represents depth w d := by
  constructor
  · intro h
    rw [denote] at h
    split at h
    · next hv => cases h; exact ⟨_, hv, .int _⟩
    · next hv => cases h; exact ⟨_, hv, .bool _⟩
    · next hv => cases h; exact ⟨_, hv, .string _ _⟩
    · next hv => cases h; exact ⟨_, hv, .path _⟩
    · next hv => cases h; exact ⟨_, hv, .null⟩
    · next hv =>
      obtain ⟨ds, hds, rfl⟩ := Option.map_eq_some_iff.mp h
      exact ⟨_, hv, .list (mapM_eq_some_iff_forall₂.mp hds)⟩
    · next hv =>
      obtain ⟨ds, hds, hd⟩ := Option.bind_eq_some_iff.mp h
      have hattrs := mapM_eq_some_iff_forall₂.mp hds
      rcases denoteSet_cases hd with ⟨e, -, -, rfl⟩ | ⟨-, rfl⟩
      · exact ⟨_, hv, .derivation hattrs hd⟩
      · exact ⟨_, hv, .set hattrs hd⟩
    · cases h
  · rintro ⟨w, hw, hrep⟩
    rw [denote, hw]
    cases hrep with
    | list hds => exact Option.map_eq_some_iff.mpr ⟨_, mapM_eq_some_iff_forall₂.mpr hds, rfl⟩
    | set hds hd | derivation hds hd =>
      exact Option.bind_eq_some_iff.mpr ⟨_, mapM_eq_some_iff_forall₂.mpr hds, hd⟩
    | _ => rfl

/-- Attributes stand for the same at a greater depth. -/
theorem DenoteAttrs.mono {m n : ℕ} {attrs : List (Attr α)} {ds : List (Str × Datum)}
    (h : env.DenoteAttrs m attrs ds)
    (hmn : ∀ v d, env.denote m v = some d → env.denote n v = some d) :
    env.DenoteAttrs n attrs ds := by
  refine List.Forall₂.imp (fun a p hp => ?_) h
  obtain ⟨d, hd, rfl⟩ := Option.map_eq_some_iff.mp hp
  rw [hmn _ _ hd, Option.map_some]

/-- A deeper look finds the same datum. -/
theorem denote_mono {m n : ℕ} {v : α} {d : Datum} (h : env.denote m v = some d) (hmn : m ≤ n) :
    env.denote n v = some d := by
  induction m generalizing n v d with
  | zero => cases h
  | succ m ih =>
    obtain ⟨n, rfl⟩ : ∃ k, n = k + 1 := ⟨n - 1, by omega⟩
    replace hmn := Nat.le_of_succ_le_succ hmn
    obtain ⟨w, hw, hrep⟩ := denote_succ_eq_some_iff.mp h
    refine denote_succ_eq_some_iff.mpr ⟨w, hw, ?_⟩
    have hattr : ∀ v e, env.denote m v = some e → env.denote n v = some e :=
      fun v e h => ih h hmn
    cases hrep with
    | list hds => exact .list (hds.imp hattr)
    | set hds hd => exact .set (hds.mono hattr) hd
    | derivation hds hd => exact .derivation (hds.mono hattr) hd
    | int n => exact .int n
    | bool b => exact .bool b
    | string s context => exact .string s context
    | path p => exact .path p
    | null => exact .null

/-- Attributes and their data are found under the same names. -/
theorem DenoteAttrs.find {depth : ℕ} {attrs : List (Attr α)} {ds : List (Str × Datum)}
    (h : env.DenoteAttrs depth attrs ds) (name : Str) :
    findAttr attrs name = none ∧ ds.lookup name = none ∨
      ∃ a d, findAttr attrs name = some a ∧ ds.lookup name = some d ∧
        env.denote depth a.value = some d := by
  induction h with
  | nil => exact Or.inl ⟨rfl, rfl⟩
  | @cons a p attrs ds hp _ ih =>
    obtain ⟨d, hd, rfl⟩ := Option.map_eq_some_iff.mp hp
    by_cases hname : a.name = name
    · exact Or.inr ⟨a, d, by simp [findAttr, hname], by simp [hname], hd⟩
    · have hne : (name == a.name) = false := beq_eq_false_iff_ne.mpr (Ne.symm hname)
      rw [findAttr, List.find?_cons_of_neg (by simpa using hname), List.lookup_cons, hne]
      exact ih

/-- A datum says whether the value is a string, and which. -/
theorem forceValue_of_denote {depth : ℕ} {v : α} {d : Datum} (h : env.denote depth v = some d) :
    (∃ s context, d = .string s context ∧ env.forceValue v = .ok (.tString s context)) ∨
      (∀ s context, d ≠ .string s context) ∧
        ∃ w, env.forceValue v = .ok w ∧ ∀ s context, w ≠ .tString s context := by
  cases depth with
  | zero => cases h
  | succ depth =>
    obtain ⟨w, hw, hrep⟩ := denote_succ_eq_some_iff.mp h
    cases hrep with
    | string s context => exact Or.inl ⟨s, context, rfl, hw⟩
    | _ => exact Or.inr ⟨by simp, _, hw, by simp⟩

/-- `isDerivation` sees what the data say. -/
theorem DenoteAttrs.isDerivation {depth : ℕ} {attrs : List (Attr α)} {ds : List (Str × Datum)}
    {d : Datum} (h : env.DenoteAttrs depth attrs ds) (hd : denoteSet ds = some d) :
    ∃ b, env.isDerivation attrs = .ok b ∧ (b = true ↔ IsDerivationSet ds) := by
  unfold EvalEnv.isDerivation IsDerivationSet
  rcases h.find (str "type") with ⟨ha, hlookup⟩ | ⟨a, e, ha, hlookup, he⟩
  · exact ⟨false, by rw [ha]; rfl, by simp [hlookup]⟩
  rw [ha, hlookup]
  rcases forceValue_of_denote he with ⟨s, context, rfl, hv⟩ | ⟨hne, w, hv, hw⟩
  · obtain rfl := context_eq_empty_of_denoteSet hd hlookup
    refine ⟨decide (s = str "derivation"), ?_, by simp⟩
    simp only [forceStringNoCtx, forceString, hv, Outcome.ok_bind]
    rfl
  · refine ⟨false, ?_, by simpa using hne _ _⟩
    -- the branch for strings is excluded by `hw`
    simp only [hv, Outcome.ok_bind]
    rfl

/-- Two sets are compared as derivations when both stand for one. -/
theorem bothDerivations_of_denote {depth : ℕ} {attrs1 attrs2 : List (Attr α)}
    {ds1 ds2 : List (Str × Datum)} {d1 d2 : Datum} (h1 : env.DenoteAttrs depth attrs1 ds1)
    (hd1 : denoteSet ds1 = some d1) (h2 : env.DenoteAttrs depth attrs2 ds2)
    (hd2 : denoteSet ds2 = some d2) : ∃ b, env.bothDerivations attrs1 attrs2 = .ok b ∧
      (b = true ↔ IsDerivationSet ds1 ∧ IsDerivationSet ds2) := by
  obtain ⟨b1, hb1, hiff1⟩ := h1.isDerivation hd1
  obtain ⟨b2, hb2, hiff2⟩ := h2.isDerivation hd2
  rw [bothDerivations, hb1, ← hiff1, ← hiff2]
  cases b1 with
  | false => exact ⟨false, rfl, by simp⟩
  | true => exact ⟨b2, by simpa using hb2, by simp⟩

/-- A comparison that decides whether the data of two cells are equal. -/
def Decides (eq : α → α → Outcome Str Bool) (v1 v2 : α) (d1 d2 : Datum) : Prop :=
  ∃ b, eq v1 v2 = .ok b ∧ (b = true ↔ d1 = d2)

/-- The loop over two lists decides whether they stand for the same data. -/
theorem eqElems_spec {depth : ℕ} {eq : α → α → Outcome Str Bool}
    (heq : ∀ v1 v2 d1 d2, env.denote depth v1 = some d1 → env.denote depth v2 = some d2 →
      Decides eq v1 v2 d1 d2) {xs ys : List α} {ds es : List Datum}
    (hx : List.Forall₂ (fun v d => env.denote depth v = some d) xs ds)
    (hy : List.Forall₂ (fun v d => env.denote depth v = some d) ys es)
    (hlen : xs.length = ys.length) :
    ∃ b, eqElems eq xs ys = .ok b ∧ (b = true ↔ ds = es) := by
  induction hx generalizing ys es with
  | nil =>
    obtain rfl : ys = [] := List.length_eq_zero_iff.mp hlen.symm
    cases hy
    exact ⟨true, rfl, by simp⟩
  | @cons x d xs ds hd _ ih =>
    cases hy with
    | nil => cases hlen
    | @cons y e ys es he hy =>
      obtain ⟨b, hb, hiff⟩ := heq x y d e hd he
      obtain ⟨b', hb', hiff'⟩ := ih hy (Nat.succ.inj hlen)
      rw [eqElems, hb, List.cons.injEq, ← hiff, ← hiff']
      cases b with
      | false => exact ⟨false, rfl, by simp⟩
      | true => exact ⟨b', by simpa using hb', by simp⟩

/-- The loop over two sets of attributes decides whether they stand for the same data. -/
theorem eqAttrs_spec {depth : ℕ} {eq : α → α → Outcome Str Bool}
    (heq : ∀ v1 v2 d1 d2, env.denote depth v1 = some d1 → env.denote depth v2 = some d2 →
      Decides eq v1 v2 d1 d2) {as bs : List (Attr α)} {ds es : List (Str × Datum)}
    (ha : env.DenoteAttrs depth as ds) (hb : env.DenoteAttrs depth bs es)
    (hlen : as.length = bs.length) :
    ∃ b, eqAttrs eq as bs = .ok b ∧ (b = true ↔ ds = es) := by
  induction ha generalizing bs es with
  | nil =>
    obtain rfl : bs = [] := List.length_eq_zero_iff.mp hlen.symm
    cases hb
    exact ⟨true, rfl, by simp⟩
  | @cons a p as ds hp _ ih =>
    cases hb with
    | nil => cases hlen
    | @cons b q bs es hq hb =>
      obtain ⟨d, hd, rfl⟩ := Option.map_eq_some_iff.mp hp
      obtain ⟨e, he, rfl⟩ := Option.map_eq_some_iff.mp hq
      obtain ⟨r, hr, hiff⟩ := heq a.value b.value d e hd he
      obtain ⟨r', hr', hiff'⟩ := ih hb (Nat.succ.inj hlen)
      rw [eqAttrs, List.cons.injEq, Prod.mk.injEq, ← hiff, ← hiff']
      by_cases hname : a.name = b.name
      · rw [if_neg (not_not.mpr hname), hr]
        cases r with
        | false => exact ⟨false, rfl, by simp⟩
        | true => exact ⟨r', by simpa using hr', by simp [hname]⟩
      · exact ⟨false, by rw [if_pos hname]; rfl, by simp [hname]⟩

end EvalEnv

/-! ### Strings -/

/-- Equal contexts have the same elements in the same order. -/
theorem eqContextElems_eq_true_iff {ps qs : List Str} : eqContextElems ps qs = true ↔ ps = qs := by
  induction ps generalizing qs with
  | nil => cases qs <;> simp [eqContextElems]
  | cons p ps ih =>
    cases qs with
    | nil => simp [eqContextElems]
    | cons q qs =>
      rw [eqContextElems, List.cons.injEq, ← ih]
      split_ifs with h
      · simp [h]
      · simp [not_not.mp h]

/-- Strings are equal if their texts are and their contexts have the same elements. -/
theorem eqStrings_eq_true_iff {s1 s2 : Str} {context1 context2 : PathSet} :
    eqStrings s1 context1 s2 context2 = true ↔ s1 = s2 ∧ context1 = context2 := by
  have hnil : ∀ c : PathSet, c.toList = [] ↔ c = ∅ := fun c =>
    ⟨fun h => SortedSet.toList_injective h, fun h => by rw [h]; rfl⟩
  unfold eqStrings contextArray
  rw [← SortedSet.toList_injective.eq_iff (a := context1)]
  by_cases hs : s1 = s2
  · rw [if_neg (not_not.mpr hs)]
    by_cases h1 : context1.toList = [] <;> by_cases h2 : context2.toList = []
    · simp [hs, h1, h2]
    · simp [hs, h1, h2]
    · simp [hs, h1, h2]
    · simp [hs, h1, h2, eqContextElems_eq_true_iff]
  · simp [hs]

namespace EvalEnv

variable {env : EvalEnv α}

/-- Sets that are not both derivations with an output path stand for the same datum exactly if they
have the same attributes. -/
theorem denoteSet_inj {ds es : List (Str × Datum)} {d e : Datum} (hd : denoteSet ds = some d)
    (he : denoteSet es = some e)
    (hnot : ¬ ((IsDerivationSet ds ∧ IsDerivationSet es) ∧ ds.lookup (str "outPath") ≠ none ∧
      es.lookup (str "outPath") ≠ none)) : d = e ↔ ds = es := by
  constructor
  · rintro rfl
    rcases denoteSet_cases hd with ⟨d', hds, hout, rfl⟩ | ⟨-, rfl⟩
    · rcases denoteSet_cases he with ⟨e', hes, hout', -⟩ | ⟨-, hset⟩
      · exact absurd ⟨⟨hds, hes⟩, by simp [hout], by simp [hout']⟩ hnot
      · cases hset
    · rcases denoteSet_cases he with ⟨e', -, -, hset⟩ | ⟨-, hset⟩
      · cases hset
      · exact Datum.set.inj hset
  · rintro rfl
    exact Option.some.inj (hd.symm.trans he)

/-- The comparison of two sets decides whether they stand for the same datum. -/
theorem eqSets_spec {depth : ℕ} {eq : α → α → Outcome Str Bool}
    (heq : ∀ v1 v2 d1 d2, env.denote depth v1 = some d1 → env.denote depth v2 = some d2 →
      Decides eq v1 v2 d1 d2) {as bs : List (Attr α)} {ds es : List (Str × Datum)} {d e : Datum}
    (ha : env.DenoteAttrs depth as ds) (hd : denoteSet ds = some d)
    (hb : env.DenoteAttrs depth bs es) (he : denoteSet es = some e) :
    ∃ r, env.eqSets eq as bs = .ok r ∧ (r = true ↔ d = e) := by
  obtain ⟨both, hboth, hiff⟩ := bothDerivations_of_denote ha hd hb he
  rw [eqSets, hboth, Outcome.ok_bind]
  -- the comparison of the attributes
  have hattrs : (d = e ↔ ds = es) → ∃ r, (if as.length ≠ bs.length then (pure false : Outcome Str Bool)
      else eqAttrs eq as bs) = .ok r ∧ (r = true ↔ d = e) := by
    intro hde
    rw [hde]
    by_cases hlen : as.length = bs.length
    · rw [if_neg (not_not.mpr hlen)]
      exact eqAttrs_spec heq ha hb hlen
    · refine ⟨false, by rw [if_pos hlen]; rfl, ?_⟩
      have hne : ds ≠ es := fun h => hlen (by rw [ha.length_eq, hb.length_eq, h])
      simp [hne]
  cases both with
  | false => exact hattrs (denoteSet_inj hd he fun h => absurd (hiff.mpr h.1) Bool.false_ne_true)
  | true =>
    obtain ⟨hds, hes⟩ := hiff.mp rfl
    rcases ha.find (str "outPath") with ⟨hi, hil⟩ | ⟨i, di, hi, hil, hdi⟩
    · rw [hi]
      exact hattrs (denoteSet_inj hd he fun h => h.2.1 hil)
    rcases hb.find (str "outPath") with ⟨hj, hjl⟩ | ⟨j, dj, hj, hjl, hdj⟩
    · rw [hi, hj]
      exact hattrs (denoteSet_inj hd he fun h => h.2.2 hjl)
    -- both are derivations with an output path
    rw [hi, hj]
    rcases denoteSet_cases hd with ⟨d', -, hout, rfl⟩ | ⟨hno | hno, -⟩
    · rcases denoteSet_cases he with ⟨e', -, hout', rfl⟩ | ⟨hno | hno, -⟩
      · obtain rfl : di = d' := Option.some.inj (hil.symm.trans hout)
        obtain rfl : dj = e' := Option.some.inj (hjl.symm.trans hout')
        obtain ⟨r, hr, hreq⟩ := heq _ _ _ _ hdi hdj
        exact ⟨r, hr, by rw [hreq, Datum.derivation.injEq]⟩
      · exact absurd hes hno
      · simp [hno] at hjl
    · exact absurd hds hno
    · simp [hno] at hil

/-- A plain value stands for something. -/
theorem Plain.exists_denote {v : α} (h : env.Plain v) : ∃ n d, env.denote n v = some d := by
  induction h with
  | int hv => exact ⟨1, _, denote_succ_eq_some_iff.mpr ⟨_, hv, .int _⟩⟩
  | bool hv => exact ⟨1, _, denote_succ_eq_some_iff.mpr ⟨_, hv, .bool _⟩⟩
  | string hv => exact ⟨1, _, denote_succ_eq_some_iff.mpr ⟨_, hv, .string _ _⟩⟩
  | path hv => exact ⟨1, _, denote_succ_eq_some_iff.mpr ⟨_, hv, .path _⟩⟩
  | null hv => exact ⟨1, _, denote_succ_eq_some_iff.mpr ⟨_, hv, .null⟩⟩
  | list hv _ ih =>
    obtain ⟨n, ds, hds⟩ := exists_mapM_eq_some (f := env.denote) denote_mono ih
    exact ⟨n + 1, _, denote_succ_eq_some_iff.mpr ⟨_, hv, .list (mapM_eq_some_iff_forall₂.mp hds)⟩⟩
  | @attrs v attrs hv _ htype ih =>
    obtain ⟨n, ds, hds⟩ := exists_mapM_eq_some
      (f := fun n (a : Attr α) => (env.denote n a.value).map (a.name, ·)) (l := attrs)
      (fun {m n a c} h hmn => by
        obtain ⟨d, hd, rfl⟩ := Option.map_eq_some_iff.mp h
        rw [denote_mono hd hmn, Option.map_some])
      (fun a ha => by
        obtain ⟨n, d, hd⟩ := ih a ha
        exact ⟨n, _, by rw [hd, Option.map_some]⟩)
    have hattrs : env.DenoteAttrs n attrs ds := mapM_eq_some_iff_forall₂.mp hds
    obtain ⟨d, hd⟩ := @denoteSet_ne_none ds fun s context hlookup => by
      rcases hattrs.find (str "type") with ⟨-, hno⟩ | ⟨a, e, ha, he, hae⟩
      · rw [hno] at hlookup
        cases hlookup
      · obtain rfl : e = .string s context := Option.some.inj (he.symm.trans hlookup)
        rcases forceValue_of_denote hae with ⟨t, context', heq, hforce⟩ | ⟨hne, -⟩
        · cases heq
          exact htype a s context ha hforce
        · exact absurd rfl (hne s context)
    refine ⟨n + 1, d, ?_⟩
    rw [denote, hv]
    exact Option.bind_eq_some_iff.mpr ⟨ds, hds, hd⟩

/-- Two values without functions stand for data at a common depth. -/
theorem Plain.exists_denote₂ {v1 v2 : α} (h1 : env.Plain v1) (h2 : env.Plain v2) :
    ∃ n d1 d2, env.denote n v1 = some d1 ∧ env.denote n v2 = some d2 := by
  obtain ⟨m, d1, hd1⟩ := h1.exists_denote
  obtain ⟨n, d2, hd2⟩ := h2.exists_denote
  exact ⟨max m n, d1, d2, denote_mono hd1 (le_max_left m n), denote_mono hd2 (le_max_right m n)⟩

variable [DecidableEq α]

/-- `eqValues` decides whether two values stand for the same datum. -/
theorem eqValues_of_denote {depth n : ℕ} {v1 v2 : α} {d1 d2 : Datum}
    (h1 : env.denote depth v1 = some d1) (h2 : env.denote depth v2 = some d2) (hn : depth ≤ n) :
    Decides (env.eqValues n) v1 v2 d1 d2 := by
  induction depth generalizing n v1 v2 d1 d2 with
  | zero => cases h1
  | succ depth ih =>
    obtain ⟨n, rfl⟩ : ∃ k, n = k + 1 := ⟨n - 1, by omega⟩
    have heq : ∀ v1 v2 d1 d2, env.denote depth v1 = some d1 → env.denote depth v2 = some d2 →
        Decides (env.eqValues n) v1 v2 d1 d2 :=
      fun v1 v2 d1 d2 h1 h2 => ih h1 h2 (Nat.le_of_succ_le_succ hn)
    unfold Decides
    rw [eqValues]
    by_cases hsame : v1 = v2
    · -- one cell stands for one datum
      subst hsame
      obtain rfl : d1 = d2 := Option.some.inj (h1.symm.trans h2)
      obtain ⟨w, hw⟩ : ∃ w, env.forceValue v1 = .ok w := by
        rcases forceValue_of_denote h1 with ⟨s, context, -, hw⟩ | ⟨-, w, hw, -⟩
        · exact ⟨_, hw⟩
        · exact ⟨w, hw⟩
      exact ⟨true, by simp [hw], by simp⟩
    obtain ⟨w1, hw1, hrep1⟩ := denote_succ_eq_some_iff.mp h1
    obtain ⟨w2, hw2, hrep2⟩ := denote_succ_eq_some_iff.mp h2
    simp only [hw1, hw2, Outcome.ok_bind, if_neg hsame]
    -- values of different types stand for different data
    cases hrep1 with
    | int m =>
      cases hrep2 with
      | int n => exact ⟨_, rfl, by simp⟩
      | _ => exact ⟨false, rfl, by simp⟩
    | bool a =>
      cases hrep2 with
      | bool b => exact ⟨_, rfl, by simp⟩
      | _ => exact ⟨false, rfl, by simp⟩
    | string s context =>
      cases hrep2 with
      | string t context' => exact ⟨_, rfl, by rw [eqStrings_eq_true_iff, Datum.string.injEq]⟩
      | _ => exact ⟨false, rfl, by simp⟩
    | path p =>
      cases hrep2 with
      | path q => exact ⟨_, rfl, by simp⟩
      | _ => exact ⟨false, rfl, by simp⟩
    | null =>
      cases hrep2 with
      | null => exact ⟨true, rfl, by simp⟩
      | _ => exact ⟨false, rfl, by simp⟩
    | list hds =>
      cases hrep2 with
      | list hes =>
        rw [Datum.list.injEq]
        dsimp only
        split_ifs with hlen
        · exact ⟨false, rfl, by simpa using fun h => hlen (by rw [hds.length_eq, hes.length_eq, h])⟩
        · exact eqElems_spec heq hds hes (not_not.mp hlen)
      | _ => exact ⟨false, rfl, by simp⟩
    | set hds hd | derivation hds hd =>
      cases hrep2 with
      | set hes he | derivation hes he => exact eqSets_spec heq hds hd hes he
      | _ => exact ⟨false, rfl, by simp⟩

/-! ### The equivalence -/

/-- The comparison returns, with the answer that the values are equal. -/
def Equal (env : EvalEnv α) (v1 v2 : α) : Prop := ∃ N, ∀ n, N ≤ n → env.eqValues n v1 v2 = .ok true

/-- Values are equal when they stand for the same. -/
theorem equal_iff_of_denote {n : ℕ} {v1 v2 : α} {d1 d2 : Datum} (h1 : env.denote n v1 = some d1)
    (h2 : env.denote n v2 = some d2) : env.Equal v1 v2 ↔ d1 = d2 := by
  constructor
  · rintro ⟨N, hN⟩
    obtain ⟨b, hb, hiff⟩ := eqValues_of_denote h1 h2 (le_max_left n N)
    rw [hN _ (le_max_right n N)] at hb
    cases hb
    exact hiff.mp rfl
  · intro hd
    refine ⟨n, fun m hm => ?_⟩
    obtain ⟨b, hb, hiff⟩ := eqValues_of_denote h1 h2 hm
    rw [hb, hiff.mpr hd]

/-- On values without functions `eqValues` returns, and it is an equivalence that relates cells with
the same value.  Strings are equal exactly if their texts are equal and the same paths have been added
to their contexts, in whatever order. -/
theorem eqValues_equivalence (env : EvalEnv α) :
    (∀ v1 v2, env.Plain v1 → env.Plain v2 →
      ∃ b N, ∀ n, N ≤ n → env.eqValues n v1 v2 = .ok b) ∧
    (Equivalence fun v1 v2 : { v // env.Plain v } => env.Equal v1.1 v2.1) ∧
    (∀ v1 v2, env.Plain v1 → env.forceValue v1 = env.forceValue v2 → env.Equal v1 v2) ∧
    ∀ v1 v2 s t (paths paths' : List Path),
      env.forceValue v1 = .ok (.tString s (SortedSet.ofList paths)) →
      env.forceValue v2 = .ok (.tString t (SortedSet.ofList paths')) →
      (env.Equal v1 v2 ↔ s = t ∧ ∀ p, p ∈ paths ↔ p ∈ paths') := by
  have hcopy : ∀ v1 v2, env.Plain v1 → env.forceValue v1 = env.forceValue v2 →
      env.Equal v1 v2 := by
    intro v1 v2 h1 heq
    obtain ⟨n, d, hd⟩ := h1.exists_denote
    obtain ⟨n, rfl⟩ : ∃ k, n = k + 1 := by
      cases n with
      | zero => cases hd
      | succ n => exact ⟨n, rfl⟩
    obtain ⟨w, hw, hrep⟩ := denote_succ_eq_some_iff.mp hd
    have hd' := denote_succ_eq_some_iff.mpr ⟨w, heq ▸ hw, hrep⟩
    exact (equal_iff_of_denote hd hd').mpr rfl
  refine ⟨fun v1 v2 h1 h2 => ?_, ⟨?_, ?_, ?_⟩, hcopy, ?_⟩
  · obtain ⟨n, d1, d2, hd1, hd2⟩ := h1.exists_denote₂ h2
    by_cases hd : d1 = d2
    · obtain ⟨N, hN⟩ := (equal_iff_of_denote hd1 hd2).mpr hd
      exact ⟨true, N, hN⟩
    · refine ⟨false, n, fun m hm => ?_⟩
      obtain ⟨b, hb, hiff⟩ := eqValues_of_denote hd1 hd2 hm
      rw [hb, Bool.eq_false_iff.mpr fun h => hd (hiff.mp h)]
  · exact fun v => hcopy v.1 v.1 v.2 rfl
  · intro v1 v2 h
    obtain ⟨n, d1, d2, hd1, hd2⟩ := v1.2.exists_denote₂ v2.2
    exact (equal_iff_of_denote hd2 hd1).mpr ((equal_iff_of_denote hd1 hd2).mp h).symm
  · intro v1 v2 v3 h12 h23
    obtain ⟨m, d1, d2, hd1, hd2⟩ := v1.2.exists_denote₂ v2.2
    obtain ⟨n, d3, hd3⟩ := v3.2.exists_denote
    have hd1' := denote_mono hd1 (le_max_left m n)
    have hd2' := denote_mono hd2 (le_max_left m n)
    have hd3' := denote_mono hd3 (le_max_right m n)
    refine (equal_iff_of_denote hd1' hd3').mpr ?_
    exact ((equal_iff_of_denote hd1' hd2').mp h12).trans ((equal_iff_of_denote hd2' hd3').mp h23)
  · intro v1 v2 s t paths paths' h1 h2
    have hd1 := (@denote_succ_eq_some_iff _ _ 0).mpr ⟨_, h1, .string s _⟩
    have hd2 := (@denote_succ_eq_some_iff _ _ 0).mpr ⟨_, h2, .string t _⟩
    rw [equal_iff_of_denote hd1 hd2, Datum.string.injEq]
    refine and_congr_right fun _ => ⟨fun h p => ?_, fun h => SortedMap.ext_mem fun p => ?_⟩
    · rw [← SortedSet.mem_ofList, h, SortedSet.mem_ofList]
    · rw [SortedSet.mem_ofList, SortedSet.mem_ofList, h]

end EvalEnv

end Nix
