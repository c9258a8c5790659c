import NixStore.Expr.Values
import NixStore.Lib.SortedLists

/-!
# Attribute sets and their update

Model of `Bindings` and of `ExprOpUpdate::eval` of `eval.cc`.  The symbol table stores one copy of
each name, and names are compared through the addresses of these copies; an attribute set is a
vector in ascending order of addresses.  Which addresses the names have is arbitrary.
-/

namespace Nix

/-- Model of `SymbolTable`: where it stores the copy of each name. -/
structure SymbolTable where
  address : Str → ℕ
  /-- Different names are stored at different places. -/
  address_injective : Function.Injective address

namespace SymbolTable

variable {α : Type} (symbols : SymbolTable)

/-- What `operator <` of `Attr` compares. -/
def key (a : Attr α) : ℕ := symbols.address a.name

variable {symbols}

/-- A name is found by its address. -/
theorem key_eq_iff {a : Attr α} {name : Str} :
    symbols.key a = symbols.address name ↔ a.name = name :=
  symbols.address_injective.eq_iff

end SymbolTable

/-- Model of `Bindings`: sorted and without duplicates. -/
structure Bindings (symbols : SymbolTable) (α : Type) where
  attrs : List (Attr α)
  sorted : SortedBy symbols.key attrs

namespace Bindings

variable {symbols : SymbolTable} {α : Type}

/-- The set without attributes. -/
def empty : Bindings symbols α := ⟨[], SortedBy.nil⟩

/-- Model of `Bindings::find`. -/
def find (b : Bindings symbols α) (name : Str) : Option (Attr α) :=
  searchBy symbols.key b.attrs (symbols.address name)

/-- Model of `Bindings::sort`, for attributes with different names. -/
def sort (attrs : List (Attr α)) (h : (attrs.map Attr.name).Nodup) : Bindings symbols α where
  attrs := attrs.mergeSort fun a b => symbols.key a ≤ symbols.key b
  sorted := by
    have hle : (attrs.mergeSort fun a b => symbols.key a ≤ symbols.key b).Pairwise
        fun a b => symbols.key a ≤ symbols.key b := by
      simpa using @List.pairwise_mergeSort _ (fun a b => decide (symbols.key a ≤ symbols.key b))
        (fun a b c hab hbc => by simp only [decide_eq_true_eq] at *; omega)
        (fun a b => by simp only [Bool.or_eq_true, decide_eq_true_eq]; omega) attrs
    have hne : (attrs.mergeSort fun a b => symbols.key a ≤ symbols.key b).Pairwise
        fun a b => symbols.key a ≠ symbols.key b := by
      refine List.Pairwise.perm ?_ (List.mergeSort_perm attrs _).symm fun h => h.symm
      exact (List.pairwise_map.mp h).imp fun h => mt SymbolTable.key_eq_iff.mp h
    exact hle.imp₂ (fun _ _ hab hne => lt_of_le_of_ne hab hne) hne

/-- The search finds the attribute of the name. -/
theorem find_eq_some_iff {b : Bindings symbols α} {name : Str} {a : Attr α} :
    b.find name = some a ↔ a ∈ b.attrs ∧ a.name = name := by
  rw [find, searchBy_eq_some_iff b.sorted, SymbolTable.key_eq_iff]

/-- Binary search by address finds what a search by name finds. -/
theorem find_eq_findAttr (b : Bindings symbols α) (name : Str) :
    b.find name = findAttr b.attrs name := by
  rcases h : findAttr b.attrs name with _ | a
  · rw [Option.eq_none_iff_forall_ne_some]
    intro a ha
    obtain ⟨hmem, hname⟩ := find_eq_some_iff.mp ha
    have := List.find?_eq_none.mp h a hmem
    simp [hname] at this
  · exact find_eq_some_iff.mpr (mem_of_findAttr h)

/-- After sorting, the search finds the attributes of the list. -/
theorem find_sort {attrs : List (Attr α)} (h : (attrs.map Attr.name).Nodup) {name : Str}
    {a : Attr α} : (sort attrs h : Bindings symbols α).find name = some a ↔
      a ∈ attrs ∧ a.name = name := by
  rw [find_eq_some_iff, sort, List.mem_mergeSort]

end Bindings

/-! ### The update -/

section

variable {α : Type} (symbols : SymbolTable)

/-- What `ExprOpUpdate::eval` makes of two sets: a merge of the two vectors that prefers the second
one, with early exits for the empty set. -/
def updateAttrs (v1 v2 : List (Attr α)) : List (Attr α) :=
  if v1.length = 0 then v2
  else if v2.length = 0 then v1
  else mergeRight symbols.key v1 v2

/-- Model of `ExprOpUpdate::eval`. -/
def EvalEnv.opUpdate (env : EvalEnv α) (e1 e2 : α) : Outcome Str (Value α) := do
  let v1 ← env.forceAttrs e1
  let v2 ← env.forceAttrs e2
  return .tAttrs (updateAttrs symbols v1 v2)

end

section

variable {α : Type} {symbols : SymbolTable}

/-- The early exits agree with the loop. -/
theorem updateAttrs_eq_mergeRight (v1 v2 : List (Attr α)) :
    updateAttrs symbols v1 v2 = mergeRight symbols.key v1 v2 := by
  unfold updateAttrs
  split_ifs with h1 h2
  · rw [List.length_eq_zero_iff.mp h1, mergeRight_nil_left]
  · rw [List.length_eq_zero_iff.mp h2, mergeRight_nil_right]
  · rfl

/-- The update of one set by another one. -/
def Bindings.update (b1 b2 : Bindings symbols α) : Bindings symbols α where
  attrs := updateAttrs symbols b1.attrs b2.attrs
  sorted := by
    rw [updateAttrs_eq_mergeRight]
    exact b1.sorted.mergeRight b2.sorted

/-- An update merges the two lists, the right one first. -/
@[simp] theorem Bindings.attrs_update (b1 b2 : Bindings symbols α) :
    (b1.update b2).attrs = mergeRight symbols.key b1.attrs b2.attrs :=
  updateAttrs_eq_mergeRight _ _

/-- After an update, the right set is asked first. -/
theorem Bindings.find_update (b1 b2 : Bindings symbols α) (name : Str) :
    (b1.update b2).find name = (b2.find name).or (b1.find name) := by
  rw [Bindings.find, Bindings.attrs_update]
  exact searchBy_mergeRight b1.sorted b2.sorted (symbols.address name)

/-- Updates can be grouped either way. -/
theorem Bindings.attrs_update_assoc (b1 b2 b3 : Bindings symbols α) :
    ((b1.update b2).update b3).attrs = (b1.update (b2.update b3)).attrs := by
  simp only [Bindings.attrs_update]
  exact mergeRight_assoc b1.sorted b2.sorted b3.sorted

variable {env : EvalEnv α} {e1 e2 : α} {b1 b2 : Bindings symbols α}

/-- The operator `//` evaluates to the updated set. -/
theorem EvalEnv.opUpdate_eq_ok (h1 : env.forceAttrs e1 = .ok b1.attrs)
    (h2 : env.forceAttrs e2 = .ok b2.attrs) :
    env.opUpdate symbols e1 e2 = .ok (.tAttrs (b1.update b2).attrs) := by
  rw [EvalEnv.opUpdate, h1, h2]
  rfl

/-- The update of sorted sets without duplicates is such a set, in which the second set hides the
first one.  It is what the loop computes also where one of the sets is empty, in which case it is
the other one, and `//` is associative. -/
theorem opUpdate_spec (h1 : env.forceAttrs e1 = .ok b1.attrs)
    (h2 : env.forceAttrs e2 = .ok b2.attrs) :
    (∃ b : Bindings symbols α, env.opUpdate symbols e1 e2 = .ok (.tAttrs b.attrs) ∧
      b.attrs = mergeRight symbols.key b1.attrs b2.attrs ∧
      ∀ name, b.find name = (b2.find name).or (b1.find name)) ∧
    (b1.attrs = [] → env.opUpdate symbols e1 e2 = .ok (.tAttrs b2.attrs)) ∧
    (b2.attrs = [] → env.opUpdate symbols e1 e2 = .ok (.tAttrs b1.attrs)) ∧
    ∀ (e3 e12 e23 : α) (b3 : Bindings symbols α), env.forceAttrs e3 = .ok b3.attrs →
      env.forceValue e12 = env.opUpdate symbols e1 e2 →
      env.forceValue e23 = env.opUpdate symbols e2 e3 →
      env.opUpdate symbols e12 e3 = env.opUpdate symbols e1 e23 := by
  have h12 := EvalEnv.opUpdate_eq_ok h1 h2
  refine ⟨⟨b1.update b2, h12, b1.attrs_update b2, b1.find_update b2⟩, ?_, ?_, ?_⟩
  · intro hnil
    rw [h12, Bindings.attrs_update, hnil, mergeRight_nil_left]
  · intro hnil
    rw [h12, Bindings.attrs_update, hnil, mergeRight_nil_right]
  · intro e3 e12 e23 b3 h3 he12 he23
    have h23 := EvalEnv.opUpdate_eq_ok h2 h3
    rw [h12] at he12
    rw [h23] at he23
    rw [EvalEnv.opUpdate_eq_ok (EvalEnv.forceAttrs_eq_ok.mpr he12) h3,
      EvalEnv.opUpdate_eq_ok h1 (EvalEnv.forceAttrs_eq_ok.mpr he23),
      Bindings.attrs_update_assoc]

end

/-! ### An example -/

/-- A symbol table that stores each name at the number with the name as its digits. -/
def SymbolTable.digits : SymbolTable where
  address s := s.foldr (fun b n => n * 256 + b.toNat + 1) 0
  address_injective := by
    intro s
    induction s with
    | nil =>
      intro t h
      cases t with
      | nil => rfl
      | cons b t => simp at h
    | cons a s ih =>
      intro t h
      cases t with
      | nil => simp at h
      | cons b t =>
        have ha := a.toNat_lt
        have hb := b.toNat_lt
        simp only [List.foldr_cons] at h
        have hab : a = b := UInt8.toNat_inj.mp (by omega)
        have hst : s = t := ih (by dsimp only; omega)
        rw [hab, hst]

/-- Cells with `{ a = ..; b = ..; }`, with `{ b = ..; c = ..; }` and with their update. -/
def updateSample : EvalEnv ℕ where
  forceValue
    | 0 => .ok (.tAttrs [⟨str "a", 3, ⟨[], 0, 0⟩⟩, ⟨str "b", 4, ⟨[], 0, 0⟩⟩])
    | 1 => .ok (.tAttrs [⟨str "b", 5, ⟨[], 0, 0⟩⟩, ⟨str "c", 6, ⟨[], 0, 0⟩⟩])
    | n => .ok (.tInt n)
  hashPath _ := .diverge

/-- The specification at sets that share a name. -/
theorem opUpdate_spec_sample :
    ∃ b : Bindings .digits ℕ, updateSample.opUpdate .digits 0 1 = .ok (.tAttrs b.attrs) ∧
      b.find (str "b") = some ⟨str "b", 5, ⟨[], 0, 0⟩⟩ := by
  obtain ⟨⟨b, h, -, hfind⟩, -⟩ := @opUpdate_spec ℕ .digits updateSample 0 1
    ⟨_, by unfold SortedBy; decide⟩ ⟨_, by unfold SortedBy; decide⟩ rfl rfl
  exact ⟨b, h, by rw [hfind]; decide⟩

end Nix
