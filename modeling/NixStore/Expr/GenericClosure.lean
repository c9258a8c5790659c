import NixStore.Expr.Values
import NixStore.Lib.FirstByKey
import NixStore.Lib.SortedLists

/-!
# The generic closure

Model of `prim_genericClosure` of `primops.cc`.  A work list starts with the start set; each element
whose key is new goes into the result, and what the operator makes of it goes to the end of the work
list.  The result is the list of the first elements with their keys, in the order in which elements
are found, and its keys are the least set that contains the keys of the start set and is closed under
the operator (`genericClosure_spec`).
-/

namespace Nix

variable {α : Type}

/-! ### Keys -/

/-- What `CompareValues` looks at: the type, and then the number or the text.  All values that it does
not compare look the same. -/
def Value.key : Value α → ℕ ×ₗ ℤ ×ₗ Str
  | .tInt n => toLex (1, toLex (n, []))
  | .tString s _ => toLex (2, toLex (0, s))
  | .tPath p => toLex (3, toLex (0, p))
  | _ => toLex (0, toLex (0, []))

/-- Whether two values have the same type. -/
def Value.sameType : Value α → Value α → Bool
  | .tInt _, .tInt _ => true
  | .tBool _, .tBool _ => true
  | .tString _ _, .tString _ _ => true
  | .tPath _, .tPath _ => true
  | .tNull, .tNull => true
  | .tAttrs _, .tAttrs _ => true
  | .tList _, .tList _ => true
  | .tLambda _, .tLambda _ => true
  | .tPrimOp, .tPrimOp => true
  | .tPrimOpApp, .tPrimOpApp => true
  | _, _ => false

/-- Model of `CompareValues`. -/
def compareValues (v1 v2 : Value α) : Outcome Str Bool :=
  if v1.sameType v2 then
    match v1, v2 with
    | .tInt m, .tInt n => return decide (m < n)
    | .tString s _, .tString t _ => return decide (s < t)
    | .tPath p, .tPath q => return decide (p < q)
    | _, _ => .error (str "cannot compare " ++ showType v1 ++ str " with " ++ showType v2)
  else .error (str "cannot compare values of different types")

/-- `find` of the set `doneKeys`, whose elements are listed in ascending order.  Which of them a key is
compared with makes no difference to an error, since they all have one type. -/
def findKey : List (Value α) → Value α → Outcome Str Bool
  | [], _ => return false
  | d :: doneKeys, key => do
    if ← compareValues d key then findKey doneKeys key
    else
      let less ← compareValues key d
      return !less

/-- `insert` of the set `doneKeys`. -/
def insertKey : List (Value α) → Value α → Outcome Str (List (Value α))
  | [], key => return [key]
  | d :: doneKeys, key => do
    if ← compareValues key d then return key :: d :: doneKeys
    else if ← compareValues d key then
      let doneKeys ← insertKey doneKeys key
      return d :: doneKeys
    else return d :: doneKeys

/-- Values that are compared are compared by their keys. -/
theorem compareValues_eq_ok {v1 v2 : Value α} {b : Bool} (h : compareValues v1 v2 = .ok b) :
    b = true ↔ v1.key < v2.key := by
  cases v1 <;> cases v2 <;>
    simp_all [compareValues, Value.sameType, Value.key, Prod.Lex.toLex_lt_toLex, eq_comm]

/-- The search says whether the key is done. -/
theorem findKey_eq_ok {doneKeys : List (Value α)} (hsorted : SortedBy Value.key doneKeys)
    {key : Value α} {b : Bool} (h : findKey doneKeys key = .ok b) :
    b = true ↔ key.key ∈ doneKeys.map Value.key := by
  induction doneKeys generalizing b with
  | nil =>
    cases h
    simp
  | cons d doneKeys ih =>
    rw [SortedBy.cons_iff] at hsorted
    obtain ⟨less, hless, h⟩ := Outcome.bind_eq_ok.mp h
    have hless := compareValues_eq_ok hless
    rw [List.map_cons, List.mem_cons]
    cases less with
    | true =>
      rw [ih hsorted.2 h, or_iff_right (hless.mp rfl).ne']
    | false =>
      obtain ⟨greater, hgreater, h⟩ := Outcome.bind_eq_ok.mp h
      cases h
      have hgreater := compareValues_eq_ok hgreater
      -- what comes after `d` is greater than the key
      have hle : key.key ≤ d.key := not_lt.mp (mt hless.mpr Bool.false_ne_true)
      have hnot : key.key ∉ doneKeys.map Value.key := fun hmem => by
        obtain ⟨d', hd', heq⟩ := List.mem_map.mp hmem
        exact (hle.trans_lt (hsorted.1 d' hd')).ne' heq
      rw [or_iff_left hnot, Bool.not_eq_true', ← Bool.not_eq_true, hgreater, not_lt]
      exact ⟨fun h => le_antisymm hle h, fun h => h.ge⟩

/-- An inserted key is done, and the list stays sorted. -/
theorem insertKey_eq_ok {doneKeys doneKeys' : List (Value α)}
    (hsorted : SortedBy Value.key doneKeys) {key : Value α}
    (h : insertKey doneKeys key = .ok doneKeys') : SortedBy Value.key doneKeys' ∧
      ∀ k, k ∈ doneKeys'.map Value.key ↔ k = key.key ∨ k ∈ doneKeys.map Value.key := by
  induction doneKeys generalizing doneKeys' with
  | nil =>
    cases h
    exact ⟨List.pairwise_singleton _ _, by simp⟩
  | cons d doneKeys ih =>
    have hd := SortedBy.cons_iff.mp hsorted
    obtain ⟨less, hless, h⟩ := Outcome.bind_eq_ok.mp h
    have hless := compareValues_eq_ok hless
    cases less with
    | true =>
      cases h
      have hlt : key.key < d.key := hless.mp rfl
      refine ⟨SortedBy.cons_iff.mpr ⟨fun b hb => ?_, hsorted⟩, by simp⟩
      rcases List.mem_cons.mp hb with rfl | hb
      · exact hlt
      · exact hlt.trans (hd.1 b hb)
    | false =>
      obtain ⟨greater, hgreater, h⟩ := Outcome.bind_eq_ok.mp h
      have hgreater := compareValues_eq_ok hgreater
      have hle : d.key ≤ key.key := not_lt.mp (mt hless.mpr Bool.false_ne_true)
      cases greater with
      | true =>
        obtain ⟨rest, hrest, h⟩ := Outcome.bind_eq_ok.mp h
        cases h
        obtain ⟨hsorted', hmem⟩ := ih hd.2 hrest
        refine ⟨SortedBy.cons_iff.mpr ⟨fun b hb => ?_, hsorted'⟩, fun k => ?_⟩
        · rcases (hmem _).mp (List.mem_map_of_mem hb) with hb | hb
          · exact hb ▸ hgreater.mp rfl
          · obtain ⟨d', hd', heq⟩ := List.mem_map.mp hb
            exact heq ▸ hd.1 d' hd'
        · rw [List.map_cons, List.mem_cons, hmem, List.map_cons, List.mem_cons]
          tauto
      | false =>
        cases h
        have heq : key.key = d.key :=
          le_antisymm (not_lt.mp (mt hgreater.mpr Bool.false_ne_true)) hle
        exact ⟨hsorted, by simp [heq]⟩

/-! ### The loop -/

/-- What the loop works on. -/
structure ClosureState (α : Type) where
  workSet : List α
  /-- The keys of the elements in the result. -/
  doneKeys : List (Value α)
  res : List α

namespace EvalEnv

variable (env : EvalEnv α) (app : α → α → α) (op : α)

/-- The key of an element. -/
def closureKey (e : α) : Outcome Str (Value α) := do
  let attrs ← env.forceAttrs e
  match findAttr attrs (str "key") with
  | none => .error (str "attribute `key' required")
  | some key => env.forceValue key.value

/-- A round of the loop; `app` makes a cell with the application of a function. -/
def closureRound (s : ClosureState α) : Outcome Str (ClosureState α) :=
  match s.workSet with
  | [] => return s
  | e :: workSet => do
    let key ← env.closureKey e
    if ← findKey s.doneKeys key then return { s with workSet := workSet }
    else
      let doneKeys ← insertKey s.doneKeys key
      let elems ← env.forceList (app op e)
      let _ ← elems.mapM env.forceValue
      return { workSet := workSet ++ elems, doneKeys, res := s.res ++ [e] }

/-- The loop. -/
def closureLoop : ℕ → ClosureState α → Outcome Str (List α)
  | 0, _ => .diverge
  | fuel + 1, s =>
    if s.workSet.isEmpty then return s.res
    else do
      let s ← env.closureRound app op s
      closureLoop fuel s

/-- The start set and the operator. -/
def closureArgs (v : α) : Outcome Str (List α × α) := do
  let attrs ← env.forceAttrs v
  match findAttr attrs (str "startSet") with
  | none => .error (str "attribute `startSet' required")
  | some startSet => do
    let elems ← env.forceList startSet.value
    match findAttr attrs (str "operator") with
    | none => .error (str "attribute `operator' required")
    | some op => do
      let _ ← env.forceValue op.value
      return (elems, op.value)

/-- Model of `prim_genericClosure`; the result is given by the cells of its elements. -/
def primGenericClosure (fuel : ℕ) (v : α) : Outcome Str (List α) := do
  let (startSet, op) ← env.closureArgs v
  env.closureLoop app op fuel ⟨startSet, [], []⟩

/-! ### What the closure is -/

/-- The key of an element, for comparison. -/
def keyOf (e : α) : ℕ ×ₗ ℤ ×ₗ Str :=
  match env.closureKey e with
  | .ok key => key.key
  | _ => toLex (0, toLex (0, []))

/-- What the operator makes of an element. -/
def results (e : α) : List α :=
  match env.forceList (app op e) with
  | .ok elems => elems
  | _ => []

/-- The loop comes to a state, starting with these elements. -/
def ComesTo (startSet : List α) (s : ClosureState α) : Prop :=
  Relation.ReflTransGen (fun s s' => env.closureRound app op s = .ok s') ⟨startSet, [], []⟩ s

/-- A set of keys with those of the start set, closed under the operator applied to the first element
that is met with each key. -/
def KeysClosed (startSet : List α) (S : Set (ℕ ×ₗ ℤ ×ₗ Str)) : Prop :=
  (∀ e ∈ startSet, env.keyOf e ∈ S) ∧
    ∀ s, env.ComesTo app op startSet s → ∀ e ∈ s.res, env.keyOf e ∈ S →
      ∀ x ∈ env.results app op e, env.keyOf x ∈ S

variable {env app op}

/-- What a round does, given that the set of keys is sorted. -/
theorem closureRound_cases {s s' : ClosureState α} {e : α} {workSet : List α}
    (hwork : s.workSet = e :: workSet) (hsorted : SortedBy Value.key s.doneKeys)
    (h : env.closureRound app op s = .ok s') :
    (env.keyOf e ∈ s.doneKeys.map Value.key ∧ s' = { s with workSet := workSet }) ∨
      (env.keyOf e ∉ s.doneKeys.map Value.key ∧ ∃ doneKeys,
        SortedBy Value.key doneKeys ∧
        (∀ k, k ∈ doneKeys.map Value.key ↔ k = env.keyOf e ∨ k ∈ s.doneKeys.map Value.key) ∧
        s' = ⟨workSet ++ env.results app op e, doneKeys, s.res ++ [e]⟩) := by
  unfold closureRound at h
  rw [hwork] at h
  obtain ⟨key, hkey, h⟩ := Outcome.bind_eq_ok.mp h
  have hkeyOf : env.keyOf e = key.key := by rw [keyOf, hkey]
  obtain ⟨found, hfound, h⟩ := Outcome.bind_eq_ok.mp h
  have hfound := findKey_eq_ok hsorted hfound
  rw [hkeyOf]
  cases found with
  | true =>
    cases h
    exact Or.inl ⟨hfound.mp rfl, rfl⟩
  | false =>
    obtain ⟨doneKeys, hdone, h⟩ := Outcome.bind_eq_ok.mp h
    obtain ⟨elems, helems, h⟩ := Outcome.bind_eq_ok.mp h
    obtain ⟨_, -, h⟩ := Outcome.bind_eq_ok.mp h
    cases h
    obtain ⟨hsorted', hmem⟩ := insertKey_eq_ok hsorted hdone
    refine Or.inr ⟨mt hfound.mpr Bool.false_ne_true, doneKeys, hsorted', hmem, ?_⟩
    rw [results, helems]

/-- What holds of every state that the loop comes to. -/
structure ClosureInv (env : EvalEnv α) (app : α → α → α) (op : α) (startSet : List α)
    (s : ClosureState α) : Prop where
  sorted : SortedBy Value.key s.doneKeys
  /-- The set has the keys of the result. -/
  keys : ∀ k, k ∈ s.doneKeys.map Value.key ↔ k ∈ s.res.map env.keyOf
  /-- The elements that have been found are those that have been dealt with, of which the first with
  each key are in the result, and those in the work list. -/
  found : ∃ processed, startSet ++ s.res.flatMap (env.results app op) = processed ++ s.workSet ∧
    s.res = firstByKey env.keyOf processed

/-- The invariant holds at the start. -/
theorem ClosureInv.start (startSet : List α) : ClosureInv env app op startSet ⟨startSet, [], []⟩ where
  sorted := SortedBy.nil
  keys := by simp
  found := ⟨[], by simp, rfl⟩

/-- A round keeps the invariant. -/
theorem ClosureInv.round {startSet : List α} {s s' : ClosureState α}
    (hinv : ClosureInv env app op startSet s) (h : env.closureRound app op s = .ok s') :
    ClosureInv env app op startSet s' := by
  obtain ⟨processed, hfound, hres⟩ := hinv.found
  rcases hwork : s.workSet with _ | ⟨e, workSet⟩
  · unfold closureRound at h
    rw [hwork] at h
    cases h
    exact hinv
  rw [hwork] at hfound
  have hconcat : s.res.map env.keyOf = (firstByKey env.keyOf processed).map env.keyOf := by rw [hres]
  rcases closureRound_cases hwork hinv.sorted h with ⟨hold, rfl⟩ | ⟨hnew, doneKeys, hsorted, hmem, rfl⟩
  · refine ⟨hinv.sorted, hinv.keys, processed ++ [e], by simpa using hfound, ?_⟩
    rw [hinv.keys, hconcat] at hold
    rw [firstByKey_concat, if_pos hold]
    exact hres
  · refine ⟨hsorted, fun k => ?_, processed ++ [e], ?_, ?_⟩
    · rw [hmem, hinv.keys, List.map_append, List.map_singleton, List.mem_append,
        List.mem_singleton, or_comm]
    · rw [List.flatMap_append, List.flatMap_singleton, ← List.append_assoc, hfound]
      simp
    · rw [hinv.keys, hconcat] at hnew
      rw [firstByKey_concat, if_neg hnew, hres]

/-- The invariant holds of what the loop comes to. -/
theorem ComesTo.inv {startSet : List α} {s : ClosureState α}
    (h : env.ComesTo app op startSet s) : ClosureInv env app op startSet s := by
  induction h with
  | refl => exact .start startSet
  | tail _ hround ih => exact ih.round hround

/-- A closed set of keys has the keys of everything that the loop meets. -/
theorem KeysClosed.of_comesTo {startSet : List α} {S : Set (ℕ ×ₗ ℤ ×ₗ Str)} {s : ClosureState α}
    (hS : env.KeysClosed app op startSet S) (h : env.ComesTo app op startSet s) :
    (∀ e ∈ s.res, env.keyOf e ∈ S) ∧ ∀ e ∈ s.workSet, env.keyOf e ∈ S := by
  induction h with
  | refl => exact ⟨by simp, hS.1⟩
  | @tail s s' hs hround ih =>
    obtain ⟨hres, hworkSet⟩ := ih
    rcases hwork : s.workSet with _ | ⟨e, workSet⟩
    · unfold closureRound at hround
      rw [hwork] at hround
      cases hround
      exact ⟨hres, hworkSet⟩
    rw [hwork, List.forall_mem_cons] at hworkSet
    have hs' : env.ComesTo app op startSet s' := hs.tail hround
    rcases closureRound_cases hwork (ComesTo.inv hs).sorted hround with
      ⟨-, rfl⟩ | ⟨-, doneKeys, -, -, rfl⟩
    · exact ⟨hres, hworkSet.2⟩
    · refine ⟨fun x hx => ?_, fun x hx => ?_⟩
      · rcases List.mem_append.mp hx with hx | hx
        · exact hres x hx
        · exact List.mem_singleton.mp hx ▸ hworkSet.1
      · rcases List.mem_append.mp hx with hx | hx
        · exact hworkSet.2 x hx
        · exact hS.2 _ hs' e (by simp) hworkSet.1 x hx

/-- The elements of the result stay in it. -/
theorem res_subset_of_round {startSet : List α} {s s' : ClosureState α}
    (hs : env.ComesTo app op startSet s)
    (h : Relation.ReflTransGen (fun s s' => env.closureRound app op s = .ok s') s s') :
    s.res ⊆ s'.res := by
  induction h with
  | refl => exact List.Subset.refl _
  | @tail t t' ht hround ih =>
    rcases hwork : t.workSet with _ | ⟨e, workSet⟩
    · unfold closureRound at hround
      rw [hwork] at hround
      cases hround
      exact ih
    have hcomes : env.ComesTo app op startSet t := Relation.ReflTransGen.trans hs ht
    rcases closureRound_cases hwork hcomes.inv.sorted hround with
      ⟨-, rfl⟩ | ⟨-, doneKeys, -, -, rfl⟩
    · exact ih
    · exact List.subset_append_of_subset_left _ ih

/-- A run that has come to an end has met all elements that the loop puts into the result. -/
theorem res_subset_of_workSet_eq_nil {startSet : List α} {s s' : ClosureState α}
    (hs : env.ComesTo app op startSet s) (hs' : env.ComesTo app op startSet s')
    (hend : s'.workSet = []) : s.res ⊆ s'.res := by
  rcases Relation.ReflTransGen.total_of_right_unique
    (fun a b c hb hc => Outcome.ok.inj (hb.symm.trans hc)) hs hs' with h | h
  · exact res_subset_of_round hs h
  · -- the last state does not change any more
    have hstay : ∀ {t}, Relation.ReflTransGen
        (fun s s' => env.closureRound app op s = .ok s') s' t → t = s' := by
      intro t ht
      induction ht with
      | refl => rfl
      | tail _ hround ih =>
        subst ih
        unfold closureRound at hround
        rw [hend] at hround
        cases hround
        rfl
    rw [hstay h]
    exact List.Subset.refl _

/-- When the loop returns, it has come to an empty work list. -/
theorem closureLoop_eq_ok {startSet res : List α} {fuel : ℕ} {s : ClosureState α}
    (hs : env.ComesTo app op startSet s) (h : env.closureLoop app op fuel s = .ok res) :
    ∃ s', env.ComesTo app op startSet s' ∧ s'.workSet = [] ∧ s'.res = res := by
  induction fuel generalizing s with
  | zero => cases h
  | succ fuel ih =>
    rw [closureLoop] at h
    split_ifs at h with hempty
    · cases h
      exact ⟨s, hs, List.isEmpty_iff.mp hempty, rfl⟩
    · obtain ⟨s₁, hround, h⟩ := Outcome.bind_eq_ok.mp h
      exact ih (hs.tail hround) h

/-- There are no more results than keys. -/
theorem ComesTo.length_res_le {startSet : List α} {S : Finset (ℕ ×ₗ ℤ ×ₗ Str)}
    (hS : env.KeysClosed app op startSet S) {s : ClosureState α}
    (hs : env.ComesTo app op startSet s) : s.res.length ≤ S.card := by
  obtain ⟨processed, -, hres⟩ := hs.inv.found
  have hnodup : (s.res.map env.keyOf).Nodup := hres ▸ nodup_firstByKey processed
  rw [← List.length_map (f := env.keyOf), ← List.toFinset_card_of_nodup hnodup]
  refine Finset.card_le_card fun k hk => ?_
  obtain ⟨e, he, rfl⟩ := List.mem_map.mp (List.mem_toFinset.mp hk)
  exact (hS.of_comesTo hs).1 e he

/-- With finitely many keys the loop comes to an end: a round makes the result longer, or it makes the
work list shorter. -/
theorem closureLoop_ne_diverge {startSet : List α} {S : Finset (ℕ ×ₗ ℤ ×ₗ Str)}
    (hS : env.KeysClosed app op startSet S)
    (hround : ∀ s, env.ComesTo app op startSet s → env.closureRound app op s ≠ .diverge)
    (m l : ℕ) (s : ClosureState α) (hs : env.ComesTo app op startSet s)
    (hm : S.card - s.res.length = m) (hl : s.workSet.length = l) :
    ∃ N, ∀ fuel, N ≤ fuel → env.closureLoop app op fuel s ≠ .diverge := by
  induction m using Nat.strong_induction_on generalizing l s with
  | h m ihm =>
    induction l generalizing s with
    | zero =>
      refine ⟨1, fun fuel hfuel => ?_⟩
      obtain ⟨k, rfl⟩ : ∃ k, fuel = k + 1 := ⟨fuel - 1, by omega⟩
      rw [closureLoop, if_pos (List.isEmpty_iff.mpr (List.length_eq_zero_iff.mp hl))]
      exact fun h => by cases h
    | succ l ihl =>
      obtain ⟨e, workSet, hwork⟩ := List.exists_cons_of_length_eq_add_one hl
      have hloop : ∀ fuel, env.closureLoop app op (fuel + 1) s =
          env.closureRound app op s >>= env.closureLoop app op fuel := by
        intro fuel
        rw [closureLoop, if_neg (by simp [hwork])]
      -- the rounds that follow come to an end
      have hnext : ∀ s', env.closureRound app op s = .ok s' →
          ∃ N, ∀ fuel, N ≤ fuel → env.closureLoop app op fuel s' ≠ .diverge := by
        intro s' hs'
        have hcomes : env.ComesTo app op startSet s' := hs.tail hs'
        have hle := hcomes.length_res_le hS
        rw [hwork, List.length_cons] at hl
        rcases closureRound_cases hwork hs.inv.sorted hs' with ⟨-, rfl⟩ | ⟨-, doneKeys, -, -, rfl⟩
        · exact ihl _ hcomes hm (Nat.succ.inj hl)
        · rw [List.length_append, List.length_singleton] at hle
          exact ihm _ (by rw [List.length_append, List.length_singleton]; omega) _ _ hcomes rfl rfl
      rcases hs' : env.closureRound app op s with s' | err | _
      · obtain ⟨N, hN⟩ := hnext s' hs'
        refine ⟨N + 1, fun fuel hfuel => ?_⟩
        obtain ⟨k, rfl⟩ : ∃ k, fuel = k + 1 := ⟨fuel - 1, by omega⟩
        rw [hloop, hs', Outcome.ok_bind]
        exact hN k (by omega)
      · refine ⟨1, fun fuel hfuel => ?_⟩
        obtain ⟨k, rfl⟩ : ∃ k, fuel = k + 1 := ⟨fuel - 1, by omega⟩
        rw [hloop, hs', Outcome.error_bind]
        exact fun h => by cases h
      · exact absurd hs' (hround s hs)

/-- Whenever `genericClosure` returns, the keys of the result are different and they are the least
closed set of keys; of the elements that are found, the start set first and then what the operator
makes of the elements of the result one after the other, the result has the first with each key, in
this order.  It comes to an end if some closed set of keys is finite and no round hangs. -/
theorem genericClosure_spec {v : α} {startSet : List α}
    (hargs : env.closureArgs v = .ok (startSet, op)) :
    (∀ fuel res, env.primGenericClosure app fuel v = .ok res →
      (res.map env.keyOf).Nodup ∧
      IsLeast {S | env.KeysClosed app op startSet S} {k | k ∈ res.map env.keyOf} ∧
      res = firstByKey env.keyOf (startSet ++ res.flatMap (env.results app op)) ∧
      ∀ e, e ∈ res ↔ ∃ s, env.ComesTo app op startSet s ∧ e ∈ s.res) ∧
    ((∃ S : Set (ℕ ×ₗ ℤ ×ₗ Str), S.Finite ∧ env.KeysClosed app op startSet S) →
      (∀ s, env.ComesTo app op startSet s → env.closureRound app op s ≠ .diverge) →
      ∃ N, ∀ fuel, N ≤ fuel → env.primGenericClosure app fuel v ≠ .diverge) := by
  have hprim : ∀ fuel, env.primGenericClosure app fuel v =
      env.closureLoop app op fuel ⟨startSet, [], []⟩ := by
    intro fuel
    rw [primGenericClosure, hargs]
    rfl
  refine ⟨fun fuel res h => ?_, fun hfin hround => ?_⟩
  · rw [hprim] at h
    obtain ⟨s, hs, hend, rfl⟩ := closureLoop_eq_ok .refl h
    obtain ⟨processed, hfound, hres⟩ := hs.inv.found
    rw [hend, List.append_nil] at hfound
    have hfirst : s.res = firstByKey env.keyOf (startSet ++ s.res.flatMap (env.results app op)) := by
      rw [hfound, hres]
    -- every element that is found has a key of the result
    have hkey : ∀ x ∈ startSet ++ s.res.flatMap (env.results app op),
        env.keyOf x ∈ s.res.map env.keyOf := by
      intro x hx
      rw [hres, mem_map_firstByKey, ← hfound]
      exact List.mem_map_of_mem hx
    refine ⟨?_, ⟨⟨fun e he => hkey e (List.mem_append_left _ he), ?_⟩, ?_⟩, hfirst, ?_⟩
    · rw [hfirst]
      exact nodup_firstByKey _
    · intro s' hs' e he _ x hx
      exact hkey x (List.mem_append_right _ (List.mem_flatMap.mpr
        ⟨e, res_subset_of_workSet_eq_nil hs' hs hend he, hx⟩))
    · intro S hS k hk
      obtain ⟨e, he, rfl⟩ := List.mem_map.mp hk
      exact (hS.of_comesTo hs).1 e he
    · exact fun e => ⟨fun he => ⟨s, hs, he⟩, fun ⟨s', hs', he⟩ =>
        res_subset_of_workSet_eq_nil hs' hs hend he⟩
  · obtain ⟨S, hfin, hS⟩ := hfin
    obtain ⟨N, hN⟩ := closureLoop_ne_diverge (S := hfin.toFinset) (by simpa using hS) hround _ _ _
      .refl rfl rfl
    exact ⟨N, fun fuel hfuel => by rw [hprim]; exact hN fuel hfuel⟩

end EvalEnv

/-! ### An example -/

/-- Cells 10, 11 and 12 with the elements of a cycle, 20, 21 and 22 with their keys, and 30, 31 and 32
with what the operator makes of them: the next element, twice. -/
def cycleSample : EvalEnv ℕ where
  forceValue
    | 0 => .ok (.tAttrs [⟨str "operator", 2, ⟨[], 0, 0⟩⟩, ⟨str "startSet", 1, ⟨[], 0, 0⟩⟩])
    | 1 => .ok (.tList [10])
    | 2 => .ok (.tLambda ⟨⟨[], 0, 0⟩, false, str "x", false, []⟩)
    | 10 => .ok (.tAttrs [⟨str "key", 20, ⟨[], 0, 0⟩⟩])
    | 11 => .ok (.tAttrs [⟨str "key", 21, ⟨[], 0, 0⟩⟩])
    | 12 => .ok (.tAttrs [⟨str "key", 22, ⟨[], 0, 0⟩⟩])
    | 30 => .ok (.tList [11, 11])
    | 31 => .ok (.tList [12, 12])
    | 32 => .ok (.tList [10, 10])
    | n => .ok (.tInt n)
  hashPath _ := .diverge

/-- The specification at a cycle of three elements. -/
theorem genericClosure_spec_sample :
    cycleSample.primGenericClosure (fun _ e => e + 20) 8 0 = .ok [10, 11, 12] ∧
      IsLeast {S | cycleSample.KeysClosed (fun _ e => e + 20) 2 [10] S}
        {k | k ∈ [10, 11, 12].map cycleSample.keyOf} := by
  have h : cycleSample.primGenericClosure (fun _ e => e + 20) 8 0 = .ok [10, 11, 12] := by decide
  have hspec := @EvalEnv.genericClosure_spec _ cycleSample (fun _ e => e + 20) 2 0 [10] rfl
  exact ⟨h, (hspec.1 8 _ h).2.1⟩

end Nix
