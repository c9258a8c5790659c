import NixStore.Expr.ValueToXml

/-!
# Searching an expression for derivations

Model of `get-drvs.cc` and of `autoCallFunction`.  The search threads the derivations that were found
and the addresses of their attribute sets through; its recursion is bounded by an argument.  Next to
the printed path the model keeps the steps that were taken to a place, the attribute names and list
indices before they are printed; an address is given to every place, because a function that is
called twice makes two sets.

`Leads` says where the steps end, when functions are called on the way, and `reports_of_getDerivations`
says that every derivation is found at a place of its own, that its steps lead to it, and that its
attribute path is what they print.
-/

namespace Nix

/-- A step on the way to a derivation. -/
inductive PathStep where
  | attr (name : Str)
  | elem (n : ℕ)
deriving DecidableEq

/-- How a step is printed. -/
def PathStep.text : PathStep → Str
  | .attr name => name
  | .elem n => decimal n

/-- What a search for derivations depends on. -/
structure DrvsEnv (α : Type) extends EvalEnv α where
  /-- Which exceptions of the evaluation, given by their messages, are `AssertionError`s. -/
  isAssertionError : Str → Bool
  /-- Whether a formal argument has a default value. -/
  hasDefault : ExprLambda → Str → Bool
  /-- What `callFunction` returns for a function and a set of arguments. -/
  callFunction : α → List (Attr α) → Outcome Str (Value α)
  /-- The address of the attribute set at a place. -/
  bindings : List PathStep → ℕ

/-- Model of `DrvInfo`, as far as `getDerivation` fills it in. -/
structure FoundDrv (α : Type) where
  name : Str
  system : Str
  attrs : List (Attr α)
  attrPath : Str
  /-- Where the derivation was found. -/
  place : List PathStep
deriving DecidableEq

/-- The state of a search: `drvs` and `done`. -/
structure DrvsState (α : Type) where
  drvs : List (FoundDrv α)
  done : SortedSet ℕ

/-- Model of `addToPath`. -/
def addToPath (s1 s2 : Str) : Str := if s1 = [] then s2 else s1 ++ str "." ++ s2

/-- The attribute path of a place. -/
def printSteps (place : List PathStep) : Str :=
  place.foldl (fun s step => addToPath s step.text) []

/-- One more step at the end of a path. -/
theorem printSteps_concat (place : List PathStep) (step : PathStep) :
    printSteps (place ++ [step]) = addToPath (printSteps place) step.text := by
  simp [printSteps]

namespace DrvsEnv

variable {α : Type} (env : DrvsEnv α) (autoArgs : List (Attr α)) (ignoreAssertionFailures : Bool)

/-! ### Calling functions -/

/-- The loop of `autoCallFunction` over the formal arguments. -/
def actualArgs (fn : ExprLambda) : List Str → Outcome Str (List (Attr α))
  | [] => return []
  | i :: formals =>
    match findAttr autoArgs i with
    | some j => do
      let args ← actualArgs fn formals
      return j :: args
    | none =>
      if env.hasDefault fn i then actualArgs fn formals
      else .error (str "cannot auto-call a function that has an argument without a default value (`"
        ++ i ++ str "')")

/-- Model of `autoCallFunction`. -/
def autoCallFunction (v : α) : Outcome Str (Value α) := do
  match ← env.forceValue v with
  | .tLambda fn =>
    if fn.matchAttrs then do
      let args ← env.actualArgs autoArgs fn fn.formals
      env.callFunction v args
    else return .tLambda fn
  | w => return w

/-- What is not a function is not called. -/
theorem autoCallFunction_of_forceValue {v : α} {attrs : List (Attr α)}
    (h : env.forceValue v = .ok (.tAttrs attrs)) :
    env.autoCallFunction autoArgs v = .ok (.tAttrs attrs) := by
  simp [autoCallFunction, h]

/-! ### Searching -/

/-- A step of the `try` block of `getDerivation`, and its `catch` clause. -/
def catching {β : Type} (x : Outcome Str β) (st : DrvsState α)
    (k : β → Outcome Str (Bool × DrvsState α)) : Outcome Str (Bool × DrvsState α) :=
  match x with
  | .ok b => k b
  | .error e =>
    if env.isAssertionError e && ignoreAssertionFailures then return (false, st) else .error e
  | .diverge => .diverge

/-- Model of `isDerivation` in `getDerivation`: the attributes of the derivation, if it is one. -/
def derivationAttrs : Value α → Outcome Str (Option (List (Attr α)))
  | .tAttrs attrs => do
    if ← env.isDerivation attrs then return some attrs else return none
  | _ => return none

/-- The name of the system of a derivation. -/
def querySystem (attrs : List (Attr α)) : Outcome Str Str :=
  match findAttr attrs (str "system") with
  | none => return str "unknown"
  | some i2 => env.forceStringNoCtx i2.value

/-- Model of `getDerivation` for what `forceValue` leaves in a cell. -/
def getDerivation (v : Outcome Str (Value α)) (attrPath : Str) (place : List PathStep)
    (st : DrvsState α) : Outcome Str (Bool × DrvsState α) :=
  env.catching ignoreAssertionFailures (v >>= env.derivationAttrs) st fun
    | none => return (true, st)
    | some attrs =>
      if env.bindings place ∈ st.done then return (false, st)
      else
        let st := { st with done := st.done.insert (env.bindings place) }
        match findAttr attrs (str "name") with
        | none => .error (str "derivation name missing")
        | some i =>
          env.catching ignoreAssertionFailures (env.forceStringNoCtx i.value) st fun name =>
            env.catching ignoreAssertionFailures (env.querySystem attrs) st fun system =>
              return (false, { st with drvs := st.drvs ++ [⟨name, system, attrs, attrPath, place⟩] })

/-- The body of the loop of `getDerivations` over the attributes. -/
def searchAttr (recurse : α → Str → List PathStep → DrvsState α → Outcome Str (DrvsState α))
    (combineChannels : Bool) (pathPrefix : Str) (place : List PathStep) (st : DrvsState α)
    (i : Attr α) : Outcome Str (DrvsState α) :=
  let pathPrefix2 := addToPath pathPrefix i.name
  let place2 := place ++ [.attr i.name]
  if combineChannels then recurse i.value pathPrefix2 place2 st
  else do
    let (again, st) ←
      env.getDerivation ignoreAssertionFailures (env.forceValue i.value) pathPrefix2 place2 st
    if again then
      match ← env.forceValue i.value with
      | .tAttrs attrs =>
        match findAttr attrs (str "recurseForDerivations") with
        | none => return st
        | some j => do
          if ← env.forceBool j.value then recurse i.value pathPrefix2 place2 st else return st
      | _ => return st
    else return st

/-- The body of the loop of `getDerivations` over the elements of a list. -/
def searchElem (recurse : α → Str → List PathStep → DrvsState α → Outcome Str (DrvsState α))
    (pathPrefix : Str) (place : List PathStep) (st : DrvsState α) (i : α × ℕ) :
    Outcome Str (DrvsState α) := do
  let pathPrefix2 := addToPath pathPrefix (decimal i.2)
  let place2 := place ++ [.elem i.2]
  let (again, st) ←
    env.getDerivation ignoreAssertionFailures (env.forceValue i.1) pathPrefix2 place2 st
  if again then recurse i.1 pathPrefix2 place2 st else return st

/-- Model of `getDerivations`. -/
def getDerivations : ℕ → α → Str → List PathStep → DrvsState α → Outcome Str (DrvsState α)
  | 0, _, _, _, _ => .diverge
  | fuel + 1, vIn, pathPrefix, place, st => do
    let v ← env.autoCallFunction autoArgs vIn
    let (again, st) ← env.getDerivation ignoreAssertionFailures (.ok v) pathPrefix place st
    if again then
      match v with
      | .tAttrs attrs =>
        let combineChannels := (findAttr attrs (str "_combineChannels")).isSome
        (attrsByName attrs).foldlM (env.searchAttr ignoreAssertionFailures (getDerivations fuel)
          combineChannels pathPrefix place) st
      | .tList elems =>
        elems.zipIdx.foldlM (env.searchElem ignoreAssertionFailures (getDerivations fuel)
          pathPrefix place) st
      | _ => .error (str "expression does not evaluate to a derivation (or a set or list of those)")
    else return st

/-- Model of `getDerivations` on a whole expression, with an empty prefix. -/
def findDerivations (fuel : ℕ) (v : α) : Outcome Str (List (FoundDrv α)) := do
  let st ← env.getDerivations autoArgs ignoreAssertionFailures fuel v [] [] ⟨[], ∅⟩
  return st.drvs

/-! ### Where the derivations are -/

/-- The steps lead from a cell to a set: a function is called at the cell and before each step. -/
inductive Leads : α → List PathStep → List (Attr α) → Prop
  | here {v : α} {attrs : List (Attr α)} (hv : env.autoCallFunction autoArgs v = .ok (.tAttrs attrs)) :
    Leads v [] attrs
  | attr {v : α} {attrs target : List (Attr α)} {name : Str} {a : Attr α} {steps : List PathStep}
    (hv : env.autoCallFunction autoArgs v = .ok (.tAttrs attrs)) (ha : findAttr attrs name = some a)
    (hsteps : Leads a.value steps target) : Leads v (.attr name :: steps) target
  | elem {v c : α} {elems : List α} {target : List (Attr α)} {n : ℕ} {steps : List PathStep}
    (hv : env.autoCallFunction autoArgs v = .ok (.tList elems)) (hc : elems[n]? = some c)
    (hsteps : Leads c steps target) : Leads v (.elem n :: steps) target

/-- What is found from a cell at a place, by steps that are among `ways`. -/
structure Reports (v : α) (place : List PathStep) (ways : Set (List PathStep))
    (drvs : List (FoundDrv α)) : Prop where
  leads : ∀ d ∈ drvs, ∃ steps ∈ ways, d.place = place ++ steps ∧ env.Leads autoArgs v steps d.attrs
  printed : ∀ d ∈ drvs, d.attrPath = printSteps d.place
  distinct : drvs.Pairwise fun d d' => d.place ≠ d'.place

variable {env autoArgs ignoreAssertionFailures} {v : α} {place : List PathStep}
  {drvs : List (FoundDrv α)} {st st' : DrvsState α}

namespace Reports

variable {ways ways' : Set (List PathStep)}

/-- No derivations are reported by any ways. -/
theorem nil : env.Reports autoArgs v place ways [] :=
  ⟨by simp, by simp, List.Pairwise.nil⟩

/-- More ways report as much. -/
theorem mono (h : env.Reports autoArgs v place ways drvs) (hways : ways ⊆ ways') :
    env.Reports autoArgs v place ways' drvs := by
  refine ⟨fun d hd => ?_, h.printed, h.distinct⟩
  obtain ⟨steps, hsteps, hplace, hleads⟩ := h.leads d hd
  exact ⟨steps, hways hsteps, hplace, hleads⟩

/-- What is found by different ways is found at different places. -/
theorem append {drvs' : List (FoundDrv α)} (h : env.Reports autoArgs v place ways drvs)
    (h' : env.Reports autoArgs v place ways' drvs') (hways : Disjoint ways ways') :
    env.Reports autoArgs v place (ways ∪ ways') (drvs ++ drvs') := by
  refine ⟨fun d hd => ?_, fun d hd => ?_, ?_⟩
  · rcases List.mem_append.mp hd with hd | hd
    · exact (h.mono Set.subset_union_left).leads d hd
    · exact (h'.mono Set.subset_union_right).leads d hd
  · rcases List.mem_append.mp hd with hd | hd
    · exact h.printed d hd
    · exact h'.printed d hd
  · refine List.pairwise_append.mpr ⟨h.distinct, h'.distinct, fun d hd d' hd' heq => ?_⟩
    obtain ⟨steps, hsteps, hplace, -⟩ := h.leads d hd
    obtain ⟨steps', hsteps', hplace', -⟩ := h'.leads d' hd'
    have hsame : steps = steps' := by
      rw [hplace, hplace'] at heq
      exact List.append_cancel_left heq
    exact Set.disjoint_left.mp hways hsteps (hsame ▸ hsteps')

/-- What is found one step further. -/
theorem step {c : α} {s : PathStep} (h : env.Reports autoArgs c (place ++ [s]) Set.univ drvs)
    (hs : ∀ {steps : List PathStep} {target : List (Attr α)}, env.Leads autoArgs c steps target →
      env.Leads autoArgs v (s :: steps) target) :
    env.Reports autoArgs v place {steps | ∃ rest, steps = s :: rest} drvs := by
  refine ⟨fun d hd => ?_, h.printed, h.distinct⟩
  obtain ⟨steps, -, hplace, hleads⟩ := h.leads d hd
  exact ⟨s :: steps, ⟨steps, rfl⟩, by simpa using hplace, hs hleads⟩

end Reports

/-- The catch clause either lets the block go on, or ends the call with nothing found. -/
theorem catching_eq_ok {β : Type} {x : Outcome Str β} {k : β → Outcome Str (Bool × DrvsState α)}
    {again : Bool} (h : env.catching ignoreAssertionFailures x st k = .ok (again, st')) :
    (∃ b, x = .ok b ∧ k b = .ok (again, st')) ∨ (again = false ∧ st' = st) := by
  unfold catching at h
  split at h
  · exact Or.inl ⟨_, rfl, h⟩
  · split_ifs at h
    cases h
    exact Or.inr ⟨rfl, rfl⟩
  · cases h

/-- Only a set is a derivation. -/
theorem derivationAttrs_eq_some {w : Value α} {attrs : List (Attr α)}
    (h : env.derivationAttrs w = .ok (some attrs)) : w = .tAttrs attrs := by
  unfold derivationAttrs at h
  split at h
  · obtain ⟨isDrv, -, h⟩ := Outcome.bind_eq_ok.mp h
    split_ifs at h
    · cases h
      rfl
    · cases h
  · cases h

/-- What `getDerivation` can do: ask for a search, find nothing, or find the set itself. -/
theorem getDerivation_cases {w : Outcome Str (Value α)} {attrPath : Str} {again : Bool}
    (h : env.getDerivation ignoreAssertionFailures w attrPath place st = .ok (again, st')) :
    (again = true ∧ st' = st) ∨ (again = false ∧ st'.drvs = st.drvs) ∨
      (again = false ∧ ∃ name system attrs, w = .ok (.tAttrs attrs) ∧
        st'.drvs = st.drvs ++ [⟨name, system, attrs, attrPath, place⟩]) := by
  unfold getDerivation at h
  rcases catching_eq_ok h with ⟨found, hfound, h⟩ | ⟨hagain, rfl⟩
  swap
  · exact Or.inr (Or.inl ⟨hagain, rfl⟩)
  cases found with
  | none =>
    cases h
    exact Or.inl ⟨rfl, rfl⟩
  | some attrs =>
    dsimp only at h
    split_ifs at h with hdone
    · cases h
      exact Or.inr (Or.inl ⟨rfl, rfl⟩)
    cases hname : findAttr attrs (str "name") with
    | none =>
      rw [hname] at h
      cases h
    | some i =>
      rw [hname] at h
      rcases catching_eq_ok h with ⟨name, -, h⟩ | ⟨hagain, rfl⟩
      swap
      · exact Or.inr (Or.inl ⟨hagain, rfl⟩)
      rcases catching_eq_ok h with ⟨system, -, h⟩ | ⟨hagain, rfl⟩
      swap
      · exact Or.inr (Or.inl ⟨hagain, rfl⟩)
      cases h
      obtain ⟨value, hvalue, hattrs⟩ := Outcome.bind_eq_ok.mp hfound
      rw [derivationAttrs_eq_some hattrs] at hvalue
      exact Or.inr (Or.inr ⟨rfl, name, system, attrs, hvalue, rfl⟩)

/-- What one call of `getDerivation` finds. -/
theorem reports_of_getDerivation {w : Outcome Str (Value α)} {again : Bool}
    (hw : ∀ attrs, w = .ok (.tAttrs attrs) → env.autoCallFunction autoArgs v = .ok (.tAttrs attrs))
    (h : env.getDerivation ignoreAssertionFailures w (printSteps place) place st =
      .ok (again, st')) :
    (again = true → st' = st) ∧
      ∃ drvs, st'.drvs = st.drvs ++ drvs ∧ env.Reports autoArgs v place Set.univ drvs := by
  rcases getDerivation_cases h with ⟨-, rfl⟩ | ⟨rfl, hst⟩ | ⟨rfl, name, system, attrs, hattrs, hst⟩
  · exact ⟨fun _ => rfl, [], by simp, Reports.nil⟩
  · exact ⟨by simp, [], by simp [hst], Reports.nil⟩
  · refine ⟨by simp, _, hst, ?_, by simp, List.pairwise_singleton _ _⟩
    rintro d hd
    rw [List.mem_singleton] at hd
    subst hd
    exact ⟨[], trivial, by simp, Leads.here (hw attrs hattrs)⟩

/-- A loop of searches, each behind a step of its own. -/
theorem reports_of_foldlM {β : Type} {f : DrvsState α → β → Outcome Str (DrvsState α)}
    {stepOf : β → PathStep} {items : List β} (hnodup : (items.map stepOf).Nodup)
    (hf : ∀ st, ∀ i ∈ items, ∀ st', f st i = .ok st' → ∃ drvs, st'.drvs = st.drvs ++ drvs ∧
      env.Reports autoArgs v place {steps | ∃ rest, steps = stepOf i :: rest} drvs)
    (h : items.foldlM f st = .ok st') : ∃ drvs, st'.drvs = st.drvs ++ drvs ∧
      env.Reports autoArgs v place {steps | ∃ i ∈ items, ∃ rest, steps = stepOf i :: rest} drvs := by
  induction items generalizing st with
  | nil =>
    cases h
    exact ⟨[], by simp, Reports.nil⟩
  | cons i items ih =>
    rw [List.foldlM_cons] at h
    obtain ⟨st₁, hst₁, h⟩ := Outcome.bind_eq_ok.mp h
    rw [List.map_cons, List.nodup_cons] at hnodup
    obtain ⟨drvs, hdrvs, hreports⟩ := hf st i List.mem_cons_self st₁ hst₁
    obtain ⟨drvs', hdrvs', hreports'⟩ :=
      ih hnodup.2 (fun st j hj => hf st j (List.mem_cons_of_mem i hj)) h
    refine ⟨drvs ++ drvs', by rw [hdrvs', hdrvs, List.append_assoc], ?_⟩
    refine (hreports.append hreports' (Set.disjoint_left.mpr ?_)).mono ?_
    · rintro _ ⟨rest, rfl⟩ ⟨j, hj, rest', heq⟩
      rw [List.cons.injEq] at heq
      exact hnodup.1 (heq.1 ▸ List.mem_map_of_mem hj)
    · rintro steps (⟨rest, rfl⟩ | ⟨j, hj, hrest⟩)
      · exact ⟨i, List.mem_cons_self, rest, rfl⟩
      · exact ⟨j, List.mem_cons_of_mem i hj, hrest⟩

/-- An attribute that is visited is the one that its name selects. -/
theorem findAttr_of_mem_attrsByName {attrs : List (Attr α)} {a : Attr α}
    (h : a ∈ attrsByName attrs) : findAttr attrs a.name = some a := by
  obtain ⟨name, -, ha⟩ := List.mem_filterMap.mp h
  rw [(mem_of_findAttr ha).2, ha]

/-- No attribute name is visited twice. -/
theorem nodup_attrsByName (attrs : List (Attr α)) :
    ((attrsByName attrs).map fun a => PathStep.attr a.name).Nodup := by
  have hnodup : (attrsByName attrs).Nodup := by
    refine List.Nodup.filterMap (fun name name' a ha ha' => ?_) (SortedMap.keys_nodup _)
    exact (mem_of_findAttr ha).2.symm.trans (mem_of_findAttr ha').2
  refine hnodup.map_on fun a ha b hb heq => ?_
  have hname : a.name = b.name := PathStep.attr.inj heq
  have hfind := findAttr_of_mem_attrsByName ha
  rw [hname, findAttr_of_mem_attrsByName hb] at hfind
  exact (Option.some.inj hfind).symm

section

variable {recurse : α → Str → List PathStep → DrvsState α → Outcome Str (DrvsState α)}

/-- What a round of the loop over the attributes finds, given what the recursion finds. -/
theorem reports_of_searchAttr {attrs : List (Attr α)} {i : Attr α} {combineChannels : Bool}
    (hv : env.autoCallFunction autoArgs v = .ok (.tAttrs attrs))
    (hi : findAttr attrs i.name = some i)
    (hrecurse : ∀ {st st'}, recurse i.value (printSteps (place ++ [.attr i.name]))
      (place ++ [.attr i.name]) st = .ok st' → ∃ drvs, st'.drvs = st.drvs ++ drvs ∧
        env.Reports autoArgs i.value (place ++ [.attr i.name]) Set.univ drvs)
    (h : env.searchAttr ignoreAssertionFailures recurse combineChannels (printSteps place) place st i =
      .ok st') :
    ∃ drvs, st'.drvs = st.drvs ++ drvs ∧ env.Reports autoArgs v place
      {steps | ∃ rest, steps = .attr i.name :: rest} drvs := by
  have hpath : addToPath (printSteps place) i.name = printSteps (place ++ [.attr i.name]) :=
    (printSteps_concat place (.attr i.name)).symm
  have hstep : ∀ {drvs}, env.Reports autoArgs i.value (place ++ [.attr i.name]) Set.univ drvs →
      env.Reports autoArgs v place {steps | ∃ rest, steps = .attr i.name :: rest} drvs :=
    fun hreports => hreports.step (Leads.attr hv hi)
  simp only [searchAttr, hpath] at h
  split_ifs at h with hcombine
  · obtain ⟨drvs, hdrvs, hreports⟩ := hrecurse h
    exact ⟨drvs, hdrvs, hstep hreports⟩
  obtain ⟨⟨again, st₁⟩, hst₁, hrest⟩ := Outcome.bind_eq_ok.mp h
  obtain ⟨hsame, drvs, hdrvs, hreports⟩ := reports_of_getDerivation
    (fun attrs hattrs => env.autoCallFunction_of_forceValue autoArgs hattrs) hst₁
  cases again with
  | false =>
    cases hrest
    exact ⟨drvs, hdrvs, hstep hreports⟩
  | true =>
    obtain rfl := hsame rfl
    have hnothing : ∃ drvs, st₁.drvs = st₁.drvs ++ drvs ∧ env.Reports autoArgs v place
        {steps | ∃ rest, steps = .attr i.name :: rest} drvs := ⟨[], by simp, Reports.nil⟩
    obtain ⟨w, -, hw⟩ := Outcome.bind_eq_ok.mp hrest
    cases w with
    | tAttrs attrs =>
      dsimp only at hw
      cases hj : findAttr attrs (str "recurseForDerivations") with
      | none =>
        rw [hj] at hw
        cases hw
        exact hnothing
      | some j =>
        rw [hj] at hw
        obtain ⟨b, -, hb⟩ := Outcome.bind_eq_ok.mp hw
        split_ifs at hb
        · obtain ⟨drvs, hdrvs, hreports⟩ := hrecurse hb
          exact ⟨drvs, hdrvs, hstep hreports⟩
        · cases hb
          exact hnothing
    | _ =>
      cases hw
      exact hnothing

/-- What a round of the loop over the elements of a list finds, given what the recursion finds. -/
theorem reports_of_searchElem {elems : List α} {i : α × ℕ}
    (hv : env.autoCallFunction autoArgs v = .ok (.tList elems)) (hi : elems[i.2]? = some i.1)
    (hrecurse : ∀ {st st'}, recurse i.1 (printSteps (place ++ [.elem i.2])) (place ++ [.elem i.2])
      st = .ok st' → ∃ drvs, st'.drvs = st.drvs ++ drvs ∧
        env.Reports autoArgs i.1 (place ++ [.elem i.2]) Set.univ drvs)
    (h : env.searchElem ignoreAssertionFailures recurse (printSteps place) place st i = .ok st') :
    ∃ drvs, st'.drvs = st.drvs ++ drvs ∧ env.Reports autoArgs v place
      {steps | ∃ rest, steps = .elem i.2 :: rest} drvs := by
  have hpath : addToPath (printSteps place) (decimal i.2) = printSteps (place ++ [.elem i.2]) :=
    (printSteps_concat place (.elem i.2)).symm
  have hstep : ∀ {drvs}, env.Reports autoArgs i.1 (place ++ [.elem i.2]) Set.univ drvs →
      env.Reports autoArgs v place {steps | ∃ rest, steps = .elem i.2 :: rest} drvs :=
    fun hreports => hreports.step (Leads.elem hv hi)
  simp only [searchElem, hpath] at h
  obtain ⟨⟨again, st₁⟩, hst₁, hrest⟩ := Outcome.bind_eq_ok.mp h
  obtain ⟨hsame, drvs, hdrvs, hreports⟩ := reports_of_getDerivation
    (fun attrs hattrs => env.autoCallFunction_of_forceValue autoArgs hattrs) hst₁
  cases again with
  | false =>
    cases hrest
    exact ⟨drvs, hdrvs, hstep hreports⟩
  | true =>
    obtain rfl := hsame rfl
    obtain ⟨drvs, hdrvs, hreports⟩ := hrecurse hrest
    exact ⟨drvs, hdrvs, hstep hreports⟩

end

/-- Each derivation is found at a place of its own, to which its steps lead and which its attribute
path prints. -/
theorem reports_of_getDerivations {fuel : ℕ}
    (h : env.getDerivations autoArgs ignoreAssertionFailures fuel v (printSteps place) place st =
      .ok st') :
    ∃ drvs, st'.drvs = st.drvs ++ drvs ∧ env.Reports autoArgs v place Set.univ drvs := by
  induction fuel generalizing v place st st' with
  | zero => cases h
  | succ fuel ih =>
    rw [getDerivations] at h
    obtain ⟨w, hw, h⟩ := Outcome.bind_eq_ok.mp h
    obtain ⟨⟨again, st₁⟩, hst₁, hrest⟩ := Outcome.bind_eq_ok.mp h
    obtain ⟨hsame, hfound⟩ := reports_of_getDerivation
      (fun attrs hattrs => hw.trans (congrArg Outcome.ok (Outcome.ok.inj hattrs))) hst₁
    cases again with
    | false =>
      cases hrest
      exact hfound
    | true =>
      obtain rfl := hsame rfl
      cases w with
      | tAttrs attrs =>
        obtain ⟨drvs, hdrvs, hreports⟩ := reports_of_foldlM (nodup_attrsByName attrs)
          (fun st i hi st' hst' => reports_of_searchAttr hw (findAttr_of_mem_attrsByName hi)
            (fun hst' => ih hst') hst') hrest
        exact ⟨drvs, hdrvs, hreports.mono (Set.subset_univ _)⟩
      | tList elems =>
        have hnodup : (elems.zipIdx.map fun i => PathStep.elem i.2).Nodup := by
          have hsnd := List.nodup_range' (s := 0) (n := elems.length)
          rw [← List.zipIdx_map_snd] at hsnd
          exact (List.pairwise_map.mp hsnd).map _ fun i j hij heq => hij (PathStep.elem.inj heq)
        obtain ⟨drvs, hdrvs, hreports⟩ := reports_of_foldlM hnodup
          (fun st i hi st' hst' => reports_of_searchElem hw (List.mem_zipIdx_iff_getElem?.mp hi)
            (fun hst' => ih hst') hst') hrest
        exact ⟨drvs, hdrvs, hreports.mono (Set.subset_univ _)⟩
      | _ => cases hrest

end DrvsEnv

end Nix
