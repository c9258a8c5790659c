import NixStore.Expr.GetDrvs
import NixStore.Derivations.OutputRequests

/-!
# Attribute paths

Model of `attr-path.cc`, and how it fits with the attribute paths under which `getDerivations` reports
derivations.  A path is cut at its dots, and a piece that reads as a number is an index, so the steps
of a way are found again exactly when they are `Selectable`: a name is not empty, has no dot and does
not read as a number, and an index is an `int`.
-/

namespace Nix

namespace DrvsEnv

variable {α : Type} (env : DrvsEnv α) (autoArgs : List (Attr α))

/-- The body of the loop of `findAlongAttrPath`, for the token `attr` at the end of `curPath`. -/
def selectToken (curPath attr : Str) (v : α) : Outcome Str α := do
  let v ← env.autoCallFunction autoArgs v
  match string2Int attr with
  | none =>
    match v with
    | .tAttrs attrs =>
      match findAttr attrs attr with
      | some a => return a.value
      | none =>
        .error (str "attribute `" ++ attr ++ str "' in selection path `" ++ curPath ++ str "' not found")
    | v => .error (str "the expression selected by the selection path `" ++ curPath ++
        str "' should be an attribute set but is " ++ showType v)
  | some attrIndex =>
    match v with
    | .tList elems =>
      -- the comparison with the length is unsigned, so that a negative index is out of range
      match if attrIndex < 0 then none else elems[attrIndex.toNat]? with
      | some c => return c
      | none =>
        .error (str "list index " ++ int2String attrIndex ++ str " in selection path `" ++ curPath ++
          str "' is out of range")
    | v => .error (str "the expression selected by the selection path `" ++ curPath ++
        str "' should be a list but is " ++ showType v)

/-- The loop of `findAlongAttrPath`. -/
def findAlongTokens : Str → List Str → α → Outcome Str α
  | _, [], v => return v
  | curPath, attr :: tokens, v => do
    let curPath := (if curPath = [] then [] else curPath ++ str ".") ++ attr
    let v ← env.selectToken autoArgs curPath attr v
    findAlongTokens curPath tokens v

/-- Model of `findAlongAttrPath`. -/
def findAlongAttrPath (attrPath : Str) (e : α) : Outcome Str α :=
  env.findAlongTokens autoArgs [] (tokenizeString attrPath (str ".")) e

/-- The attribute path of a derivation selects its set of attributes, when a function is called. -/
def Selects (e : α) (d : FoundDrv α) : Prop :=
  ∃ c, env.findAlongAttrPath autoArgs d.attrPath e = .ok c ∧
    env.autoCallFunction autoArgs c = .ok (.tAttrs d.attrs)

/-- The attribute paths of the derivations that are found by some steps select them, and are all
different. -/
def PathsSelect (steps : Set PathStep) (e : α) (drvs : List (FoundDrv α)) : Prop :=
  (∀ d ∈ drvs, (∀ s ∈ d.place, s ∈ steps) → env.Selects autoArgs e d) ∧
    drvs.Pairwise fun d d' => (∀ s ∈ d.place, s ∈ steps) → (∀ s ∈ d'.place, s ∈ steps) →
      d.attrPath ≠ d'.attrPath

end DrvsEnv

/-! ### Paths and their pieces -/

/-- A step that is found again in an attribute path. -/
def PathStep.Selectable : PathStep → Prop
  | .attr name => name ≠ [] ∧ '.'.toUInt8 ∉ name ∧ string2Int name = none
  | .elem n => n < 2 ^ 31

namespace PathStep.Selectable

variable {step step' : PathStep}

/-- The text of a step is a piece. -/
theorem text_spec (h : step.Selectable) : step.text ≠ [] ∧ '.'.toUInt8 ∉ step.text := by
  cases step with
  | attr name => exact ⟨h.1, h.2.1⟩
  | elem n => exact ⟨(decimal_spec n).1, notMem_decimal (by decide) n⟩

/-- Steps that can be selected differ in their texts. -/
theorem text_injective (h : step.Selectable) (h' : step'.Selectable)
    (heq : step.text = step'.text) : step = step' := by
  cases step with
  | attr name =>
    cases step' with
    | attr name' => exact congrArg PathStep.attr heq
    | elem n =>
      have hnone := h.2.2
      rw [show name = decimal n from heq, string2Int_decimal,
        if_pos (show n < 2 ^ 31 from h')] at hnone
      cases hnone
  | elem n =>
    cases step' with
    | attr name' =>
      have hnone := h'.2.2
      rw [← show decimal n = name' from heq, string2Int_decimal,
        if_pos (show n < 2 ^ 31 from h)] at hnone
      cases hnone
    | elem n' => exact congrArg PathStep.elem (decimal_injective heq)

end PathStep.Selectable

/-- An attribute path is made of the texts of its steps, with dots between them. -/
theorem printSteps_eq (place : List PathStep) :
    printSteps place = concatStringsSep (str ".") (place.map PathStep.text) := by
  rw [printSteps, concatStringsSep, List.foldl_map]
  congr 1
  funext s step
  unfold addToPath
  by_cases h : s = [] <;> simp [h]

/-- The tokens of an attribute path are the texts of its steps. -/
theorem tokenizeString_printSteps {place : List PathStep} (h : ∀ s ∈ place, s.Selectable) :
    tokenizeString (printSteps place) (str ".") = place.map PathStep.text := by
  have hdot : str "." = ['.'.toUInt8] := rfl
  rw [printSteps_eq, hdot]
  refine tokenizeString_concatStringsSep fun i hi => ?_
  obtain ⟨step, hstep, rfl⟩ := List.mem_map.mp hi
  exact (h step hstep).text_spec

/-- Different places have different attribute paths. -/
theorem printSteps_injective {place place' : List PathStep} (h : ∀ s ∈ place, s.Selectable)
    (h' : ∀ s ∈ place', s.Selectable) (heq : printSteps place = printSteps place') :
    place = place' := by
  have htexts : place.map PathStep.text = place'.map PathStep.text := by
    rw [← tokenizeString_printSteps h, heq, tokenizeString_printSteps h']
  clear heq
  induction place generalizing place' with
  | nil => exact (List.map_eq_nil_iff.mp htexts.symm).symm
  | cons s place ih =>
    cases place' with
    | nil => cases htexts
    | cons s' place' =>
      rw [List.map_cons, List.map_cons, List.cons.injEq] at htexts
      rw [(h s List.mem_cons_self).text_injective (h' s' List.mem_cons_self) htexts.1,
        ih (fun t ht => h t (List.mem_cons_of_mem s ht))
          (fun t ht => h' t (List.mem_cons_of_mem s' ht)) htexts.2]

namespace DrvsEnv

variable {α : Type} {env : DrvsEnv α} {autoArgs : List (Attr α)}

/-- The texts of steps select what the steps lead to. -/
theorem Leads.findAlongTokens {v : α} {steps : List PathStep} {target : List (Attr α)}
    (h : env.Leads autoArgs v steps target) (hsteps : ∀ s ∈ steps, s.Selectable) (curPath : Str) :
    ∃ c, env.findAlongTokens autoArgs curPath (steps.map PathStep.text) v = .ok c ∧
      env.autoCallFunction autoArgs c = .ok (.tAttrs target) := by
  induction h generalizing curPath with
  | here hv => exact ⟨_, rfl, hv⟩
  | @attr v attrs target name a steps hv ha hleads ih =>
    obtain ⟨-, -, hname⟩ := hsteps _ List.mem_cons_self
    have hselect : ∀ cur, env.selectToken autoArgs cur name v = .ok a.value := by
      intro cur
      simp [selectToken, hv, hname, ha]
    rw [List.map_cons, DrvsEnv.findAlongTokens, PathStep.text, hselect]
    exact ih (fun s hs => hsteps s (List.mem_cons_of_mem _ hs)) _
  | @elem v c elems target n steps hv hc hleads ih =>
    have hn : n < 2 ^ 31 := hsteps _ List.mem_cons_self
    have hindex : string2Int (decimal n) = some (n : ℤ) := by rw [string2Int_decimal, if_pos hn]
    have hfind : (if (n : ℤ) < 0 then none else elems[(n : ℤ).toNat]?) = some c := by
      rw [if_neg (by omega), Int.toNat_natCast, hc]
    have hselect : ∀ cur, env.selectToken autoArgs cur (decimal n) v = .ok c := by
      intro cur
      simp only [selectToken, hv, hindex, Outcome.ok_bind, hfind, Outcome.pure_eq]
    rw [List.map_cons, DrvsEnv.findAlongTokens, PathStep.text, hselect]
    exact ih (fun s hs => hsteps s (List.mem_cons_of_mem _ hs)) _

/-- By selectable steps, the attribute paths select what was found. -/
theorem pathsSelect_of_findDerivations {steps : Set PathStep} (hsteps : ∀ s ∈ steps, s.Selectable)
    {ignoreAssertionFailures : Bool} {fuel : ℕ} {e : α} {drvs : List (FoundDrv α)}
    (h : env.findDerivations autoArgs ignoreAssertionFailures fuel e = .ok drvs) :
    env.PathsSelect autoArgs steps e drvs := by
  obtain ⟨st, hst, hdrvs⟩ := Outcome.bind_eq_ok.mp h
  have hroot : env.getDerivations autoArgs ignoreAssertionFailures fuel e (printSteps []) [] ⟨[], ∅⟩ =
      .ok st := hst
  obtain ⟨found, hfound, hreports⟩ := reports_of_getDerivations hroot
  obtain rfl : found = drvs := by
    rw [List.nil_append] at hfound
    exact hfound.symm.trans (Outcome.ok.inj hdrvs)
  refine ⟨fun d hd hplace => ?_, hreports.distinct.imp_of_mem fun {d d'} hd hd' hne hplace hplace' => ?_⟩
  · obtain ⟨way, -, hway, hleads⟩ := hreports.leads d hd
    rw [List.nil_append] at hway
    have hselectable : ∀ s ∈ d.place, s.Selectable := fun s hs => hsteps s (hplace s hs)
    unfold Selects findAlongAttrPath
    rw [hreports.printed d hd, tokenizeString_printSteps hselectable, hway]
    exact hleads.findAlongTokens (hway ▸ hselectable) []
  · rw [hreports.printed d hd, hreports.printed d' hd']
    exact mt (printSteps_injective (fun s hs => hsteps s (hplace s hs))
      fun s hs => hsteps s (hplace' s hs)) hne

end DrvsEnv

/-! ### Steps that are not found again -/

/-- The values of an expression that is a set with one attribute, and of the derivation in it. -/
def oneAttrSample (name : Str) : DrvsEnv ℕ where
  forceValue
    | 0 => .ok (.tAttrs [⟨name, 1, noPos⟩])
    | 1 => .ok (.tAttrs [⟨str "type", 2, noPos⟩, ⟨str "name", 2, noPos⟩])
    | _ => .ok (.tString (str "derivation") ∅)
  hashPath _ := .diverge
  isAssertionError _ := false
  hasDefault _ _ := false
  callFunction _ _ := .diverge
  bindings _ := 0

/-- A set with one derivation. -/
theorem findDerivations_oneAttrSample {name : Str} (htype : name ≠ str "type")
    (hchannels : name ≠ str "_combineChannels") :
    (oneAttrSample name).findDerivations [] false 1 0 =
      .ok [⟨str "derivation", str "unknown", [⟨str "type", 2, noPos⟩, ⟨str "name", 2, noPos⟩], name,
        [.attr name]⟩] := by
  have hroot : (oneAttrSample name).autoCallFunction [] 0 = .ok (.tAttrs [⟨name, 1, noPos⟩]) := rfl
  have hsearch : (oneAttrSample name).getDerivation false (.ok (.tAttrs [⟨name, 1, noPos⟩])) [] []
      ⟨[], ∅⟩ = .ok (true, ⟨[], ∅⟩) := by
    simp [DrvsEnv.getDerivation, DrvsEnv.derivationAttrs, EvalEnv.isDerivation, findAttr, htype,
      DrvsEnv.catching]
  have hsorted : attrsByName [(⟨name, 1, noPos⟩ : Attr ℕ)] = [⟨name, 1, noPos⟩] := by
    have hnames : (SortedSet.ofList [name]).toList = [name] := rfl
    simp [attrsByName, hnames, findAttr]
  have hfound : (oneAttrSample name).getDerivation false ((oneAttrSample name).forceValue 1) name
      [.attr name] ⟨[], ∅⟩ = .ok (false, ⟨[⟨str "derivation", str "unknown",
        [⟨str "type", 2, noPos⟩, ⟨str "name", 2, noPos⟩], name, [.attr name]⟩],
          SortedSet.insert ∅ 0⟩) := by
    rfl
  have hchannels' : (findAttr [(⟨name, 1, noPos⟩ : Attr ℕ)] (str "_combineChannels")).isSome =
      false := by
    simp [findAttr, hchannels]
  simp only [DrvsEnv.findDerivations, DrvsEnv.getDerivations, hroot, hsearch, hsorted, hchannels',
    DrvsEnv.searchAttr, hfound, addToPath, List.foldlM_cons, List.foldlM_nil, Outcome.ok_bind,
    Outcome.pure_eq, if_true, List.nil_append, Bool.false_eq_true, if_false]

/-- The values of an expression that is a list of empty sets with a derivation at its end. -/
def lastElemSample (n : ℕ) : DrvsEnv ℕ where
  forceValue
    | 0 => .ok (.tList (List.replicate n 1 ++ [2]))
    | 1 => .ok (.tAttrs [])
    | 2 => .ok (.tAttrs [⟨str "type", 3, noPos⟩, ⟨str "name", 3, noPos⟩])
    | _ => .ok (.tString (str "derivation") ∅)
  hashPath _ := .diverge
  isAssertionError _ := false
  hasDefault _ _ := false
  callFunction _ _ := .diverge
  bindings _ := 0

/-- A list with a derivation at its end. -/
theorem findDerivations_lastElemSample (n : ℕ) :
    (lastElemSample n).findDerivations [] false 2 0 =
      .ok [⟨str "derivation", str "unknown", [⟨str "type", 3, noPos⟩, ⟨str "name", 3, noPos⟩],
        decimal n, [.elem n]⟩] := by
  have hempty : ∀ i : ℕ, (lastElemSample n).searchElem false
      ((lastElemSample n).getDerivations [] false 1) [] [] ⟨[], ∅⟩ (1, i) = .ok ⟨[], ∅⟩ :=
    fun i => rfl
  have hlast : (lastElemSample n).searchElem false
      ((lastElemSample n).getDerivations [] false 1) [] [] ⟨[], ∅⟩ (2, n) =
        .ok ⟨[⟨str "derivation", str "unknown", [⟨str "type", 3, noPos⟩, ⟨str "name", 3, noPos⟩],
          decimal n, [.elem n]⟩], SortedSet.insert ∅ 0⟩ := rfl
  have hskip : ∀ l : List (ℕ × ℕ), (∀ i ∈ l, i.1 = 1) →
      (l ++ [(2, n)]).foldlM ((lastElemSample n).searchElem false
        ((lastElemSample n).getDerivations [] false 1) [] []) ⟨[], ∅⟩ =
          .ok ⟨[⟨str "derivation", str "unknown", [⟨str "type", 3, noPos⟩, ⟨str "name", 3, noPos⟩],
            decimal n, [.elem n]⟩], SortedSet.insert ∅ 0⟩ := by
    intro l hl
    induction l with
    | nil =>
      rw [List.nil_append, List.foldlM_cons, hlast]
      rfl
    | cons i l ih =>
      obtain ⟨v, i⟩ := i
      obtain rfl : v = 1 := hl _ List.mem_cons_self
      rw [List.cons_append, List.foldlM_cons, hempty, Outcome.ok_bind]
      exact ih fun j hj => hl j (List.mem_cons_of_mem _ hj)
  have helems : (List.replicate n 1 ++ [2]).zipIdx = (List.replicate n 1).zipIdx ++ [(2, n)] := by
    simp [List.zipIdx_append]
  have hones : ∀ i ∈ (List.replicate n 1).zipIdx, i.1 = 1 := fun i hi =>
    List.eq_of_mem_replicate (List.fst_mem_of_mem_zipIdx hi)
  have hroot : (lastElemSample n).autoCallFunction [] 0 =
      .ok (.tList (List.replicate n 1 ++ [2])) := rfl
  have hsearch : (lastElemSample n).getDerivation false (.ok (.tList (List.replicate n 1 ++ [2])))
      [] [] ⟨[], ∅⟩ = .ok (true, ⟨[], ∅⟩) := rfl
  rw [DrvsEnv.findDerivations, DrvsEnv.getDerivations, hroot, Outcome.ok_bind, hsearch,
    Outcome.ok_bind]
  simp only [if_true]
  rw [helems, hskip _ hones]
  rfl

namespace DrvsEnv

/-- A name that is not selectable does not select the derivation. -/
theorem not_pathsSelect_name {name : Str} (h : ¬ (PathStep.attr name).Selectable) :
    ∃ drvs, (oneAttrSample name).findDerivations [] false 1 0 = .ok drvs ∧
      ¬ (oneAttrSample name).PathsSelect [] {.attr name} 0 drvs := by
  have htype : name ≠ str "type" := by
    rintro rfl
    exact h ⟨by decide, by decide, by decide⟩
  have hchannels : name ≠ str "_combineChannels" := by
    rintro rfl
    exact h ⟨by decide, by decide, by decide⟩
  refine ⟨_, findDerivations_oneAttrSample htype hchannels, fun hpaths => ?_⟩
  obtain ⟨c, hc, hdrv⟩ := hpaths.1 _ List.mem_cons_self (by simp)
  have hroot : (oneAttrSample name).autoCallFunction [] 0 = .ok (.tAttrs [⟨name, 1, noPos⟩]) := rfl
  rw [findAlongAttrPath] at hc
  cases htokens : tokenizeString name (str ".") with
  | nil =>
    rw [htokens, findAlongTokens] at hc
    cases hc
    rw [hroot] at hdrv
    cases hdrv
  | cons t ts =>
    rw [htokens, findAlongTokens] at hc
    obtain ⟨c', hc', -⟩ := Outcome.bind_eq_ok.mp hc
    rw [selectToken, hroot, Outcome.ok_bind] at hc'
    cases hindex : string2Int t with
    | some n =>
      rw [hindex] at hc'
      cases hc'
    | none =>
      by_cases ht : name = t
      · have hmem : t ∈ tokenizeString name (str ".") := by
          rw [htokens]
          exact List.mem_cons_self
        obtain ⟨hne, hdots⟩ := spec_of_mem_tokens hmem
        refine h ⟨ht ▸ hne, fun hdot => ?_, ht ▸ hindex⟩
        have hsep := hdots _ (ht ▸ hdot)
        revert hsep
        decide
      · rw [hindex] at hc'
        simp [findAttr, ht] at hc'

/-- An index that is not an `int` does not select the derivation. -/
theorem not_pathsSelect_index {n : ℕ} (h : ¬ (PathStep.elem n).Selectable) :
    ∃ drvs, (lastElemSample n).findDerivations [] false 2 0 = .ok drvs ∧
      ¬ (lastElemSample n).PathsSelect [] {.elem n} 0 drvs := by
  refine ⟨_, findDerivations_lastElemSample n, fun hpaths => ?_⟩
  obtain ⟨c, hc, -⟩ := hpaths.1 _ List.mem_cons_self (by simp)
  have htokens : tokenizeString (decimal n) (str ".") = [decimal n] := by
    have hpiece : ∀ i ∈ [decimal n], i ≠ [] ∧ '.'.toUInt8 ∉ i := by
      rintro i hi
      rw [List.mem_singleton.mp hi]
      exact ⟨(decimal_spec n).1, notMem_decimal (by decide) n⟩
    exact tokenizeString_concatStringsSep hpiece
  have hindex : string2Int (decimal n) = none := by
    rw [string2Int_decimal, if_neg (show ¬ n < 2 ^ 31 from h)]
  rw [findAlongAttrPath, htokens, findAlongTokens] at hc
  obtain ⟨c', hc', -⟩ := Outcome.bind_eq_ok.mp hc
  have hroot : (lastElemSample n).autoCallFunction [] 0 =
      .ok (.tList (List.replicate n 1 ++ [2])) := rfl
  rw [selectToken, hroot, Outcome.ok_bind, hindex] at hc'
  cases hc'

/-- The attribute paths of the derivations that are found by some steps select them in every
expression, and are different, exactly when these steps are selectable. -/
theorem pathsSelect_iff (steps : Set PathStep) :
    (∀ (α : Type) (env : DrvsEnv α) (autoArgs : List (Attr α)) (ignoreAssertionFailures : Bool)
      (fuel : ℕ) (e : α) (drvs : List (FoundDrv α)),
      env.findDerivations autoArgs ignoreAssertionFailures fuel e = .ok drvs →
        env.PathsSelect autoArgs steps e drvs) ↔ ∀ s ∈ steps, s.Selectable := by
  refine ⟨fun hall s hs => ?_, fun hsteps α env autoArgs ignore fuel e drvs h =>
    pathsSelect_of_findDerivations hsteps h⟩
  have hmono : ∀ {env : DrvsEnv ℕ} {e : ℕ} {drvs : List (FoundDrv ℕ)},
      env.PathsSelect [] steps e drvs → env.PathsSelect [] {s} e drvs := by
    intro env e drvs hpaths
    have hsub : ∀ place : List PathStep, (∀ t ∈ place, t ∈ ({s} : Set PathStep)) →
        ∀ t ∈ place, t ∈ steps := fun place hplace t ht => (hplace t ht) ▸ hs
    exact ⟨fun d hd hplace => hpaths.1 d hd (hsub _ hplace),
      hpaths.2.imp fun hne hplace hplace' => hne (hsub _ hplace) (hsub _ hplace')⟩
  by_contra hbad
  cases s with
  | attr name =>
    obtain ⟨drvs, hdrvs, hnot⟩ := not_pathsSelect_name hbad
    exact hnot (hmono (hall ℕ _ [] false 1 0 drvs hdrvs))
  | elem n =>
    obtain ⟨drvs, hdrvs, hnot⟩ := not_pathsSelect_index hbad
    exact hnot (hmono (hall ℕ _ [] false 2 0 drvs hdrvs))

/-- The attribute path of a derivation with the name `a.b` does not select it. -/
theorem not_pathsSelect_dot : ∃ drvs,
    (oneAttrSample (str "a.b")).findDerivations [] false 1 0 = .ok drvs ∧
      ¬ (oneAttrSample (str "a.b")).PathsSelect [] Set.univ 0 drvs := by
  refine ⟨_, findDerivations_oneAttrSample (by decide) (by decide), fun hpaths => ?_⟩
  obtain ⟨c, hc, -⟩ := hpaths.1 _ List.mem_cons_self (by simp)
  have herror : (oneAttrSample (str "a.b")).findAlongAttrPath [] (str "a.b") 0 =
      .error (str "attribute `a' in selection path `a' not found") := by decide
  rw [herror] at hc
  cases hc

end DrvsEnv

end Nix
