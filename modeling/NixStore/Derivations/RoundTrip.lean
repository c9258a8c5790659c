import NixStore.Derivations.Basic

/-!
# The ATerm round trip

`parseDerivation` reads back what `unparseDerivation` prints, for derivations without NUL bytes
whose paths start with a slash.  Independently of the paths, the printed text determines the visible
part of every string of the derivation (`shown_eq_of_unparseDerivation_eq`); for derivations without NUL
bytes this makes the printer injective.
-/

namespace Nix

open Reader (Reads)

variable {uninit : Str → Str}

/-! ### Reading the parts of a derivation -/

/-- A path without NUL bytes is read back. -/
theorem reads_parsePath {s : Str} (hs : s.NulFree) (habs : isAbsolute s = true) :
    Reads (parsePath uninit) (printString s) s := by
  refine (reads_parseString_of_nulFree hs).bind_nil fun rest => ?_
  rw [if_pos habs]
  rfl

/-- The accumulating loops over printed strings build the set of the strings. -/
theorem reads_parseStrings (arePaths : Bool) {s : SortedSet Str} (hs : ∀ x ∈ s.toList, x.NulFree)
    (habs : arePaths = true → ∀ x ∈ s.toList, isAbsolute x = true) :
    Reads (parseStrings uninit arePaths) (printItems printString true s.toList ++ str "]") s := by
  have hitem : ∀ x ∈ s.toList,
      Reads (if arePaths then parsePath uninit else parseString uninit) (printString x) x := by
    intro x hx
    cases arePaths with
    | true => exact reads_parsePath (hs x hx) (habs rfl x hx)
    | false => exact reads_parseString_of_nulFree (hs x hx)
  have h := reads_whileNotEndOfList SortedSet.insert ∅ hitem fun x _ => startsItem_printString x
  rwa [show s.toList.foldl (fun acc a => acc.insert a) ∅ = s from SortedSet.ofList_toList s] at h

/-- The loops over printed entries build the map with these entries. -/
theorem reads_entries {β : Type} {print : Str × β → Str} {item : StreamReader (Str × β)}
    {m : SortedMap Str β} (hitem : ∀ e ∈ m.entries, Reads item (print e) e)
    (hstart : ∀ e, StartsItem (print e)) :
    Reads (whileNotEndOfList item (fun m e => m.insert e.1 e.2) ∅)
      (printItems print true m.entries ++ str "]") m := by
  have h := reads_whileNotEndOfList (fun (m : SortedMap Str β) e => m.insert e.1 e.2) ∅ hitem
    fun e _ => hstart e
  rwa [show m.entries.foldl (fun m e => m.insert e.1 e.2) ∅ = m from SortedMap.ofList_entries m]
    at h

/-- A printed output is read back. -/
theorem reads_parseOutput {o : Str × DerivationOutput}
    (hnul : ∀ s ∈ [o.1, o.2.path, o.2.hashAlgo, o.2.hash], s.NulFree)
    (habs : isAbsolute o.2.path = true) : Reads (parseOutput uninit) (printOutput o) o := by
  obtain ⟨id, path, hashAlgo, hash⟩ := o
  simp only [List.forall_mem_cons] at hnul
  simp only [printOutput, List.append_assoc]
  refine (reads_expect _).bind <| (reads_parseString_of_nulFree hnul.1).bind <|
    (reads_expect _).bind <| (reads_parsePath hnul.2.1 habs).bind <|
    (reads_expect _).bind <| (reads_parseString_of_nulFree hnul.2.2.1).bind <|
    (reads_expect _).bind <| (reads_parseString_of_nulFree hnul.2.2.2.1).bind <|
    (reads_expect _).bind_nil <| Reads.pure _

/-- The text of an input derivation, cut into the texts that the parser consumes one by one. -/
theorem printInput_eq (drvPath : Path) (outputs : SortedSet Str) :
    printInput (drvPath, outputs) = str "(" ++ (printString drvPath ++ (str ",[" ++
      ((printItems printString true outputs.toList ++ str "]") ++ str ")"))) := by
  simp only [printInput, printStrings, List.append_assoc]
  rfl

/-- A printed input is read back. -/
theorem reads_parseInput {i : Path × SortedSet Str} (hnul : ∀ s ∈ i.1 :: i.2.toList, s.NulFree)
    (habs : isAbsolute i.1 = true) : Reads (parseInput uninit) (printInput i) i := by
  obtain ⟨drvPath, outputs⟩ := i
  rw [List.forall_mem_cons] at hnul
  rw [printInput_eq]
  exact (reads_expect _).bind <| (reads_parsePath hnul.1 habs).bind <| (reads_expect _).bind <|
    (reads_parseStrings false hnul.2 (by simp)).bind <| (reads_expect _).bind_nil <| Reads.pure _

/-- A printed variable is read back. -/
theorem reads_parseEnvVar {v : Str × Str} (hnul : ∀ s ∈ [v.1, v.2], s.NulFree) :
    Reads (parseEnvVar uninit) (printEnvVar v) v := by
  simp only [List.forall_mem_cons] at hnul
  simp only [printEnvVar, List.append_assoc]
  exact (reads_expect _).bind <| (reads_parseString_of_nulFree hnul.1).bind <|
    (reads_expect _).bind <| (reads_parseString_of_nulFree hnul.2.1).bind <|
    (reads_expect _).bind_nil <| Reads.pure _

/-- An output begins like an element of a list. -/
theorem startsItem_printOutput (o : Str × DerivationOutput) : StartsItem (printOutput o) :=
  startsItem_cons (by decide)

/-- An input begins like an element of a list. -/
theorem startsItem_printInput (i : Path × SortedSet Str) : StartsItem (printInput i) :=
  startsItem_cons (by decide)

/-- A variable begins like an element of a list. -/
theorem startsItem_printEnvVar (v : Str × Str) : StartsItem (printEnvVar v) :=
  startsItem_cons (by decide)

/-! ### The round trip -/

/-- The printed form, cut into the texts that the parser consumes one by one. -/
theorem unparseDerivation_eq (drv : Derivation) :
    unparseDerivation drv = str "Derive([" ++
      ((printItems printOutput true drv.outputs.entries ++ str "]") ++ (str ",[" ++
      ((printItems printInput true drv.inputDrvs.entries ++ str "]") ++ (str ",[" ++
      ((printItems printString true drv.inputSrcs.toList ++ str "]") ++ (str "," ++
      (printString drv.platform ++ (str "," ++ (printString drv.builder ++ (str ",[" ++
      ((printItems printString true drv.args ++ str "]") ++ (str ",[" ++
      ((printItems printEnvVar true drv.env.entries ++ str "]") ++ str ")"))))))))))))) := by
  have h₁ : str "],[" = str "]" ++ str ",[" := rfl
  have h₂ : str "]," = str "]" ++ str "," := rfl
  have h₃ : str ",[" = str "," ++ str "[" := rfl
  have h₄ : str "])" = str "]" ++ str ")" := rfl
  simp only [unparseDerivation, printStrings, h₁, h₂, h₃, h₄, List.append_assoc]

/-- Appending one element after the other is mapping. -/
theorem foldl_concat {α β : Type} (val : α → β) (l : List α) (acc : List β) :
    l.foldl (fun acc a => acc ++ [val a]) acc = acc ++ l.map val := by
  induction l generalizing acc with
  | nil => simp
  | cons a l ih => rw [List.foldl_cons, ih, List.append_assoc, List.singleton_append, List.map_cons]

/-- A printed derivation is read back, with anything behind it. -/
theorem reads_parseDerivationStream {drv : Derivation} (hnul : drv.NulFree)
    (habs : drv.AbsolutePaths) :
    Reads (parseDerivationStream uninit) (unparseDerivation drv) drv := by
  simp only [Derivation.NulFree, Derivation.strings, List.forall_mem_append,
    List.forall_mem_flatMap] at hnul
  obtain ⟨⟨⟨⟨⟨hout, hin⟩, hsrc⟩, hplat⟩, hargs⟩, henv⟩ := hnul
  rw [List.forall_mem_cons, List.forall_mem_singleton] at hplat
  obtain ⟨hplat, hbuild⟩ := hplat
  have houtputs := reads_entries (fun o ho => @reads_parseOutput uninit o
    (hout o ho) (habs.outputs o ho)) startsItem_printOutput
  have hinputs := reads_entries (fun i hi => @reads_parseInput uninit i
    (hin i hi) (habs.inputDrvs i hi)) startsItem_printInput
  have hsrcs := @reads_parseStrings uninit true _ hsrc fun _ => habs.inputSrcs
  have hargs' := reads_whileNotEndOfList (fun (l : List Str) s => l ++ [s]) []
    (fun s hs => @reads_parseString_of_nulFree uninit s (hargs s hs)) fun s _ => startsItem_printString s
  rw [foldl_concat fun s => s, List.nil_append, List.map_id'] at hargs'
  have henvs := reads_entries (fun v hv => @reads_parseEnvVar uninit v (henv v hv))
    startsItem_printEnvVar
  rw [unparseDerivation_eq]
  exact (reads_expect _).bind <| houtputs.bind <| (reads_expect _).bind <| hinputs.bind <|
    (reads_expect _).bind <| hsrcs.bind <| (reads_expect _).bind <|
    (reads_parseString_of_nulFree hplat).bind <| (reads_expect _).bind <|
    (reads_parseString_of_nulFree hbuild).bind <| (reads_expect _).bind <| hargs'.bind <|
    (reads_expect _).bind <| henvs.bind <| (reads_expect _).bind_nil <| Reads.pure _

/-- `parseDerivation` undoes `unparseDerivation`. -/
theorem parseDerivation_unparseDerivation {drv : Derivation} (hnul : drv.NulFree)
    (habs : drv.AbsolutePaths) : parseDerivation uninit (unparseDerivation drv) = .ok drv := by
  have h := @reads_parseDerivationStream uninit drv hnul habs []
  rw [List.append_nil] at h
  rw [parseDerivation, h]

/-! ### What the printed form shows -/

/-- The strings of a derivation as the printed form shows them: cut at their first NUL byte, in the
order of printing. -/
structure ShownDerivation where
  outputs : List (Str × Str × Str × Str)
  inputDrvs : List (Str × List Str)
  inputSrcs : List Str
  platform : Str
  builder : Str
  args : List Str
  env : List (Str × Str)

/-- The visible part of a derivation. -/
def Derivation.shown (drv : Derivation) : ShownDerivation where
  outputs := drv.outputs.entries.map fun o =>
    (o.1.cut, Str.cut o.2.path, o.2.hashAlgo.cut, o.2.hash.cut)
  inputDrvs := drv.inputDrvs.entries.map fun i => (Str.cut i.1, i.2.toList.map Str.cut)
  inputSrcs := drv.inputSrcs.toList.map Str.cut
  platform := drv.platform.cut
  builder := Str.cut drv.builder
  args := drv.args.map Str.cut
  env := drv.env.entries.map fun v => (v.1.cut, v.2.cut)

/-- The items of a printed list, in order. -/
def readItems {α : Type} (item : StreamReader α) : StreamReader (List α) :=
  whileNotEndOfList item (fun l a => l ++ [a]) []

/-- The four strings of an output, without the check of the path. -/
def readOutput (uninit : Str → Str) : StreamReader (Str × Str × Str × Str) := do
  expect uninit (str "(")
  let id ← parseString uninit
  expect uninit (str ",")
  let path ← parseString uninit
  expect uninit (str ",")
  let hashAlgo ← parseString uninit
  expect uninit (str ",")
  let hash ← parseString uninit
  expect uninit (str ")")
  return (id, path, hashAlgo, hash)

/-- An input derivation, without the check of the path. -/
def readInput (uninit : Str → Str) : StreamReader (Str × List Str) := do
  expect uninit (str "(")
  let drvPath ← parseString uninit
  expect uninit (str ",[")
  let outputs ← readItems (parseString uninit)
  expect uninit (str ")")
  return (drvPath, outputs)

/-- A reader for the visible part of a derivation.  It stands in for `parseDerivation` in the proof
that the printed form determines what it shows, also where paths are empty or hashes. -/
def readShown (uninit : Str → Str) : StreamReader ShownDerivation := do
  expect uninit (str "Derive([")
  let outputs ← readItems (readOutput uninit)
  expect uninit (str ",[")
  let inputDrvs ← readItems (readInput uninit)
  expect uninit (str ",[")
  let inputSrcs ← readItems (parseString uninit)
  expect uninit (str ",")
  let platform ← parseString uninit
  expect uninit (str ",")
  let builder ← parseString uninit
  expect uninit (str ",[")
  let args ← readItems (parseString uninit)
  expect uninit (str ",[")
  let env ← readItems (parseEnvVar uninit)
  expect uninit (str ")")
  return ⟨outputs, inputDrvs, inputSrcs, platform, builder, args, env⟩

/-- Printed elements are read back, one after the other. -/
theorem reads_readItems {α β : Type} {print : α → Str} {item : StreamReader β} {val : α → β}
    {l : List α} (hitem : ∀ a ∈ l, Reads item (print a) (val a))
    (hstart : ∀ a ∈ l, StartsItem (print a)) :
    Reads (readItems item) (printItems print true l ++ str "]") (l.map val) := by
  have h := reads_whileNotEndOfList (fun (l : List β) a => l ++ [a]) [] hitem hstart
  rwa [foldl_concat, List.nil_append] at h

/-- A printed output shows its texts up to their first NUL. -/
theorem reads_readOutput (o : Str × DerivationOutput) : Reads (readOutput uninit) (printOutput o)
    (o.1.cut, Str.cut o.2.path, o.2.hashAlgo.cut, o.2.hash.cut) := by
  simp only [printOutput, List.append_assoc]
  exact (reads_expect _).bind <| (reads_parseString _).bind <| (reads_expect _).bind <|
    (reads_parseString _).bind <| (reads_expect _).bind <| (reads_parseString _).bind <|
    (reads_expect _).bind <| (reads_parseString _).bind <| (reads_expect _).bind_nil <|
    Reads.pure _

/-- A printed list of strings shows them up to their first NUL. -/
theorem reads_readStrings (l : List Str) :
    Reads (readItems (parseString uninit)) (printItems printString true l ++ str "]") (l.map Str.cut) :=
  reads_readItems (fun s _ => reads_parseString s) fun s _ => startsItem_printString s

/-- A printed input shows its texts up to their first NUL. -/
theorem reads_readInput (i : Path × SortedSet Str) :
    Reads (readInput uninit) (printInput i) (Str.cut i.1, i.2.toList.map Str.cut) := by
  obtain ⟨drvPath, outputs⟩ := i
  rw [printInput_eq]
  exact (reads_expect _).bind <| (reads_parseString _).bind <| (reads_expect _).bind <|
    (reads_readStrings _).bind <| (reads_expect _).bind_nil <| Reads.pure _

/-- A printed variable shows its texts up to their first NUL. -/
theorem reads_readEnvVar (v : Str × Str) :
    Reads (parseEnvVar uninit) (printEnvVar v) (v.1.cut, v.2.cut) := by
  simp only [printEnvVar, List.append_assoc]
  exact (reads_expect _).bind <| (reads_parseString _).bind <| (reads_expect _).bind <|
    (reads_parseString _).bind <| (reads_expect _).bind_nil <| Reads.pure _

/-- A printed derivation shows its texts up to their first NUL. -/
theorem reads_readShown (drv : Derivation) :
    Reads (readShown uninit) (unparseDerivation drv) drv.shown := by
  have houtputs := reads_readItems (l := drv.outputs.entries) (fun o _ => @reads_readOutput uninit o)
    fun o _ => startsItem_printOutput o
  have hinputs := reads_readItems (l := drv.inputDrvs.entries) (fun i _ => @reads_readInput uninit i)
    fun i _ => startsItem_printInput i
  have henv := reads_readItems (l := drv.env.entries) (fun v _ => @reads_readEnvVar uninit v)
    fun v _ => startsItem_printEnvVar v
  rw [unparseDerivation_eq]
  exact (reads_expect _).bind <| houtputs.bind <| (reads_expect _).bind <| hinputs.bind <|
    (reads_expect _).bind <| (reads_readStrings _).bind <| (reads_expect _).bind <|
    (reads_parseString _).bind <| (reads_expect _).bind <| (reads_parseString _).bind <|
    (reads_expect _).bind <| (reads_readStrings _).bind <| (reads_expect _).bind <|
    henv.bind <| (reads_expect _).bind_nil <| Reads.pure _

/-- The printed form determines the visible part of a derivation. -/
theorem shown_eq_of_unparseDerivation_eq {drv drv' : Derivation}
    (h : unparseDerivation drv = unparseDerivation drv') : drv.shown = drv'.shown :=
  ((@reads_readShown (fun _ => []) drv).cancel (@reads_readShown (fun _ => []) drv')
    (show unparseDerivation drv ++ [] = unparseDerivation drv' ++ [] by rw [h])).1

/-- What comes behind a NUL is not printed. -/
theorem printString_cut (s : Str) : printString s.cut = printString s := by
  rw [printString, printString, printStringLoop_eq, printStringLoop_eq,
    Str.cut_eq_self s.nulFree_cut]

/-- Items that are printed the same can be exchanged in a list. -/
theorem printItems_congr {α β γ : Type} {print : α → Str} {print' : β → Str}
    (shownPrint : γ → Str) {val : α → γ} {val' : β → γ} (hprint : ∀ a, print a = shownPrint (val a))
    (hprint' : ∀ b, print' b = shownPrint (val' b)) {l : List α} {l' : List β}
    (h : l.map val = l'.map val') (first : Bool) :
    printItems print first l = printItems print' first l' := by
  induction l generalizing l' first with
  | nil =>
    obtain rfl : l' = [] := by simpa using h.symm
    rfl
  | cons a l ih =>
    cases l' with
    | nil => simp at h
    | cons b l' =>
      rw [List.map_cons, List.map_cons, List.cons.injEq] at h
      rw [printItems, printItems, hprint, hprint', h.1, ih h.2]

/-- Lists that agree up to the first NULs are printed alike. -/
theorem printStrings_congr {l l' : List Str} (h : l.map Str.cut = l'.map Str.cut) :
    printStrings l = printStrings l' := by
  unfold printStrings
  rw [printItems_congr printString (fun s => (printString_cut s).symm)
    (fun s => (printString_cut s).symm) h]

/-- The text of the visible part of an input derivation. -/
def printShownInput (v : Str × List Str) : Str :=
  str "(" ++ printString v.1 ++ str "," ++ printStrings v.2 ++ str ")"

/-- The printed form of inputs depends on their visible parts only. -/
theorem printItems_printInput_congr {l l' : List (Path × SortedSet Str)}
    (h : (l.map fun i => (Str.cut i.1, i.2.toList.map Str.cut)) =
      l'.map fun i => (Str.cut i.1, i.2.toList.map Str.cut)) :
    printItems printInput true l = printItems printInput true l' := by
  have hprint : ∀ i : Path × SortedSet Str,
      printInput i = printShownInput (Str.cut i.1, i.2.toList.map Str.cut) := by
    intro i
    have hnames : printStrings i.2.toList = printStrings (i.2.toList.map Str.cut) := by
      apply printStrings_congr
      rw [List.map_map]
      exact List.map_congr_left fun s _ => (Str.cut_eq_self s.nulFree_cut).symm
    rw [printInput, printShownInput, printString_cut, hnames]
  exact printItems_congr printShownInput hprint hprint h true

/-! ### Derivations without NUL bytes -/

/-- Texts without NUL are shown as they are. -/
theorem map_cut_eq_self {l : List Str} (h : ∀ s ∈ l, s.NulFree) : l.map Str.cut = l := by
  conv_rhs => rw [← List.map_id l]
  exact List.map_congr_left fun s hs => Str.cut_eq_self (h s hs)

/-- The derivation that the visible part of a derivation without NUL bytes comes from. -/
def ShownDerivation.toDerivation (s : ShownDerivation) : Derivation where
  outputs := SortedMap.ofList (s.outputs.map fun o => (o.1, ⟨o.2.1, o.2.2.1, o.2.2.2⟩))
  inputDrvs := SortedMap.ofList (s.inputDrvs.map fun i => (i.1, SortedSet.ofList i.2))
  inputSrcs := SortedSet.ofList s.inputSrcs
  platform := s.platform
  builder := s.builder
  args := s.args
  env := SortedMap.ofList s.env

/-- Nothing of a derivation without NUL bytes is hidden. -/
theorem toDerivation_shown {drv : Derivation} (hnul : drv.NulFree) :
    drv.shown.toDerivation = drv := by
  simp only [Derivation.NulFree, Derivation.strings, List.forall_mem_append,
    List.forall_mem_flatMap] at hnul
  obtain ⟨⟨⟨⟨⟨hout, hin⟩, hsrc⟩, hplat⟩, hargs⟩, henv⟩ := hnul
  have houtputs : (drv.shown.outputs.map fun o => (o.1, (⟨o.2.1, o.2.2.1, o.2.2.2⟩ :
      DerivationOutput))) = drv.outputs.entries := by
    rw [Derivation.shown, List.map_map]
    conv_rhs => rw [← List.map_id drv.outputs.entries]
    refine List.map_congr_left fun o ho => ?_
    have h := hout o ho
    simp only [List.forall_mem_cons] at h
    simp [Str.cut_eq_self h.1, Str.cut_eq_self h.2.1, Str.cut_eq_self h.2.2.1,
      Str.cut_eq_self h.2.2.2.1]
  have hinputs : (drv.shown.inputDrvs.map fun i => (i.1, SortedSet.ofList i.2)) =
      drv.inputDrvs.entries := by
    rw [Derivation.shown, List.map_map]
    conv_rhs => rw [← List.map_id drv.inputDrvs.entries]
    refine List.map_congr_left fun i hi => ?_
    have h := hin i hi
    rw [List.forall_mem_cons] at h
    simp [Str.cut_eq_self h.1, map_cut_eq_self h.2]
  have henv' : drv.shown.env = drv.env.entries := by
    rw [Derivation.shown]
    conv_rhs => rw [← List.map_id drv.env.entries]
    refine List.map_congr_left fun v hv => ?_
    have h := henv v hv
    simp only [List.forall_mem_cons] at h
    simp [Str.cut_eq_self h.1, Str.cut_eq_self h.2.1]
  rw [List.forall_mem_cons, List.forall_mem_singleton] at hplat
  rw [ShownDerivation.toDerivation, houtputs, hinputs, henv']
  simp [Derivation.shown, map_cut_eq_self hsrc, map_cut_eq_self hargs, Str.cut_eq_self hplat.1,
    Str.cut_eq_self hplat.2]

/-- On derivations without NUL bytes the printer is injective. -/
theorem unparseDerivation_injOn {drv drv' : Derivation} (hnul : drv.NulFree)
    (hnul' : drv'.NulFree) (h : unparseDerivation drv = unparseDerivation drv') : drv = drv' := by
  rw [← toDerivation_shown hnul, ← toDerivation_shown hnul', shown_eq_of_unparseDerivation_eq h]

/-- Parsing undoes printing on the derivations without NUL bytes whose paths start with a slash,
and printing is injective on all derivations without NUL bytes. -/
theorem aterm_roundTrip :
    (∀ (uninit : Str → Str) (drv : Derivation), drv.NulFree → drv.AbsolutePaths →
      parseDerivation uninit (unparseDerivation drv) = .ok drv) ∧
    (∀ drv drv' : Derivation, drv.NulFree → drv'.NulFree →
      unparseDerivation drv = unparseDerivation drv' → drv = drv') :=
  ⟨fun _ _ => parseDerivation_unparseDerivation, fun _ _ => unparseDerivation_injOn⟩

/-- A derivation with delimiters, quotes, backslashes and line breaks in its strings. -/
def quotedDerivation : Derivation where
  outputs := .ofList [(str "out", ⟨str "/s/o", [], []⟩), (str "dev", ⟨str "/s/d],[", [], []⟩)]
  inputDrvs := .ofList [(str "/s/a.drv", .ofList [str "out", str "d\"v"])]
  inputSrcs := .ofList [str "/s/b,c"]
  platform := str "x\\y"
  builder := str "/bin/sh"
  args := [str "-c", [], str "a\nb\tc\rd", [255, 128]]
  env := .ofList [(str "PATH", str "(\"]\\"), (str "out", [])]

/-- The derivation with its output paths left out, as it is hashed; the outputs are listed in the
given order. -/
def maskedDerivation (ids : List Str) : Derivation :=
  { quotedDerivation with outputs := .ofList (ids.map fun id => (id, ⟨[], [], []⟩)) }

/-- A derivation with characters to escape, and masked outputs in two orders. -/
theorem aterm_roundTrip_quotedDerivation :
    parseDerivation (fun s => s) (unparseDerivation quotedDerivation) = .ok quotedDerivation ∧
      maskedDerivation [str "out", str "dev"] = maskedDerivation [str "dev", str "out"] :=
  ⟨aterm_roundTrip.1 (fun s => s) quotedDerivation (by decide +kernel)
    ⟨by decide +kernel, by decide +kernel, by decide +kernel⟩,
    aterm_roundTrip.2 _ _ (by decide +kernel) (by decide +kernel) (by decide +kernel)⟩

end Nix
