import NixStore.Lib.LinkWalks
import NixStore.Util.CanonPath

/-!
# Targets of links, lexically

A target that is made canonical lexically in the directory of its link, as `absPath` does, leads where
the target leads if every `..` in it leads back to the directory in which the name before it was looked
up (`Straight`): it does behind the name of a directory, but behind the name of a link only if the link
leads to something in the same directory.  Walks along the two forms of such a target end at the same
file, and links that are met on the one are met on the other.
-/

namespace Nix

namespace FileSystem

/-- Where a name leads from a location, if it leads anywhere. -/
def Leads (fs : FileSystem) (cur : Option Loc) (n : Str) (next : Option Loc) : Prop :=
  ∀ m, next = some m ↔ ∃ c met, cur = some c ∧ fs.Walks c [n] met m

/-- Every `..` among some names leads back to where the name that it takes back was looked up.  The first
argument are these places for the names before that have not been taken back; a `..` that takes back no
name of the target is right, as there are no links on the way to the link. -/
def UpsLeadBack (fs : FileSystem) : List (Option Loc) → Option Loc → List Str → Prop
  | _, _, [] => True
  | trail, cur, n :: names =>
    if n = str "." then UpsLeadBack fs trail cur names
    else if n = str ".." then
      match trail with
      | [] => UpsLeadBack fs [] (cur.map List.dropLast) names
      | back :: trail => cur.map List.dropLast = back ∧ UpsLeadBack fs trail back names
    else ∀ next, fs.Leads cur n next → UpsLeadBack fs (cur :: trail) next names

/-- Every `..` in the target of a link leads back. -/
def Straight (fs : FileSystem) (dir : Loc) (target : Str) : Prop :=
  fs.UpsLeadBack [] (some (linkStart dir target)) (components target)

/-- The names of some components, lexically. -/
def lexicalFrom (kept names : List Str) : List Str :=
  (names.filter (· ≠ str ".")).foldl followComponent kept

/-- The names that a link leads to, from where its target starts. -/
theorem lexicalNames_eq (dir : Loc) (target : Str) :
    lexicalNames dir target = lexicalFrom (linkStart dir target) (components target) := rfl

variable {fs : FileSystem} {trail : List (Option Loc)} {kept names done rest : List Str}
  {c m l start dir : Loc} {n target : Str} {met : List (Loc × Str)} {cur next : Option Loc}

/-- Lexically a dot is passed over. -/
theorem lexicalFrom_dot : lexicalFrom kept (str "." :: names) = lexicalFrom kept names := by
  simp [lexicalFrom]

/-- Lexically two dots drop the last name. -/
theorem lexicalFrom_dotdot :
    lexicalFrom kept (str ".." :: names) = lexicalFrom kept.dropLast names := by
  rw [lexicalFrom, List.filter_cons_of_pos (by decide), List.foldl_cons, followComponent, if_pos rfl]
  rfl

/-- Lexically a name is appended. -/
theorem lexicalFrom_name (hdot : n ≠ str ".") (hdotdot : n ≠ str "..") :
    lexicalFrom kept (n :: names) = lexicalFrom (kept ++ [n]) names := by
  rw [lexicalFrom, List.filter_cons_of_pos (by simpa using hdot), List.foldl_cons, followComponent,
    if_neg hdotdot]
  rfl

/-! ### One name -/

/-- A dot goes nowhere and back from nowhere. -/
theorem upsLeadBack_dot :
    fs.UpsLeadBack trail cur (str "." :: names) ↔ fs.UpsLeadBack trail cur names := by
  unfold UpsLeadBack
  rw [if_pos rfl]
  cases names <;> rfl

/-- Above the start, two dots lead to the parent. -/
theorem upsLeadBack_dotdot_nil : fs.UpsLeadBack [] cur (str ".." :: names) ↔
    fs.UpsLeadBack [] (cur.map List.dropLast) names := by
  rw [UpsLeadBack, if_neg (by decide), if_pos rfl]

/-- Two dots lead back when the parent is where the last name was taken. -/
theorem upsLeadBack_dotdot_cons : fs.UpsLeadBack (next :: trail) cur (str ".." :: names) ↔
    cur.map List.dropLast = next ∧ fs.UpsLeadBack trail next names := by
  rw [UpsLeadBack, if_neg (by decide), if_pos rfl]

/-- A name is followed wherever it leads. -/
theorem upsLeadBack_name (hdot : n ≠ str ".") (hdotdot : n ≠ str "..") :
    fs.UpsLeadBack trail cur (n :: names) ↔
      ∀ next, fs.Leads cur n next → fs.UpsLeadBack (cur :: trail) next names := by
  cases trail <;> rw [UpsLeadBack, if_neg hdot, if_neg hdotdot]

/-- A name leads somewhere, or nowhere. -/
theorem exists_leads (fs : FileSystem) (cur : Option Loc) (n : Str) : ∃ next, fs.Leads cur n next := by
  by_cases h : ∃ m c met, cur = some c ∧ fs.Walks c [n] met m
  · obtain ⟨m, c, met, rfl, hm⟩ := h
    refine ⟨some m, fun m' => ⟨?_, ?_⟩⟩
    · rintro ⟨⟩
      exact ⟨c, met, rfl, hm⟩
    · rintro ⟨c', met', hc, hm'⟩
      cases hc
      rw [(hm.unique hm').2]
  · exact ⟨none, fun m => ⟨nofun, fun hm => absurd ⟨m, hm⟩ h⟩⟩

/-- A name leads to one place. -/
theorem Leads.unique {next' : Option Loc} (h : fs.Leads cur n next) (h' : fs.Leads cur n next') :
    next = next' :=
  Option.ext fun m => (h m).trans (h' m).symm

/-- A walk of one name leads to its end. -/
theorem leads_of_walks (h : fs.Walks c [n] met m) : fs.Leads (some c) n (some m) := by
  obtain ⟨next, hnext⟩ := fs.exists_leads (some c) n
  rwa [(hnext m).mpr ⟨c, met, rfl, h⟩] at hnext

/-- From nowhere a name leads nowhere. -/
theorem leads_none : fs.Leads none n none := by
  intro m
  refine ⟨nofun, ?_⟩
  rintro ⟨_, _, h, -⟩
  cases h

/-- A name that loops leads nowhere. -/
theorem leads_of_loops (h : fs.Loops c [n]) : fs.Leads (some c) n none := by
  intro m
  refine ⟨nofun, ?_⟩
  rintro ⟨c', met, hc, hm⟩
  cases hc
  exact absurd h hm.not_loops

/-- A dot stays. -/
theorem walks_dot (h : fs.Walks c [str "."] met m) : m = c := by
  by_cases hdir : fs.entry c = some .directory
  · cases h with
    | last h =>
      rw [walk, walkVia, if_pos hdir, if_pos rfl] at h
      exact (Option.some.inj h).symm
    | link hlink _ =>
      rw [firstLink, if_pos hdir, if_pos rfl] at hlink
      cases hlink
  · cases h with
    | last h =>
      rw [walk, walkVia, if_neg hdir] at h
      cases h
    | link hlink _ =>
      rw [firstLink, if_neg hdir] at hlink
      cases hlink

/-- Two dots go to the parent. -/
theorem walks_dotdot (h : fs.Walks c [str ".."] met m) :
    m = c.dropLast ∧ fs.entry m = some .directory := by
  have hne : str ".." ≠ str "." := by decide
  by_cases hdir : fs.entry c = some .directory
  · cases h with
    | last h =>
      rw [walk, walkVia, if_pos hdir, if_neg hne, if_pos rfl] at h
      have hm : c.dropLast = m := Option.some.inj h
      exact ⟨hm.symm, hm ▸ directory_dropLast hdir⟩
    | link hlink _ =>
      rw [firstLink, if_pos hdir, if_neg hne, if_pos rfl] at hlink
      cases hlink
  · cases h with
    | last h =>
      rw [walk, walkVia, if_neg hdir] at h
      cases h
    | link hlink _ =>
      rw [firstLink, if_neg hdir] at hlink
      cases hlink

/-! ### The way along a target -/

/-- The target of a link starts at the root or in the directory of the link. -/
theorem linkStart_spec (target : Str) (hdir : fs.entry dir = some .directory)
    (hnames : ∀ n ∈ dir, IsFileName n) : fs.entry (linkStart dir target) = some .directory ∧
      ∀ n ∈ linkStart dir target, IsFileName n := by
  rw [linkStart]
  split_ifs
  · exact ⟨fs.root, List.forall_mem_nil _⟩
  · exact ⟨hdir, hnames⟩

/-- The names that have been kept of a target, with the places where they were looked up: they lead from
a directory on the way to the link to a location. -/
inductive Trail (fs : FileSystem) : List (Option Loc) → List Str → Option Loc → Prop
  | base {l : Loc} : fs.entry l = some .directory → (∀ n ∈ l, IsFileName n) → Trail fs [] l (some l)
  | name {trail : List (Option Loc)} {kept : List Str} {cur next : Option Loc} {n : Str} :
      Trail fs trail kept cur → fs.Leads cur n next → Trail fs (cur :: trail) (kept ++ [n]) next

/-- The names that have been kept lead from the root to where the target has led. -/
theorem Trail.exists_walks (h : fs.Trail trail kept (some c)) : ∃ met, fs.Walks [] kept met c := by
  generalize hcur : some c = cur at h
  induction h generalizing c with
  | base hdir hnames =>
    cases hcur
    refine ⟨[], .last ?_⟩
    have hwalk := walk_append_names (k := 0) hdir hnames []
    rw [List.append_nil] at hwalk
    exact hwalk.trans rfl
  | name htrail hleads ih =>
    obtain ⟨c₀, met, rfl, hm⟩ := (hleads c).mp hcur.symm
    obtain ⟨met₀, h₀⟩ := ih rfl
    exact ⟨met₀ ++ met, h₀.append hm⟩

/-- What holds after the names `done` of a target. -/
structure AlongTarget (fs : FileSystem) (start : Loc) (done : List Str) (trail : List (Option Loc))
    (kept : List Str) (c : Loc) : Prop where
  trail : fs.Trail trail kept (some c)
  exists_walks : ∃ met met₀, fs.Walks start done met c ∧ fs.Walks [] kept met₀ c ∧ met₀.Sublist met

/-- Nothing is left of the target at its start. -/
theorem alongTarget_nil (hdir : fs.entry start = some .directory) (hnames : ∀ n ∈ start, IsFileName n) :
    fs.AlongTarget start [] [] start start := by
  have htrail : fs.Trail [] start (some start) := .base hdir hnames
  have hwalk := walk_append_names (k := 0) hdir hnames []
  rw [List.append_nil] at hwalk
  exact ⟨htrail, [], [], .last rfl, .last (hwalk.trans rfl), .refl _⟩

/-- One more name of a target that leads somewhere. -/
theorem AlongTarget.step (h : fs.AlongTarget start done trail kept c)
    (hups : fs.UpsLeadBack trail (some c) (n :: names)) (hn : fs.Walks c [n] met m) :
    ∃ trail' kept', fs.AlongTarget start (done ++ [n]) trail' kept' m ∧
      fs.UpsLeadBack trail' (some m) names ∧
      lexicalFrom kept (n :: names) = lexicalFrom kept' names := by
  obtain ⟨htrail, metd, met₀, hdone, hkept, hsub⟩ := h
  have hdone' := hdone.append hn
  by_cases hdot : n = str "."
  · subst hdot
    rw [upsLeadBack_dot] at hups
    obtain rfl := walks_dot hn
    exact ⟨trail, kept, ⟨htrail, _, met₀, hdone', hkept, hsub.trans (List.sublist_append_left _ _)⟩,
      hups, lexicalFrom_dot⟩
  by_cases hdotdot : n = str ".."
  · subst hdotdot
    obtain ⟨rfl, hdir⟩ := walks_dotdot hn
    cases htrail with
    | base hc hnames =>
      rw [upsLeadBack_dotdot_nil] at hups
      have hnames' : ∀ n ∈ kept.dropLast, IsFileName n := fun n hn =>
        hnames n (List.mem_of_mem_dropLast hn)
      have hwalk := walk_append_names (k := 0) hdir hnames' []
      rw [List.append_nil] at hwalk
      exact ⟨[], kept.dropLast, ⟨.base hdir hnames', _, [], hdone', .last (hwalk.trans rfl),
        List.nil_sublist _⟩, hups, lexicalFrom_dotdot⟩
    | @name trail kept back _ n' htrail hleads =>
      obtain ⟨rfl, hups⟩ := upsLeadBack_dotdot_cons.mp hups
      obtain ⟨met₁, met₂, c₁, rfl, h₁, -⟩ := hkept.of_append
      obtain ⟨met', h'⟩ := htrail.exists_walks
      obtain ⟨rfl, rfl⟩ := h₁.unique h'
      refine ⟨trail, kept, ⟨htrail, _, _, hdone', h₁, ?_⟩, hups, ?_⟩
      · exact ((List.sublist_append_left _ _).trans hsub).trans (List.sublist_append_left _ _)
      · rw [lexicalFrom_dotdot, List.dropLast_concat]
  · rw [upsLeadBack_name hdot hdotdot] at hups
    exact ⟨_, _, ⟨htrail.name (leads_of_walks hn), _, _, hdone', hkept.append hn,
      hsub.append_right met⟩, hups _ (leads_of_walks hn), lexicalFrom_name hdot hdotdot⟩

/-- A walk along the rest of a target. -/
theorem AlongTarget.walks (h : fs.AlongTarget start done trail kept c)
    (hups : fs.UpsLeadBack trail (some c) names) (hnames : fs.Walks c names met l) :
    ∃ met' met₀, fs.Walks start (done ++ names) met' l ∧
      fs.Walks [] (lexicalFrom kept names) met₀ l ∧ met₀.Sublist met' := by
  induction names generalizing done trail kept c met with
  | nil =>
    cases hnames with
    | last hwalk =>
      cases hwalk
      rw [List.append_nil]
      exact h.exists_walks
    | link hlink _ => cases hlink
  | cons n names ih =>
    obtain ⟨met₁, met₂, m, -, hn, hrest⟩ := Walks.of_append (a := [n]) hnames
    obtain ⟨trail', kept', h', hups', heq⟩ := h.step hups hn
    rw [heq, List.append_cons]
    exact ih h' hups' hrest

/-- A name that leads nowhere is never taken back. -/
theorem exists_lexicalFrom_eq {ms : List Str}
    (hups : fs.UpsLeadBack (List.replicate ms.length none ++ some c :: trail) none names) :
    ∃ ms', lexicalFrom (kept ++ ms) names = kept ++ ms' := by
  induction names generalizing ms with
  | nil => exact ⟨ms, rfl⟩
  | cons n names ih =>
    by_cases hdot : n = str "."
    · subst hdot
      rw [lexicalFrom_dot]
      exact ih (upsLeadBack_dot.mp hups)
    by_cases hdotdot : n = str ".."
    · subst hdotdot
      rw [lexicalFrom_dotdot]
      rcases List.eq_nil_or_concat' ms with rfl | ⟨ms, m, rfl⟩
      · exact absurd (upsLeadBack_dotdot_cons.mp hups).1 (by simp)
      · rw [← List.append_assoc, List.dropLast_concat]
        rw [List.length_append, List.length_singleton, List.replicate_succ, List.cons_append] at hups
        exact ih (upsLeadBack_dotdot_cons.mp hups).2
    · rw [lexicalFrom_name hdot hdotdot, List.append_assoc]
      refine ih ?_
      rw [List.length_append, List.length_singleton, List.replicate_succ]
      exact (upsLeadBack_name hdot hdotdot).mp hups none leads_none

/-- Dots do not loop. -/
theorem ne_of_loops (h : fs.Loops c [n]) : n ≠ str "." ∧ n ≠ str ".." := by
  obtain ⟨dir, target, rest, hlink, -⟩ := h.next
  constructor
  · rintro rfl
    simp [firstLink] at hlink
  · rintro rfl
    simp [firstLink] at hlink

/-- A walk along the rest of a target that has no end. -/
theorem AlongTarget.loops (h : fs.AlongTarget start done trail kept c)
    (hups : fs.UpsLeadBack trail (some c) names) (hloops : fs.Loops c names) :
    fs.Loops [] (lexicalFrom kept names) ∧ ∀ rest d t,
      fs.Meets [] (lexicalFrom kept names ++ rest) d t → fs.Meets start (done ++ names) d t := by
  induction names generalizing done trail kept c with
  | nil =>
    obtain ⟨dir, target, rest, hlink, -⟩ := hloops.next
    cases hlink
  | cons n names ih =>
    rcases Loops.of_append (a := [n]) hloops with ⟨met, m, hn, hrest⟩ | hn
    · obtain ⟨trail', kept', h', hups', heq⟩ := h.step hups hn
      rw [heq, List.append_cons]
      exact ih h' hups' hrest
    · -- the walk gets no further than `n`, so that `n` is kept
      obtain ⟨hdot, hdotdot⟩ := ne_of_loops hn
      obtain ⟨-, met, met₀, hdone, hkept, hsub⟩ := h
      have hlost := (upsLeadBack_name hdot hdotdot).mp hups none (leads_of_loops hn)
      obtain ⟨ms, hms⟩ : ∃ ms, lexicalFrom (kept ++ [n] ++ []) names = kept ++ [n] ++ ms :=
        exists_lexicalFrom_eq hlost
      rw [List.append_nil] at hms
      rw [lexicalFrom_name hdot hdotdot, hms]
      refine ⟨(hkept.loops hn).append ms, fun rest d t hmeets => ?_⟩
      rw [List.append_assoc, List.append_assoc] at hmeets
      rcases hmeets.of_append with hmeets | ⟨met', m, hm, hmeets⟩
      · rw [hkept.meets_iff] at hmeets
        exact (hdone.meets_iff.mpr (hsub.subset hmeets)).append _
      · obtain ⟨-, rfl⟩ := hm.unique hkept
        rcases hmeets.of_append with hmeets | ⟨met', m', hm', -⟩
        · rw [List.append_cons]
          exact (hdone.meets_append hmeets).append _
        · exact absurd hn hm'.not_loops

/-- A walk by way of a straight target is one by way of its canonical form, with no other links. -/
theorem Straight.walks (h : fs.Straight dir target) (hdir : fs.entry dir = some .directory)
    (hnames : ∀ n ∈ dir, IsFileName n)
    (hwalks : fs.Walks (linkStart dir target) (components target ++ rest) met l) :
    ∃ met', fs.Walks [] (lexicalNames dir target ++ rest) met' l ∧ met'.Sublist met := by
  obtain ⟨hdir', hnames'⟩ := linkStart_spec target hdir hnames
  obtain ⟨met₁, met₂, m, rfl, h₁, h₂⟩ := hwalks.of_append
  obtain ⟨met', met₀, h', h₀, hsub⟩ := (alongTarget_nil hdir' hnames').walks h h₁
  obtain ⟨rfl, -⟩ := h₁.unique h'
  exact ⟨met₀ ++ met₂, h₀.append h₂, hsub.append_right met₂⟩

/-- Where a walk by way of a straight target has no end, one by way of its canonical form has none, and
meets no other links. -/
theorem Straight.loops (h : fs.Straight dir target) (hdir : fs.entry dir = some .directory)
    (hnames : ∀ n ∈ dir, IsFileName n)
    (hloops : fs.Loops (linkStart dir target) (components target ++ rest)) :
    fs.Loops [] (lexicalNames dir target ++ rest) ∧ ∀ d t,
      fs.Meets [] (lexicalNames dir target ++ rest) d t →
        fs.Meets (linkStart dir target) (components target ++ rest) d t := by
  obtain ⟨hdir', hnames'⟩ := linkStart_spec target hdir hnames
  have hstart := alongTarget_nil hdir' hnames'
  rcases hloops.of_append with ⟨met, m, hm, hrest⟩ | hloops
  · obtain ⟨met', met₀, h', h₀, hsub⟩ := hstart.walks h hm
    obtain ⟨rfl, -⟩ := hm.unique h'
    refine ⟨h₀.loops hrest, fun d t hmeets => ?_⟩
    rcases hmeets.of_append with hmeets | ⟨met', m', hm', hmeets⟩
    · rw [lexicalNames_eq, h₀.meets_iff] at hmeets
      exact (hm.meets_iff.mpr (hsub.subset hmeets)).append rest
    · obtain ⟨-, rfl⟩ := hm'.unique h₀
      exact hm.meets_append hmeets
  · obtain ⟨hlex, hmeets⟩ := hstart.loops h hloops
    exact ⟨hlex.append rest, fun d t hd => (hmeets rest d t hd).append rest⟩

/-! ### Straight targets -/

/-- A name that is no link is walked by appending it. -/
theorem walks_name (hdot : n ≠ str ".") (hdotdot : n ≠ str "..") (h : fs.Walks c [n] [] m) :
    m = c ++ [n] := by
  cases h with
  | last h =>
    rw [walk, walkVia] at h
    split_ifs at h
    split at h
    · cases h
    · cases h
    · exact (Option.some.inj h).symm

/-- A walk without links. -/
theorem walks_names (hnames : ∀ n ∈ names, n ≠ str "." ∧ n ≠ str "..") (h : fs.Walks c names [] m) :
    m = c ++ names := by
  induction names generalizing c with
  | nil =>
    cases h with
    | last h => rw [List.append_nil]; exact (Option.some.inj h).symm
  | cons n names ih =>
    obtain ⟨met₁, met₂, m₁, hmet, h₁, h₂⟩ := Walks.of_append (a := [n]) h
    obtain ⟨rfl, rfl⟩ := List.nil_eq_append_iff.mp hmet
    obtain ⟨hdot, hdotdot⟩ := hnames n List.mem_cons_self
    obtain rfl := walks_name hdot hdotdot h₁
    rw [ih (fun k hk => hnames k (List.mem_cons_of_mem _ hk)) h₂, List.append_assoc,
      List.singleton_append]

/-- A name is looked up in a directory. -/
theorem directory_of_walks (h : fs.Walks c (n :: names) met m) : fs.entry c = some .directory := by
  by_contra hdir
  cases h with
  | last h =>
    rw [walk, walkVia, if_neg hdir] at h
    cases h
  | link hlink _ =>
    rw [firstLink, if_neg hdir] at hlink
    cases hlink

/-- Without `..` there is nothing to lead back. -/
theorem upsLeadBack_of_notMem (h : str ".." ∉ names) : fs.UpsLeadBack trail cur names := by
  induction names generalizing trail cur with
  | nil => cases trail <;> trivial
  | cons n names ih =>
    rw [List.mem_cons, not_or] at h
    by_cases hdot : n = str "."
    · subst hdot
      exact upsLeadBack_dot.mpr (ih h.2)
    · exact (upsLeadBack_name hdot fun heq => h.1 heq.symm).mpr fun _ _ => ih h.2

/-- The places on the way to a location without links. -/
def Ancestors : List (Option Loc) → Loc → Prop
  | [], _ => True
  | back :: trail, c => back = some c.dropLast ∧ Ancestors trail c.dropLast

/-- Without links before them, two dots lead back. -/
theorem upsLeadBack_of_walks (htrail : Ancestors trail c)
    (h : ∀ before after, names = before ++ str ".." :: after → ∃ m, fs.Walks c before [] m) :
    fs.UpsLeadBack trail (some c) names := by
  induction names generalizing trail c with
  | nil => cases trail <;> trivial
  | cons n names ih =>
    -- what is behind `n`
    have hnext : ∀ {m}, (∀ m', fs.Walks c [n] [] m' → m' = m) → ∀ before after,
        names = before ++ str ".." :: after → ∃ m', fs.Walks m before [] m' := by
      intro m hn before after hsplit
      obtain ⟨m', hm'⟩ := h (n :: before) after (by rw [hsplit, List.cons_append])
      obtain ⟨met₁, met₂, m₁, hmet, h₁, h₂⟩ := Walks.of_append (a := [n]) hm'
      obtain ⟨rfl, rfl⟩ := List.nil_eq_append_iff.mp hmet
      exact ⟨m', hn m₁ h₁ ▸ h₂⟩
    by_cases hdot : n = str "."
    · subst hdot
      exact upsLeadBack_dot.mpr (ih htrail (hnext fun _ => walks_dot))
    by_cases hdotdot : n = str ".."
    · subst hdotdot
      have hup := hnext fun _ hm => (walks_dotdot hm).1
      cases trail with
      | nil => exact upsLeadBack_dotdot_nil.mpr (ih trivial hup)
      | cons back trail =>
        obtain ⟨rfl, htrail⟩ := htrail
        exact upsLeadBack_dotdot_cons.mpr ⟨rfl, ih htrail hup⟩
    by_cases hmem : str ".." ∈ names
    · obtain ⟨before, after, hsplit⟩ := List.append_of_mem hmem
      obtain ⟨m', hm'⟩ := h (n :: before) after (by rw [hsplit, List.cons_append])
      obtain ⟨met₁, met₂, m, hmet, hm, -⟩ := Walks.of_append (a := [n]) hm'
      obtain ⟨rfl, rfl⟩ := List.nil_eq_append_iff.mp hmet
      refine (upsLeadBack_name hdot hdotdot).mpr fun next hleads => ?_
      obtain rfl := hleads.unique (leads_of_walks hm)
      obtain rfl := walks_name hdot hdotdot hm
      exact ih ⟨by rw [List.dropLast_concat], by rwa [List.dropLast_concat]⟩
        (hnext fun _ => walks_name hdot hdotdot)
    · exact (upsLeadBack_name hdot hdotdot).mpr fun _ _ => upsLeadBack_of_notMem hmem

/-- A target is straight if no `..` in it stands behind the name of a link. -/
theorem straight_of_walks (h : ∀ before after, components target = before ++ str ".." :: after →
    ∃ m, fs.Walks (linkStart dir target) before [] m) : fs.Straight dir target :=
  upsLeadBack_of_walks trivial h

/-- A single `..` behind the name of a link leads back if the link leads to something in the same
directory, and only then. -/
theorem upsLeadBack_iff_of_single {before after : List Str}
    (hbefore : ∀ m ∈ before, m ≠ str "." ∧ m ≠ str "..") (hdot : n ≠ str ".") (hdotdot : n ≠ str "..")
    (hafter : str ".." ∉ after) (hwalk : fs.Walks start before [] c) (hn : fs.Walks c [n] met m) :
    fs.UpsLeadBack trail (some start) (before ++ n :: str ".." :: after) ↔ m.dropLast = c := by
  induction before generalizing trail start with
  | nil =>
    obtain rfl : c = start := by
      cases hwalk with
      | last hwalk => exact (Option.some.inj hwalk).symm
    rw [List.nil_append, upsLeadBack_name hdot hdotdot]
    constructor
    · intro h
      exact Option.some.inj (upsLeadBack_dotdot_cons.mp (h _ (leads_of_walks hn))).1
    · rintro rfl next hleads
      obtain rfl := hleads.unique (leads_of_walks hn)
      exact upsLeadBack_dotdot_cons.mpr ⟨rfl, upsLeadBack_of_notMem hafter⟩
  | cons k before ih =>
    obtain ⟨met₁, met₂, m₁, hmet, h₁, h₂⟩ := Walks.of_append (a := [k]) hwalk
    obtain ⟨rfl, rfl⟩ := List.nil_eq_append_iff.mp hmet
    obtain ⟨hk, hk'⟩ := hbefore k List.mem_cons_self
    rw [List.cons_append, upsLeadBack_name hk hk']
    have hrest : ∀ trail, fs.UpsLeadBack trail (some m₁) (before ++ n :: str ".." :: after) ↔
        m.dropLast = c := fun _ => ih (fun m hm => hbefore m (List.mem_cons_of_mem _ hm)) h₂
    constructor
    · exact fun h => (hrest _).mp (h _ (leads_of_walks h₁))
    · intro hm next hleads
      obtain rfl := hleads.unique (leads_of_walks h₁)
      exact (hrest _).mpr hm

end FileSystem

end Nix
