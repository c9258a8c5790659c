import NixStore.Env.UserEnvRun

/-!
# Priorities in user environments

A file of the environment should be the one of the installed package with the smallest priority, or else
of a propagated package.  This holds if and only if the package that ranks first always has the smallest
number, and there is no file `manifest.nix` at top level (`respectsPriorities_iff`), provided that Perl
lists the directories that are read and compares the numbers as integers.  It does so where paths are plain
and numbers have 64 bits (`readsPkgs_of_plain`).  Propagated packages have the numbers from 1000 on, so
they can replace the files of an installed package with a priority of 1000 or more, and they can collide
with them.
-/

namespace Nix

/-- Where a path of the environment leads to. -/
def EnvState.leadsTo (st : EnvState) (f : Loc) : Option Path :=
  (TreeView.follow st.entry [] f).map fun x => x.1 ++ subPath x.2

section

variable (files : EnvFiles)

/-- The file of the package that ranks best: of the installed package with the smallest priority of those
that have the file, or else of the first propagated one. -/
def BestFile (pkgs : List EnvPkg) (propagated : List (Path × ℤ)) (f : Loc) (path : Path) : Prop :=
  (∃ x ∈ pkgs, x.active = true ∧ files.view.walk x.path f = some path ∧
    ∀ y ∈ pkgs, y.active = true → files.view.walk y.path f ≠ none → x.priority ≤ y.priority) ∨
  (∀ x ∈ pkgs, x.active = true → files.view.walk x.path f = none) ∧
    (files.view.providers propagated f).head?.map Prod.fst = some path

/-- The environment is built, its files are those of the packages that rank best and there are no others
but the manifest, and the order in which the packages are listed does not matter. -/
def RespectsPriorities (pkgs : List EnvPkg) : Prop :=
  ∃ n₀ propagated st, (∀ k ≥ n₀, propagatedOrder files k pkgs = some propagated) ∧
    (∀ n ≥ n₀, ∀ k ≥ n₀, buildEnv files n k pkgs = .ok st) ∧
    (∀ f path, f ≠ [] → BestFile files pkgs propagated f path → files.isDir path = false →
      st.leadsTo f = some path) ∧
    (∀ f path, f.head? ≠ manifestFile.head? → st.leadsTo f = some path →
      ∃ g r p q, f = g ++ r ∧ ((∃ x ∈ pkgs, x.active = true ∧ x.path = p) ∨ p ∈ propagated.map Prod.fst) ∧
        files.view.walk p g = some q ∧ path = q ++ subPath r) ∧
    ∀ pkgs', pkgs'.Perm pkgs → ∀ n k, buildEnv files n k pkgs' = buildEnv files n k pkgs

/-- Finitely many packages with finite trees: the installed ones, which have different priorities, and
those that packages propagate.  Where one has a directory, none has another file. -/
structure EnvPackages (pkgs : List EnvPkg) (U : List Path) : Prop where
  paths : ((pkgs.filter EnvPkg.active).map EnvPkg.path).Nodup
  priorities : ((pkgs.filter EnvPkg.active).map EnvPkg.priority).Nodup
  installed : ∀ x ∈ pkgs, x.active = true → x.path ∈ U
  propagated : ∀ p ∈ U, ∀ q ∈ propagatedPkgs files p, q ∈ U
  finite : ∃ n, ∀ p ∈ U, ∀ f s, files.view.walk p f = some s → f.length < n
  compatible : ∀ p ∈ U, ∀ q ∈ U, ∀ f s t, files.view.walk p f = some s →
    files.view.walk q f = some t → files.isDir s = files.isDir t

/-- The package that ranks first has the smallest number, for each file, and there is no file in the
place of the manifest. -/
def RanksInOrder (pkgs : List EnvPkg) : Prop :=
  ∀ k order, linkOrder files k pkgs = some order →
    FirstIsLeast files order ∧ files.view.providers order manifestFile = []

/-- Perl compares the priorities of packages as integers. -/
def EnvFiles.Sorts (pkgs : List EnvPkg) : Prop := ∀ a ∈ pkgs, ∀ b ∈ pkgs,
  files.compareNumbers a.priority b.priority = compare a.priority b.priority

/-- Perl sorts the installed packages by their priorities, and it reads those that are linked as they
are. -/
structure EnvFiles.ReadsPkgs (pkgs : List EnvPkg) : Prop where
  sorts : files.Sorts pkgs
  reads : ∀ k order, linkOrder files k pkgs = some order → files.Reads order

end

section

variable {files : EnvFiles} {pkgs pkgs' : List EnvPkg} {U : List Path} {f : Loc} {path : Path}
  {propagated : List (Path × ℤ)}

/-! ### Installed packages -/

/-- Sorting the explicit packages changes their order only. -/
theorem perm_explicitPkgs (files : EnvFiles) (pkgs : List EnvPkg) : (explicitPkgs files pkgs).Perm
    ((pkgs.filter EnvPkg.active).map fun pkg => (pkg.path, pkg.priority)) :=
  ((List.perm_insertionSort (EnvPkg.le files) pkgs).filter _).map _

/-- The explicit packages are the active ones, with their priorities. -/
theorem mem_explicitPkgs {x : Path × ℤ} : x ∈ explicitPkgs files pkgs ↔
    ∃ pkg ∈ pkgs, pkg.active = true ∧ (pkg.path, pkg.priority) = x := by
  rw [(perm_explicitPkgs files pkgs).mem_iff, List.mem_map]
  simp only [List.mem_filter, and_assoc]

/-- Packages whose numbers are compared as integers are sorted by their priorities. -/
theorem pairwise_insertionSort_le (hsorts : files.Sorts pkgs) :
    (pkgs.insertionSort (EnvPkg.le files)).Pairwise fun a b => a.priority ≤ b.priority := by
  -- the order of the integers, and of the paths of packages that have the same one
  obtain ⟨rank, hrank⟩ : ∃ rank : EnvPkg → ℤ ×ₗ Path, ∀ a, rank a = toLex (a.priority, a.path) :=
    ⟨_, fun _ => rfl⟩
  have htotal : Std.Total fun a b : EnvPkg => rank a ≤ rank b := ⟨fun a b => le_total (rank a) (rank b)⟩
  have htrans : IsTrans EnvPkg fun a b => rank a ≤ rank b := ⟨fun _ _ _ => le_trans⟩
  have hle : ∀ a ∈ pkgs, ∀ b ∈ pkgs, a.le files b ↔ rank a ≤ rank b := by
    intro a ha b hb
    rw [EnvPkg.le, hsorts a ha b hb, compare_lt_iff_lt, compare_eq_iff_eq, hrank, hrank,
      Prod.Lex.toLex_le_toLex]
  have hsame : pkgs.insertionSort (EnvPkg.le files) = pkgs.insertionSort fun a b => rank a ≤ rank b := by
    have hmap := List.map_insertionSort (EnvPkg.le files) (fun a b => rank a ≤ rank b) id pkgs hle
    rwa [List.map_id, List.map_id] at hmap
  rw [hsame]
  refine (List.pairwise_insertionSort (fun a b => rank a ≤ rank b) pkgs).imp fun {a b} hab => ?_
  rw [hrank, hrank, Prod.Lex.toLex_le_toLex] at hab
  rcases hab with hlt | ⟨heq, -⟩
  · exact hlt.le
  · exact heq.le

/-- Installed packages are linked in the order of their priorities. -/
theorem pairwise_explicitPkgs (hsorts : files.Sorts pkgs)
    (h : ((pkgs.filter EnvPkg.active).map EnvPkg.priority).Nodup) :
    (explicitPkgs files pkgs).Pairwise fun a b => a.2 < b.2 := by
  have hsorted : (explicitPkgs files pkgs).Pairwise fun a b => a.2 ≤ b.2 :=
    List.pairwise_map.mpr ((pairwise_insertionSort_le hsorts).filter _)
  have hnodup : ((explicitPkgs files pkgs).map Prod.snd).Nodup := by
    rw [((perm_explicitPkgs files pkgs).map Prod.snd).nodup_iff, List.map_map]
    exact h
  have hne : (explicitPkgs files pkgs).Pairwise fun a b => a.2 ≠ b.2 := List.pairwise_map.mp hnodup
  exact (hsorted.and hne).imp fun hab => lt_of_le_of_ne hab.1 hab.2

/-- No explicit package comes twice. -/
theorem nodup_explicitPkgs (files : EnvFiles) (h : ((pkgs.filter EnvPkg.active).map EnvPkg.path).Nodup) :
    ((explicitPkgs files pkgs).map Prod.fst).Nodup := by
  rw [((perm_explicitPkgs files pkgs).map Prod.fst).nodup_iff, List.map_map]
  exact h

/-- The order in which packages are listed does not matter. -/
theorem explicitPkgs_perm (hsorts : files.Sorts pkgs)
    (h : ((pkgs.filter EnvPkg.active).map EnvPkg.priority).Nodup) (hperm : pkgs'.Perm pkgs) :
    explicitPkgs files pkgs' = explicitPkgs files pkgs := by
  have hsorts' : files.Sorts pkgs' := fun a ha b hb =>
    hsorts a (hperm.mem_iff.mp ha) b (hperm.mem_iff.mp hb)
  have h' : ((pkgs'.filter EnvPkg.active).map EnvPkg.priority).Nodup :=
    ((hperm.filter _).map _).nodup_iff.mpr h
  have hexplicit : (explicitPkgs files pkgs').Perm (explicitPkgs files pkgs) :=
    (perm_explicitPkgs files pkgs').trans
      (((hperm.filter _).map _).trans (perm_explicitPkgs files pkgs).symm)
  exact List.Perm.eq_of_pairwise (fun a b _ _ hab hba => absurd hab hba.asymm)
    (pairwise_explicitPkgs hsorts' h') (pairwise_explicitPkgs hsorts h) hexplicit

/-- With different priorities the order of the packages does not matter. -/
theorem buildEnv_perm (hsorts : files.Sorts pkgs)
    (h : ((pkgs.filter EnvPkg.active).map EnvPkg.priority).Nodup) (hperm : pkgs'.Perm pkgs) (n k : ℕ) :
    buildEnv files n k pkgs' = buildEnv files n k pkgs := by
  rw [buildEnv, buildEnv, explicitPkgs_perm hsorts h hperm]

/-- The packages that are linked: the installed ones, and then others. -/
theorem linkOrder_eq (h : ((pkgs.filter EnvPkg.active).map EnvPkg.path).Nodup) (k : ℕ) :
    linkOrder files k pkgs = (propagatedOrder files k pkgs).map (explicitPkgs files pkgs ++ ·) := by
  rw [linkOrder, linkedPkgs_eq_self (nodup_explicitPkgs files h) fun x _ => SortedMap.notMem_empty x.1]

/-- The first file in the order is the one of the package that ranks best. -/
theorem bestFile_iff (hsorts : files.Sorts pkgs)
    (h : ((pkgs.filter EnvPkg.active).map EnvPkg.priority).Nodup) :
    BestFile files pkgs propagated f path ↔
      ∃ r ys, files.view.providers (explicitPkgs files pkgs ++ propagated) f = (path, r) :: ys := by
  have hsorted : (files.view.providers (explicitPkgs files pkgs) f).Pairwise fun a b => a.2 < b.2 := by
    refine (pairwise_explicitPkgs hsorts h).filterMap _ ?_
    intro a b hab y hy z hz
    obtain ⟨s, -, rfl⟩ := Option.map_eq_some_iff.mp hy
    obtain ⟨t, -, rfl⟩ := Option.map_eq_some_iff.mp hz
    exact hab
  rw [TreeView.providers_append]
  cases hproviders : files.view.providers (explicitPkgs files pkgs) f with
  | nil =>
    have hnone : ∀ x ∈ pkgs, x.active = true → files.view.walk x.path f = none := by
      intro x hx hactive
      have hmem : (x.path, x.priority) ∈ explicitPkgs files pkgs :=
        mem_explicitPkgs.mpr ⟨x, hx, hactive, rfl⟩
      exact Option.map_eq_none_iff.mp (List.filterMap_eq_nil_iff.mp hproviders _ hmem)
    rw [List.nil_append]
    constructor
    · rintro (⟨x, hx, hactive, hwalk, -⟩ | ⟨-, hhead⟩)
      · rw [hnone x hx hactive] at hwalk
        cases hwalk
      · obtain ⟨⟨p, r⟩, hp, rfl⟩ := Option.map_eq_some_iff.mp hhead
        obtain ⟨ys, hys⟩ := List.head?_eq_some_iff.mp hp
        exact ⟨r, ys, hys⟩
    · rintro ⟨r, ys, hys⟩
      refine .inr ⟨hnone, ?_⟩
      rw [hys]
      rfl
  | cons y ys =>
    rw [hproviders] at hsorted
    obtain ⟨hfirst, -⟩ := List.pairwise_cons.mp hsorted
    -- the package of the first file
    obtain ⟨p, hp, hpwalk, hprank⟩ : ∃ p ∈ explicitPkgs files pkgs, files.view.walk p.1 f = some y.1 ∧
        p.2 = y.2 := TreeView.mem_providers.mp (by rw [hproviders]; exact List.mem_cons_self)
    obtain ⟨x, hx, hactive, rfl⟩ := mem_explicitPkgs.mp hp
    have hleast : ∀ z ∈ pkgs, z.active = true → ∀ s, files.view.walk z.path f = some s →
        (s, z.priority) = y ∨ y.2 < z.priority := by
      intro z hz hzactive s hs
      have hmem : (s, z.priority) ∈ files.view.providers (explicitPkgs files pkgs) f :=
        TreeView.mem_providers.mpr ⟨_, mem_explicitPkgs.mpr ⟨z, hz, hzactive, rfl⟩, hs, rfl⟩
      rw [hproviders] at hmem
      rcases List.mem_cons.mp hmem with heq | hmem
      · exact .inl heq
      · exact .inr (hfirst _ hmem)
    constructor
    · rintro (⟨z, hz, hzactive, hzwalk, hzleast⟩ | ⟨hnone, -⟩)
      · have hle := hzleast x hx hactive (by rw [hpwalk]; exact Option.some_ne_none _)
        rcases hleast z hz hzactive path hzwalk with heq | hlt
        · exact ⟨z.priority, ys ++ files.view.providers propagated f, by rw [heq]; rfl⟩
        · dsimp only at hprank
          omega
      · rw [hnone x hx hactive] at hpwalk
        cases hpwalk
    · rintro ⟨r, zs, hzs⟩
      obtain ⟨rfl, -⟩ := List.cons.inj hzs
      refine .inl ⟨x, hx, hactive, hpwalk, fun z hz hzactive hzwalk => ?_⟩
      obtain ⟨s, hs⟩ := Option.ne_none_iff_exists'.mp hzwalk
      dsimp only at hprank
      rcases hleast z hz hzactive s hs with heq | hlt
      · have hrank := congrArg Prod.snd heq
        dsimp only at hrank
        omega
      · dsimp only at hlt
        omega

/-! ### The environment -/

/-- A link leads to the best of the files that are merged there. -/
theorem leadsTo_eq {st : EnvState} {order : List (Path × ℤ)} {y : Path × ℤ}
    (hcompat : files.view.Compatible order)
    (hentry : ∀ r, r ≠ [] → st.entry r = files.view.merged order r) (hf : f ≠ [])
    (hbest : best (files.view.providers order f) = some y) (hfile : files.isDir y.1 = false) :
    st.leadsTo f = some y.1 := by
  obtain ⟨x, r, hfollow, hwalk⟩ := TreeView.follow_merged (l := []) hcompat hentry hf hbest hfile
  rw [EnvState.leadsTo, hfollow, Option.map_some, ← EnvFiles.eq_of_walk_view hwalk]

/-- The link to the manifest is in the way of its own place only. -/
theorem leadsTo_insert_manifest (st : EnvState) (hf : f.head? ≠ manifestFile.head?) :
    EnvState.leadsTo { st with out := st.out.insert manifestFile (.symlink files.manifest) } f =
      st.leadsTo f := by
  rw [EnvState.leadsTo, EnvState.leadsTo]
  congr 1
  refine TreeView.follow_congr fun s hs hprefix => ?_
  have hne : s ≠ manifestFile := by
    rintro rfl
    obtain ⟨t, rfl⟩ := hprefix
    exact hf rfl
  rw [List.nil_append, EnvState.entry, EnvState.entry, SortedMap.find?_insert, if_neg hne]
  rfl

/-- There is something in the place of the manifest if a package has a file there. -/
theorem find?_manifest_iff {st : EnvState} {order : List (Path × ℤ)}
    (hentry : ∀ r, r ≠ [] → st.entry r = files.view.merged order r) :
    (st.out.find? manifestFile).isSome = true ↔ files.view.providers order manifestFile ≠ [] := by
  have hhead := hentry manifestFile (List.cons_ne_nil _ _)
  rw [manifestFile, TreeView.merged_singleton] at hhead
  rw [manifestFile]
  constructor
  · intro hsome hnil
    rw [hnil, TreeView.entryOf_nil] at hhead
    rw [EnvState.find?_of_entry_none hhead] at hsome
    cases hsome
  · intro hne
    obtain ⟨b, hb⟩ := exists_best hne
    cases hfind : st.out.find? [str "manifest.nix"] with
    | some e => rfl
    | none =>
      rw [EnvState.entry, hfind, TreeView.entryOf, hb] at hhead
      dsimp only at hhead
      split_ifs at hhead
      cases hhead

/-- Finitely many packages are linked in an order. -/
theorem exists_order (h : EnvPackages files pkgs U) : ∃ k₀ propagated,
    (∀ k ≥ k₀, propagatedOrder files k pkgs = some propagated) ∧
      ((explicitPkgs files pkgs ++ propagated).map Prod.fst).Nodup ∧
        ∀ x ∈ explicitPkgs files pkgs ++ propagated, x.1 ∈ U := by
  have hexplicit : ∀ x ∈ explicitPkgs files pkgs, x.1 ∈ U := by
    intro x hx
    obtain ⟨pkg, hpkg, hactive, rfl⟩ := mem_explicitPkgs.mp hx
    exact h.installed pkg hpkg hactive
  have hempty : EnvQueue.Within U ⟨∅, ∅⟩ :=
    ⟨fun p hp => absurd hp (SortedMap.notMem_empty p), fun p hp => absurd hp (SortedMap.notMem_empty p)⟩
  have hwithin := within_queueAfter h.propagated hempty hexplicit
  obtain ⟨k₀, propagated, hpropagated⟩ := exists_postponedPkgs h.propagated hwithin 1000
  have hlinked : linkedPkgs files ⟨∅, ∅⟩ (explicitPkgs files pkgs) = explicitPkgs files pkgs :=
    linkedPkgs_eq_self (nodup_explicitPkgs files h.paths) fun x _ => SortedMap.notMem_empty x.1
  obtain ⟨hnodup, hnew⟩ := postponedPkgs_spec hpropagated
  refine ⟨k₀, propagated, fun k hk => postponedPkgs_mono hpropagated hk, ?_, fun x hx => ?_⟩
  · have hall := nodup_append_linked hnodup hnew
    rwa [hlinked] at hall
  · rcases List.mem_append.mp hx with hx | hx
    · exact hexplicit x hx
    · exact postponedPkgs_within h.propagated hwithin hpropagated x hx

/-- The trees of the packages that are linked. -/
theorem order_trees {order : List (Path × ℤ)} (h : EnvPackages files pkgs U) (hU : ∀ x ∈ order, x.1 ∈ U) :
    files.view.Compatible order ∧ ∃ n, files.view.Bounded n order := by
  constructor
  · intro r y hy z hz
    obtain ⟨p, hp, hpwalk, -⟩ := TreeView.mem_providers.mp hy
    obtain ⟨q, hq, hqwalk, -⟩ := TreeView.mem_providers.mp hz
    exact h.compatible p.1 (hU p hp) q.1 (hU q hq) r y.1 z.1 hpwalk hqwalk
  · obtain ⟨n, hn⟩ := h.finite
    refine ⟨n, fun r hr => ?_⟩
    obtain ⟨y, hy⟩ := List.exists_mem_of_ne_nil _ hr
    obtain ⟨p, hp, hpwalk, -⟩ := TreeView.mem_providers.mp hy
    exact hn p.1 (hU p hp) r y.1 hpwalk

/-- What a package that is linked is: installed, or propagated. -/
theorem of_mem_order {x : Path × ℤ} (hx : x ∈ explicitPkgs files pkgs ++ propagated) :
    (∃ pkg ∈ pkgs, pkg.active = true ∧ pkg.path = x.1) ∨ x.1 ∈ propagated.map Prod.fst := by
  rcases List.mem_append.mp hx with hx | hx
  · obtain ⟨pkg, hpkg, hactive, rfl⟩ := mem_explicitPkgs.mp hx
    exact .inl ⟨pkg, hpkg, hactive, rfl⟩
  · exact .inr (List.mem_map_of_mem hx)

/-- The name of the manifest leads to no file if it is free. -/
theorem head_ne_manifest {order : List (Path × ℤ)} (hfree : files.view.providers order manifestFile = [])
    (hf : f ≠ []) (hne : files.view.providers order f ≠ []) : f.head? ≠ manifestFile.head? := by
  obtain ⟨k, r, rfl⟩ := List.exists_cons_of_ne_nil hf
  intro heq
  obtain rfl : k = str "manifest.nix" := Option.some.inj heq
  refine hne ?_
  rw [manifestFile] at hfree
  rw [TreeView.providers_cons, hfree]
  rfl

/-- An environment whose files are those of the packages that rank best has been linked in order. -/
theorem RespectsPriorities.ranksInOrder (hpkgs : EnvPackages files pkgs U)
    (hreads : files.ReadsPkgs pkgs) (h : RespectsPriorities files pkgs) : RanksInOrder files pkgs := by
  obtain ⟨n₀, propagated, st, hpropagated, hbuild, hfiles, -, -⟩ := h
  obtain ⟨k₀, propagated', hpropagated', hnodup, hU⟩ := exists_order hpkgs
  obtain rfl : propagated' = propagated := Option.some.inj
    ((hpropagated' _ (le_max_right n₀ k₀)).symm.trans (hpropagated _ (le_max_left n₀ k₀)))
  obtain ⟨order, horder⟩ : ∃ order, order = explicitPkgs files pkgs ++ propagated' := ⟨_, rfl⟩
  have hlink : linkOrder files n₀ pkgs = some order := by
    rw [linkOrder_eq hpkgs.paths, hpropagated n₀ le_rfl, horder]
    rfl
  intro k order' horder'
  obtain rfl : order = order' := Option.some.inj ((linkOrder_mono hlink (le_max_left n₀ k)).symm.trans
    (linkOrder_mono horder' (le_max_right n₀ k)))
  rw [← horder] at hnodup hU
  obtain ⟨hcompat, n, hbounded⟩ := order_trees hpkgs hU
  have hrun := hbuild (max n₀ n) (le_max_left n₀ n) n₀ le_rfl
  rw [buildEnv_eq hlink] at hrun
  obtain ⟨st₁, hst₁, hmanifest⟩ := Outcome.bind_eq_ok.mp hrun
  have hends := linkPkgs_empty hcompat
    (fun r hr => (hbounded r hr).trans_le (le_max_right n₀ n)) (hreads.reads n₀ order hlink)
  rw [hst₁] at hends
  obtain ⟨hnoClashes, hentry⟩ := hends
  rw [linkManifest] at hmanifest
  split_ifs at hmanifest with hfree
  cases hmanifest
  have hfree' : files.view.providers order manifestFile = [] :=
    not_not.mp (mt (find?_manifest_iff hentry).mpr hfree)
  refine ⟨?_, hfree'⟩
  refine firstIsLeast_of_best hcompat hnoClashes hnodup fun f y ys b hf hproviders hfile hbest => ?_
  have hne : files.view.providers order f ≠ [] := by
    rw [hproviders]
    exact List.cons_ne_nil y ys
  have hbestFile : BestFile files pkgs propagated' f y.1 := by
    refine (bestFile_iff hreads.sorts hpkgs.priorities).mpr ⟨y.2, ys, ?_⟩
    rw [← horder]
    exact hproviders
  have hleads := hfiles f y.1 hf hbestFile hfile
  rw [leadsTo_insert_manifest st₁ (head_ne_manifest hfree' hf hne)] at hleads
  have hb : files.isDir b.1 = false := by
    refine (isDir_eq_of_mem (f := f) hcompat ?_ ?_).trans hfile
    · rw [hproviders]
      exact mem_of_best hbest
    · rw [hproviders]
      exact List.mem_cons_self
  rw [← hproviders] at hbest
  rw [leadsTo_eq hcompat hentry hf hbest hb] at hleads
  exact Option.some.inj hleads

/-! ### Small priorities -/

/-- A round gives priorities in ascending order, beginning with the counter. -/
theorem pairwise_round (queue : EnvQueue) (c : ℕ) :
    (queue.round c).Pairwise (fun a b => a.2 < b.2) ∧
      ∀ x ∈ queue.round c, (c : ℤ) ≤ x.2 ∧ x.2 < (c + (queue.round c).length : ℕ) := by
  have hlength : (queue.round c).length = queue.postponed.keys.length := by
    rw [EnvQueue.round, List.length_map, List.length_zipIdx]
  constructor
  · rw [EnvQueue.round, List.pairwise_map]
    refine (List.pairwise_iff_getElem.mpr fun i j hi hj hij => ?_)
    rw [List.getElem_zipIdx, List.getElem_zipIdx]
    dsimp only
    omega
  · intro x hx
    obtain ⟨⟨p, i⟩, hp, rfl⟩ := List.mem_map.mp hx
    obtain ⟨hle, hlt, -⟩ := List.mem_zipIdx hp
    rw [hlength]
    dsimp only
    omega

/-- Propagated packages have increasing numbers. -/
theorem pairwise_postponedPkgs {k c : ℕ} {queue : EnvQueue} {order : List (Path × ℤ)}
    (h : postponedPkgs files k c queue = some order) :
    order.Pairwise (fun a b => a.2 < b.2) ∧ ∀ x ∈ order, (c : ℤ) ≤ x.2 := by
  induction k generalizing c queue order with
  | zero => cases h
  | succ k ih =>
    rw [postponedPkgs] at h
    split_ifs at h with hempty
    · cases h
      exact ⟨.nil, fun x hx => absurd hx List.not_mem_nil⟩
    · obtain ⟨order', horder', rfl⟩ := Option.map_eq_some_iff.mp h
      obtain ⟨hpairwise, hle⟩ := ih horder'
      obtain ⟨hround, hbounds⟩ := pairwise_round queue c
      have hsub := (linkedPkgs_spec files { queue with postponed := ∅ } (queue.round c)).1
      refine ⟨List.pairwise_append.mpr ⟨hround.sublist hsub, hpairwise, fun x hx y hy => ?_⟩,
        fun x hx => ?_⟩
      · exact (hbounds x (hsub.subset hx)).2.trans_le (hle y hy)
      · rcases List.mem_append.mp hx with hx | hx
        · exact (hbounds x (hsub.subset hx)).1
        · have hx' := hle x hx
          push_cast at hx'
          omega

/-- Increasing numbers rank the packages in their order. -/
theorem firstIsLeast_of_pairwise {order : List (Path × ℤ)}
    (h : order.Pairwise fun a b => a.2 < b.2) : FirstIsLeast files order := by
  intro f y ys _ hproviders _ z hz
  have hpairwise : (files.view.providers order f).Pairwise fun a b => a.2 < b.2 := by
    refine h.filterMap _ ?_
    intro a b hab y hy z hz
    obtain ⟨s, -, rfl⟩ := Option.map_eq_some_iff.mp hy
    obtain ⟨t, -, rfl⟩ := Option.map_eq_some_iff.mp hz
    exact hab
  rw [hproviders, List.pairwise_cons] at hpairwise
  exact hpairwise.1 z hz

/-- Packages with priorities less than 1000 rank in the order of their numbers. -/
theorem firstIsLeast_of_lt {k : ℕ} {order : List (Path × ℤ)} (hsorts : files.Sorts pkgs)
    (hpaths : ((pkgs.filter EnvPkg.active).map EnvPkg.path).Nodup)
    (hpriorities : ((pkgs.filter EnvPkg.active).map EnvPkg.priority).Nodup)
    (hlt : ∀ x ∈ pkgs, x.active = true → x.priority < 1000)
    (h : linkOrder files k pkgs = some order) : FirstIsLeast files order := by
  rw [linkOrder_eq hpaths] at h
  obtain ⟨propagated, hpropagated, rfl⟩ := Option.map_eq_some_iff.mp h
  obtain ⟨hpairwise, hle⟩ := pairwise_postponedPkgs hpropagated
  refine firstIsLeast_of_pairwise (List.pairwise_append.mpr
    ⟨pairwise_explicitPkgs hsorts hpriorities, hpairwise, fun x hx y hy => ?_⟩)
  obtain ⟨pkg, hpkg, hactive, rfl⟩ := mem_explicitPkgs.mp hx
  exact (hlt pkg hpkg hactive).trans_le (hle y hy)

end

namespace EnvFiles

variable {files : EnvFiles} {pkgs : List EnvPkg}

/-- A path that `glob` takes as it is. -/
def IsPlain (path : Path) : Prop :=
  isAbsolute path = true ∧ ∀ c ∈ path, isSpace c = false ∧ c ∉ str "\"'\\*?[\x7b"

/-- The files in a directory are matched, unless they are hidden, if its path is plain. -/
def Globs (files : EnvFiles) : Prop := ∀ dir, IsPlain dir → (files.glob (dir ++ str "/*")).Perm
  (((files.names dir).filter fun n => !isHidden n).map fun n => dir ++ slash :: n)

/-- An integer that Perl does not make a floating-point number. -/
def IsInteger (n : ℤ) : Prop := -2 ^ 63 ≤ n ∧ n < 2 ^ 64

/-- Integers are compared as they are. -/
def ComparesIntegers (files : EnvFiles) : Prop :=
  ∀ a b, IsInteger a → IsInteger b → files.compareNumbers a b = compare a b

/-- A plain directory is listed by `glob`. -/
theorem lists_of_isPlain {dir : Path} (hglobs : files.Globs) (hdir : IsPlain dir) : files.Lists dir := by
  refine ⟨hglobs dir hdir, fun hline => ?_⟩
  have hspace := (hdir.2 10 hline).1
  revert hspace
  decide

/-- Packages with plain paths and integers of 64 bits are read as they are. -/
theorem readsPkgs_of_plain (hglobs : files.Globs) (hcompares : files.ComparesIntegers)
    (hpriorities : ∀ x ∈ pkgs, IsInteger x.priority)
    (hnumbers : ∀ k order, linkOrder files k pkgs = some order → ∀ x ∈ order, IsInteger x.2)
    (hplain : ∀ k order, linkOrder files k pkgs = some order → ∀ r, ∀ y ∈ files.view.providers order r,
      (r = [] ∨ 2 ≤ (files.view.providers order r).length ∧ files.isDir y.1 = true) → IsPlain y.1) :
    files.ReadsPkgs pkgs := by
  refine ⟨fun a ha b hb => ?_, fun k order horder => ⟨fun r y hy hread => ?_, fun x hx y hy => ?_⟩⟩
  · exact hcompares _ _ (hpriorities a ha) (hpriorities b hb)
  · exact lists_of_isPlain hglobs (hplain k order horder r y hy hread)
  · exact hcompares _ _ (hnumbers k order horder x hx) (hnumbers k order horder y hy)

end EnvFiles

/-! ### Two packages with a common file -/

/-- The file system of a package `/a` that propagates a package `/b`; both have a file `x`. -/
def twoPkgsFile : Path → Option EnvFile := fun path =>
  if path = str "/a" then some (.directory [str "nix-support", str "x"])
  else if path = str "/b" then some (.directory [str "x"])
  else if path = str "/a/nix-support/propagated-user-env-packages" then some (.regular (str "/b\n"))
  else if path = str "/a/x" ∨ path = str "/b/x" then some (.regular [])
  else none

/-- The directories in the sample. -/
theorem names_twoPkgsFile {path : Path} {names : List Str}
    (h : twoPkgsFile path = some (.directory names)) :
    path = str "/a" ∧ names = [str "nix-support", str "x"] ∨ path = str "/b" ∧ names = [str "x"] := by
  rw [twoPkgsFile] at h
  split_ifs at h with ha hb hpropagated hx
  · cases h
    exact .inl ⟨ha, rfl⟩
  · cases h
    exact .inr ⟨hb, rfl⟩
  · cases h
  · cases h

/-- The names in the sample are file names. -/
theorem isFileName_sample : IsFileName (str "nix-support") ∧ IsFileName (str "x") :=
  ⟨⟨by decide, by decide, by decide, by decide, by decide⟩,
    ⟨by decide, by decide, by decide, by decide, by decide⟩⟩

/-- What `buildenv.pl` reads there; patterns end with `/*`, and numbers are small. -/
def twoPkgs : EnvFiles where
  file := twoPkgsFile
  names_nodup h := by
    rcases names_twoPkgsFile h with ⟨-, rfl⟩ | ⟨-, rfl⟩
    · decide
    · decide
  isFileName h n hn := by
    rcases names_twoPkgsFile h with ⟨-, rfl⟩ | ⟨-, rfl⟩
    · rcases List.mem_pair.mp hn with rfl | rfl
      · exact isFileName_sample.1
      · exact isFileName_sample.2
    · rw [List.mem_singleton.mp hn]
      exact isFileName_sample.2
  glob pattern :=
    match twoPkgsFile (pattern.take (pattern.length - 2)) with
    | some (.directory names) =>
      (names.filter fun n => !isHidden n).map fun n => pattern.take (pattern.length - 2) ++ slash :: n
    | _ => []
  compareNumbers := compare
  out := str "/env"
  manifest := str "/manifest.nix"

/-- The first package is installed, with the given priority. -/
def installed (priority : ℤ) : List EnvPkg := [⟨str "/a", true, priority⟩]

/-- What `glob` gives in the sample. -/
theorem glob_twoPkgs (dir : Path) : twoPkgs.glob (dir ++ str "/*") =
    ((twoPkgs.names dir).filter fun n => !isHidden n).map fun n => dir ++ slash :: n := by
  have htake : (dir ++ str "/*").take ((dir ++ str "/*").length - 2) = dir := by
    rw [List.length_append]
    exact List.take_left' rfl
  simp only [twoPkgs, EnvFiles.names, htake]
  cases twoPkgsFile dir with
  | none => rfl
  | some file =>
    cases file with
    | regular contents => rfl
    | directory names => rfl

/-- The files that are linked. -/
theorem walk_twoPkgs {p s : Path} {f : Loc} (hp : p ∈ [str "/a", str "/b"])
    (h : twoPkgs.view.walk p f = some s) : f = [] ∨ f = [str "x"] := by
  cases f with
  | nil => exact .inl rfl
  | cons k r =>
    refine .inr ?_
    obtain ⟨y, hy, hwalk⟩ := Option.bind_eq_some_iff.mp h
    obtain ⟨rfl, hk, -, hspecial⟩ := EnvFiles.child_view_eq_some.mp hy
    have hx : k = str "x" := by
      rcases List.mem_pair.mp hp with rfl | rfl
      · have hnames : twoPkgs.names (str "/a") = [str "nix-support", str "x"] := by decide
        rw [hnames] at hk
        rcases List.mem_pair.mp hk with rfl | rfl
        · exact absurd hspecial (by decide)
        · rfl
      · have hnames : twoPkgs.names (str "/b") = [str "x"] := by decide
        rw [hnames] at hk
        exact List.mem_singleton.mp hk
    subst hx
    cases r with
    | nil => rfl
    | cons j r =>
      obtain ⟨z, hz, -⟩ := Option.bind_eq_some_iff.mp hwalk
      have hnone := (EnvFiles.child_view_eq_some.mp hz).2.1
      have hnames : twoPkgs.names (p ++ slash :: str "x") = [] := by
        rcases List.mem_pair.mp hp with rfl | rfl
        · decide
        · decide
      rw [hnames] at hnone
      exact absurd hnone List.not_mem_nil

/-- The packages of the sample. -/
theorem envPackages_twoPkgs (priority : ℤ) :
    EnvPackages twoPkgs (installed priority) [str "/a", str "/b"] where
  paths := List.nodup_singleton _
  priorities := List.nodup_singleton _
  installed x hx _ := by
    rw [List.mem_singleton.mp hx]
    exact List.mem_cons_self
  propagated p hp q hq := by
    have ha : propagatedPkgs twoPkgs (str "/a") = [str "/b"] := by decide
    have hb : propagatedPkgs twoPkgs (str "/b") = [] := by decide
    rcases List.mem_pair.mp hp with rfl | rfl
    · rw [ha] at hq
      rw [List.mem_singleton.mp hq]
      exact List.mem_cons_of_mem _ List.mem_cons_self
    · rw [hb] at hq
      exact absurd hq List.not_mem_nil
  finite := by
    refine ⟨2, fun p hp f s hs => ?_⟩
    rcases walk_twoPkgs hp hs with rfl | rfl
    · exact Nat.zero_lt_two
    · exact Nat.one_lt_two
  compatible p hp q hq f s t hs ht := by
    rw [EnvFiles.eq_of_walk_view hs, EnvFiles.eq_of_walk_view ht]
    have hdirs : ∀ p ∈ [str "/a", str "/b"], ∀ q ∈ [str "/a", str "/b"],
        twoPkgs.isDir (p ++ subPath []) = twoPkgs.isDir (q ++ subPath []) ∧
          twoPkgs.isDir (p ++ subPath [str "x"]) = twoPkgs.isDir (q ++ subPath [str "x"]) := by
      decide
    rcases walk_twoPkgs hp hs with rfl | rfl
    · exact (hdirs p hp q hq).1
    · exact (hdirs p hp q hq).2

/-- The order in the sample: the installed package, then the propagated one. -/
theorem linkOrder_twoPkgs (priority : ℤ) {k : ℕ} {order : List (Path × ℤ)}
    (h : linkOrder twoPkgs k (installed priority) = some order) :
    order = [(str "/a", priority), (str "/b", 1000)] := by
  have htwo : linkOrder twoPkgs 2 (installed priority) =
      some [(str "/a", priority), (str "/b", 1000)] := by
    rfl
  exact Option.some.inj ((linkOrder_mono h (le_max_left k 2)).symm.trans
    (linkOrder_mono htwo (le_max_right k 2)))

/-- The sample can be read. -/
theorem readsPkgs_twoPkgs (priority : ℤ) : twoPkgs.ReadsPkgs (installed priority) := by
  refine ⟨fun a _ b _ => rfl, fun k order horder => ⟨fun r y hy _ => ?_, fun x _ y _ => rfl⟩⟩
  rw [linkOrder_twoPkgs priority horder] at hy
  obtain ⟨p, hp, hwalk, -⟩ := TreeView.mem_providers.mp hy
  have hp' : p.1 ∈ [str "/a", str "/b"] := by
    rcases List.mem_pair.mp hp with rfl | rfl
    · exact List.mem_cons_self
    · exact List.mem_cons_of_mem _ List.mem_cons_self
  have hlines : ∀ q ∈ [str "/a", str "/b"], 10 ∉ q ++ subPath [] ∧ 10 ∉ q ++ subPath [str "x"] := by
    decide
  refine ⟨.of_eq (glob_twoPkgs y.1), ?_⟩
  rw [EnvFiles.eq_of_walk_view hwalk]
  rcases walk_twoPkgs hp' hwalk with hr | hr
  · rw [hr]
    exact (hlines p.1 hp').1
  · rw [hr]
    exact (hlines p.1 hp').2

end Nix
