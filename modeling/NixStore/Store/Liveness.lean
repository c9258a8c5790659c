import NixStore.Store.Graph

/-!
# Liveness

What the garbage collector is for, in terms of the graph of the store.  `Live` is the least set of
paths that contains the roots and is closed under references and, depending on the settings, under
outputs and derivers.  `Kept` differs from it in one rule: only derivers of valid paths are kept, and
not those of a root that is not valid yet.  A path can only be deleted together with its `Component`,
the paths whose life would keep it alive through the two settings; `DependsOn` is the order in which
components have to be considered.
-/

namespace Nix

open Relation

/-- The settings `gc-keep-outputs` and `gc-keep-derivations`. -/
structure KeepFlags where
  gcKeepOutputs : Bool
  gcKeepDerivations : Bool
deriving DecidableEq

namespace StoreGraph

/-- The least set that contains the roots and is closed under references, valid outputs of live
derivations if outputs are kept, and valid derivers of live paths if derivations are kept. -/
inductive Live (g : StoreGraph) (k : KeepFlags) (roots : Set Path) : Path → Prop
  | root {p : Path} : p ∈ roots → Live g k roots p
  | reference {p q : Path} : Live g k roots p → g.refers p q → Live g k roots q
  | output {d o : Path} : k.gcKeepOutputs = true → Live g k roots d → g.derives d o →
      o ∈ g.valid → Live g k roots o
  | deriver {d o : Path} : k.gcKeepDerivations = true → Live g k roots o → g.derives d o →
      Live g k roots d

/-- As `Live`, but only valid paths keep their derivers. -/
inductive Kept (g : StoreGraph) (k : KeepFlags) (roots : Set Path) : Path → Prop
  | root {p : Path} : p ∈ roots → Kept g k roots p
  | reference {p q : Path} : Kept g k roots p → g.refers p q → Kept g k roots q
  | output {d o : Path} : k.gcKeepOutputs = true → Kept g k roots d → g.derives d o →
      o ∈ g.valid → Kept g k roots o
  | deriver {d o : Path} : k.gcKeepDerivations = true → Kept g k roots o → o ∈ g.valid →
      g.derives d o → Kept g k roots d

/-- `q` keeps `p` alive by one of the settings. -/
def KeptBy (g : StoreGraph) (k : KeepFlags) (p q : Path) : Prop :=
  (k.gcKeepDerivations = true ∧ g.derives p q ∧ q ∈ g.valid) ∨
    (k.gcKeepOutputs = true ∧ g.derives q p)

/-- The paths that have to be garbage with `p` for the settings. -/
def Component (g : StoreGraph) (k : KeepFlags) (p : Path) : Set Path :=
  {q | ReflTransGen (g.KeptBy k) p q}

/-- `q` is outside of the component of `p` and refers to a path in it, so that `q` has to be garbage
first. -/
def DependsOn (g : StoreGraph) (k : KeepFlags) (p q : Path) : Prop :=
  q ∉ g.Component k p ∧ ∃ x ∈ g.Component k p, g.refers q x

variable {g : StoreGraph} {k : KeepFlags} {roots D : Set Path} {p q : Path}

/-! ### Kept paths -/

/-- What is kept is live. -/
theorem Kept.live (h : g.Kept k roots p) : g.Live k roots p := by
  induction h with
  | root hr => exact .root hr
  | reference _ href ih => exact .reference ih href
  | output hk _ hder hval ih => exact .output hk ih hder hval
  | deriver hk _ _ hder ih => exact .deriver hk ih hder

/-- If all roots are valid, or all declared outputs that are live, nothing else is live. -/
theorem Live.kept (hout : k.gcKeepDerivations = true → ∀ d o, g.derives d o → g.Live k roots o →
    o ∈ g.valid) (h : g.Live k roots p) : g.Kept k roots p := by
  induction h with
  | root hr => exact .root hr
  | reference _ href ih => exact .reference ih href
  | output hk _ hder hval ih => exact .output hk ih hder hval
  | deriver hk ho hder ih => exact .deriver hk ih (hout hk _ _ hder ho) hder

/-- With valid roots, what is live is kept and valid. -/
theorem Live.kept_of_roots_valid (hroots : ∀ r ∈ roots, r ∈ g.valid) (h : g.Live k roots p) :
    g.Kept k roots p ∧ p ∈ g.valid := by
  induction h with
  | root hr => exact ⟨.root hr, hroots _ hr⟩
  | reference _ href ih => exact ⟨.reference ih.1 href, (g.mem_valid_of_refers href).2⟩
  | output hk _ hder hval ih => exact ⟨.output hk ih.1 hder hval, hval⟩
  | deriver hk _ hder ih => exact ⟨.deriver hk ih.1 ih.2 hder, g.mem_valid_of_derives hder⟩

/-- A kept path is kept by one of the roots. -/
theorem Kept.exists_root (h : g.Kept k roots p) : ∃ r ∈ roots, g.Kept k {r} p := by
  induction h with
  | root hr => exact ⟨_, hr, .root rfl⟩
  | reference _ href ih =>
    obtain ⟨r, hr, h⟩ := ih
    exact ⟨r, hr, .reference h href⟩
  | output hk _ hder hval ih =>
    obtain ⟨r, hr, h⟩ := ih
    exact ⟨r, hr, .output hk h hder hval⟩
  | deriver hk _ hval hder ih =>
    obtain ⟨r, hr, h⟩ := ih
    exact ⟨r, hr, .deriver hk h hval hder⟩

/-- What is kept is a root or valid. -/
theorem Kept.mem_valid (h : g.Kept k roots p) : p ∈ roots ∨ p ∈ g.valid := by
  cases h with
  | root hr => exact Or.inl hr
  | reference _ href => exact Or.inr (g.mem_valid_of_refers href).2
  | output _ _ _ hval => exact Or.inr hval
  | deriver _ _ _ hder => exact Or.inr (g.mem_valid_of_derives hder)

/-- Who keeps alive a kept path is kept, when it is valid. -/
theorem Kept.of_keptBy (h : g.Kept k roots q) (hp : p ∈ g.valid) (hpq : g.KeptBy k p q) :
    g.Kept k roots p := by
  rcases hpq with ⟨hk, hder, hval⟩ | ⟨hk, hder⟩
  · exact .deriver hk h hval hder
  · exact .output hk h hder hp

/-! ### Components -/

/-- A path is in its own component. -/
theorem mem_component_self : p ∈ g.Component k p := ReflTransGen.refl

/-- Components are closed under going on. -/
theorem component_trans {x : Path} (hq : q ∈ g.Component k p) (hx : x ∈ g.Component k q) :
    x ∈ g.Component k p := ReflTransGen.trans hq hx

/-- What a path keeps alive is valid. -/
theorem KeptBy.mem_valid (h : g.KeptBy k p q) : q ∈ g.valid := by
  rcases h with ⟨-, -, hval⟩ | ⟨-, hder⟩
  · exact hval
  · exact g.mem_valid_of_derives hder

/-- The component of a valid path is valid. -/
theorem mem_valid_of_mem_component (hp : p ∈ g.valid) (hq : q ∈ g.Component k p) : q ∈ g.valid := by
  rcases ReflTransGen.cases_tail hq with rfl | ⟨x, -, hxq⟩
  · exact hp
  · exact hxq.mem_valid

/-- A valid path is kept when anything in its component is. -/
theorem Kept.of_mem_component (h : g.Kept k roots q) (hp : p ∈ g.valid)
    (hq : q ∈ g.Component k p) : g.Kept k roots p := by
  induction hq using ReflTransGen.head_induction_on with
  | refl => exact h
  | head hpx hxq ih => exact (ih hpx.mem_valid).of_keptBy hp hpx

/-- What a path depends on is valid. -/
theorem dependsOn_mem_valid (h : g.DependsOn k p q) : q ∈ g.valid := by
  obtain ⟨-, x, -, hqx⟩ := h
  exact (g.mem_valid_of_refers hqx).1

/-- The dependencies between components have no cycle. -/
def ComponentsAcyclic (g : StoreGraph) (k : KeepFlags) : Prop :=
  ∀ p, ¬ TransGen (g.DependsOn k) p p

/-- With both settings off, components are single paths and depend on their referrers. -/
theorem componentsAcyclic_of_no_flags (hac : g.Acyclic) (ho : k.gcKeepOutputs = false)
    (hd : k.gcKeepDerivations = false) : g.ComponentsAcyclic k := by
  have hself : ∀ {x y}, x ∈ g.Component k y → x = y := by
    intro x y hx
    rcases ReflTransGen.cases_tail hx with rfl | ⟨z, -, hz⟩
    · rfl
    · simp [KeptBy, ho, hd] at hz
  intro p hp
  have hswap : TransGen (Function.swap g.ProperRef) p p := hp.lift id fun u v huv => by
    obtain ⟨hv, x, hx, hvx⟩ := huv
    obtain rfl := hself hx
    refine ⟨hvx, fun hxv : x = v => hv ?_⟩
    rw [← hxv]
    exact mem_component_self
  exact hac p (transGen_swap.mp hswap)

/-- Two paths that are in the component of each other or not related at all. -/
def ComponentsSymmetric (g : StoreGraph) (k : KeepFlags) : Prop :=
  ∀ p ∈ g.valid, ∀ q ∈ g.Component k p, p ∈ g.Component k q

/-- If none or both of the settings are on, components are symmetric. -/
theorem componentsSymmetric_of_flags (h : k.gcKeepOutputs = k.gcKeepDerivations) :
    g.ComponentsSymmetric k := by
  intro p hp q hq
  have hsymm : ∀ {x y}, x ∈ g.valid → g.KeptBy k x y → g.KeptBy k y x := by
    rintro x y hx (⟨hk, hder, -⟩ | ⟨hk, hder⟩)
    · exact Or.inr ⟨h ▸ hk, hder⟩
    · exact Or.inl ⟨h ▸ hk, hder, hx⟩
  induction hq with
  | refl => exact mem_component_self
  | tail hx hxy ih => exact .head (hsymm (mem_valid_of_mem_component hp hx) hxy) ih

/-- When components are symmetric, the component of a member is the component. -/
theorem ComponentsSymmetric.component_eq (h : g.ComponentsSymmetric k) (hp : p ∈ g.valid)
    (hq : q ∈ g.Component k p) : g.Component k q = g.Component k p := by
  ext x
  exact ⟨fun hx => component_trans hq hx, fun hx => component_trans (h p hp q hq) hx⟩

/-- When components are symmetric, the members of one depend on the same paths. -/
theorem ComponentsSymmetric.dependsOn_iff (h : g.ComponentsSymmetric k) (hp : p ∈ g.valid)
    (hq : q ∈ g.Component k p) {y : Path} : g.DependsOn k q y ↔ g.DependsOn k p y := by
  rw [DependsOn, DependsOn, h.component_eq hp hq]

/-- The component of a path that is not kept has no path in common with the components that have to be
garbage first. -/
def ComponentsApart (g : StoreGraph) (k : KeepFlags) (roots : Set Path) : Prop :=
  ∀ p ∈ g.valid, ¬ g.Kept k roots p → ∀ q, TransGen (g.DependsOn k) p q →
    Disjoint (g.Component k p) (g.Component k q)

/-- With a path, all of its component is kept. -/
def ComponentsUniform (g : StoreGraph) (k : KeepFlags) (roots : Set Path) : Prop :=
  ∀ p ∈ g.valid, g.Kept k roots p → ∀ q ∈ g.Component k p, g.Kept k roots q

/-- The condition on the dependencies is one on the components that contain no root. -/
def RootlessAcyclic (g : StoreGraph) (k : KeepFlags) (roots : Set Path) : Prop :=
  ∀ p, ¬ TransGen (fun p q => g.DependsOn k p q ∧ ∀ x ∈ g.Component k p, x ∉ roots) p p

/-- When no component lies on a cycle, none without roots does. -/
theorem ComponentsAcyclic.rootless (h : g.ComponentsAcyclic k) : g.RootlessAcyclic k roots :=
  fun p hp => h p (hp.lift id fun _ _ hpq => hpq.1)

/-- When components are symmetric and their dependencies acyclic, they are apart. -/
theorem ComponentsSymmetric.apart (h : g.ComponentsSymmetric k) (hac : g.ComponentsAcyclic k) :
    g.ComponentsApart k roots := by
  intro p hp _ q hpq
  rw [Set.disjoint_left]
  intro x hx hxq
  obtain ⟨y, -, hyq⟩ := TransGen.tail'_iff.mp hpq
  have hq := dependsOn_mem_valid hyq
  -- the components are equal, so that what `p` depends on depends on it
  have hcomp : g.Component k q = g.Component k p :=
    (h.component_eq hq hxq).symm.trans (h.component_eq hp hx)
  refine hac q ?_
  obtain ⟨z, hpz, hzq⟩ := TransGen.head'_iff.mp hpq
  have hqz : g.DependsOn k q z := by
    rwa [DependsOn, hcomp]
  exact .head' hqz hzq

/-! ### The graph while paths are removed -/

/-- What keeps a path alive without `D` does so with it. -/
theorem keptBy_of_without (h : (g.without D).KeptBy k p q) : g.KeptBy k p q := by
  rcases h with ⟨hk, hder, hval⟩ | ⟨hk, hder⟩
  · exact Or.inl ⟨hk, hder.1, hval.1⟩
  · exact Or.inr ⟨hk, hder.1⟩

/-- Outside `D` the same paths are kept alive. -/
theorem KeptBy.without (h : g.KeptBy k p q) (hp : p ∉ D) (hq : q ∉ D) :
    (g.without D).KeptBy k p q := by
  rcases h with ⟨hk, hder, hval⟩ | ⟨hk, hder⟩
  · exact Or.inl ⟨hk, ⟨hder, hp⟩, ⟨hval, hq⟩⟩
  · exact Or.inr ⟨hk, ⟨hder, hq⟩⟩

/-- Without `D` components are smaller. -/
theorem component_without_subset : (g.without D).Component k p ⊆ g.Component k p :=
  fun _ hq => ReflTransGen.mono (fun _ _ h => keptBy_of_without h) _ _ hq

/-- Without `D` a component outside `D` stays outside. -/
theorem notMem_of_mem_component_without (hp : p ∉ D) (hq : q ∈ (g.without D).Component k p) :
    q ∉ D := by
  rcases ReflTransGen.cases_tail hq with rfl | ⟨x, -, hxq⟩
  · exact hp
  · exact hxq.mem_valid.2

/-- Why the collector is safe although it asks a database that it is shrinking: if no kept path has
been removed, the component of `p` has no root, and no kept path outside refers to it, then nothing
in it is kept. -/
theorem not_kept_of_mem_component (hD : ∀ x ∈ D, ¬ g.Kept k roots x) (hp : p ∉ D)
    (hroots : ∀ x ∈ (g.without D).Component k p, x ∉ roots)
    (hrefs : ∀ y, (g.without D).DependsOn k p y → ¬ g.Kept k roots y) :
    ∀ x ∈ (g.without D).Component k p, ¬ g.Kept k roots x := by
  intro x hx hkept
  have hlive : ∀ {y}, g.Kept k roots y → y ∉ D := fun hy hyD => hD _ hyD hy
  -- the induction shows that a kept path is not in the component
  induction hkept with
  | root hr => exact hroots _ hx hr
  | @reference u v hu huv ih =>
    have hvD := notMem_of_mem_component_without hp hx
    exact hrefs u ⟨ih, v, hx, huv, hlive hu, hvD⟩ hu
  | @output d o hk hd hder hval ih =>
    exact ih (hx.tail (Or.inr ⟨hk, hder, hlive hd⟩))
  | @deriver d o hk ho hval hder ih =>
    have hdD := notMem_of_mem_component_without hp hx
    exact ih (hx.tail (Or.inl ⟨hk, ⟨hder, hdD⟩, hval, hlive ho⟩))

/-- A set that has the component of each of its members. -/
def KeepClosed (g : StoreGraph) (k : KeepFlags) (D : Set Path) : Prop :=
  ∀ p ∈ D, ∀ q, g.KeptBy k p q → q ∈ D

/-- A closed set has the components of its elements. -/
theorem KeepClosed.component_subset (h : g.KeepClosed k D) (hp : p ∈ D) :
    g.Component k p ⊆ D := by
  intro q hq
  induction hq with
  | refl => exact hp
  | tail _ hxq ih => exact h _ ih _ hxq

/-- The empty set is closed. -/
theorem keepClosed_empty : g.KeepClosed k ∅ := fun _ hp => absurd hp (Set.notMem_empty _)

/-- A component may be added to a closed set. -/
theorem KeepClosed.union_component (h : g.KeepClosed k D) :
    g.KeepClosed k (D ∪ g.Component k p) := by
  rintro x (hx | hx) q hxq
  · exact Or.inl (h x hx q hxq)
  · exact Or.inr (ReflTransGen.tail hx hxq)

/-- While whole components are removed, what is left of a component is what was not removed. -/
theorem KeepClosed.component_without (h : g.KeepClosed k D) (hp : p ∉ D) :
    (g.without D).Component k p = g.Component k p \ D := by
  ext q
  constructor
  · exact fun hq => ⟨component_without_subset hq, notMem_of_mem_component_without hp hq⟩
  · rintro ⟨hq, hqD⟩
    induction hq with
    | refl => exact mem_component_self
    | @tail x y _ hxy ih =>
      have hxD : x ∉ D := fun hx => hqD (h x hx y hxy)
      exact ReflTransGen.tail (ih hxD) (hxy.without hxD hqD)

/-- A set that has with a path all paths that keep it. -/
structure HasKeepers (g : StoreGraph) (k : KeepFlags) (D : Set Path) : Prop where
  keepClosed : g.KeepClosed k D
  referrers : ∀ w ∈ D, ∀ y, g.refers y w → y ∈ D

/-- A component whose dependants are in a set with its keepers may be added to it. -/
theorem HasKeepers.union_component (h : g.HasKeepers k D) (hdep : ∀ y, g.DependsOn k p y → y ∈ D) :
    g.HasKeepers k (D ∪ g.Component k p) where
  keepClosed := h.keepClosed.union_component
  referrers w hw y hyw := by
    rcases hw with hw | hw
    · exact Or.inl (h.referrers w hw y hyw)
    · by_cases hy : y ∈ g.Component k p
      · exact Or.inr hy
      · exact Or.inl (hdep y ⟨hy, w, hw, hyw⟩)

/-- A set with its keepers has the valid paths that keep its elements. -/
theorem HasKeepers.mem_of_kept (h : g.HasKeepers k D) {x z : Path} (hz : z ∈ g.valid)
    (hkept : g.Kept k {z} x) (hx : x ∈ D) : z ∈ D := by
  have hvalid : ∀ {p}, g.Kept k {z} p → p ∈ g.valid := fun hp => by
    rcases hp.mem_valid with rfl | hp
    · exact hz
    · exact hp
  induction hkept with
  | root hr => exact hr ▸ hx
  | reference _ href ih => exact ih (h.referrers _ hx _ href)
  | output hk _ hder _ ih => exact ih (h.keepClosed _ hx _ (Or.inr ⟨hk, hder⟩))
  | deriver hk _ hval hder ih => exact ih (h.keepClosed _ hx _ (Or.inl ⟨hk, hder, hval⟩))

/-- A set that has the dependants of a path has those further up. -/
theorem HasKeepers.mem_of_transGen (h : g.HasKeepers k D) (hdep : ∀ y, g.DependsOn k p y → y ∈ D)
    (hq : TransGen (g.DependsOn k) p q) : q ∈ D := by
  induction hq with
  | single hpq => exact hdep _ hpq
  | tail _ hxq ih =>
    obtain ⟨-, w, hw, hqw⟩ := hxq
    exact h.referrers w (h.keepClosed.component_subset ih hw) _ hqw

/-- What depends on a path outside a closed set does so in the whole graph. -/
theorem KeepClosed.dependsOn_of_without (h : g.KeepClosed k D) (hp : p ∉ D)
    (hq : (g.without D).DependsOn k p q) : g.DependsOn k p q := by
  obtain ⟨hq, x, hx, hqx, hqD, hxD⟩ := hq
  rw [h.component_without hp] at hq hx
  exact ⟨fun hq' => hq ⟨hq', hqD⟩, x, hx.1, hqx⟩

end StoreGraph

end Nix
