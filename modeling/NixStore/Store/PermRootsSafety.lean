import NixStore.Lib.Fields
import NixStore.Store.PermRoots
import NixStore.Store.RootsPhases
import NixStore.Util.Base32

/-!
# Permanent roots protect paths

A process that makes a root for a path keeps its temporary root until the link is there and no collector
is left that has started earlier: `syncWithGC` waits for them.  A collector that starts later finds the
link, because there are directories on the way to it and links are not removed while they lead somewhere.
This needs that a collector which removes a link still finds the link there that it has looked at.
-/

set_option linter.unusedSectionVars false

namespace Nix

variable {π : Type} [DecidableEq π]

/-! ### Links -/

namespace LinkedFiles

variable {fs : LinkedFiles Inode} {l : Loc} {i : ℕ} {target : Str}

/-- A link is a name of a symbolic link. -/
theorem linkAt_eq_some_iff : fs.linkAt l = some (i, target) ↔
    fs.node l = some (.file i) ∧ fs.file i = .symlink target := by
  unfold linkAt
  constructor
  · intro h
    split at h
    · rename_i j hj
      split at h
      · rename_i t ht
        obtain ⟨rfl, rfl⟩ : j = i ∧ t = target := by simpa using h
        exact ⟨hj, ht⟩
      · cases h
    · cases h
  · rintro ⟨hnode, hfile⟩
    rw [hnode]
    dsimp only
    rw [hfile]

/-- A directory is what the tree has as one. -/
theorem isDirectory_iff : fs.isDirectory l = true ↔ ∃ w, fs.node l = some (.directory w) := by
  unfold isDirectory
  split
  · rename_i w hw
    exact iff_of_true rfl ⟨w, hw⟩
  · rename_i hno
    exact iff_of_false (by simp) fun ⟨w, hw⟩ => hno w hw

end LinkedFiles

/-! ### Names -/

namespace RootsEnv

variable {env : RootsEnv π} {p q : π}

/-- A temporary name is no hash. -/
theorem tempName_ne_autoName (rand : ℕ) (n : Str) (path : Path) :
    env.tempName p rand n ≠ env.autoName path := by
  intro h
  have hdot : '.'.toUInt8 ∈ env.tempName p rand n := by
    simp [tempName, str]
  rw [h] at hdot
  exact absurd (isBase32_printHash32 _ _ hdot) (by decide)

/-- Two processes have different temporary names. -/
theorem eq_of_tempName {rand rand' : ℕ} {n n' : Str}
    (h : env.tempName p rand n = env.tempName q rand' n') : p = q := by
  have hdash : ∀ k, '-'.toUInt8 ∉ decimal k := notMem_decimal (by decide)
  obtain ⟨hfront, -⟩ := Fields.last_inj (hdash rand) (hdash rand')
    (show (n ++ str ".tmp-" ++ decimal (env.pid p)) ++ '-'.toUInt8 :: decimal rand =
      (n' ++ str ".tmp-" ++ decimal (env.pid q)) ++ '-'.toUInt8 :: decimal rand' by
        simpa [tempName, str] using h)
  obtain ⟨-, hpid⟩ := Fields.last_inj (x := n ++ str ".tmp") (y := n' ++ str ".tmp")
    (hdash (env.pid p)) (hdash (env.pid q)) (by simpa [str] using hfront)
  exact env.pid_injective (decimal_injective hpid)

end RootsEnv

namespace HandoverState

variable {env : RootsEnv π} {s s' s'' : HandoverState π} {p c : π} {h : Handover} {dir : Loc}
  {n target : Str}

/-! ### Changes of files -/

/-- Files are listed in directories, and links have different numbers from those to come. -/
structure FilesOk (s : HandoverState π) : Prop where
  tree : s.fs.IsTree
  numbered : ∀ l i, s.fs.node l = some (.file i) → i < s.next

/-- Only these locations have changed, and what has been recorded for a link that is gone is forgotten. -/
structure Touches (s s' : HandoverState π) (changed : Set Loc) : Prop where
  ok : s'.FilesOk
  proc : s'.proc = s.proc
  scan : s'.scan = s.scan
  perm : s'.perm = s.perm
  next : s.next ≤ s'.next
  node : ∀ l ∉ changed, s'.fs.node l = s.fs.node l
  file : ∀ i < s.next, s'.fs.file i = s.fs.file i
  making : ∀ p h, s'.making p = some h → s.making p = some h ∧ s'.HasLink h
  handed : ∀ h ∈ s'.handed, h ∈ s.handed ∧ s'.HasLink h

/-- Two steps in a row touch what either of them touches. -/
theorem Touches.trans {changed changed' : Set Loc} (h : Touches s s' changed)
    (h' : Touches s' s'' changed') : Touches s s'' (changed ∪ changed') where
  ok := h'.ok
  proc := h'.proc.trans h.proc
  scan := h'.scan.trans h.scan
  perm := h'.perm.trans h.perm
  next := h.next.trans h'.next
  node l hl := by
    rw [Set.mem_union, not_or] at hl
    rw [h'.node l hl.2, h.node l hl.1]
  file i hi := by rw [h'.file i (hi.trans_le h.next), h.file i hi]
  making p a ha := ⟨(h.making p a (h'.making p a ha).1).1, (h'.making p a ha).2⟩
  handed a ha := ⟨(h.handed a (h'.handed a ha).1).1, (h'.handed a ha).2⟩

/-- A change of the tree at given locations touches these only. -/
theorem touches_setFiles {fs : LinkedFiles Inode} {next : ℕ} {changed : Set Loc} (hnext : s.next ≤ next)
    (hok : ({ s.setFiles fs with next } : HandoverState π).FilesOk)
    (hnode : ∀ l ∉ changed, fs.node l = s.fs.node l) (hfile : ∀ i < s.next, fs.file i = s.fs.file i) :
    Touches s { s.setFiles fs with next } changed where
  ok := hok
  proc := rfl
  scan := rfl
  perm := rfl
  next := hnext
  node := hnode
  file := hfile
  making p a ha := by
    obtain ⟨hmem, hlink⟩ := Option.filter_eq_some_iff.mp ha
    exact ⟨hmem, of_decide_eq_true hlink⟩
  handed a ha := by
    obtain ⟨hmem, hlink⟩ := List.mem_filter.mp ha
    exact ⟨hmem, of_decide_eq_true hlink⟩

/-- Putting a link touches one location, and the link is new there. -/
theorem touches_putLink (hs : s.FilesOk) (hdir : s.fs.isDirectory dir = true)
    (hnew : s.fs.isDirectory (dir ++ [n]) = false) :
    Touches s (s.putLink dir n target) {dir ++ [n]} ∧
      (s.putLink dir n target).fs.linkAt (dir ++ [n]) = some (s.next, target) := by
  obtain ⟨w, hw⟩ := LinkedFiles.isDirectory_iff.mp hdir
  have hnode : ∀ l, l ≠ dir ++ [n] → (s.putLink dir n target).fs.node l = s.fs.node l :=
    fun l hl => LinkedFiles.node_put_of_ne hl _
  have hself : (s.putLink dir n target).fs.node (dir ++ [n]) = some (.file s.next) :=
    LinkedFiles.node_put_self _
  refine ⟨touches_setFiles (Nat.le_succ _) ⟨?_, fun l i hi => ?_⟩ hnode fun i hi => ?_, ?_⟩
  · have hleaf : ∀ w', s.fs.node (dir ++ [n]) ≠ some (.directory w') := by
      intro w' hw'
      rw [LinkedFiles.isDirectory_iff.mpr ⟨w', hw'⟩] at hnew
      cases hnew
    exact hs.tree.put hw hleaf
  · by_cases hl : l = dir ++ [n]
    · subst hl
      obtain rfl : s.next = i := by simpa using hself.symm.trans hi
      exact Nat.lt_succ_self _
    · exact (hs.numbered l i ((hnode l hl).symm.trans hi)).trans (Nat.lt_succ_self _)
  · exact Function.update_of_ne hi.ne ..
  · exact LinkedFiles.linkAt_eq_some_iff.mpr ⟨hself, Function.update_self ..⟩

/-- `symlink` succeeds where nothing is, and touches that location. -/
theorem touches_symlink (hs : s.FilesOk) (h : s.symlink dir n target = some s') :
    s.fs.node (dir ++ [n]) = none ∧ Touches s s' {dir ++ [n]} ∧
      s'.fs.linkAt (dir ++ [n]) = some (s.next, target) := by
  unfold symlink at h
  split_ifs at h with hfree
  cases h
  refine ⟨hfree.2, touches_putLink hs hfree.1 ?_⟩
  simp [LinkedFiles.isDirectory, hfree.2]

/-- `mkdir` succeeds where nothing is, and touches that location. -/
theorem touches_mkdir (hs : s.FilesOk) (h : s.mkdir dir n = some s') :
    s.fs.node (dir ++ [n]) = none ∧ Touches s s' {dir ++ [n]} ∧
      s'.fs.node (dir ++ [n]) = some (.directory true) := by
  unfold mkdir at h
  split_ifs at h with hfree
  cases h
  obtain ⟨w, hw⟩ := LinkedFiles.isDirectory_iff.mp hfree.1
  have hnode : ∀ l, l ≠ dir ++ [n] → (s.fs.put dir n (.directory true)).node l = s.fs.node l :=
    fun l hl => LinkedFiles.node_put_of_ne hl _
  refine ⟨hfree.2, touches_setFiles le_rfl ⟨?_, fun l i hi => ?_⟩ hnode fun _ _ => rfl,
    LinkedFiles.node_put_self _⟩
  · refine hs.tree.put hw fun w' hw' => ?_
    rw [hfree.2] at hw'
    cases hw'
  · by_cases hl : l = dir ++ [n]
    · subst hl
      cases (LinkedFiles.node_put_self _).symm.trans hi
    · exact hs.numbered l i ((hnode l hl).symm.trans hi)

/-- Removing a leaf touches one location. -/
theorem touches_remove (hs : s.FilesOk)
    (hleaf : ∀ w, s.fs.node (dir ++ [n]) = some (.directory w) → s.fs.names (dir ++ [n]) = []) :
    Touches s (s.setFiles (s.fs.remove dir n)) {dir ++ [n]} := by
  have hnode : ∀ l, l ≠ dir ++ [n] → (s.fs.remove dir n).node l = s.fs.node l :=
    fun l hl => LinkedFiles.node_remove_of_ne hl
  refine touches_setFiles le_rfl ⟨hs.tree.remove hleaf, fun l i hi => ?_⟩ hnode fun _ _ => rfl
  by_cases hl : l = dir ++ [n]
  · subst hl
    cases LinkedFiles.node_remove_self.symm.trans hi
  · exact hs.numbered l i ((hnode l hl).symm.trans hi)

/-- `unlink` removes a file, or does nothing. -/
theorem touches_unlink (hs : s.FilesOk) (dir : Loc) (n : Str) : s.unlink dir n = s ∨
    (∃ i, s.fs.node (dir ++ [n]) = some (.file i)) ∧
      Touches s (s.unlink dir n) {dir ++ [n]} ∧ (s.unlink dir n).fs.node (dir ++ [n]) = none := by
  unfold unlink
  split
  · rename_i i hi
    refine Or.inr ⟨⟨i, hi⟩, touches_remove hs fun w hw => ?_, LinkedFiles.node_remove_self⟩
    rw [hi] at hw
    cases hw
  · exact Or.inl rfl

/-- `rmdir` removes a directory, or does nothing. -/
theorem touches_rmdir (hs : s.FilesOk) (dir : Loc) (n : Str) : s.rmdir dir n = s ∨
    (∃ w, s.fs.node (dir ++ [n]) = some (.directory w)) ∧
      Touches s (s.rmdir dir n) {dir ++ [n]} := by
  unfold rmdir
  split_ifs with hempty
  · exact Or.inr ⟨LinkedFiles.isDirectory_iff.mp hempty.1, touches_remove hs fun _ _ => hempty.2⟩
  · exact Or.inl rfl

/-- `rename` gives the link a new place. -/
theorem touches_rename (hs : s.FilesOk) {temp : Str} (h : s.rename dir temp n = some s') :
    ∃ i target, s.fs.linkAt (dir ++ [temp]) = some (i, target) ∧
      Touches s s' {dir ++ [temp], dir ++ [n]} ∧
      s'.fs.linkAt (dir ++ [n]) = some (s.next, target) ∧ s'.next = s.next + 1 ∧
      ∀ j t, s'.fs.linkAt (dir ++ [temp]) = some (j, t) → t = target := by
  unfold rename at h
  split at h
  · rename_i i target hlink
    split_ifs at h with hdir
    cases h
    obtain ⟨hnode, -⟩ := LinkedFiles.linkAt_eq_some_iff.mp hlink
    obtain ⟨⟨w, hw⟩, -⟩ := hs.tree dir temp (by rw [hnode]; simp)
    have hremove : Touches s (s.setFiles (s.fs.remove dir temp)) {dir ++ [temp]} := by
      refine touches_remove hs fun w' hw' => ?_
      rw [hnode] at hw'
      cases hw'
    have hparent : (s.fs.remove dir temp).isDirectory dir = true :=
      LinkedFiles.isDirectory_iff.mpr ⟨w, (LinkedFiles.node_remove_of_ne (by simp)).trans hw⟩
    have hnew : (s.fs.remove dir temp).isDirectory (dir ++ [n]) = false := by
      by_contra hd
      obtain ⟨w', hw'⟩ := LinkedFiles.isDirectory_iff.mp (Bool.not_eq_false _ ▸ hd)
      have hne : dir ++ [n] ≠ dir ++ [temp] := by
        intro heq
        rw [heq, LinkedFiles.node_remove_self] at hw'
        cases hw'
      rw [LinkedFiles.node_remove_of_ne hne] at hw'
      exact hdir (LinkedFiles.isDirectory_iff.mpr ⟨w', hw'⟩)
    have hlinked : Touches (s.setFiles (s.fs.remove dir temp))
        ((s.setFiles (s.fs.remove dir temp)).putLink dir n target) {dir ++ [n]} ∧
        ((s.setFiles (s.fs.remove dir temp)).putLink dir n target).fs.linkAt (dir ++ [n]) =
          some (s.next, target) := touches_putLink hremove.ok hparent hnew
    obtain ⟨hput, hat⟩ := hlinked
    refine ⟨i, target, hlink, hremove.trans hput, hat, rfl, fun j t hj => ?_⟩
    by_cases heq : dir ++ [temp] = dir ++ [n]
    · rw [heq] at hj
      exact (congrArg Prod.snd (Option.some.inj (hat.symm.trans hj))).symm
    · have hgone := hput.node (dir ++ [temp]) heq
      rw [(LinkedFiles.linkAt_eq_some_iff.mp hj).1] at hgone
      cases hgone.trans LinkedFiles.node_remove_self
  · cases h

/-! ### Records -/

/-- The roots of a run: no two of them share a link in the directory `auto`, and none of them is such a
link or a temporary one. -/
structure Apart (env : RootsEnv π) (R : Set Loc) : Prop where
  name : ∀ g ∈ R, ∀ g' ∈ R, env.autoName (subPath g) = env.autoName (subPath g') → g = g'
  free : ∀ g ∈ R, ∀ g' ∈ R, ∀ suffix, g' ≠ env.autoDir ++ [env.autoName (subPath g) ++ suffix]

/-- What `addPermRoot` has checked of its arguments. -/
structure Checked (env : RootsEnv π) (R : Set Loc) (storePath : Path) (root : Loc) (indirect : Bool) :
    Prop where
  mem : root ∈ R
  ne_nil : root ≠ []
  names : ∀ n ∈ root, IsCanonName n ∧ n.NulFree
  notInStore : isInStore env.cfg (subPath root) = false
  inStore : isStorePath env.cfg storePath = true
  canonical : canonPath storePath = .ok storePath

/-- A root that was checked is in canonical form. -/
theorem Checked.components {R : Set Loc} {storePath : Path} {root : Loc} {indirect : Bool}
    (h : Checked env R storePath root indirect) : components (subPath root) = root :=
  components_subPath fun n hn => (h.names n hn).1.isFileName (h.names n hn).2

/-- The link to the store path is there, and the arguments have been checked. -/
structure Intact (env : RootsEnv π) (R : Set Loc) (s : HandoverState π) (h : Handover) : Prop where
  link : s.fs.linkAt h.root = some (h.link, h.storePath)
  checked : Checked env R h.storePath h.root h.indirect
  place : h.indirect = false → env.rootsDir <+: h.root

/-- The link to an indirect root is there, and no collector is about to remove it. -/
def HasRealRoot (env : RootsEnv π) (s : HandoverState π) (h : Handover) : Prop :=
  h.indirect = true → ∃ i, s.fs.linkAt (env.realRoot h.root) = some (i, subPath h.root) ∧
    ∀ c, .unlink (env.realRoot h.root) i ∉ (s.scan c).todo

/-- The scan is on its way to a link: to the one to the store path, or to the one to that link. -/
def AimsAt (env : RootsEnv π) (h : Handover) (recurse : Bool) (l : Loc) : Prop :=
  l = h.root ∨ (h.indirect = true ∧ recurse = true ∧ l = env.realRoot h.root)

/-- The task leads to the root. -/
def LeadsTo (env : RootsEnv π) (h : Handover) : ScanTask → Prop
  | .visit path recurse => ∃ l, AimsAt env h recurse l ∧ path <+: l
  | .readDirectory path recurse => ∃ l, AimsAt env h recurse l ∧ path <+: l ∧ path ≠ l
  | .readLink path recurse => AimsAt env h recurse path
  | .isValidPath path _ => path = h.root
  | .pathExists path _ target =>
    h.indirect = true ∧ path = env.realRoot h.root ∧ target = subPath h.root
  | .unlink _ _ => False

/-- The scan has found the root, or will find it. -/
structure Finds (env : RootsEnv π) (h : Handover) (scan : RootScan) : Prop where
  root : scan.roots.find? h.root = some h.storePath ∨ ∃ task ∈ scan.todo, LeadsTo env h task
  same : ∀ storePath, .isValidPath h.root storePath ∈ scan.todo → storePath = h.storePath

/-- Every collector that has the lock, or waits for it, finds the root. -/
structure Found (env : RootsEnv π) (s : HandoverState π) (h : Handover) : Prop where
  finds : ∀ c, (s.proc.procs c).phase = .waiting ∨ (s.proc.procs c).phase = .scanning →
    Finds env h (s.scan c)
  found : ∀ c permRoots, (s.proc.procs c).phase = .found permRoots → h.storePath ∈ permRoots

/-- What is known of a root: after the link to the store path has been made, after both links have been
made, and after a collector cannot have started earlier. -/
inductive Stage where
  | made
  | linked
  | synced
deriving DecidableEq

/-- What holds of a root at a stage. -/
structure Kept (env : RootsEnv π) (R : Set Loc) (stage : Stage) (s : HandoverState π) (h : Handover) :
    Prop where
  intact : Intact env R s h
  realRoot : stage ≠ .made → HasRealRoot env s h
  found : stage = .synced → Found env s h

/-- The stage at a place of `addPermRoot`. -/
def stage : PermPlace → Option Stage
  | .addIndirectRoot _ => some .made
  | .lockGC => some .linked
  | .unlockGC => some .synced
  | _ => none

/-- What a task remembers of a link. -/
def TaskOk (s : HandoverState π) : ScanTask → Prop
  | .pathExists path i target => i < s.next ∧ ∃ t, s.fs.file i = .symlink t ∧
      (dirOf (subPath path) >>= fun dir => absPath dir t) = .ok target
  | .unlink path i => i < s.next ∧ path ≠ []
  | _ => True

variable {R : Set Loc}

/-- Where a link is, the tree has a file. -/
theorem node_of_linkAt {l : Loc} {e : ℕ × Str} (h : s.fs.linkAt l = some e) :
    s.fs.node l = some (.file e.1) := (LinkedFiles.linkAt_eq_some_iff.mp h).1

/-- What a step does not touch stays intact. -/
theorem Intact.frame {changed : Set Loc} (hi : Intact env R s h) (hs : s.FilesOk)
    (ht : Touches s s' changed) (hlink : s'.HasLink h) : Intact env R s' h := by
  refine ⟨LinkedFiles.linkAt_eq_some_iff.mpr ⟨hlink, ?_⟩, hi.checked, hi.place⟩
  obtain ⟨hnode, hfile⟩ := LinkedFiles.linkAt_eq_some_iff.mp hi.link
  rw [ht.file _ (hs.numbered _ _ hnode), hfile]

/-- The second link is where it was, or has been replaced by one with the same target. -/
theorem HasRealRoot.frame {changed : Set Loc} (hr : HasRealRoot env s h) (hs : s.FilesOk)
    (htask : ∀ c, ∀ task ∈ (s.scan c).todo, s.TaskOk task) (ht : Touches s s' changed)
    (hchanged : env.realRoot h.root ∉ changed ∨ ∃ i, s.next ≤ i ∧
      s'.fs.linkAt (env.realRoot h.root) = some (i, subPath h.root)) :
    HasRealRoot env s' h := by
  intro hind
  rcases hchanged with hchanged | ⟨i, hi, hlink⟩
  · obtain ⟨i, hlink, hno⟩ := hr hind
    obtain ⟨hnode, hfile⟩ := LinkedFiles.linkAt_eq_some_iff.mp hlink
    refine ⟨i, LinkedFiles.linkAt_eq_some_iff.mpr ⟨(ht.node _ hchanged).trans hnode, ?_⟩, ?_⟩
    · rw [ht.file i (hs.numbered _ _ hnode), hfile]
    · rw [ht.scan]
      exact hno
  · refine ⟨i, hlink, fun c hmem => ?_⟩
    rw [ht.scan] at hmem
    have hlt : i < s.next := (htask c _ hmem).1
    omega

/-- What the scan has found depends on the processes and the scans only. -/
theorem Found.of_eq (hf : Found env s h) (hproc : s'.proc = s.proc) (hscan : s'.scan = s.scan) :
    Found env s' h := by
  refine ⟨fun c hc => ?_, fun c permRoots hc => ?_⟩
  · rw [hproc] at hc
    rw [hscan]
    exact hf.finds c hc
  · rw [hproc] at hc
    exact hf.found c permRoots hc

/-- What is known of a root stays true when files change that are not its own. -/
theorem Kept.frame {changed : Set Loc} {stage : Stage} (hk : Kept env R stage s h) (hs : s.FilesOk)
    (htask : ∀ c, ∀ task ∈ (s.scan c).todo, s.TaskOk task) (ht : Touches s s' changed)
    (hlink : s'.HasLink h)
    (hchanged : h.indirect = true → stage ≠ .made → env.realRoot h.root ∉ changed ∨ ∃ i, s.next ≤ i ∧
      s'.fs.linkAt (env.realRoot h.root) = some (i, subPath h.root)) :
    Kept env R stage s' h := by
  refine ⟨hk.intact.frame hs ht hlink, fun hstage hind => ?_, fun hstage => ?_⟩
  · exact (hk.realRoot hstage).frame hs htask ht (hchanged hind hstage) hind
  · exact (hk.found hstage).of_eq ht.proc ht.scan

/-- A link that is there is not where a new name is made. -/
theorem HasRealRoot.ne_of_absent (hr : HasRealRoot env s h) (hind : h.indirect = true)
    (habsent : s.fs.node (dir ++ [n]) = none) : env.realRoot h.root ∉ ({dir ++ [n]} : Set Loc) := by
  obtain ⟨i, hlink, -⟩ := hr hind
  intro hmem
  rw [Set.mem_singleton_iff] at hmem
  have hnode := node_of_linkAt hlink
  rw [hmem, habsent] at hnode
  cases hnode

/-! ### Scans -/

/-- A store path is in the store, and is its own store path. -/
theorem toStorePath_of_isStorePath {cfg : StoreConfig} {x : Path} (h : isStorePath cfg x = true) :
    toStorePath cfg x = .ok x := by
  rw [isStorePath, Bool.and_eq_true, decide_eq_true_eq] at h
  have htake : (x.drop (cfg.nixStore.length + 1)).takeWhile (· ≠ '/'.toUInt8) =
      x.drop (cfg.nixStore.length + 1) := by
    refine List.takeWhile_eq_self_iff.mpr fun b hb => ?_
    have hne : b ≠ '/'.toUInt8 := fun hslash => h.2 (hslash ▸ hb)
    simpa using hne
  rw [toStorePath, if_pos h.1, htake, List.take_append_drop]

/-- The target of a link to a store path. -/
theorem Checked.absPath_storePath {storePath : Path} {root : Loc} {indirect : Bool}
    (hc : Checked env R storePath root indirect) :
    (dirOf (subPath root) >>= fun dir => absPath dir storePath) = .ok storePath := by
  obtain ⟨dir, hdir⟩ := dirOf_subPath hc.ne_nil
  have habs : isAbsolute storePath = true := by
    have hin := hc.inStore
    rw [isStorePath, isInStore] at hin
    simp only [Bool.and_eq_true] at hin
    exact hin.1.1.1.1
  rw [hdir, Outcome.ok_bind, absPath_of_isAbsolute habs, hc.canonical]

/-- The target of a link to an indirect root. -/
theorem Checked.absPath_root {storePath : Path} {root : Loc} {indirect : Bool}
    (hc : Checked env R storePath root indirect) :
    (dirOf (subPath (env.realRoot root)) >>= fun dir => absPath dir (subPath root)) =
      .ok (subPath root) := by
  have hne : env.realRoot root ≠ [] := by simp [RootsEnv.realRoot]
  obtain ⟨dir, hdir⟩ := dirOf_subPath hne
  rw [hdir, Outcome.ok_bind, absPath_of_isAbsolute (isAbsolute_subPath hc.ne_nil),
    canonPath_subPath hc.ne_nil fun n hn => (hc.names n hn).1]

/-- What a scan aims at is a link. -/
theorem linkAt_of_aimsAt (hi : Intact env R s h) (hr : HasRealRoot env s h) {recurse : Bool} {l : Loc}
    (ha : AimsAt env h recurse l) : ∃ i target, s.fs.linkAt l = some (i, target) := by
  rcases ha with rfl | ⟨hind, -, rfl⟩
  · exact ⟨_, _, hi.link⟩
  · obtain ⟨i, hlink, -⟩ := hr hind
    exact ⟨i, _, hlink⟩

/-- The scan of a collector goes on. -/
theorem Finds.push {task : ScanTask} {tasks todo : List ScanTask} {scan : RootScan}
    (hf : Finds env h scan) (htodo : scan.todo = task :: todo)
    (hleads : LeadsTo env h task → ∃ task' ∈ tasks, LeadsTo env h task')
    (hsame : ∀ storePath, .isValidPath h.root storePath ∈ tasks → storePath = h.storePath) :
    Finds env h ⟨tasks ++ todo, scan.roots⟩ := by
  refine ⟨?_, fun storePath hmem => ?_⟩
  · rcases hf.root with hroot | ⟨t, ht, hlead⟩
    · exact Or.inl hroot
    · rw [htodo] at ht
      rcases List.mem_cons.mp ht with rfl | ht
      · obtain ⟨task', hmem, hlead'⟩ := hleads hlead
        exact Or.inr ⟨task', List.mem_append_left _ hmem, hlead'⟩
      · exact Or.inr ⟨t, List.mem_append_right _ ht, hlead⟩
  · rcases List.mem_append.mp hmem with hmem | hmem
    · exact hsame storePath hmem
    · exact hf.same storePath (by rw [htodo]; exact List.mem_cons_of_mem _ hmem)

/-- A step of a scan that leads to nothing. -/
theorem Finds.pop {task : ScanTask} {todo : List ScanTask} {scan : RootScan}
    (hf : Finds env h scan) (htodo : scan.todo = task :: todo) (hno : ¬ LeadsTo env h task) :
    Finds env h ⟨[] ++ todo, scan.roots⟩ :=
  hf.push htodo (fun hlead => absurd hlead hno) (by simp)

/-- What a scan that puts off tasks has to do. -/
@[simp] theorem scan_push_self {tasks todo : List ScanTask} :
    (s.push c tasks todo).scan c = ⟨tasks ++ todo, (s.scan c).roots⟩ := by
  simp [HandoverState.push]

/-- Unlinking touches no scan. -/
@[simp] theorem scan_unlink : (s.unlink dir n).scan = s.scan := by
  unfold unlink
  split <;> rfl

/-- A scan that is on its way to a root gets there. -/
theorem Finds.next (hf : Finds env h (s.scan c)) (hs : s.FilesOk) (hi : Intact env R s h)
    (hr : HasRealRoot env s h) (hvalid : h.storePath ∈ s.proc.valid) {entries : List Str}
    {task : ScanTask} {todo : List ScanTask} (htodo : (s.scan c).todo = task :: todo)
    (hstep : s.nextScan env c entries task todo = some s') : Finds env h (s'.scan c) := by
  have haims : ∀ {recurse l}, AimsAt env h recurse l → ∃ i target, s.fs.linkAt l = some (i, target) :=
    linkAt_of_aimsAt hi hr
  -- on the way to what the scan aims at there are directories
  have hway : ∀ {recurse l path}, AimsAt env h recurse l → path <+: l → path ≠ l →
      ∃ w n, s.fs.node path = some (.directory w) ∧ n ∈ s.fs.names path ∧ path ++ [n] <+: l := by
    intro recurse l path ha hp hne
    obtain ⟨i, target, hlink⟩ := haims ha
    exact hs.tree.of_prefix (by rw [node_of_linkAt hlink]; simp) hp hne
  unfold nextScan at hstep
  cases task with
  | visit path recurse =>
    dsimp only at hstep
    split at hstep
    · rename_i w hw
      cases hstep
      rw [scan_push_self]
      refine hf.push htodo ?_ (by simp)
      rintro ⟨l, ha, hp⟩
      refine ⟨_, List.mem_singleton_self _, l, ha, hp, ?_⟩
      rintro rfl
      obtain ⟨i, target, hlink⟩ := haims ha
      rw [node_of_linkAt hlink] at hw
      cases hw
    · rename_i i hnode
      have hself : ∀ l, AimsAt env h recurse l → path <+: l → path = l := by
        intro l ha hp
        by_contra hne
        obtain ⟨w, n, hw, -⟩ := hway ha hp hne
        rw [hnode] at hw
        cases hw
      split at hstep
      · cases hstep
        rw [scan_push_self]
        refine hf.push htodo ?_ (by simp)
        rintro ⟨l, ha, hp⟩
        obtain rfl := hself l ha hp
        exact ⟨_, List.mem_singleton_self _, ha⟩
      · rename_i hno
        cases hstep
        rw [scan_push_self]
        refine hf.pop htodo ?_
        rintro ⟨l, ha, hp⟩
        obtain rfl := hself l ha hp
        obtain ⟨j, target, hlink⟩ := haims ha
        obtain ⟨hnode', hfile⟩ := LinkedFiles.linkAt_eq_some_iff.mp hlink
        obtain rfl : i = j := by simpa using hnode.symm.trans hnode'
        exact hno target hfile
    · rename_i hnone
      cases hstep
      rw [scan_push_self]
      refine hf.pop htodo ?_
      rintro ⟨l, ha, hp⟩
      by_cases hne : path = l
      · subst hne
        obtain ⟨j, target, hlink⟩ := haims ha
        rw [node_of_linkAt hlink] at hnone
        cases hnone
      · obtain ⟨w, n, hw, -⟩ := hway ha hp hne
        rw [hnone] at hw
        cases hw
  | readDirectory path recurse =>
    dsimp only at hstep
    split_ifs at hstep with hdir hentries
    · cases hstep
      rw [scan_push_self]
      refine hf.push htodo ?_ (by simp [visitEntries])
      rintro ⟨l, ha, hp, hne⟩
      obtain ⟨w, n, -, hn, hp'⟩ := hway ha hp hne
      exact ⟨_, List.mem_map_of_mem (hentries n hn), l, ha, hp'⟩
    · cases hstep
      rw [scan_push_self]
      refine hf.pop htodo ?_
      rintro ⟨l, ha, hp, hne⟩
      obtain ⟨w, n, hw, -⟩ := hway ha hp hne
      exact hdir (LinkedFiles.isDirectory_iff.mpr ⟨w, hw⟩)
  | readLink path recurse =>
    dsimp only at hstep
    split at hstep
    · rename_i i target hlink
      split at hstep
      · rename_i t habs
        -- the link to the store path
        have hroot : path = h.root → t = h.storePath := by
          rintro rfl
          obtain ⟨-, rfl⟩ : h.link = i ∧ h.storePath = target := by
            simpa using hi.link.symm.trans hlink
          simpa using habs.symm.trans hi.checked.absPath_storePath
        -- the link to that link
        have hreal : h.indirect = true → path = env.realRoot h.root → t = subPath h.root := by
          rintro hind rfl
          obtain ⟨j, hlink', -⟩ := hr hind
          obtain ⟨-, rfl⟩ : j = i ∧ subPath h.root = target := by simpa using hlink'.symm.trans hlink
          simpa using habs.symm.trans hi.checked.absPath_root
        split at hstep
        · rename_i storePath hstore
          cases hstep
          rw [scan_push_self]
          have hsame : path = h.root → storePath = h.storePath := by
            intro hpath
            rw [hroot hpath, toStorePath_of_isStorePath hi.checked.inStore] at hstore
            simpa using hstore.symm
          refine hf.push htodo ?_ ?_
          · rintro (hpath | ⟨hind, -, hpath⟩)
            · exact ⟨_, List.mem_singleton_self _, hpath⟩
            · rw [hreal hind hpath, toStorePath, hi.checked.notInStore] at hstore
              cases hstore
          · intro sp hsp
            simp only [List.mem_singleton, ScanTask.isValidPath.injEq] at hsp
            rw [hsp.2]
            exact hsame hsp.1.symm
        · rename_i hno
          cases hstep
          rw [scan_push_self]
          refine hf.push htodo ?_ (by split <;> simp)
          rintro (hpath | ⟨hind, rfl, hpath⟩)
          · exact absurd (by rw [hroot hpath, toStorePath_of_isStorePath hi.checked.inStore])
              (hno h.storePath)
          · exact ⟨_, List.mem_singleton_self _, hind, hpath, hreal hind hpath⟩
      · cases hstep
    · rename_i hnone
      split_ifs at hstep
      cases hstep
      rw [scan_push_self]
      refine hf.pop htodo fun ha => ?_
      obtain ⟨i, target, hlink⟩ := haims ha
      rw [hnone] at hlink
      cases hlink
  | isValidPath path storePath =>
    dsimp only at hstep
    split_ifs at hstep with hmem
    · cases hstep
      dsimp only
      rw [Function.update_self]
      have hsame : path = h.root → storePath = h.storePath := by
        rintro rfl
        exact hf.same storePath (by rw [htodo]; exact List.mem_cons_self)
      by_cases hpath : path = h.root
      · refine ⟨Or.inl ?_, fun sp hsp => hf.same sp (by rw [htodo]; exact List.mem_cons_of_mem _ hsp)⟩
        rw [hpath, SortedMap.find?_insert, if_pos rfl, hsame hpath]
      · have hpop := hf.pop htodo hpath
        refine ⟨hpop.root.imp_left fun hroot => ?_, hpop.same⟩
        rw [SortedMap.find?_insert, if_neg (Ne.symm hpath)]
        exact hroot
    · cases hstep
      rw [scan_push_self]
      refine hf.pop htodo ?_
      rintro rfl
      refine hmem ?_
      rw [hf.same storePath (by rw [htodo]; exact List.mem_cons_self)]
      exact hvalid
  | pathExists path i target =>
    dsimp only at hstep
    split_ifs at hstep with hnode
    · cases hstep
      rw [scan_push_self]
      refine hf.push htodo ?_ (by simp)
      rintro ⟨hind, -, rfl⟩
      rw [hi.checked.components, node_of_linkAt hi.link] at hnode
      cases hnode
    · cases hstep
      rw [scan_push_self]
      refine hf.push htodo ?_ (by simp)
      rintro ⟨hind, -, rfl⟩
      refine ⟨_, List.mem_singleton_self _, h.root, Or.inl rfl, ?_⟩
      rw [hi.checked.components]
  | unlink path i =>
    cases hstep
    have hpop := hf.pop htodo id
    rw [scan_unlink, scan_push_self]
    exact hpop

/-- A step of a scan adds tasks, or removes a link; a link is only to be removed if its target is gone. -/
theorem scan_step_cases (hs : s.FilesOk) {entries : List Str} {task : ScanTask}
    {todo : List ScanTask} (htask : s.TaskOk task)
    (hstep : s.nextScan env c entries task todo = some s') :
    (∃ tasks roots, s' = { s with scan := Function.update s.scan c ⟨tasks ++ todo, roots⟩ } ∧
      (∀ t ∈ tasks, s.TaskOk t) ∧
      ∀ path i, .unlink path i ∈ tasks → ∃ target, task = .pathExists path i target ∧
        s.fs.node (components target) = none) ∨
    ∃ path i, task = .unlink path i ∧
      s' = (s.push c [] todo).unlink path.dropLast (path.getLastD []) := by
  have hpush : ∀ tasks, (∀ t ∈ tasks, s.TaskOk t ∧ ∀ path i, t ≠ .unlink path i) →
      s' = s.push c tasks todo → ∃ tasks roots,
        s' = { s with scan := Function.update s.scan c ⟨tasks ++ todo, roots⟩ } ∧
        (∀ t ∈ tasks, s.TaskOk t) ∧
        ∀ path i, .unlink path i ∈ tasks → ∃ target, task = .pathExists path i target ∧
          s.fs.node (components target) = none := by
    intro tasks htasks hs'
    exact ⟨tasks, (s.scan c).roots, hs', fun t ht => (htasks t ht).1,
      fun path i hmem => absurd rfl ((htasks _ hmem).2 path i)⟩
  unfold nextScan at hstep
  cases task with
  | visit path recurse =>
    dsimp only at hstep
    split at hstep
    · cases hstep
      exact Or.inl (hpush _ (by simp [TaskOk]) rfl)
    · split at hstep
      · cases hstep
        exact Or.inl (hpush _ (by simp [TaskOk]) rfl)
      · cases hstep
        exact Or.inl (hpush _ (by simp) rfl)
    · cases hstep
      exact Or.inl (hpush _ (by simp) rfl)
  | readDirectory path recurse =>
    dsimp only at hstep
    split_ifs at hstep
    · cases hstep
      exact Or.inl (hpush _ (by simp [visitEntries, TaskOk]) rfl)
    · cases hstep
      exact Or.inl (hpush _ (by simp) rfl)
  | readLink path recurse =>
    dsimp only at hstep
    split at hstep
    · rename_i i target hlink
      obtain ⟨hnode, hfile⟩ := LinkedFiles.linkAt_eq_some_iff.mp hlink
      split at hstep
      · rename_i t habs
        split at hstep
        · cases hstep
          exact Or.inl (hpush _ (by simp [TaskOk]) rfl)
        · cases hstep
          refine Or.inl (hpush _ (fun task hmem => ?_) rfl)
          split_ifs at hmem
          · rw [List.mem_singleton] at hmem
            subst hmem
            exact ⟨⟨hs.numbered _ _ hnode, target, hfile, habs⟩, by simp⟩
          · cases hmem
      · cases hstep
    · split_ifs at hstep
      cases hstep
      exact Or.inl (hpush _ (by simp) rfl)
  | isValidPath path storePath =>
    dsimp only at hstep
    split_ifs at hstep
    · cases hstep
      exact Or.inl ⟨[], _, rfl, by simp, by simp⟩
    · cases hstep
      exact Or.inl (hpush _ (by simp) rfl)
  | pathExists path i target =>
    dsimp only at hstep
    split_ifs at hstep with hnode
    · cases hstep
      obtain ⟨hi, t, -, habs⟩ := htask
      have hpath : path ≠ [] := by
        cases hdir : dirOf (subPath path) with
        | ok dir => exact ne_nil_of_dirOf hdir
        | error e =>
          rw [hdir] at habs
          cases habs
        | diverge =>
          rw [hdir] at habs
          cases habs
      refine Or.inl ⟨[.unlink path i], (s.scan c).roots, rfl, ?_, ?_⟩
      · intro task hmem
        rw [List.mem_singleton] at hmem
        subst hmem
        exact ⟨hi, hpath⟩
      · intro path' i' hmem
        simp only [List.mem_singleton, ScanTask.unlink.injEq] at hmem
        obtain ⟨rfl, rfl⟩ := hmem
        exact ⟨target, rfl, hnode⟩
    · cases hstep
      exact Or.inl (hpush _ (by simp [TaskOk]) rfl)
  | unlink path i =>
    cases hstep
    exact Or.inr ⟨path, i, rfl, rfl⟩

/-! ### The invariant -/

/-- What holds of a call of `addPermRoot`. -/
structure CallOk (env : RootsEnv π) (R : Set Loc) (s : HandoverState π) (p : π) (call : PermCall) :
    Prop where
  idle : (s.proc.procs p).call = .idle
  checked : Checked env R call.storePath call.gcRoot call.indirect
  temp : ∀ temp, call.place = .createSymlink (.rename temp) →
    ∃ rand, temp = env.tempName p rand (call.gcRoot.getLastD [])
  autoTemp : ∀ temp, call.place = .addIndirectRoot (.rename temp) →
    (∃ rand, temp = env.tempName p rand (env.autoName (subPath call.gcRoot))) ∧
    ∀ i t, s.fs.linkAt (env.autoDir ++ [temp]) = some (i, t) → t = subPath call.gcRoot

/-- What holds of a root that is being made. -/
structure MakingOk (env : RootsEnv π) (R : Set Loc) (s : HandoverState π) (p : π) (h : Handover)
    (call : PermCall) (st : Stage) : Prop where
  perm : s.perm p = some call
  stage : stage call.place = some st
  root : call.gcRoot = h.root
  indirect : call.indirect = h.indirect
  observed : h.storePath ∈ (s.proc.procs p).observed
  kept : Kept env R st s h

/-- What holds between two steps. -/
structure Invariant (env : RootsEnv π) (R : Set Loc) (s : HandoverState π) : Prop where
  proc : s.proc.Invariant
  files : s.FilesOk
  task : ∀ c, ∀ task ∈ (s.scan c).todo, s.TaskOk task
  waiting : ∀ c, (s.proc.procs c).phase = .waiting → s.scan c = ⟨[.visit env.rootsDir true], ∅⟩
  call : ∀ p call, s.perm p = some call → s.CallOk env R p call
  making : ∀ p h, s.making p = some h → ∃ call st, MakingOk env R s p h call st
  handed : ∀ h ∈ s.handed, h.storePath ∈ s.proc.valid ∧ Kept env R .synced s h

/-- A root that is known to a process or has been handed over. -/
theorem Invariant.valid_of_making (hinv : s.Invariant env R) (hm : s.making p = some h) :
    h.storePath ∈ s.proc.valid := by
  obtain ⟨call, st, hok⟩ := hinv.making p h hm
  exact ((hinv.proc.owner p).observed _ hok.observed).2

/-- A task of a scan still makes sense after a step that touches files. -/
theorem TaskOk.frame {changed : Set Loc} {task : ScanTask} (h : s.TaskOk task)
    (ht : Touches s s' changed) : s'.TaskOk task := by
  cases task with
  | pathExists path i target =>
    obtain ⟨hi, t, hfile, habs⟩ := h
    exact ⟨hi.trans_le ht.next, t, by rw [ht.file i hi]; exact hfile, habs⟩
  | unlink path i => exact ⟨h.1.trans_le ht.next, h.2⟩
  | visit => trivial
  | readDirectory => trivial
  | readLink => trivial
  | isValidPath => trivial

/-- The invariant after a change of files, unless it is one of a link in the directory `auto` that
somebody relies on. -/
theorem Invariant.touches (hinv : s.Invariant env R) {changed : Set Loc} (ht : Touches s s' changed)
    (hreal : ∀ h, Intact env R s h → HasRealRoot env s h → h.indirect = true →
      env.realRoot h.root ∉ changed ∨ ∃ i, s.next ≤ i ∧
        s'.fs.linkAt (env.realRoot h.root) = some (i, subPath h.root))
    (htemp : ∀ p call temp, s.perm p = some call → call.place = .addIndirectRoot (.rename temp) →
      env.autoDir ++ [temp] ∉ changed ∨
        ∀ i t, s'.fs.linkAt (env.autoDir ++ [temp]) = some (i, t) → t = subPath call.gcRoot) :
    s'.Invariant env R := by
  have hkept : ∀ {st h}, Kept env R st s h → s'.HasLink h → Kept env R st s' h :=
    fun hk hlink => hk.frame hinv.files hinv.task ht hlink fun hind hst =>
      hreal _ hk.intact (hk.realRoot hst) hind
  refine ⟨ht.proc ▸ hinv.proc, ht.ok, ?_, ?_, ?_, ?_, ?_⟩
  · intro c task htask
    rw [ht.scan] at htask
    exact (hinv.task c task htask).frame ht
  · intro c hc
    rw [ht.proc] at hc
    rw [ht.scan]
    exact hinv.waiting c hc
  · intro p call hcall
    rw [ht.perm] at hcall
    have hok := hinv.call p call hcall
    refine ⟨ht.proc ▸ hok.idle, hok.checked, hok.temp, fun temp hplace => ?_⟩
    obtain ⟨hname, hlink⟩ := hok.autoTemp temp hplace
    refine ⟨hname, fun i t hi => ?_⟩
    rcases htemp p call temp hcall hplace with hno | hnew
    · obtain ⟨hnode, hfile⟩ := LinkedFiles.linkAt_eq_some_iff.mp hi
      rw [ht.node _ hno] at hnode
      rw [ht.file i (hinv.files.numbered _ _ hnode)] at hfile
      exact hlink i t (LinkedFiles.linkAt_eq_some_iff.mpr ⟨hnode, hfile⟩)
    · exact hnew i t hi
  · intro p h hm
    obtain ⟨hm, hlink⟩ := ht.making p h hm
    obtain ⟨call, st, hok⟩ := hinv.making p h hm
    exact ⟨call, st, ht.perm ▸ hok.perm, hok.stage, hok.root, hok.indirect, ht.proc ▸ hok.observed,
      hkept hok.kept hlink⟩
  · intro h hh
    obtain ⟨hh, hlink⟩ := ht.handed h hh
    obtain ⟨hvalid, hk⟩ := hinv.handed h hh
    exact ⟨ht.proc ▸ hvalid, hkept hk hlink⟩

/-- That the files are proper depends on the tree and the next inode only. -/
theorem FilesOk.of_eq (h : s.FilesOk) (hfs : s'.fs = s.fs) (hnext : s'.next = s.next) :
    s'.FilesOk := by
  refine ⟨hfs ▸ h.tree, fun l i hi => ?_⟩
  rw [hfs] at hi
  rw [hnext]
  exact h.numbered l i hi

/-- What is kept depends on the tree, the processes and the scans only. -/
theorem Kept.of_eq {st : Stage} (h' : Kept env R st s h) (hfs : s'.fs = s.fs)
    (hproc : s'.proc = s.proc) (hscan : s'.scan = s.scan) : Kept env R st s' h := by
  refine ⟨⟨hfs ▸ h'.intact.link, h'.intact.checked, h'.intact.place⟩, fun hst hind => ?_,
    fun hst => (h'.found hst).of_eq hproc hscan⟩
  rw [hfs, hscan]
  exact h'.realRoot hst hind

/-- A process goes on in `addPermRoot`. -/
theorem Invariant.setCall (hinv : s.Invariant env R) {call : PermCall} {making : π → Option Handover}
    (hothers : ∀ q, q ≠ p → making q = s.making q) (hok : s.CallOk env R p call)
    (hmaking : ∀ h, making p = some h → call.gcRoot = h.root ∧ call.indirect = h.indirect ∧
      h.storePath ∈ (s.proc.procs p).observed ∧
      ∃ st, stage call.place = some st ∧ Kept env R st s h) :
    ({ s with perm := Function.update s.perm p (some call), making } :
      HandoverState π).Invariant env R := by
  refine ⟨hinv.proc, hinv.files.of_eq rfl rfl, hinv.task, hinv.waiting, ?_, ?_,
    fun h hh => ⟨(hinv.handed h hh).1, (hinv.handed h hh).2.of_eq rfl rfl rfl⟩⟩
  · intro q call' hcall'
    by_cases hq : q = p
    · subst hq
      obtain rfl : call = call' := by simpa using hcall'
      exact ⟨hok.idle, hok.checked, hok.temp, hok.autoTemp⟩
    · have hother : s.perm q = some call' := by simpa [hq] using hcall'
      have hok' := hinv.call q call' hother
      exact ⟨hok'.idle, hok'.checked, hok'.temp, hok'.autoTemp⟩
  · intro q h hm
    by_cases hq : q = p
    · subst hq
      obtain ⟨hroot, hind, hobserved, st, hst, hk⟩ := hmaking h hm
      exact ⟨call, st, by simp, hst, hroot, hind, hobserved, hk.of_eq rfl rfl rfl⟩
    · dsimp only at hm
      rw [hothers q hq] at hm
      obtain ⟨call', st, hok'⟩ := hinv.making q h hm
      refine ⟨call', st, ?_, hok'.stage, hok'.root, hok'.indirect, hok'.observed,
        hok'.kept.of_eq rfl rfl rfl⟩
      simpa [hq] using hok'.perm

/-- A process goes on, and what it is making is at the same stage. -/
theorem Invariant.goto (hinv : s.Invariant env R) {call : PermCall} {place : PermPlace}
    (hperm : s.perm p = some call)
    (htemp : ∀ temp, place = .createSymlink (.rename temp) →
      ∃ rand, temp = env.tempName p rand (call.gcRoot.getLastD []))
    (hautoTemp : ∀ temp, place = .addIndirectRoot (.rename temp) →
      (∃ rand, temp = env.tempName p rand (env.autoName (subPath call.gcRoot))) ∧
      ∀ i t, s.fs.linkAt (env.autoDir ++ [temp]) = some (i, t) → t = subPath call.gcRoot)
    (hkept : ∀ h st, MakingOk env R s p h call st →
      ∃ st', stage place = some st' ∧ Kept env R st' s h) :
    (s.goto p call place).Invariant env R := by
  have hok := hinv.call p call hperm
  refine hinv.setCall (fun _ _ => rfl) ⟨hok.idle, hok.checked, htemp, hautoTemp⟩ fun h hm => ?_
  obtain ⟨call', st, hmaking⟩ := hinv.making p h hm
  obtain rfl : call = call' := by simpa using hperm.symm.trans hmaking.perm
  exact ⟨hmaking.root, hmaking.indirect, hmaking.observed, hkept h st hmaking⟩

/-- A process leaves `addPermRoot`; what it has made can be handed over. -/
theorem Invariant.leave (hinv : s.Invariant env R) {handed : List Handover}
    (hhanded : ∀ h ∈ handed, h.storePath ∈ s.proc.valid ∧ Kept env R .synced s h) :
    ({ s.leave p with handed } : HandoverState π).Invariant env R := by
  refine ⟨hinv.proc, hinv.files.of_eq rfl rfl, hinv.task, hinv.waiting, ?_, ?_,
    fun h hh => ⟨(hhanded h hh).1, (hhanded h hh).2.of_eq rfl rfl rfl⟩⟩
  · intro q call' hcall'
    have hq : q ≠ p := by
      rintro rfl
      simp [HandoverState.leave] at hcall'
    have hother : s.perm q = some call' := by simpa [HandoverState.leave, hq] using hcall'
    have hok' := hinv.call q call' hother
    exact ⟨hok'.idle, hok'.checked, hok'.temp, hok'.autoTemp⟩
  · intro q h hm
    have hq : q ≠ p := by
      rintro rfl
      simp [HandoverState.leave] at hm
    have hother : s.making q = some h := by simpa [HandoverState.leave, hq] using hm
    obtain ⟨call', st, hok'⟩ := hinv.making q h hother
    refine ⟨call', st, ?_, hok'.stage, hok'.root, hok'.indirect, hok'.observed,
      hok'.kept.of_eq rfl rfl rfl⟩
    simpa [HandoverState.leave, hq] using hok'.perm

/-! ### Steps of `addPermRoot` -/

/-- A root has no name of a temporary link. -/
theorem realRoot_ne_tempName {root : Loc} {rand : ℕ} :
    env.realRoot root ≠ dir ++ [env.tempName p rand n] := by
  intro heq
  obtain ⟨-, hname⟩ := List.append_inj' heq rfl
  exact RootsEnv.tempName_ne_autoName rand n (subPath root) (by simpa using hname.symm)

/-- The temporary link of another process. -/
theorem autoTemp_ne (hinv : s.Invariant env R) {call call' : PermCall} {temp : Str} {q : π} {rand : ℕ}
    (hcall : s.perm p = some call) (hplace : ∀ temp, call.place ≠ .addIndirectRoot (.rename temp))
    (hcall' : s.perm q = some call') (hplace' : call'.place = .addIndirectRoot (.rename temp)) :
    env.autoDir ++ [temp] ≠ dir ++ [env.tempName p rand n] := by
  intro heq
  obtain ⟨⟨rand', rfl⟩, -⟩ := (hinv.call q call' hcall').autoTemp temp hplace'
  obtain ⟨-, hname⟩ := List.append_inj' heq rfl
  obtain rfl : q = p := RootsEnv.eq_of_tempName (by simpa using hname)
  obtain rfl : call = call' := by simpa using hcall.symm.trans hcall'
  exact hplace _ hplace'

/-- A directory is made where nothing was. -/
theorem Invariant.mkdir (hinv : s.Invariant env R) (hs : s.mkdir dir n = some s') :
    s'.Invariant env R ∧ Touches s s' {dir ++ [n]} := by
  obtain ⟨habsent, ht, hnode⟩ := touches_mkdir hinv.files hs
  refine ⟨hinv.touches ht (fun h _ hr hind => Or.inl (hr.ne_of_absent hind habsent)) ?_, ht⟩
  intro q call temp _ _
  by_cases hmem : env.autoDir ++ [temp] ∈ ({dir ++ [n]} : Set Loc)
  · refine Or.inr fun i t hi => ?_
    rw [Set.mem_singleton_iff] at hmem
    rw [hmem] at hi
    rw [node_of_linkAt hi] at hnode
    cases hnode
  · exact Or.inl hmem

/-- A process makes a temporary link. -/
theorem Invariant.symlinkTemp (hinv : s.Invariant env R) {call : PermCall} {rand : ℕ}
    (hcall : s.perm p = some call) (hplace : ∀ temp, call.place ≠ .addIndirectRoot (.rename temp))
    (hs : s.symlink dir (env.tempName p rand n) target = some s') :
    s'.Invariant env R ∧ Touches s s' {dir ++ [env.tempName p rand n]} ∧
      s'.fs.linkAt (dir ++ [env.tempName p rand n]) = some (s.next, target) := by
  obtain ⟨habsent, ht, hlink⟩ := touches_symlink hinv.files hs
  refine ⟨hinv.touches ht (fun h _ hr hind => Or.inl (hr.ne_of_absent hind habsent)) ?_, ht, hlink⟩
  exact fun q call' temp hcall' hplace' => Or.inl (autoTemp_ne hinv hcall hplace hcall' hplace')

/-- A process puts the link to the store path in its place. -/
theorem Invariant.renameRoot (hR : Apart env R) (hinv : s.Invariant env R) {call : PermCall}
    {temp : Str} (hcall : s.perm p = some call) (hplace : call.place = .createSymlink (.rename temp))
    (hs : s.rename call.gcRoot.dropLast temp (call.gcRoot.getLastD []) = some s') :
    s'.Invariant env R ∧ s'.proc = s.proc ∧ s'.perm = s.perm ∧ s'.making p = none := by
  have hok := hinv.call p call hcall
  obtain ⟨i, t, -, ht, -⟩ := touches_rename hinv.files hs
  obtain ⟨rand, rfl⟩ := hok.temp temp hplace
  have hroot : call.gcRoot.dropLast ++ [call.gcRoot.getLastD []] = call.gcRoot := by
    rw [List.getLastD_eq_getLast?, List.getLast?_eq_some_getLast hok.checked.ne_nil]
    exact List.dropLast_append_getLast hok.checked.ne_nil
  rw [hroot] at ht
  have hno : ∀ temp, call.place ≠ .addIndirectRoot (.rename temp) := by simp [hplace]
  refine ⟨hinv.touches ht (fun h hi _ _ => Or.inl ?_) (fun q call' temp hcall' hplace' => Or.inl ?_),
    ht.proc, ht.perm, ?_⟩
  · rintro (heq | heq)
    · exact realRoot_ne_tempName heq
    · refine hR.free h.root hi.checked.mem call.gcRoot hok.checked.mem [] ?_
      rw [List.append_nil]
      exact heq.symm
  · rintro (heq | heq)
    · exact autoTemp_ne hinv hcall hno hcall' hplace' heq
    · obtain ⟨⟨rand', rfl⟩, -⟩ := (hinv.call q call' hcall').autoTemp temp hplace'
      refine hR.free call'.gcRoot (hinv.call q call' hcall').checked.mem call.gcRoot hok.checked.mem
        (str ".tmp-" ++ decimal (env.pid q) ++ str "-" ++ decimal rand') ?_
      rw [← heq]
      simp [RootsEnv.tempName]
  · cases hm : s'.making p with
    | none => rfl
    | some h =>
      obtain ⟨call', st, hmaking⟩ := hinv.making p h (ht.making p h hm).1
      obtain rfl : call = call' := by simpa using hcall.symm.trans hmaking.perm
      have hst := hmaking.stage
      rw [hplace] at hst
      cases hst

/-- A process puts the link to an indirect root in its place. -/
theorem Invariant.renameAuto (hR : Apart env R) (hinv : s.Invariant env R) {call : PermCall}
    {temp : Str} (hcall : s.perm p = some call)
    (hplace : call.place = .addIndirectRoot (.rename temp))
    (hs : s.rename env.autoDir temp (env.autoName (subPath call.gcRoot)) = some s') :
    s'.Invariant env R ∧ s'.perm = s.perm ∧
      ∀ h st, MakingOk env R s' p h call st → HasRealRoot env s' h := by
  have hok := hinv.call p call hcall
  obtain ⟨i, t, hlink, ht, hat, hnext, hgone⟩ := touches_rename hinv.files hs
  obtain ⟨⟨rand, rfl⟩, htarget⟩ := hok.autoTemp temp hplace
  obtain rfl := htarget i t hlink
  refine ⟨hinv.touches ht (fun h hi _ _ => ?_) (fun q call' temp hcall' hplace' => ?_), ht.perm,
    fun h st hmaking _ => ?_⟩
  · by_cases hname : env.autoName (subPath h.root) = env.autoName (subPath call.gcRoot)
    · have hroot := hR.name h.root hi.checked.mem call.gcRoot hok.checked.mem hname
      refine Or.inr ⟨s.next, le_rfl, ?_⟩
      rw [hroot]
      exact hat
    · refine Or.inl ?_
      rintro (heq | heq)
      · exact realRoot_ne_tempName heq
      · obtain ⟨-, heq⟩ := List.append_inj' heq rfl
        exact hname (by simpa using heq)
  · obtain ⟨⟨rand', rfl⟩, -⟩ := (hinv.call q call' hcall').autoTemp temp hplace'
    by_cases hq : q = p
    · subst hq
      obtain rfl : call = call' := by simpa using hcall.symm.trans hcall'
      have hsame : env.tempName q rand (env.autoName (subPath call.gcRoot)) =
          env.tempName q rand' (env.autoName (subPath call.gcRoot)) := by
        simpa using hplace.symm.trans hplace'
      rw [← hsame]
      exact Or.inr hgone
    · refine Or.inl ?_
      rintro (heq | heq)
      · obtain ⟨-, heq⟩ := List.append_inj' heq rfl
        exact hq (RootsEnv.eq_of_tempName (by simpa using heq))
      · have hroot := heq.symm
        exact realRoot_ne_tempName hroot
  · rw [← hmaking.root]
    refine ⟨s.next, hat, fun c hmem => ?_⟩
    rw [ht.scan] at hmem
    exact lt_irrefl _ (hinv.task c _ hmem).1

/-- A scan that begins is on its way to every root. -/
theorem finds_start (hi : Intact env R s h) : Finds env h ⟨[.visit env.rootsDir true], ∅⟩ := by
  refine ⟨Or.inr ⟨_, List.mem_singleton_self _, ?_⟩, by simp⟩
  cases hind : h.indirect with
  | false => exact ⟨h.root, Or.inl rfl, hi.place hind⟩
  | true =>
    refine ⟨env.realRoot h.root, Or.inr ⟨hind, rfl, rfl⟩, ?_⟩
    rw [RootsEnv.realRoot, RootsEnv.autoDir, List.append_assoc]
    exact List.prefix_append _ _

/-- A collector that has the lock keeps processes out of `syncWithGC`. -/
theorem found_of_not_blocked (hinv : s.Invariant env R)
    (hfree : s.proc.gcLock.blocked p .shared = false) (hidle : (s.proc.procs p).call = .idle)
    (hi : Intact env R s h) : Found env s h := by
  have hout : ∀ c, ¬ ((s.proc.procs c).phase = .scanning ∨
      ∃ permRoots, (s.proc.procs c).phase = .found permRoots) := by
    intro c hc
    have hlock := hinv.proc.gcLock_of_phase hc
    by_cases hcp : c = p
    · subst hcp
      simp [RootsProcess.phase, hidle] at hc
    · exact absurd (LockTable.blocked_eq_false.mp hfree c .exclusive hlock hcp) (by simp)
  refine ⟨fun c hc => ?_, fun c permRoots hc => absurd (Or.inr ⟨permRoots, hc⟩) (hout c)⟩
  rcases hc with hc | hc
  · rw [hinv.waiting c hc]
    exact finds_start hi
  · exact absurd (Or.inl hc) (hout c)

/-- What is textually below the directory of roots is below it in the tree. -/
theorem isPrefix_of_inRootsDir {root : Loc} (hnames : ∀ n ∈ root, IsFileName n)
    (h : inRootsDir env (subPath root) = true) : env.rootsDir <+: root := by
  obtain ⟨rest, hrest⟩ := List.isPrefixOf_iff_prefix.mp h
  have hcomponents := congrArg components hrest
  rw [List.append_assoc, List.singleton_append, components_append_slash,
    components_subPath env.fileNames, components_subPath hnames] at hcomponents
  exact ⟨components rest, hcomponents⟩

/-- The link to the store path has been made. -/
theorem Invariant.record (hinv : s.Invariant env R) {call : PermCall} {place : PermPlace}
    (hcall : s.perm p = some call) (hnone : s.making p = none)
    (hplace : place = if call.indirect then .addIndirectRoot .createDirs else .lockGC) :
    ((s.record env p call).goto p call place).Invariant env R := by
  have hok := hinv.call p call hcall
  have hok' : s.CallOk env R p { call with place } := by
    refine ⟨hok.idle, hok.checked, ?_, ?_⟩
    · rw [hplace]
      intro temp htemp
      dsimp only at htemp
      split_ifs at htemp
    · rw [hplace]
      intro temp htemp
      dsimp only at htemp
      split_ifs at htemp
      cases htemp
  unfold HandoverState.record
  split_ifs with hmade
  · refine hinv.setCall (fun q hq => Function.update_of_ne hq ..) hok' fun h hm => ?_
    dsimp only at hm
    rw [Function.update_self] at hm
    obtain rfl := Option.some.inj hm
    have hkept : ∀ st, (st ≠ .made → call.indirect = false) → st ≠ .synced →
        Kept env R st s ⟨call.storePath, call.gcRoot, s.next - 1, call.indirect⟩ := by
      intro st hdirect hst
      refine ⟨⟨hmade.2.2, hok.checked, fun hind => ?_⟩, fun hne hind => ?_, fun h => absurd h hst⟩
      · refine isPrefix_of_inRootsDir (fun n hn => ?_) (hmade.2.1.resolve_left ?_)
        · exact (hok.checked.names n hn).1.isFileName (hok.checked.names n hn).2
        · rw [show call.indirect = false from hind]
          simp
      · cases (hdirect hne).symm.trans hind
    refine ⟨rfl, rfl, hmade.1, ?_⟩
    rw [hplace]
    dsimp only
    cases hind : call.indirect with
    | true => exact ⟨.made, rfl, hind ▸ hkept .made (fun h => absurd rfl h) (by decide)⟩
    | false => exact ⟨.linked, rfl, hind ▸ hkept .linked (fun _ => hind) (by decide)⟩
  · refine hinv.setCall (fun _ _ => rfl) hok' fun h hm => ?_
    rw [hnone] at hm
    cases hm

/-- The end of a process keeps the invariant. -/
theorem Invariant.leave' (hinv : s.Invariant env R) : (s.leave p).Invariant env R :=
  hinv.leave hinv.handed

/-- The steps of `createSymlink` before the link is put in its place. -/
theorem Invariant.nextSymlink (hinv : s.Invariant env R) {call : PermCall} {rand : ℕ}
    {place place' : SymlinkPlace} (hcall : s.perm p = some call)
    (hplace : ∀ temp, call.place ≠ .addIndirectRoot (.rename temp))
    (hs : s.nextSymlink env p rand dir n target place = some (s', some place')) :
    s'.Invariant env R ∧ s'.perm = s.perm ∧ ∀ temp, place' = .rename temp →
      temp = env.tempName p rand n ∧
        ∀ i t, s'.fs.linkAt (dir ++ [temp]) = some (i, t) → t = target := by
  cases place with
  | createDirs =>
    simp only [HandoverState.nextSymlink] at hs
    split at hs
    · rename_i d m hmissing
      obtain ⟨s₁, hmkdir, heq⟩ := Option.map_eq_some_iff.mp hs
      cases heq
      obtain ⟨hinv', ht⟩ := hinv.mkdir hmkdir
      exact ⟨hinv', ht.perm, by simp⟩
    · cases hs
      exact ⟨hinv, rfl, by simp⟩
  | symlink =>
    obtain ⟨s₁, hsymlink, heq⟩ := Option.map_eq_some_iff.mp hs
    cases heq
    obtain ⟨hinv', ht, hlink⟩ := hinv.symlinkTemp hcall hplace hsymlink
    refine ⟨hinv', ht.perm, ?_⟩
    rintro temp ⟨⟩
    refine ⟨rfl, fun i t hi => ?_⟩
    exact (congrArg Prod.snd (Option.some.inj (hlink.symm.trans hi))).symm
  | rename temp =>
    obtain ⟨s₁, -, heq⟩ := Option.map_eq_some_iff.mp hs
    cases heq

/-- `createSymlink` returns when the link has been put in its place. -/
theorem rename_of_nextSymlink {rand : ℕ} {place : SymlinkPlace}
    (hs : s.nextSymlink env p rand dir n target place = some (s', none)) :
    ∃ temp, place = .rename temp ∧ s.rename dir temp n = some s' := by
  cases place with
  | createDirs =>
    simp only [HandoverState.nextSymlink] at hs
    split at hs
    · obtain ⟨s₁, -, heq⟩ := Option.map_eq_some_iff.mp hs
      cases heq
    · cases hs
  | symlink =>
    obtain ⟨s₁, -, heq⟩ := Option.map_eq_some_iff.mp hs
    cases heq
  | rename temp =>
    obtain ⟨s₁, hrename, heq⟩ := Option.map_eq_some_iff.mp hs
    cases heq
    exact ⟨temp, rfl, hrename⟩

/-- A process takes the next step of `addPermRoot`. -/
theorem Invariant.nextPerm (hR : Apart env R) (hinv : s.Invariant env R) {call : PermCall} {rand : ℕ}
    (hcall : s.perm p = some call) (hs : s.nextPerm env p rand call = some s') :
    s'.Invariant env R := by
  have hok := hinv.call p call hcall
  -- before the link is made there is nothing to keep
  have hnothing : stage call.place = none → ∀ h st, ¬ MakingOk env R s p h call st := by
    intro hnone h st hmaking
    cases hnone.symm.trans hmaking.stage
  unfold HandoverState.nextPerm at hs
  split at hs
  · rename_i hplace
    have hno := hnothing (by rw [hplace]; rfl)
    split_ifs at hs <;> cases hs <;>
      exact hinv.goto hcall (by simp) (by simp) fun h st hm => absurd hm (hno h st)
  · rename_i hplace
    have hno := hnothing (by rw [hplace]; rfl)
    split at hs
    · cases hs
      exact hinv.goto hcall (by simp) (by simp) fun h st hm => absurd hm (hno h st)
    · cases hs
      exact hinv.leave'
  · rename_i hplace
    have hno := hnothing (by rw [hplace]; rfl)
    split at hs
    · split_ifs at hs
      · cases hs
        exact hinv.goto hcall (by simp) (by simp) fun h st hm => absurd hm (hno h st)
      · cases hs
        exact hinv.leave'
    · cases hs
      exact hinv.leave'
  · rename_i place hplace
    have hnotAuto : ∀ temp, call.place ≠ .addIndirectRoot (.rename temp) := by simp [hplace]
    split at hs
    · rename_i s₁ place' hsymlink
      cases hs
      obtain ⟨hinv', hperm, htemp⟩ := hinv.nextSymlink hcall hnotAuto hsymlink
      refine hinv'.goto (hperm ▸ hcall) ?_ (by simp) fun h st hm => ?_
      · rintro temp ⟨⟩
        exact ⟨rand, (htemp temp rfl).1⟩
      · have hst := hm.stage
        rw [hplace] at hst
        cases hst
    · rename_i s₁ hsymlink
      cases hs
      obtain ⟨temp, rfl, hrename⟩ := rename_of_nextSymlink hsymlink
      obtain ⟨hinv', -, hperm, hnone⟩ := hinv.renameRoot hR hcall hplace hrename
      exact hinv'.record (hperm ▸ hcall) hnone rfl
    · cases hs
      exact hinv.leave'
  · rename_i place hplace
    split at hs
    · rename_i s₁ place' hsymlink
      cases hs
      by_cases hrename : ∃ temp, place = .rename temp
      · obtain ⟨temp, rfl⟩ := hrename
        obtain ⟨s₂, -, heq⟩ := Option.map_eq_some_iff.mp hsymlink
        cases heq
      · have hnotAuto : ∀ temp, call.place ≠ .addIndirectRoot (.rename temp) := by
          intro temp htemp
          exact hrename ⟨temp, by simpa using hplace.symm.trans htemp⟩
        obtain ⟨hinv', hperm, htemp⟩ := hinv.nextSymlink hcall hnotAuto hsymlink
        refine hinv'.goto (hperm ▸ hcall) (by simp) ?_ fun h st hm => ⟨.made, rfl, ?_⟩
        · rintro temp ⟨⟩
          obtain ⟨hname, hlink⟩ := htemp temp rfl
          exact ⟨⟨rand, hname⟩, hlink⟩
        · have hst := hm.stage
          rw [hplace] at hst
          cases hst
          exact hm.kept
    · rename_i s₁ hsymlink
      cases hs
      obtain ⟨temp, rfl, hrename⟩ := rename_of_nextSymlink hsymlink
      obtain ⟨hinv', hperm, hreal⟩ := hinv.renameAuto hR hcall hplace hrename
      refine hinv'.goto (hperm ▸ hcall) (by simp) (by simp) fun h st hm => ⟨.linked, rfl, ?_⟩
      exact ⟨hm.kept.intact, fun _ => hreal h st hm, fun h => absurd h (by decide)⟩
    · cases hs
      exact hinv.leave'
  · rename_i hplace
    split_ifs at hs with hblocked
    cases hs
    refine hinv.goto hcall (by simp) (by simp) fun h st hm => ⟨.synced, rfl, ?_⟩
    have hst := hm.stage
    rw [hplace] at hst
    cases hst
    refine ⟨hm.kept.intact, fun _ => hm.kept.realRoot (by decide), fun _ => ?_⟩
    exact found_of_not_blocked hinv (by simpa using hblocked) hok.idle hm.kept.intact
  · rename_i hplace
    cases hs
    refine hinv.leave fun h hh => ?_
    rcases List.mem_append.mp hh with hh | hh
    · have hm := Option.mem_toList.mp hh
      refine ⟨hinv.valid_of_making hm, ?_⟩
      obtain ⟨call', st, hmaking⟩ := hinv.making p h hm
      obtain rfl : call = call' := by simpa using hcall.symm.trans hmaking.perm
      have hst := hmaking.stage
      rw [hplace] at hst
      cases hst
      exact hmaking.kept
    · exact hinv.handed h hh

/-- A path that was made canonical stays as it is. -/
theorem canonPath_idem {x y : Path} (h : canonPath x = .ok y) : canonPath y = .ok y := by
  rcases canonPath_spec h with rfl | ⟨names, hne, rfl, hnames⟩
  · decide
  · exact canonPath_subPath hne fun n hn => (hnames n hn).1

/-- The checks at the beginning of `addPermRoot`. -/
theorem checked_of_canonPath {storePath storePath' gcRoot gcRoot' : Path} {indirect : Bool}
    (hnul : gcRoot.NulFree) (hR : ∀ g, canonPath gcRoot = .ok g → components g ∈ R)
    (hstore : canonPath storePath = .ok storePath') (hroot : canonPath gcRoot = .ok gcRoot')
    (hin : isStorePath env.cfg storePath' = true) (hout : ¬ isInStore env.cfg gcRoot' = true)
    (hne : gcRoot' ≠ str "/") : Checked env R storePath' (components gcRoot') indirect := by
  obtain ⟨names, hnil, rfl, hnames⟩ := (canonPath_spec hroot).resolve_left hne
  have hnulFree : ∀ n ∈ names, n.NulFree := fun n hn h0 => hnul ((hnames n hn).2 0 h0)
  have hcomponents : components (subPath names) = names :=
    components_subPath fun n hn => (hnames n hn).1.isFileName (hnulFree n hn)
  have hmem := hR _ hroot
  rw [hcomponents] at hmem ⊢
  exact ⟨hmem, hnil, fun n hn => ⟨(hnames n hn).1, hnulFree n hn⟩, by simpa using hout, hin,
    canonPath_idem hstore⟩

/-- `addPermRoot` may start, in an idle process. -/
theorem Invariant.startPerm (hinv : s.Invariant env R) {storePath gcRoot : Path}
    {indirect allowOutsideRootsDir : Bool} (hidle : (s.proc.procs p).call = .idle)
    (hnone : s.perm p = none) (hnul : gcRoot.NulFree)
    (hR : ∀ g, canonPath gcRoot = .ok g → components g ∈ R)
    (hs : s.startPerm env p storePath gcRoot indirect allowOutsideRootsDir = some s') :
    s'.Invariant env R := by
  have hmaking : s.making p = none := by
    cases hm : s.making p with
    | none => rfl
    | some h =>
      obtain ⟨call, st, hmaking⟩ := hinv.making p h hm
      cases hnone.symm.trans hmaking.perm
  unfold HandoverState.startPerm at hs
  split at hs
  · rename_i storePath' gcRoot' hstore hroot
    split_ifs at hs with hchecked hind hplace
    · cases hs
      refine hinv.setCall (fun _ _ => rfl) ⟨hidle, ?_, by simp, by simp⟩ fun h hm => ?_
      · exact checked_of_canonPath hnul hR hstore hroot hchecked.1 hchecked.2.1 hchecked.2.2
      · rw [hmaking] at hm
        cases hm
    · cases hs
      refine hinv.setCall (fun _ _ => rfl) ⟨hidle, ?_, by simp, by simp⟩ fun h hm => ?_
      · exact checked_of_canonPath hnul hR hstore hroot hchecked.1 hchecked.2.1 hchecked.2.2
      · rw [hmaking] at hm
        cases hm
    · cases hs
      exact hinv
    · cases hs
      exact hinv
  · cases hs
    exact hinv

/-! ### Steps of collectors and other processes -/

/-- What is known of the roots when a step of another part of the system keeps them found. -/
theorem Invariant.setProc (hinv : s.Invariant env R) {proc : RootsState π} {scan : π → RootScan}
    (hproc : proc.Invariant)
    (htask : ∀ c, ∀ task ∈ (scan c).todo, s.TaskOk task)
    (hwaiting : ∀ c, (proc.procs c).phase = .waiting → scan c = ⟨[.visit env.rootsDir true], ∅⟩)
    (hprocs : ∀ p call, s.perm p = some call → proc.procs p = s.proc.procs p)
    (hkept : ∀ st h, Kept env R st s h → h.storePath ∈ s.proc.valid →
      Kept env R st { s with proc, scan } h ∧ (st = .synced → h.storePath ∈ proc.valid)) :
    ({ s with proc, scan } : HandoverState π).Invariant env R := by
  refine ⟨hproc, hinv.files.of_eq rfl rfl, fun c task hmem => ?_, hwaiting, ?_, ?_, fun h hh => ?_⟩
  · have htask' := htask c task hmem
    cases task <;> exact htask'
  · intro p call hcall
    have hok := hinv.call p call hcall
    refine ⟨?_, hok.checked, hok.temp, hok.autoTemp⟩
    dsimp only
    rw [hprocs p call hcall]
    exact hok.idle
  · intro p h hm
    obtain ⟨call, st, hok⟩ := hinv.making p h hm
    refine ⟨call, st, hok.perm, hok.stage, hok.root, hok.indirect, ?_,
      (hkept st h hok.kept (hinv.valid_of_making hm)).1⟩
    dsimp only
    rw [hprocs p call hok.perm]
    exact hok.observed
  · obtain ⟨hvalid, hk⟩ := hinv.handed h hh
    exact ⟨(hkept .synced h hk hvalid).2 rfl, (hkept .synced h hk hvalid).1⟩

/-- A step of the processes does not change the links. -/
theorem Kept.setProc {st : Stage} (hk : Kept env R st s h) {proc : RootsState π}
    (hfound : Found env s h → Found env { s with proc } h) : Kept env R st { s with proc } h :=
  ⟨⟨hk.intact.link, hk.intact.checked, hk.intact.place⟩, hk.realRoot,
    fun hst => hfound (hk.found hst)⟩

/-- A collector that finds the roots has found this one. -/
theorem Finds.mem_of_nil {scan : RootScan} (hf : Finds env h scan) (htodo : scan.todo = [])
    (additional : PathSet) :
    h.storePath ∈ scan.roots.entries.foldl (fun roots e => roots.insert e.2) additional := by
  rcases hf.root with hroot | ⟨task, hmem, -⟩
  · have hentry := SortedMap.find?_eq_some_iff.mp hroot
    have hfold : (scan.roots.entries.map Prod.snd).foldl SortedSet.insert additional =
        scan.roots.entries.foldl (fun paths r => paths.insert r.2) additional := List.foldl_map
    rw [← hfold, SortedSet.mem_foldl_insert]
    exact Or.inl (List.mem_map_of_mem hentry)
  · rw [htodo] at hmem
    cases hmem

section

variable [Fintype π]

/-- A process that is in `addPermRoot` takes no other step; it can die. -/
theorem eq_kill_of_actor {e : RootsEvent π} {proc : RootsState π} {call : PermCall}
    (hcall : s.perm p = some call) (hidle : (s.proc.procs p).call = .idle)
    (hpermits : s.permits e = true) (hs : s.proc.step env.cfg e = some proc)
    (hactor : e.actor = some p) : e = .kill p := by
  cases e with
  | register path => cases hactor
  | kill q =>
    obtain rfl : q = p := by simpa [RootsEvent.actor] using hactor
    rfl
  | collectGarbage q => cases hpermits
  | findRoots q permRoots => cases hpermits
  | addTempRoot q path =>
    obtain rfl : q = p := by simpa [RootsEvent.actor] using hactor
    simp [HandoverState.permits, hcall] at hpermits
  | isValidPath q path =>
    obtain rfl : q = p := by simpa [RootsEvent.actor] using hactor
    simp [HandoverState.permits, hcall] at hpermits
  | exit q =>
    obtain rfl : q = p := by simpa [RootsEvent.actor] using hactor
    simp [HandoverState.permits, hcall] at hpermits
  | next q =>
    obtain rfl : q = p := by simpa [RootsEvent.actor] using hactor
    simp [RootsState.step, hidle] at hs
  | readDirectory q entries =>
    obtain rfl : q = p := by simpa [RootsEvent.actor] using hactor
    simp [RootsState.step, hidle] at hs
  | delete q event =>
    obtain rfl : q = p := by simpa [RootsEvent.actor] using hactor
    simp [RootsState.step, hidle] at hs
  | finish q =>
    obtain rfl : q = p := by simpa [RootsEvent.actor] using hactor
    simp [RootsState.step, hidle] at hs
  | throw q =>
    obtain rfl : q = p := by simpa [RootsEvent.actor] using hactor
    simp [RootsState.step, hidle] at hs

end
/-! ### Runs -/

/-- The processes step as for the temporary roots, no collector ignores liveness, and only
`addIndirectRoot` and the collectors change the directory `auto`. -/
def Regular (env : RootsEnv π) (R : Set Loc) (s : HandoverState π) : HandoverEvent π → Prop
  | .proc event => s.proc.Allowed event
  | .collectGarbage p ignoreLiveness =>
    s.proc.Allowed (.collectGarbage p) ∧ ignoreLiveness = false
  | .addPermRoot _ _ gcRoot _ _ =>
    match canonPath gcRoot with
    | .ok gcRoot => components gcRoot ∈ R
    | _ => True
  | .symlink dir _ _ => ¬ env.autoDir <+: dir
  | .unlink dir _ => ¬ env.autoDir <+: dir
  | .mkdir dir _ => ¬ env.autoDir <+: dir
  | .rmdir dir _ => ¬ env.autoDir <+: dir
  | _ => True

/-- A collector that removes a link finds the link there that it has looked at. -/
def RemovesStale (s : HandoverState π) : HandoverEvent π → Prop
  | .scan p _ =>
    match (s.scan p).todo with
    | .unlink path i :: _ =>
      match s.fs.node path with
      | some (.file j) => j = i
      | _ => True
    | _ => True
  | _ => True

/-- The steps under which a root is handed over. -/
def Clean (env : RootsEnv π) (R : Set Loc) (s : HandoverState π) (e : HandoverEvent π) : Prop :=
  Regular env R s e ∧ RemovesStale s e

instance (R : Set Loc) [DecidablePred (· ∈ R)] (e : HandoverEvent π) :
    Decidable (Regular env R s e) := by
  unfold Regular
  split
  case h_3 => split <;> infer_instance
  all_goals infer_instance

instance (e : HandoverEvent π) : Decidable (RemovesStale s e) := by
  unfold RemovesStale
  repeat' split
  all_goals infer_instance

instance (R : Set Loc) [DecidablePred (· ∈ R)] (e : HandoverEvent π) : Decidable (Clean env R s e) :=
  inferInstanceAs (Decidable (_ ∧ _))

/-- Other programs change a place that is not in the directory `auto`. -/
theorem Invariant.touchesOther (hinv : s.Invariant env R) (ht : Touches s s' {dir ++ [n]})
    (hdir : ¬ env.autoDir <+: dir) : s'.Invariant env R := by
  have hne : ∀ m, env.autoDir ++ [m] ∉ ({dir ++ [n]} : Set Loc) := by
    intro m hmem
    obtain ⟨heq, -⟩ := List.append_inj' (Set.mem_singleton_iff.mp hmem) rfl
    exact hdir (heq ▸ List.prefix_rfl)
  exact hinv.touches ht (fun _ _ _ _ => Or.inl (hne _)) fun _ _ _ _ _ => Or.inl (hne _)

/-- A collector goes on to other tasks. -/
theorem Invariant.setTasks (hinv : s.Invariant env R) {task : ScanTask} {tasks todo : List ScanTask}
    {roots : SortedMap Loc Path} (htodo : (s.scan c).todo = task :: todo)
    (hphase : (s.proc.procs c).phase = .scanning) (hok : ∀ t ∈ tasks, s.TaskOk t)
    (hunlink : ∀ path i, .unlink path i ∈ tasks → ∃ target, task = .pathExists path i target ∧
      s.fs.node (components target) = none)
    (hfinds : ∀ h, Intact env R s h → HasRealRoot env s h → h.storePath ∈ s.proc.valid →
      Finds env h (s.scan c) → Finds env h ⟨tasks ++ todo, roots⟩) :
    ({ s with scan := Function.update s.scan c ⟨tasks ++ todo, roots⟩ } :
      HandoverState π).Invariant env R := by
  have hmem : ∀ q t, t ∈ (Function.update s.scan c ⟨tasks ++ todo, roots⟩ q).todo →
      t ∈ (s.scan q).todo ∨ t ∈ tasks := by
    intro q t ht
    by_cases hq : q = c
    · subst hq
      rw [Function.update_self] at ht
      rcases List.mem_append.mp ht with ht | ht
      · exact Or.inr ht
      · exact Or.inl (by rw [htodo]; exact List.mem_cons_of_mem _ ht)
    · rw [Function.update_of_ne hq] at ht
      exact Or.inl ht
  refine hinv.setProc hinv.proc (fun q t ht => ?_) (fun q hq => ?_) (fun _ _ _ => rfl)
    fun st h hk hvalid => ⟨⟨?_, fun hst hind => ?_, fun hst => ⟨fun q hq => ?_, ?_⟩⟩, fun _ => hvalid⟩
  · rcases hmem q t ht with ht | ht
    · exact hinv.task q t ht
    · exact hok t ht
  · have hqc : q ≠ c := by
      rintro rfl
      cases hphase.symm.trans hq
    rw [Function.update_of_ne hqc]
    exact hinv.waiting q hq
  · exact ⟨hk.intact.link, hk.intact.checked, hk.intact.place⟩
  · obtain ⟨i, hlink, hno⟩ := hk.realRoot hst hind
    refine ⟨i, hlink, fun q hq => ?_⟩
    rcases hmem q _ hq with hq | hq
    · exact hno q hq
    · -- a link is only to be removed if its target is gone, and the root is there
      obtain ⟨target, rfl, hgone⟩ := hunlink _ _ hq
      obtain ⟨-, t, hfile, habs⟩ := hinv.task c _ (by rw [htodo]; exact List.mem_cons_self)
      obtain ⟨-, hfile'⟩ := LinkedFiles.linkAt_eq_some_iff.mp hlink
      obtain rfl : subPath h.root = t := by simpa using hfile'.symm.trans hfile
      rw [hk.intact.checked.absPath_root] at habs
      obtain rfl : subPath h.root = target := by simpa using habs
      rw [hk.intact.checked.components, node_of_linkAt hk.intact.link] at hgone
      cases hgone
  · have hf := (hk.found hst).finds q hq
    dsimp only
    by_cases hqc : q = c
    · subst hqc
      rw [Function.update_self]
      exact hfinds h hk.intact (hk.realRoot (hst ▸ by decide)) hvalid hf
    · rw [Function.update_of_ne hqc]
      exact hf
  · exact (hk.found hst).found

/-- Unlinking and putting off tasks do not interfere. -/
theorem push_unlink {tasks todo : List ScanTask} :
    (s.push c tasks todo).unlink dir n = (s.unlink dir n).push c tasks todo := by
  unfold unlink HandoverState.push
  dsimp only
  split <;> rfl

/-- A step of a scan. -/
theorem Invariant.nextScan (hinv : s.Invariant env R) {entries : List Str} {task : ScanTask}
    {todo : List ScanTask} (htodo : (s.scan c).todo = task :: todo)
    (hphase : (s.proc.procs c).phase = .scanning)
    (hclean : ∀ path i, task = .unlink path i → ∀ j, s.fs.node path = some (.file j) → j = i)
    (hs : s.nextScan env c entries task todo = some s') : s'.Invariant env R := by
  have htask : s.TaskOk task := hinv.task c task (by rw [htodo]; exact List.mem_cons_self)
  rcases scan_step_cases hinv.files htask hs with ⟨tasks, roots, rfl, hok, hunlink⟩ |
    ⟨path, i, rfl, rfl⟩
  · refine hinv.setTasks htodo hphase hok hunlink fun h hi hr hvalid hf => ?_
    simpa using hf.next hinv.files hi hr hvalid htodo hs
  · obtain ⟨-, hne⟩ := htask
    have hpath : path.dropLast ++ [path.getLastD []] = path := by
      rw [List.getLastD_eq_getLast?, List.getLast?_eq_some_getLast hne]
      exact List.dropLast_append_getLast hne
    have hremoved : (s.unlink path.dropLast (path.getLastD [])).Invariant env R := by
      rcases touches_unlink hinv.files path.dropLast (path.getLastD []) with heq | ⟨⟨j, hj⟩, ht, hgone⟩
      · rw [heq]
        exact hinv
      · rw [hpath] at hj ht hgone
        refine hinv.touches ht (fun h _ hr hind => Or.inl ?_) fun p call temp _ _ => ?_
        · rintro rfl
          obtain ⟨k, hlink, hno⟩ := hr hind
          obtain rfl : j = k := by simpa using hj.symm.trans (node_of_linkAt hlink)
          refine hno c ?_
          rw [htodo, hclean _ i rfl j hj]
          exact List.mem_cons_self
        · by_cases hmem : env.autoDir ++ [temp] = path
          · refine Or.inr fun k t hk => ?_
            rw [hmem] at hk
            rw [node_of_linkAt hk] at hgone
            cases hgone
          · exact Or.inl hmem
    have hscan : ((s.unlink path.dropLast (path.getLastD [])).scan c).todo =
        .unlink path i :: todo := by
      rw [scan_unlink]
      exact htodo
    have hproc : (s.unlink path.dropLast (path.getLastD [])).proc = s.proc := by
      unfold unlink
      split <;> rfl
    rw [push_unlink]
    exact hremoved.setTasks hscan (hproc ▸ hphase) (by simp) (by simp)
      fun h _ _ _ hf => hf.pop hscan id

section

variable [Fintype π]

/-- A step of the processes keeps the roots found. -/
theorem Found.proc_step {event : RootsEvent π} {proc : RootsState π} (hf : Found env s h)
    (hpermits : s.permits event = true) (hs : s.proc.step env.cfg event = some proc) :
    Found env { s with proc } h := by
  have hphase : ∀ c, (proc.procs c).phase = (s.proc.procs c).phase ∨ (proc.procs c).phase = .out ∨
      ((s.proc.procs c).phase = .waiting ∧ (proc.procs c).phase = .scanning) := by
    intro c
    have hstep := RootsState.phase_step hs c
    generalize (s.proc.procs c).phase = phase at hstep
    generalize (proc.procs c).phase = phase' at hstep
    cases hstep with
    | stays => exact Or.inl rfl
    | leaves => exact Or.inr (Or.inl rfl)
    | starts event =>
      subst event
      cases hpermits
    | locks => exact Or.inr (Or.inr ⟨rfl, rfl⟩)
    | finds permRoots event =>
      subst event
      cases hpermits
  refine ⟨fun c hc => ?_, fun c permRoots hc => ?_⟩
  · rcases hphase c with heq | hout | ⟨hwait, -⟩
    · rw [heq] at hc
      exact hf.finds c hc
    · rw [hout] at hc
      simp at hc
    · exact hf.finds c (Or.inl hwait)
  · rcases hphase c with heq | hout | ⟨-, hscan⟩
    · rw [heq] at hc
      exact hf.found c permRoots hc
    · cases hout.symm.trans hc
    · cases hscan.symm.trans hc

/-- A step of the processes. -/
theorem Invariant.procStep (hinv : s.Invariant env R) {event : RootsEvent π} {proc : RootsState π}
    (hallowed : s.proc.Allowed event) (hpermits : s.permits event = true)
    (hs : s.proc.step env.cfg event = some proc) (hcalls : ∀ p call, s.perm p = some call →
      event ≠ .kill p) : ({ s with proc } : HandoverState π).Invariant env R := by
  refine hinv.setProc (hinv.proc.step hallowed hs) hinv.task (fun c hc => ?_) (fun p call hcall => ?_)
    fun st h hk hvalid => ⟨hk.setProc fun hf => hf.proc_step hpermits hs, fun hst => ?_⟩
  · have hstep := RootsState.phase_step hs c
    rw [hc] at hstep
    generalize hphase : (s.proc.procs c).phase = phase at hstep
    cases hstep with
    | stays => exact hinv.waiting c hphase
    | starts event =>
      subst event
      cases hpermits
  · refine RootsState.procs_step_of_ne hs fun hactor => hcalls p call hcall ?_
    exact eq_kill_of_actor hcall (hinv.call p call hcall).idle hpermits hs hactor
  · exact RootsState.mem_valid_step hs hvalid (hk.found hst).found

/-- A collector starts, and will scan the directory of the roots. -/
theorem Invariant.collectGarbage (hinv : s.Invariant env R) {proc : RootsState π}
    (hnone : s.perm c = none) (hallowed : s.proc.Allowed (.collectGarbage c))
    (hs : s.proc.step env.cfg (.collectGarbage c) = some proc) :
    ({ s with
      proc, scan := Function.update s.scan c ⟨[.visit env.rootsDir true], ∅⟩ } :
      HandoverState π).Invariant env R := by
  have hothers : ∀ q, q ≠ c → proc.procs q = s.proc.procs q := fun q hq =>
    RootsState.procs_step_of_ne hs (by simpa [RootsEvent.actor] using hq.symm)
  have hself : (proc.procs c).phase = .waiting := by
    simp only [RootsState.step] at hs
    split at hs
    · cases hs
      simp [RootsState.goto, RootsProcess.phase]
    · cases hs
  refine hinv.setProc (hinv.proc.step hallowed hs) (fun q t ht => ?_) (fun q hq => ?_)
    (fun p call hcall => ?_) fun st h hk hvalid => ⟨⟨?_, fun hst hind => ?_, fun hst =>
      ⟨fun q hq => ?_, fun q permRoots hq => ?_⟩⟩, fun hst => ?_⟩
  · by_cases hq : q = c
    · subst hq
      simp only [Function.update_self, List.mem_singleton] at ht
      subst ht
      trivial
    · rw [Function.update_of_ne hq] at ht
      exact hinv.task q t ht
  · by_cases hqc : q = c
    · subst hqc
      exact Function.update_self ..
    · rw [Function.update_of_ne hqc]
      exact hinv.waiting q (hothers q hqc ▸ hq)
  · refine hothers p ?_
    rintro rfl
    cases hnone.symm.trans hcall
  · exact ⟨hk.intact.link, hk.intact.checked, hk.intact.place⟩
  · obtain ⟨i, hlink, hno⟩ := hk.realRoot hst hind
    refine ⟨i, hlink, fun q hq => ?_⟩
    dsimp only at hq
    by_cases hqc : q = c
    · subst hqc
      simp at hq
    · rw [Function.update_of_ne hqc] at hq
      exact hno q hq
  · dsimp only at hq ⊢
    by_cases hqc : q = c
    · subst hqc
      rw [Function.update_self]
      exact finds_start hk.intact
    · rw [Function.update_of_ne hqc]
      exact (hk.found hst).finds q (hothers q hqc ▸ hq)
  · dsimp only at hq
    by_cases hqc : q = c
    · subst hqc
      cases hself.symm.trans hq
    · exact (hk.found hst).found q permRoots (hothers q hqc ▸ hq)
  · exact RootsState.mem_valid_step hs hvalid (hk.found hst).found

/-- A collector has scanned the roots. -/
theorem Invariant.foundRoots (hinv : s.Invariant env R) {proc : RootsState π} {additional : PathSet}
    (htodo : (s.scan c).todo = [])
    (hs : s.proc.step env.cfg (.findRoots c
      ((s.scan c).roots.entries.foldl (fun roots e => roots.insert e.2) additional)) = some proc) :
    ({ s with proc } : HandoverState π).Invariant env R := by
  have hothers : ∀ q, q ≠ c → proc.procs q = s.proc.procs q := fun q hq =>
    RootsState.procs_step_of_ne hs (by simpa [RootsEvent.actor] using hq.symm)
  have hself : (s.proc.procs c).phase = .scanning ∧ (proc.procs c).phase = .found
      ((s.scan c).roots.entries.foldl (fun roots e => roots.insert e.2) additional) := by
    simp only [RootsState.step] at hs
    split at hs
    · rename_i hcall
      cases hs
      simp [RootsState.goto, RootsProcess.phase, hcall]
    · cases hs
  have hallowed : s.proc.Allowed (.findRoots c
      ((s.scan c).roots.entries.foldl (fun roots e => roots.insert e.2) additional)) := trivial
  refine hinv.setProc (hinv.proc.step hallowed hs) hinv.task (fun q hq => ?_) (fun p call hcall => ?_)
    fun st h hk hvalid => ⟨hk.setProc fun hf => ⟨fun q hq => ?_, fun q permRoots hq => ?_⟩,
      fun hst => ?_⟩
  · by_cases hqc : q = c
    · subst hqc
      cases hself.2.symm.trans hq
    · exact hinv.waiting q (hothers q hqc ▸ hq)
  · refine hothers p ?_
    rintro rfl
    have hidle := (hinv.call p call hcall).idle
    have hscanning := hself.1
    simp [RootsProcess.phase, hidle] at hscanning
  · by_cases hqc : q = c
    · subst hqc
      rw [hself.2] at hq
      simp at hq
    · exact hf.finds q (hothers q hqc ▸ hq)
  · by_cases hqc : q = c
    · subst hqc
      obtain rfl : _ = permRoots := by simpa using hself.2.symm.trans hq
      exact (hf.finds q (Or.inr hself.1)).mem_of_nil htodo additional
    · exact hf.found q permRoots (hothers q hqc ▸ hq)
  · exact RootsState.mem_valid_step hs hvalid (hk.found hst).found

/-- Every clean step keeps the invariant. -/
theorem Invariant.step (hR : Apart env R) (hinv : s.Invariant env R) {e : HandoverEvent π}
    (hclean : Clean env R s e) (hs : s.step env e = some s') : s'.Invariant env R := by
  obtain ⟨hclean, hstale⟩ := hclean
  cases e with
  | proc event =>
    simp only [HandoverState.step] at hs
    split_ifs at hs with hpermits
    obtain ⟨proc, hproc, rfl⟩ := Option.map_eq_some_iff.mp hs
    by_cases hkill : ∃ p, event = .kill p
    · obtain ⟨p, rfl⟩ := hkill
      have hleft : (s.leave p).Invariant env R := hinv.leave'
      have hkilled : ∀ q call, (s.leave p).perm q = some call →
          (.kill p : RootsEvent π) ≠ .kill q := by
        rintro q call hcall ⟨⟩
        simp [HandoverState.leave] at hcall
      have hallowed : (s.leave p).proc.Allowed (.kill p) := hclean
      exact hleft.procStep hallowed rfl hproc hkilled
    · have hstep : ({ s with proc } : HandoverState π).Invariant env R :=
        hinv.procStep hclean hpermits hproc fun p _ _ hp => hkill ⟨p, hp⟩
      split
      · rename_i p
        exact absurd ⟨p, rfl⟩ hkill
      · exact hstep
  | collectGarbage p ignoreLiveness =>
    obtain ⟨hallowed, rfl⟩ := hclean
    simp only [HandoverState.step, Bool.false_eq_true, if_false] at hs
    split_ifs at hs with hnone
    obtain ⟨proc, hproc, rfl⟩ := Option.map_eq_some_iff.mp hs
    exact hinv.collectGarbage (by simpa using hnone) hallowed hproc
  | scan p entries =>
    simp only [HandoverState.step] at hs
    split at hs
    · rename_i hcall htodo
      refine hinv.nextScan htodo ?_ ?_ hs
      · simp [RootsProcess.phase, hcall]
      · rintro path i rfl j hj
        simpa only [RemovesStale, htodo, hj] using hstale
    · cases hs
  | found p additional =>
    simp only [HandoverState.step] at hs
    split at hs
    · rename_i htodo
      obtain ⟨proc, hproc, rfl⟩ := Option.map_eq_some_iff.mp hs
      exact hinv.foundRoots htodo hproc
    · cases hs
  | addPermRoot p storePath gcRoot indirect allowOutsideRootsDir =>
    simp only [HandoverState.step] at hs
    split at hs
    · rename_i hidle hnone
      split_ifs at hs with hnul
      refine hinv.startPerm hidle hnone hnul.2 (fun g hg => ?_) hs
      simpa only [Regular, hg] using hclean
    · cases hs
  | perm p rand =>
    obtain ⟨call, hcall, hs⟩ := Option.bind_eq_some_iff.mp hs
    exact hinv.nextPerm hR hcall hs
  | symlink dir n target =>
    obtain ⟨-, ht, -⟩ := touches_symlink hinv.files hs
    exact hinv.touchesOther ht hclean
  | unlink dir n =>
    cases hs
    rcases touches_unlink hinv.files dir n with heq | ⟨-, ht, -⟩
    · rw [heq]
      exact hinv
    · exact hinv.touchesOther ht hclean
  | mkdir dir n =>
    obtain ⟨-, ht, -⟩ := touches_mkdir hinv.files hs
    exact hinv.touchesOther ht hclean
  | rmdir dir n =>
    cases hs
    rcases touches_rmdir hinv.files dir n with heq | ⟨-, ht⟩
    · rw [heq]
      exact hinv
    · exact hinv.touchesOther ht hclean

/-- The invariant holds at the start. -/
theorem Initial.invariant (h : s.Initial) : s.Invariant env R where
  proc := h.proc.invariant
  files := ⟨fun dir n hn => ⟨LinkedFiles.isDirectory_iff.mp (h.listed dir n hn).1,
    (h.listed dir n hn).2⟩, h.numbered⟩
  task c task hmem := by
    rw [h.scan c] at hmem
    cases hmem
  waiting c hc := by simp [RootsProcess.phase, h.proc.procs c, RootsProcess.new] at hc
  call p call hcall := by cases (h.perm p).symm.trans hcall
  making p a ha := by cases (h.making p).symm.trans ha
  handed a ha := by
    rw [h.handed] at ha
    cases ha

/-- The states that are reached by steps that satisfy a condition. -/
def Reaches (env : RootsEnv π) (ok : HandoverState π → HandoverEvent π → Prop)
    (s s' : HandoverState π) : Prop :=
  Relation.ReflTransGen (fun s s' => ∃ e, ok s e ∧ s.step env e = some s') s s'

/-- The invariant holds in every state that a run reaches. -/
theorem Reaches.invariant (hR : Apart env R) (hinit : s.Initial)
    (hrun : Reaches env (Clean env R) s s') : s'.Invariant env R := by
  induction hrun with
  | refl => exact hinit.invariant
  | tail _ hstep ih =>
    obtain ⟨e, hclean, he⟩ := hstep
    exact ih.step hR hclean he

/-- No collector does anything to a path that is a root of the collectors that delete paths. -/
theorem step_delete_eq_none {x : Path} {event : GCEvent} (hevent : event.path = x)
    (hroots : ∀ permRoots tempRoots fds,
      (s.proc.procs c).call = .collectGarbage permRoots tempRoots fds .deleting →
      x ∈ permRoots ∨ x ∈ tempRoots) : s.step env (.proc (.delete c event)) = none := by
  simp only [HandoverState.step, RootsState.step]
  split_ifs
  · split
    · rename_i permRoots tempRoots fds hcall
      rw [if_pos (hevent ▸ hroots permRoots tempRoots fds hcall), Option.map_none]
    · rfl
  · rfl

end

end HandoverState

/-! ### Samples -/

/-- The root of the sample runs. -/
def sampleResult : Path := str "/home/user/result"

/-- SHA-1 on the name of the root. -/
def sampleSha1 (s : Str) : Str :=
  if s = sampleResult then (parsePairs? (str "49d01c7a6bfd0cad616173b2fe05a69871e76a64")).getD []
  else List.replicate 20 0

/-- The roots are in `/nix/var/nix/gcroots`. -/
def sampleRootsEnv : RootsEnv Bool where
  cfg := defaultConfig
  rootsDir := [str "nix", str "var", str "nix", str "gcroots"]
  fileNames := by
    intro n hn
    simp only [List.mem_cons, List.not_mem_nil, or_false] at hn
    rcases hn with rfl | rfl | rfl | rfl <;> constructor <;> decide
  sha1 := sampleSha1
  pid p := if p then 2 else 1
  pid_injective p q := by cases p <;> cases q <;> decide

/-- The link that is left from a root that has been removed. -/
def sampleStale : Loc := sampleRootsEnv.autoDir ++ [str "cimffwcqlq2zxckkc5hss37xddx1rl29"]

/-- The next name on the way from a directory to a location. -/
def nextName (l dir : Loc) : List Str := if dir <+: l then (l.drop dir.length).take 1 else []

/-- The name that comes next on the way down to a location. -/
theorem mem_nextName {l dir : Loc} {n : Str} (h : dir ++ [n] <+: l) : n ∈ nextName l dir := by
  obtain ⟨rest, rfl⟩ := h
  rw [nextName, List.append_assoc, if_pos (List.prefix_append _ _), List.drop_left]
  simp

/-- The directories of the roots and of a user, and a link that is left. -/
def sampleFiles : LinkedFiles Inode where
  node l :=
    if l <+: sampleRootsEnv.autoDir ∨ l <+: [str "home", str "user"] then some (.directory true)
    else if l = sampleStale then some (.file 0)
    else none
  names l := nextName sampleStale l ++ nextName [str "home", str "user"] l
  file _ := .symlink sampleResult

/-- Nothing has happened yet. -/
def sampleHandover : HandoverState Bool where
  proc := sampleRoots
  fs := sampleFiles
  next := 1
  scan _ := ⟨[], ∅⟩
  perm _ := none
  making _ := none
  handed := []

namespace HandoverState

/-- The sample starts without roots. -/
theorem initial_sampleHandover : sampleHandover.Initial where
  proc := initial_sampleRoots
  scan _ := rfl
  perm _ := rfl
  making _ := rfl
  handed := rfl
  listed dir n hn := by
    have hdirectory : dir <+: sampleRootsEnv.autoDir ∨ dir <+: [str "home", str "user"] →
        sampleHandover.fs.isDirectory dir = true := fun hdir =>
      LinkedFiles.isDirectory_iff.mpr ⟨true, if_pos hdir⟩
    have hprefix : dir ++ [n] <+: sampleStale ∨ dir ++ [n] <+: [str "home", str "user"] := by
      simp only [sampleHandover, sampleFiles] at hn
      split_ifs at hn with hdir hstale
      · exact hdir.imp_left fun h => h.trans (List.prefix_append _ _)
      · exact Or.inl (hstale ▸ List.prefix_rfl)
      · exact absurd rfl hn
    rcases hprefix with h | h
    · refine ⟨hdirectory (Or.inl ?_), List.mem_append_left _ (mem_nextName h)⟩
      rcases List.prefix_concat_iff.mp h with heq | h
      · obtain ⟨rfl, -⟩ := List.append_inj' heq rfl
        exact List.prefix_rfl
      · exact (List.prefix_append _ _).trans h
    · refine ⟨hdirectory (Or.inr ?_), List.mem_append_right _ (mem_nextName h)⟩
      exact (List.prefix_append _ _).trans h
  numbered l i hi := by
    simp only [sampleHandover, sampleFiles] at hi
    split_ifs at hi with hdir hstale
    · cases hi
    · cases hi
      exact Nat.zero_lt_one

/-- The only root of the sample runs. -/
def sampleRootSet : Set Loc := {[str "home", str "user", str "result"]}

instance : DecidablePred (· ∈ sampleRootSet) := fun l =>
  inferInstanceAs (Decidable (l = [str "home", str "user", str "result"]))

/-- In the sample the two roots do not lie below each other. -/
theorem apart_sampleRootSet : Apart sampleRootsEnv sampleRootSet where
  name g hg g' hg' _ := hg.trans hg'.symm
  free g hg g' hg' suffix heq := by
    rw [Set.mem_singleton_iff.mp hg'] at heq
    exact absurd (List.cons_eq_cons.mp heq).1 (by decide)

/-- The state after a sequence of events, if they can happen one after the other and satisfy a
condition. -/
def run {π : Type} [DecidableEq π] [Fintype π] (env : RootsEnv π)
    (ok : HandoverState π → HandoverEvent π → Prop) [∀ s e, Decidable (ok s e)]
    (s : HandoverState π) (events : List (HandoverEvent π)) : Option (HandoverState π) :=
  events.foldlM (fun s e => if ok s e then s.step env e else none) s

/-- A run that is computed from a list of events is a run. -/
theorem Reaches.of_run {π : Type} [DecidableEq π] [Fintype π] {env : RootsEnv π}
    {ok : HandoverState π → HandoverEvent π → Prop} [∀ s e, Decidable (ok s e)]
    {s s' : HandoverState π} {events : List (HandoverEvent π)}
    (hrun : s.run env ok events = some s') : Reaches env ok s s' := by
  induction events generalizing s with
  | nil =>
    cases hrun
    exact .refl
  | cons e events ih =>
    obtain ⟨s₁, hs₁, hrest⟩ := Option.bind_eq_some_iff.mp hrun
    simp only at hs₁
    split_ifs at hs₁ with hok
    exact .head ⟨e, hok, hs₁⟩ (ih hrest)

/-- A process adds the path to its temporary roots and sees that it is valid. -/
def sampleObserve : List (HandoverEvent Bool) :=
  [.proc (.addTempRoot false sampleRoot)] ++ List.replicate 9 (.proc (.next false)) ++
    [.proc (.isValidPath false sampleRoot)]

/-- The process makes an indirect root, up to `syncWithGC`. -/
def sampleAddPermRoot : List (HandoverEvent Bool) :=
  [.addPermRoot false sampleRoot sampleResult true false] ++ List.replicate 7 (.perm false 3)

/-- A collector starts and looks at the directories of the roots. -/
def sampleScan (names : List Str) : List (HandoverEvent Bool) :=
  [.collectGarbage true false, .proc (.next true), .scan true [], .scan true [str "auto"],
    .scan true [], .scan true names]

/-- The collector reads the temporary roots, so that it can delete paths. -/
def sampleReadTempRoots (ps : List Bool) (steps : ℕ) : List (HandoverEvent Bool) :=
  [.found true ∅, .proc (.readDirectory true ps)] ++ List.replicate steps (.proc (.next true))

/-- The process ends after the call. -/
def sampleExit : List (HandoverEvent Bool) :=
  [.perm false 0, .perm false 0, .proc (.exit false), .proc (.next false), .proc (.next false)]

/-- The path has been handed over, and the collector can delete paths. -/
def isHandedOver (s : HandoverState Bool) : Bool :=
  (s.handed.map Handover.storePath == [sampleRoot]) && (s.proc.procs false).fdTempRoots.isNone &&
    match (s.proc.procs true).call with
    | .collectGarbage _ _ _ .deleting => true
    | _ => false

end HandoverState

end Nix
