import NixStore.Lib.FileSystem

/-!
# File systems with hard links

Several names can stand for one file: a location has a node, and the node of a file is the number of an
inode.  The system calls `link`, `rename` and `unlink` change names only, never a file.  Here the names
lead directly to what they stand for, as they do when no symbolic link is in front of the last one.
-/

namespace Nix

/-- What a name stands for. -/
inductive Node where
  /-- A directory, with its owner-write bit. -/
  | directory (writable : Bool)
  /-- A file, with the number of its inode. -/
  | file (ino : ℕ)
deriving DecidableEq

/-- Directories with names for files. -/
structure LinkedFiles (φ : Type) where
  node : Loc → Option Node
  /-- The names in a directory, in the order in which they are listed. -/
  names : Loc → List Str
  /-- The file of an inode. -/
  file : ℕ → φ

namespace LinkedFiles

variable {φ : Type} {fs fs' : LinkedFiles φ} {dir dir' : Loc} {n n' : Str} {l : Loc}

/-! ### Names -/

/-- Give a node to a name of a directory. -/
def put (fs : LinkedFiles φ) (dir : Loc) (n : Str) (nd : Node) : LinkedFiles φ :=
  { fs with
    node := Function.update fs.node (dir ++ [n]) (some nd)
    names := if fs.node (dir ++ [n]) = none then
        Function.update fs.names dir (fs.names dir ++ [n])
      else fs.names }

/-- Remove a name from a directory. -/
def remove (fs : LinkedFiles φ) (dir : Loc) (n : Str) : LinkedFiles φ :=
  { fs with
    node := Function.update fs.node (dir ++ [n]) none
    names := Function.update fs.names dir ((fs.names dir).erase n) }

/-- Change the write bit of a directory. -/
def setWritable (fs : LinkedFiles φ) (dir : Loc) (writable : Bool) : LinkedFiles φ :=
  match fs.node dir with
  | some (.directory _) => { fs with node := Function.update fs.node dir (some (.directory writable)) }
  | _ => fs

/-- What `rename` does when both names are there: two names of one file stay as they are. -/
def move (fs : LinkedFiles φ) (dir : Loc) (n : Str) (dir' : Loc) (n' : Str) : LinkedFiles φ :=
  match fs.node (dir ++ [n]) with
  | some nd =>
    if fs.node (dir' ++ [n']) = some nd then fs
    else (fs.remove dir n).put dir' n' nd
  | none => fs

@[simp] theorem file_put (nd : Node) : (fs.put dir n nd).file = fs.file := rfl

@[simp] theorem file_remove : (fs.remove dir n).file = fs.file := rfl

/-- Changing the mode of a directory changes no file. -/
@[simp] theorem file_setWritable {writable : Bool} : (fs.setWritable dir writable).file = fs.file := by
  unfold setWritable
  split <;> rfl

/-- Moving a name changes no file. -/
@[simp] theorem file_move : (fs.move dir n dir' n').file = fs.file := by
  unfold move
  split
  · split_ifs <;> rfl
  · rfl

/-- The new entry is there. -/
@[simp] theorem node_put_self (nd : Node) : (fs.put dir n nd).node (dir ++ [n]) = some nd :=
  Function.update_self ..

/-- The other entries stay. -/
theorem node_put_of_ne (h : l ≠ dir ++ [n]) (nd : Node) : (fs.put dir n nd).node l = fs.node l :=
  Function.update_of_ne h ..

/-- The removed entry is gone. -/
@[simp] theorem node_remove_self : (fs.remove dir n).node (dir ++ [n]) = none :=
  Function.update_self ..

/-- The other entries stay. -/
theorem node_remove_of_ne (h : l ≠ dir ++ [n]) : (fs.remove dir n).node l = fs.node l :=
  Function.update_of_ne h ..

/-- The other directories keep their names. -/
theorem names_put_of_ne (h : l ≠ dir) (nd : Node) : (fs.put dir n nd).names l = fs.names l := by
  unfold put
  dsimp only
  split_ifs
  · exact Function.update_of_ne h ..
  · rfl

/-- A name that is there already is not listed again. -/
theorem names_put_of_node (h : fs.node (dir ++ [n]) ≠ none) (nd : Node) :
    (fs.put dir n nd).names = fs.names := if_neg h

/-- The other directories keep their names. -/
theorem names_remove_of_ne (h : l ≠ dir) : (fs.remove dir n).names l = fs.names l :=
  Function.update_of_ne h ..

/-- Changing the mode of a directory changes no names. -/
@[simp] theorem names_setWritable {writable : Bool} :
    (fs.setWritable dir writable).names = fs.names := by
  unfold setWritable
  split <;> rfl

/-- Changing the mode of a directory changes that entry at most. -/
theorem node_setWritable {writable : Bool} : (fs.setWritable dir writable).node l = fs.node l ∨
    ∃ w, fs.node l = some (.directory w) ∧
      (fs.setWritable dir writable).node l = some (.directory writable) := by
  unfold setWritable
  split
  next w hw =>
    by_cases hl : l = dir
    · subst hl
      exact Or.inr ⟨w, hw, Function.update_self ..⟩
    · exact Or.inl (Function.update_of_ne hl ..)
  next => exact Or.inl rfl

/-! ### What is in a directory -/

/-- The second location is the first one, or in the directory tree there. -/
inductive Contains (fs : LinkedFiles φ) (root : Loc) : Loc → Prop
  | self : Contains fs root root
  | entry {dir : Loc} {writable : Bool} {n : Str} (contains : Contains fs root dir)
      (directory : fs.node dir = some (.directory writable)) (listed : n ∈ fs.names dir) :
      Contains fs root (dir ++ [n])

/-- What is in a directory tree is at its root or in the tree of an entry. -/
theorem contains_cases (h : fs.Contains dir l) :
    l = dir ∨ ∃ n ∈ fs.names dir, fs.Contains (dir ++ [n]) l := by
  induction h with
  | self => exact Or.inl rfl
  | @entry d w n contains directory listed ih =>
    rcases ih with rfl | ⟨m, hm, hcontains⟩
    · exact Or.inr ⟨n, listed, .self⟩
    · exact Or.inr ⟨m, hm, hcontains.entry directory listed⟩

/-- The files in a directory tree lie below its root. -/
theorem prefix_of_contains (h : fs.Contains dir l) : dir <+: l := by
  induction h with
  | self => exact List.prefix_rfl
  | entry _ _ _ ih => exact ih.trans (List.prefix_append _ _)

/-! ### Trees -/

/-- Everything is listed in a directory. -/
def IsTree (fs : LinkedFiles φ) : Prop :=
  ∀ dir n, fs.node (dir ++ [n]) ≠ none →
    (∃ writable, fs.node dir = some (.directory writable)) ∧ n ∈ fs.names dir

/-- Putting an entry into a directory keeps the tree. -/
theorem IsTree.put (h : fs.IsTree) {writable : Bool} (hdir : fs.node dir = some (.directory writable))
    {nd : Node} (hnew : ∀ w, fs.node (dir ++ [n]) ≠ some (.directory w)) :
    (fs.put dir n nd).IsTree := by
  intro d m hdm
  by_cases heq : d ++ [m] = dir ++ [n]
  · obtain ⟨rfl, hm⟩ := List.append_inj' heq rfl
    obtain rfl : m = n := by simpa using hm
    refine ⟨⟨writable, (node_put_of_ne (by simp) nd).trans hdir⟩, ?_⟩
    by_cases hnode : fs.node (d ++ [m]) = none
    · simp [LinkedFiles.put, hnode]
    · rw [names_put_of_node hnode]
      exact (h d m hnode).2
  · rw [node_put_of_ne heq] at hdm
    obtain ⟨⟨w, hd⟩, hm⟩ := h d m hdm
    have hne : d ≠ dir ++ [n] := fun hd' => hnew w (hd' ▸ hd)
    refine ⟨⟨w, (node_put_of_ne hne nd).trans hd⟩, ?_⟩
    by_cases hdd : d = dir
    · subst hdd
      unfold LinkedFiles.put
      dsimp only
      split_ifs
      · simp [hm]
      · exact hm
    · rw [names_put_of_ne hdd]
      exact hm

/-- Removing a leaf keeps the tree. -/
theorem IsTree.remove (h : fs.IsTree)
    (hleaf : ∀ w, fs.node (dir ++ [n]) = some (.directory w) → fs.names (dir ++ [n]) = []) :
    (fs.remove dir n).IsTree := by
  intro d m hdm
  have heq : d ++ [m] ≠ dir ++ [n] := by
    intro heq
    rw [heq, node_remove_self] at hdm
    exact hdm rfl
  rw [node_remove_of_ne heq] at hdm
  obtain ⟨⟨w, hd⟩, hm⟩ := h d m hdm
  have hne : d ≠ dir ++ [n] := by
    rintro rfl
    rw [hleaf w hd] at hm
    cases hm
  refine ⟨⟨w, (node_remove_of_ne hne).trans hd⟩, ?_⟩
  by_cases hdd : d = dir
  · subst hdd
    have hmn : m ≠ n := fun hmn => heq (hmn ▸ rfl)
    simpa [LinkedFiles.remove] using (List.mem_erase_of_ne hmn).mpr hm
  · rw [names_remove_of_ne hdd]
    exact hm

/-- On the way to a file there are directories that list the next name. -/
theorem IsTree.of_prefix (h : fs.IsTree) (hnode : fs.node l ≠ none) {l' : Loc} (hp : l' <+: l)
    (hne : l' ≠ l) : ∃ w n, fs.node l' = some (.directory w) ∧ n ∈ fs.names l' ∧ l' ++ [n] <+: l := by
  obtain ⟨rest, rfl⟩ := hp
  induction rest using List.reverseRecOn with
  | nil => exact absurd (List.append_nil _).symm hne
  | append_singleton rest m ih =>
    rw [← List.append_assoc] at hnode
    obtain ⟨⟨w, hw⟩, hm⟩ := h _ _ hnode
    by_cases hrest : rest = []
    · subst hrest
      rw [List.append_nil] at hw hm
      exact ⟨w, m, hw, hm, by simp⟩
    · obtain ⟨w', n, hw', hn, hprefix⟩ := ih (by rw [hw]; simp) (by simp [hrest])
      refine ⟨w', n, hw', hn, hprefix.trans ?_⟩
      rw [← List.append_assoc]
      exact List.prefix_append _ _

end LinkedFiles

end Nix
