import NixStore.Store.Optimise
import NixStore.Util.Base32

/-!
# Hard-linking is invisible

However the calls of `link` and `rename` turn out, a file of the store is replaced by one with the same
serialisation only, so the serialisation of every store path stays the same; and a call that returns
without too many links has linked all files of its path.
-/

namespace Nix

/-! ### Serialisations -/

section

variable {filter : PathFilter} {path : Path}

/-- The dump of a file does not depend on where it is. -/
theorem dump_tree (file : Inode) : dump filter path file.tree = dump defaultPathFilter [] file.tree := by
  cases file <;> rfl

/-- Files with the same archive have the same dump, whatever names lead to them. -/
theorem dump_tree_of_nar_eq {file file' : Inode} (h : file.nar = file'.nar) :
    dump filter path file.tree = dump filter path file'.tree := by
  rw [dump_tree, dump_tree file']
  exact List.append_cancel_left h

/-- Trees that are dumped alike, wherever they are. -/
def SameDump (t t' : FileTree) : Prop :=
  ∀ filter path, dump filter path t = dump filter path t'

/-- Directories with the same names and equally dumped entries have the same dump of entries. -/
theorem dumpEntries_congr {entries entries' : List (Str × FileTree)}
    (h : List.Forall₂ (fun e e' => e.1 = e'.1 ∧ SameDump e.2 e'.2) entries entries') :
    dumpEntries filter path entries = dumpEntries filter path entries' := by
  induction h with
  | nil => rfl
  | @cons e e' _ _ he _ ih =>
    obtain ⟨n, t⟩ := e
    obtain ⟨n', t'⟩ := e'
    obtain ⟨rfl, ht⟩ : n = n' ∧ SameDump t t' := he
    simp only [dumpEntries, ih, ht filter (path ++ str "/" ++ n)]

/-- A directory of equally dumped entries is dumped equally. -/
theorem sameDump_directory {entries entries' : List (Str × FileTree)}
    (h : List.Forall₂ (fun e e' => e.1 = e'.1 ∧ SameDump e.2 e'.2) entries entries') :
    SameDump (.directory entries) (.directory entries') := by
  intro filter path
  simp only [dump, dumpEntries_congr h]

/-- Related options are both empty, or both there and related. -/
theorem rel_cases {β : Type} {R : β → β → Prop} {a b : Option β} (h : Option.Rel R a b) :
    (a = none ∧ b = none) ∨ ∃ x y, a = some x ∧ b = some y ∧ R x y := by
  cases h with
  | none => exact Or.inl ⟨rfl, rfl⟩
  | some hxy => exact Or.inr ⟨_, _, rfl, rfl, hxy⟩

/-- Two loops whose bodies have related results. -/
theorem rel_mapM {α β : Type} {R : β → β → Prop} {f g : α → Option β} {l : List α}
    (h : ∀ a ∈ l, Option.Rel R (f a) (g a)) :
    Option.Rel (List.Forall₂ R) (l.mapM f) (l.mapM g) := by
  induction l with
  | nil => exact .some .nil
  | cons a l ih =>
    simp only [List.mapM_cons, Option.bind_eq_bind, Option.pure_def]
    rcases rel_cases (h a List.mem_cons_self) with ⟨hf, hg⟩ | ⟨b, b', hf, hg, hb⟩
    · rw [hf, hg]
      exact .none
    · rw [hf, hg]
      rcases rel_cases (ih fun b hb => h b (List.mem_cons_of_mem _ hb)) with
        ⟨hf, hg⟩ | ⟨t, t', hf, hg, ht⟩
      · rw [Option.bind_some, Option.bind_some, hf, hg]
        exact .none
      · rw [Option.bind_some, Option.bind_some, hf, hg]
        exact .some (.cons hb ht)

end

/-! ### Files under their hashes -/

section

variable {sha256 : Str → Str} {fs fs' : LinkedFiles Inode} {l : Loc}

/-- The location of a file in the links directory. -/
def linkLoc (sha256 : Str → Str) (file : Inode) : Loc := [linksDirName, linkName sha256 file]

/-- The files under the store paths, whose names do not begin with a dot. -/
def InStore (l : Loc) : Prop := ∃ n rest, l = n :: rest ∧ n.head? ≠ some '.'.toUInt8

/-- Every file in the links directory is under the name of its hash. -/
def LinksSound (sha256 : Str → Str) (fs : LinkedFiles Inode) : Prop :=
  ∀ n ino, fs.node [linksDirName, n] = some (.file ino) → n = linkName sha256 (fs.file ino)

/-- No two files have the same hash, unless they are serialised alike. -/
def CollisionFree (sha256 : Str → Str) (fs : LinkedFiles Inode) : Prop :=
  ∀ i j, sha256 (fs.file i).nar = sha256 (fs.file j).nar → (fs.file i).nar = (fs.file j).nar

/-- A file shares its inode with the one in the links directory. -/
def Shared (sha256 : Str → Str) (fs : LinkedFiles Inode) (l : Loc) : Prop :=
  ∃ ino, fs.node l = some (.file ino) ∧ fs.node (linkLoc sha256 (fs.file ino)) = some (.file ino)

/-- The files have changed in nothing that can be seen: some files of the store have been replaced by
the ones in the links directory. -/
structure Advances (sha256 : Str → Str) (fs fs' : LinkedFiles Inode) : Prop where
  file : fs'.file = fs.file
  names : ∀ l, InStore l → fs'.names l = fs.names l
  absent : ∀ l, InStore l → fs.node l = none → fs'.node l = none
  directory : ∀ l, InStore l → ∀ w, fs.node l = some (.directory w) →
    ∃ w', fs'.node l = some (.directory w')
  /-- A file is left alone, or it is replaced by one that is serialised alike. -/
  linked : ∀ l, InStore l → ∀ i, fs.node l = some (.file i) → fs'.node l = some (.file i) ∨
    Shared sha256 fs' l ∧ ∃ j, fs'.node l = some (.file j) ∧ (fs.file i).nar = (fs.file j).nar
  /-- The links directory only grows. -/
  links : ∀ n nd, fs.node [linksDirName, n] = some nd → fs'.node [linksDirName, n] = some nd
  sound : LinksSound sha256 fs'

/-- What lies below a location of the store lies in the store. -/
theorem InStore.append (h : InStore l) (l' : Loc) : InStore (l ++ l') := by
  obtain ⟨n, rest, rfl, hn⟩ := h
  exact ⟨n, rest ++ l', rfl, hn⟩

/-- A file system advances to itself. -/
theorem Advances.refl (h : LinksSound sha256 fs) : Advances sha256 fs fs where
  file := rfl
  names _ _ := rfl
  absent _ _ := id
  directory _ _ w hw := ⟨w, hw⟩
  linked _ _ _ hi := Or.inl hi
  links _ _ := id
  sound := h

/-- A file that shares its inode with the link still does so after an advance. -/
theorem Shared.advance (h : Shared sha256 fs l) (hadv : Advances sha256 fs fs') (hl : InStore l) :
    Shared sha256 fs' l := by
  obtain ⟨i, hi, hlink⟩ := h
  rcases hadv.linked l hl i hi with hsame | ⟨hshared, -⟩
  · refine ⟨i, hsame, ?_⟩
    rw [hadv.file]
    exact hadv.links _ _ hlink
  · exact hshared

/-- Advances follow each other. -/
theorem Advances.trans {fs'' : LinkedFiles Inode} (h : Advances sha256 fs fs')
    (h' : Advances sha256 fs' fs'') : Advances sha256 fs fs'' where
  file := h'.file.trans h.file
  names l hl := (h'.names l hl).trans (h.names l hl)
  absent l hl hnone := h'.absent l hl (h.absent l hl hnone)
  directory l hl w hw := by
    obtain ⟨w', hw'⟩ := h.directory l hl w hw
    exact h'.directory l hl w' hw'
  linked l hl i hi := by
    rcases h.linked l hl i hi with hsame | ⟨hshared, j, hj, hnar⟩
    · rw [← h.file]
      exact h'.linked l hl i hsame
    · refine Or.inr ⟨hshared.advance h' hl, ?_⟩
      rcases h'.linked l hl j hj with hsame | ⟨-, k, hk, hnar'⟩
      · exact ⟨j, hsame, hnar⟩
      · rw [h.file] at hnar'
        exact ⟨k, hk, hnar.trans hnar'⟩
  links n nd hnd := h'.links n nd (h.links n nd hnd)
  sound := h'.sound

/-- The serialisation of everything in the store stays the same. -/
theorem Advances.rel_treeAt (h : Advances sha256 fs fs') (k : ℕ) (hl : InStore l) :
    Option.Rel SameDump (treeAt fs k l) (treeAt fs' k l) := by
  induction k generalizing l with
  | zero => exact .none
  | succ k ih =>
    unfold treeAt
    cases hnode : fs.node l with
    | none =>
      rw [h.absent l hl hnode]
      exact .none
    | some nd =>
      cases nd with
      | directory w =>
        obtain ⟨w', hw'⟩ := h.directory l hl w hnode
        rw [hw', h.names l hl]
        have hentries := rel_mapM (R := fun e e' => e.1 = e'.1 ∧ SameDump e.2 e'.2)
          (l := fs.names l) (f := fun n => (treeAt fs k (l ++ [n])).map fun t => (n, t))
          (g := fun n => (treeAt fs' k (l ++ [n])).map fun t => (n, t)) (fun n _ => by
            rcases rel_cases (ih (hl.append [n])) with ⟨ht, ht'⟩ | ⟨t, t', ht, ht', hdump⟩
            · rw [ht, ht']
              exact .none
            · rw [ht, ht']
              exact .some ⟨rfl, hdump⟩)
        dsimp only
        rcases rel_cases hentries with ⟨he, he'⟩ | ⟨es, es', he, he', hes⟩
        · rw [he, he']
          exact .none
        · rw [he, he']
          exact .some (sameDump_directory hes)
      | file i =>
        have hsome : ∀ j, fs'.node l = some (.file j) → (fs.file i).nar = (fs.file j).nar →
            Option.Rel SameDump (some (fs.file i).tree) (treeAt fs' (k + 1) l) := by
          intro j hj hnar
          unfold treeAt
          rw [hj, h.file]
          exact .some fun filter path => dump_tree_of_nar_eq hnar
        rcases h.linked l hl i hnode with hsame | ⟨-, j, hj, hnar⟩
        · exact hsome i hsame rfl
        · exact hsome j hj hnar

end

/-! ### Changes of names -/

section

variable {sha256 : Str → Str} {fs fs' : LinkedFiles Inode} {dir l : Loc} {n : Str} {i j : ℕ}

/-- A name that begins with a dot is not in the store. -/
theorem not_inStore_of_hidden {m : Str} (hm : m.head? = some '.'.toUInt8) (rest : Loc) :
    ¬InStore (m :: rest) := by
  rintro ⟨n, rest', heq, hn⟩
  rw [List.cons.injEq] at heq
  exact hn (heq.1 ▸ hm)

/-- The directory of links is not in the store. -/
theorem not_inStore_links (n : Str) : ¬InStore [linksDirName, n] :=
  not_inStore_of_hidden (by decide) [n]

/-- The temporary link is not in the store. -/
theorem not_inStore_temp (pid rand : ℕ) : ¬InStore [tempLinkName pid rand] :=
  not_inStore_of_hidden rfl []

/-- A location of the store is no entry of the directory of links. -/
theorem InStore.ne_links (hl : InStore l) (m : Str) : l ≠ [linksDirName, m] := by
  rintro rfl
  exact not_inStore_links m hl

/-- A new name outside of the store paths, which must be the right one in the links directory. -/
theorem advances_put (hsound : LinksSound sha256 fs) (hn : ¬InStore (dir ++ [n]))
    (hname : dir = [linksDirName] → n = linkName sha256 (fs.file i))
    (habsent : fs.node (dir ++ [n]) = none) : Advances sha256 fs (fs.put dir n (.file i)) := by
  have hnode : ∀ l, InStore l → (fs.put dir n (.file i)).node l = fs.node l := by
    intro l hl
    apply LinkedFiles.node_put_of_ne
    rintro rfl
    exact hn hl
  refine ⟨rfl, fun l hl => ?_, fun l hl hnone => ?_, fun l hl w hw => ⟨w, ?_⟩, fun l hl k hk => ?_,
    fun m nd hnd => ?_, fun m k hk => ?_⟩
  · apply LinkedFiles.names_put_of_ne
    rintro rfl
    exact hn (hl.append [n])
  · rw [hnode l hl, hnone]
  · rw [hnode l hl, hw]
  · exact Or.inl ((hnode l hl).trans hk)
  · rw [LinkedFiles.node_put_of_ne, hnd]
    intro heq
    rw [heq, habsent] at hnd
    cases hnd
  · by_cases heq : [linksDirName, m] = dir ++ [n]
    · rw [heq, LinkedFiles.node_put_self] at hk
      have heq' : [linksDirName] ++ [m] = dir ++ [n] := heq
      obtain ⟨hdir, hm⟩ := List.append_inj' heq' rfl
      cases hk
      rw [List.singleton_inj.mp hm, hname hdir.symm]
      rfl
    · rw [LinkedFiles.node_put_of_ne heq] at hk
      exact hsound m k hk

/-- A name in the store directory goes that is not a store path. -/
theorem advances_remove (hsound : LinksSound sha256 fs) (hn : ¬InStore [n]) :
    Advances sha256 fs (fs.remove [] n) := by
  have hnode : ∀ l, InStore l → (fs.remove [] n).node l = fs.node l := by
    intro l hl
    apply LinkedFiles.node_remove_of_ne
    rintro rfl
    exact hn hl
  have hlinks : ∀ m, (fs.remove [] n).node [linksDirName, m] = fs.node [linksDirName, m] := fun m =>
    LinkedFiles.node_remove_of_ne (by simp)
  refine ⟨rfl, fun l hl => ?_, fun l hl hnone => ?_, fun l hl w hw => ⟨w, ?_⟩, fun l hl k hk => ?_,
    fun m nd hnd => ?_, fun m k hk => ?_⟩
  · apply LinkedFiles.names_remove_of_ne
    rintro rfl
    exact hn (hl.append [n])
  · rw [hnode l hl, hnone]
  · rw [hnode l hl, hw]
  · exact Or.inl ((hnode l hl).trans hk)
  · rw [hlinks, hnd]
  · rw [hlinks] at hk
    exact hsound m k hk

/-- A directory of a store path becomes writable or read-only. -/
theorem advances_setWritable (hsound : LinksSound sha256 fs) (hdir : InStore dir) (writable : Bool) :
    Advances sha256 fs (fs.setWritable dir writable) := by
  have hcases : ∀ l, (fs.setWritable dir writable).node l = fs.node l ∨
      ∃ w, fs.node l = some (.directory w) ∧
        (fs.setWritable dir writable).node l = some (.directory writable) :=
    fun l => LinkedFiles.node_setWritable
  have hlinks : ∀ m, (fs.setWritable dir writable).node [linksDirName, m] = fs.node [linksDirName, m] := by
    intro m
    unfold LinkedFiles.setWritable
    split
    · exact Function.update_of_ne (hdir.ne_links m).symm ..
    · rfl
  refine ⟨LinkedFiles.file_setWritable, fun l hl => ?_, fun l hl hnone => ?_, fun l hl w hw => ?_,
    fun l hl k hk => ?_, fun m nd hnd => ?_, fun m k hk => ?_⟩
  · rw [LinkedFiles.names_setWritable]
  · rcases hcases l with hsame | ⟨w, hw, -⟩
    · rw [hsame, hnone]
    · rw [hnone] at hw
      cases hw
  · rcases hcases l with hsame | ⟨-, -, hw'⟩
    · exact ⟨w, hsame.trans hw⟩
    · exact ⟨writable, hw'⟩
  · rcases hcases l with hsame | ⟨w, hw, -⟩
    · exact Or.inl (hsame.trans hk)
    · rw [hk] at hw
      cases hw
  · rw [hlinks, hnd]
  · rw [hlinks] at hk
    rw [LinkedFiles.file_setWritable]
    exact hsound m k hk

/-- The temporary link to the file in the links directory replaces a file that is serialised alike. -/
theorem advances_move {temp : Str} (hsound : LinksSound sha256 fs) (htemp : ¬InStore [temp])
    (hl : InStore (dir ++ [n])) (hnode : fs.node (dir ++ [n]) = some (.file i))
    (hlink : fs.node [temp] = some (.file j)) (hne : i ≠ j)
    (hnar : (fs.file i).nar = (fs.file j).nar)
    (hshared : fs.node (linkLoc sha256 (fs.file j)) = some (.file j)) :
    Advances sha256 fs (fs.move [] temp dir n) ∧
      Shared sha256 (fs.move [] temp dir n) (dir ++ [n]) := by
  have hmove : fs.move [] temp dir n = (fs.remove [] temp).put dir n (.file j) := by
    unfold LinkedFiles.move
    rw [List.nil_append, hlink]
    exact if_neg (by rw [hnode]; simpa using hne)
  have hself : (fs.move [] temp dir n).node (dir ++ [n]) = some (.file j) := by
    rw [hmove, LinkedFiles.node_put_self]
  have hother : ∀ l, l ≠ dir ++ [n] → l ≠ [temp] →
      (fs.move [] temp dir n).node l = fs.node l := by
    intro l h₁ h₂
    rw [hmove, LinkedFiles.node_put_of_ne h₁, LinkedFiles.node_remove_of_ne h₂]
  have hlinks : ∀ m, (fs.move [] temp dir n).node [linksDirName, m] = fs.node [linksDirName, m] :=
    fun m => hother _ (hl.ne_links m).symm (by simp)
  have hold : ∀ l, InStore l → l ≠ dir ++ [n] →
      (fs.move [] temp dir n).node l = fs.node l := by
    intro l hl' h
    apply hother l h
    rintro rfl
    exact htemp hl'
  have hsh : Shared sha256 (fs.move [] temp dir n) (dir ++ [n]) := by
    refine ⟨j, hself, ?_⟩
    rw [LinkedFiles.file_move, linkLoc, hlinks]
    exact hshared
  refine ⟨⟨LinkedFiles.file_move, fun l hl' => ?_, fun l hl' hnone => ?_, fun l hl' w hw => ?_,
    fun l hl' k hk => ?_, fun m nd hnd => ?_, fun m k hk => ?_⟩, hsh⟩
  · have hthere : (fs.remove [] temp).node (dir ++ [n]) ≠ none := by
      rw [LinkedFiles.node_remove_of_ne, hnode]
      · simp
      · rintro heq
        rw [heq] at hl
        exact htemp hl
    rw [hmove, LinkedFiles.names_put_of_node hthere, LinkedFiles.names_remove_of_ne]
    rintro rfl
    exact htemp (hl'.append [temp])
  · rw [hold l hl', hnone]
    rintro rfl
    rw [hnode] at hnone
    cases hnone
  · refine ⟨w, ?_⟩
    rw [hold l hl', hw]
    rintro rfl
    rw [hnode] at hw
    cases hw
  · by_cases heq : l = dir ++ [n]
    · subst heq
      obtain rfl : i = k := by simpa using hnode.symm.trans hk
      exact Or.inr ⟨hsh, j, hself, hnar⟩
    · exact Or.inl ((hold l hl' heq).trans hk)
  · rw [hlinks, hnd]
  · rw [hlinks] at hk
    rw [LinkedFiles.file_move]
    exact hsound m k hk

end

/-! ### The system calls -/

section

variable {cfg : StoreConfig} {sha256 : Str → Str} {canLinkSymlink : Bool} {pid : ℕ}
  {s s' : OptimiseState} {dir : Loc} {n : Str}

/-- The next event of the environment may be anything. -/
theorem ends_nextEvent {Q : LinkEvent → OptimiseState → Prop} {E : OptimiseStop → OptimiseState → Prop}
    (h : ∀ e events, Q e { s with events := events }) : nextEvent.Ends s Q E := by
  unfold Prog.Ends nextEvent
  cases hs : s.events with
  | nil =>
    have hq := h .normal s.events
    exact hq
  | cons e events => exact h e events

/-- The next random number may be anything. -/
theorem ends_nextRand {Q : ℕ → OptimiseState → Prop} {E : OptimiseStop → OptimiseState → Prop}
    (h : ∀ r rands, Q r { s with rands := rands }) : nextRand.Ends s Q E := by
  unfold Prog.Ends nextRand
  cases hs : s.rands with
  | nil =>
    have hq := h 0 s.rands
    exact hq
  | cons r rands => exact h r rands

/-- What `link` can do. -/
inductive LinkResult (sha256 : Str → Str) (old dir : Loc) (n : Str) (s : OptimiseState) :
    Option Errno → OptimiseState → Prop
  | fails {s' : OptimiseState} {e : Errno} (other : e ≠ .EMLINK) (files : s'.fs = s.fs)
      (count : s'.emlinks = s.emlinks) : LinkResult sha256 old dir n s (some e) s'
  | tooMany {s' : OptimiseState} (files : s'.fs = s.fs) (count : s'.emlinks = s.emlinks + 1) :
      LinkResult sha256 old dir n s (some .EMLINK) s'
  | links {s' : OptimiseState} {ino : ℕ} (file : s.fs.node old = some (.file ino))
      (absent : s.fs.node (dir ++ [n]) = none) (files : s'.fs = s.fs.put dir n (.file ino))
      (count : s'.emlinks = s.emlinks) : LinkResult sha256 old dir n s none s'
  | raced {s' : OptimiseState} {j : ℕ} (absent : s.fs.node (dir ++ [n]) = none)
      (name : dir = [linksDirName] → n = linkName sha256 (s.fs.file j))
      (files : s'.fs = s.fs.put dir n (.file j)) (count : s'.emlinks = s.emlinks) :
      LinkResult sha256 old dir n s (some .EEXIST) s'

/-- `link` succeeds or fails as `LinkResult` says. -/
theorem ends_sysLink (old : Loc) {E : OptimiseStop → OptimiseState → Prop} :
    (sysLink sha256 old dir n).Ends s (LinkResult sha256 old dir n s) E := by
  unfold sysLink
  refine (ends_nextEvent (Q := fun e s₁ => ∃ events, s₁ = { s with events := events })
    (E := E) fun e events => ⟨events, rfl⟩).bind ?_ fun _ _ => id
  rintro e s₁ ⟨events, rfl⟩
  apply Prog.ends_get_bind
  dsimp only
  split
  next ino hino =>
    split_ifs with hthere
    · exact Prog.ends_pure (.fails (by simp) rfl rfl)
    · rw [not_not] at hthere
      cases e with
      | normal => exact Prog.ends_modify_bind (Prog.ends_pure (.links hino hthere rfl rfl))
      | raced j =>
        dsimp only
        split_ifs with hname
        · exact Prog.ends_modify_bind (Prog.ends_pure (.raced hthere hname rfl rfl))
        · exact Prog.ends_pure (.fails (by simp) rfl rfl)
      | tooMany =>
        exact Prog.ends_modify_bind (Prog.ends_pure (.tooMany rfl rfl))
      | fails => exact Prog.ends_pure (.fails (by simp) rfl rfl)
  next => exact Prog.ends_pure (.fails (by simp) rfl rfl)

/-- What `rename` can do. -/
inductive RenameResult (dir : Loc) (n : Str) (dir' : Loc) (n' : Str) (s : OptimiseState) :
    Option Errno → OptimiseState → Prop
  | fails {s' : OptimiseState} {e : Errno} (other : e ≠ .EMLINK) (files : s'.fs = s.fs)
      (count : s'.emlinks = s.emlinks) : RenameResult dir n dir' n' s (some e) s'
  | tooMany {s' : OptimiseState} (files : s'.fs = s.fs) (count : s'.emlinks = s.emlinks + 1) :
      RenameResult dir n dir' n' s (some .EMLINK) s'
  | renames {s' : OptimiseState} (files : s'.fs = s.fs.move dir n dir' n')
      (count : s'.emlinks = s.emlinks) : RenameResult dir n dir' n' s none s'

/-- `rename` succeeds or fails as `RenameResult` says. -/
theorem ends_sysRename (dir' : Loc) (n' : Str) {E : OptimiseStop → OptimiseState → Prop} :
    (sysRename dir n dir' n').Ends s (RenameResult dir n dir' n' s) E := by
  unfold sysRename
  refine (ends_nextEvent (Q := fun e s₁ => ∃ events, s₁ = { s with events := events })
    (E := E) fun e events => ⟨events, rfl⟩).bind ?_ fun _ _ => id
  rintro e s₁ ⟨events, rfl⟩
  cases e with
  | tooMany =>
    exact Prog.ends_modify_bind (Prog.ends_pure (.tooMany rfl rfl))
  | normal => exact Prog.ends_modify_bind (Prog.ends_pure (.renames rfl rfl))
  | raced j => exact Prog.ends_pure (.fails (by simp) rfl rfl)
  | fails => exact Prog.ends_pure (.fails (by simp) rfl rfl)

/-! ### A file -/

/-- What a part of a call does, however it ends. -/
def Invisible (sha256 : Str → Str) (s s' : OptimiseState) : Prop :=
  Advances sha256 s.fs s'.fs ∧ s.emlinks ≤ s'.emlinks

/-- An invisible step advances the files. -/
theorem Invisible.files (h : Invisible sha256 s s') : Advances sha256 s.fs s'.fs := h.1

/-- The number of failures by `EMLINK` never goes down. -/
theorem Invisible.count (h : Invisible sha256 s s') : s.emlinks ≤ s'.emlinks := h.2

/-- Nothing happening is invisible. -/
theorem Invisible.refl (h : LinksSound sha256 s.fs) : Invisible sha256 s s := ⟨.refl h, le_rfl⟩

/-- Invisible steps follow each other. -/
theorem Invisible.trans {s'' : OptimiseState} (h : Invisible sha256 s s')
    (h' : Invisible sha256 s' s'') : Invisible sha256 s s'' :=
  ⟨h.files.trans h'.files, h.count.trans h'.count⟩

/-- What an exception leaves behind. -/
def Fails (sha256 : Str → Str) (s : OptimiseState) (e : OptimiseStop) (s' : OptimiseState) : Prop :=
  e ≠ .outOfFuel ∧ Invisible sha256 s s'

/-- A file has been shared unless there are too many links. -/
def Shares (sha256 : Str → Str) (l : Loc) (s s' : OptimiseState) : Prop :=
  Invisible sha256 s s' ∧ (s'.emlinks = s.emlinks → Shared sha256 s'.fs l)

/-- A file that can be replaced by the one in the links directory. -/
structure Replaceable (sha256 : Str → Str) (l : Loc) (name : Str) (i : ℕ) (fs : LinkedFiles Inode) :
    Prop where
  sound : LinksSound sha256 fs
  inStore : InStore l
  node : fs.node l = some (.file i)
  link : ∀ j, fs.node [linksDirName, name] = some (.file j) → i ≠ j ∧ (fs.file i).nar = (fs.file j).nar

/-- Replacing a file by the link shares it, or fails without a visible change. -/
theorem ends_replaceLink {name : Str} {i size : ℕ}
    (h : Replaceable sha256 (dir ++ [n]) name i s.fs) :
    (replaceLink cfg sha256 pid dir n name size).Ends s
      (fun _ s' => Shares sha256 (dir ++ [n]) s s') (Fails sha256 s) := by
  unfold replaceLink
  refine (ends_nextRand (Q := fun e s₁ => ∃ rands, s₁ = { s with rands := rands })
    (E := fun _ _ => False) fun e rands => ⟨rands, rfl⟩).bind ?_ fun _ _ => False.elim
  rintro rand s₁ ⟨rands, rfl⟩
  dsimp only
  have htemp := not_inStore_temp pid rand
  generalize tempLinkName pid rand = temp at htemp ⊢
  refine (ends_sysLink [linksDirName, name] (E := fun _ _ => False)).bind ?_ fun _ _ => False.elim
  intro r s₂ hr
  cases hr with
  | @fails _ e other files count =>
    have hinv : Invisible sha256 s s₂ := ⟨by rw [files]; exact .refl h.sound, count.ge⟩
    cases e with
    | EMLINK => exact absurd rfl other
    | EEXIST => exact Prog.ends_throw ⟨by simp, hinv⟩
    | other => exact Prog.ends_throw ⟨by simp, hinv⟩
  | tooMany files count =>
    have hcount : s₂.emlinks = s.emlinks + 1 := count
    refine Prog.ends_pure ⟨⟨by rw [files]; exact .refl h.sound, by omega⟩, fun hsame => ?_⟩
    omega
  | raced absent name files count =>
    exact Prog.ends_throw ⟨by simp, files ▸ advances_put h.sound htemp (by simp) absent, count.ge⟩
  | @links _ j file absent files count =>
    obtain ⟨hij, hnar⟩ := h.link j file
    have hshared : s.fs.node (linkLoc sha256 (s.fs.file j)) = some (.file j) := by
      rw [linkLoc, ← h.sound name j file]
      exact file
    have hput : Advances sha256 s.fs s₂.fs := files ▸ advances_put h.sound htemp (by simp) absent
    have hnode : ∀ l, l ≠ [temp] → s₂.fs.node l = s.fs.node l := by
      intro l hl
      rw [files]
      exact LinkedFiles.node_put_of_ne hl _
    have hfile : s₂.fs.file = s.fs.file := hput.file
    refine (ends_sysRename dir n (E := fun _ _ => False)).bind ?_ fun _ _ => False.elim
    intro r s₃ hr
    have hremove : ∀ s₃ : OptimiseState, s₃.fs = s₂.fs →
        Advances sha256 s.fs (s₃.fs.remove [] temp) := by
      intro s₃ files'
      rw [files']
      exact hput.trans (advances_remove hput.sound htemp)
    have hcount : s₂.emlinks = s.emlinks := count
    cases hr with
    | @fails _ e other files' count' =>
      refine Prog.ends_modify_bind ?_
      rw [if_neg other]
      exact Prog.ends_throw ⟨by simp, hremove s₃ files', by rw [← hcount]; exact count'.ge⟩
    | tooMany files' count' =>
      refine Prog.ends_modify_bind (Prog.ends_pure ⟨⟨hremove s₃ files', ?_⟩, fun hsame => ?_⟩)
      · rw [← hcount, count']
        exact Nat.le_succ _
      · have hsame' : s₃.emlinks = s.emlinks := hsame
        omega
    | renames files' count' =>
      have hne : dir ++ [n] ≠ [temp] := by
        rintro heq
        exact htemp (heq ▸ h.inStore)
      obtain ⟨hmove, hmoved⟩ := advances_move (i := i) (j := j) hput.sound htemp h.inStore
        ((hnode _ hne).trans h.node) (by rw [files]; exact LinkedFiles.node_put_self _) hij
        (by rw [hfile]; exact hnar) (by
          rw [hfile, hnode _ (by simp [linkLoc])]
          exact hshared)
      refine Prog.ends_modify ⟨⟨?_, ?_⟩, fun _ => ?_⟩
      · exact hput.trans (files' ▸ hmove)
      · exact (count'.trans count).ge
      · exact files' ▸ hmoved

/-- What lies above a location of the store, the store directory apart, lies in the store. -/
theorem InStore.of_append {l l' : Loc} (h : InStore (l ++ l')) (hne : l ≠ []) : InStore l := by
  obtain ⟨n, rest, heq, hn⟩ := h
  cases l with
  | nil => exact absurd rfl hne
  | cons m l =>
    rw [List.cons_append, List.cons.injEq] at heq
    exact ⟨m, l, rfl, heq.1 ▸ hn⟩

/-- Making a directory of a store path writable for a while cannot be seen. -/
theorem ends_withWritable {dir : Option Loc} (hdir : ∀ d, dir = some d → InStore d)
    {m : OptimiseM Unit} (hsound : LinksSound sha256 s.fs) {l : Loc} (hl : InStore l)
    (h : ∀ s₁, Invisible sha256 s s₁ → s₁.emlinks = s.emlinks →
      (∀ l ino, s.fs.node l = some (.file ino) → s₁.fs.node l = some (.file ino)) →
      m.Ends s₁ (fun _ s' => Shares sha256 l s₁ s') (Fails sha256 s₁)) :
    (withWritable dir m).Ends s (fun _ s' => Shares sha256 l s s') (Fails sha256 s) := by
  cases dir with
  | none => exact h s (.refl hsound) rfl fun _ _ => id
  | some d =>
    have hd := hdir d rfl
    have hopen : Invisible sha256 s { s with fs := s.fs.setWritable d true } :=
      ⟨advances_setWritable hsound hd true, le_rfl⟩
    have hclose : ∀ s', Invisible sha256 s s' →
        Invisible sha256 s { s' with fs := s'.fs.setWritable d false } := fun s' hs' =>
      hs'.trans ⟨advances_setWritable hs'.files.sound hd false, le_rfl⟩
    have hnode : ∀ l ino, s.fs.node l = some (.file ino) →
        (s.fs.setWritable d true).node l = some (.file ino) := by
      intro l ino hino
      have hcase : (s.fs.setWritable d true).node l = s.fs.node l ∨ ∃ w, s.fs.node l =
          some (.directory w) ∧ (s.fs.setWritable d true).node l = some (.directory true) :=
        LinkedFiles.node_setWritable
      rcases hcase with hsame | ⟨w, hw, -⟩
      · exact hsame.trans hino
      · rw [hino] at hw
        cases hw
    have hm := h _ hopen rfl hnode
    unfold Prog.Ends withWritable at *
    rcases hrun : m { s with fs := s.fs.setWritable d true } with ⟨e | a, s'⟩
    · rw [hrun] at hm
      simp only [hrun]
      exact ⟨hm.1, hclose s' (hopen.trans hm.2)⟩
    · rw [hrun] at hm
      simp only [hrun]
      refine ⟨hclose s' (hopen.trans hm.1), fun hsame => ?_⟩
      exact (hm.2 hsame).advance (advances_setWritable hm.1.files.sound hd false) hl

/-- The names of files in the links directory tell the files apart. -/
theorem nar_eq_of_linkName_eq (hlen : ∀ s, (sha256 s).length = 32) {fs : LinkedFiles Inode}
    (hcoll : CollisionFree sha256 fs) {i j : ℕ}
    (h : linkName sha256 (fs.file i) = linkName sha256 (fs.file j)) :
    (fs.file i).nar = (fs.file j).nar := by
  apply hcoll
  have hsize : ∀ file : Inode, (fileHash sha256 file).type.size? =
      some (fileHash sha256 file).hash.length := fun file => congrArg some (hlen _).symm
  have hread := parseHash32_printHash32 (hsize (fs.file i))
  have hread' := parseHash32_printHash32 (hsize (fs.file j))
  rw [linkName, linkName] at h
  rw [h] at hread
  exact congrArg Hash.hash (Outcome.ok.inj (hread.symm.trans hread'))

/-- A file is shared through the link with its hash, which is created if it is not there. -/
theorem ends_shareFile (hlen : ∀ s, (sha256 s).length = 32) (hcoll : CollisionFree sha256 s.fs)
    (hsound : LinksSound sha256 s.fs) (hl : InStore (dir ++ [n])) {ino size : ℕ}
    (hnode : s.fs.node (dir ++ [n]) = some (.file ino)) :
    (shareFile cfg sha256 pid dir n ino (linkName sha256 (s.fs.file ino)) size).Ends s
      (fun _ s' => Shares sha256 (dir ++ [n]) s s') (Fails sha256 s) := by
  unfold shareFile
  apply Prog.ends_get_bind
  cases hlink : s.fs.node [linksDirName, linkName sha256 (s.fs.file ino)] with
  | none => exact Prog.ends_throw ⟨by simp, .refl hsound⟩
  | some link =>
    refine Prog.ends_modify_bind ?_
    dsimp only
    by_cases heq : link = .file ino
    · rw [if_pos heq]
      rw [heq] at hlink
      exact Prog.ends_pure ⟨⟨.refl hsound, le_rfl⟩, fun _ => ⟨ino, hnode, hlink⟩⟩
    · rw [if_neg heq]
      have hdir : ∀ d, (if dir = [] then none else some dir) = some d → InStore d := by
        intro d hd
        by_cases hnil : dir = []
        · rw [if_pos hnil] at hd
          cases hd
        · rw [if_neg hnil] at hd
          cases hd
          exact hl.of_append hnil
      have hreplace : ∀ s₁, Invisible sha256 s s₁ →
          (∀ l ino, s.fs.node l = some (.file ino) → s₁.fs.node l = some (.file ino)) →
          Replaceable sha256 (dir ++ [n]) (linkName sha256 (s.fs.file ino)) ino s₁.fs := by
        intro s₁ hinv hfiles
        refine ⟨hinv.files.sound, hl, hfiles _ _ hnode, fun j hj => ?_⟩
        have hsame := hinv.files.links _ _ hlink
        rw [hj] at hsame
        obtain rfl : Node.file j = link := Option.some.inj hsame
        refine ⟨?_, ?_⟩
        · rintro rfl
          exact heq rfl
        · rw [hinv.files.file]
          exact nar_eq_of_linkName_eq hlen hcoll (hsound _ j hlink)
      have hrun : ∀ stats, (withWritable (if dir = [] then none else some dir)
          (replaceLink cfg sha256 pid dir n (linkName sha256 (s.fs.file ino)) size)).Ends
            { s with stats := stats } (fun _ s' => Shares sha256 (dir ++ [n]) s s')
            (Fails sha256 s) := fun stats =>
        ends_withWritable (s := { s with stats := stats }) hdir hsound hl
          fun s₁ hinv _ hfiles => ends_replaceLink (hreplace s₁ hinv hfiles)
      exact hrun _

/-- A file is optimised: skipped when it is writable, else shared. -/
theorem ends_optimiseFile (hlen : ∀ s, (sha256 s).length = 32) (hcoll : CollisionFree sha256 s.fs)
    (hsound : LinksSound sha256 s.fs) (hl : InStore (dir ++ [n])) {ino : ℕ}
    (hnode : s.fs.node (dir ++ [n]) = some (.file ino)) :
    (optimiseFile cfg sha256 canLinkSymlink pid dir n ino (s.fs.file ino)).Ends s
      (fun _ s' => Invisible sha256 s s' ∧ (s'.emlinks = s.emlinks →
        (s.fs.file ino).linkable canLinkSymlink = true → Shared sha256 s'.fs (dir ++ [n])))
      (Fails sha256 s) := by
  unfold optimiseFile
  by_cases hlinkable : (s.fs.file ino).linkable canLinkSymlink = true
  · rw [if_pos hlinkable]
    have hshare : ∀ s₁, Invisible sha256 s s₁ → s₁.emlinks = s.emlinks →
        s₁.fs.node (dir ++ [n]) = some (.file ino) →
        (shareFile cfg sha256 pid dir n ino (linkName sha256 (s.fs.file ino))
          (s.fs.file ino).size).Ends s₁
          (fun _ s' => Invisible sha256 s s' ∧ (s'.emlinks = s.emlinks →
            (s.fs.file ino).linkable canLinkSymlink = true → Shared sha256 s'.fs (dir ++ [n])))
          (Fails sha256 s) := by
      intro s₁ hinv hcount hnode₁
      have hcoll₁ : CollisionFree sha256 s₁.fs := by
        intro i j
        rw [hinv.files.file]
        exact hcoll i j
      have hfile : (shareFile cfg sha256 pid dir n ino (linkName sha256 (s₁.fs.file ino))
          (s.fs.file ino).size).Ends s₁ _ _ := ends_shareFile hlen hcoll₁ hinv.files.sound hl hnode₁
      rw [hinv.files.file] at hfile
      refine hfile.mono (fun _ s' hs' => ⟨hinv.trans hs'.1, fun hsame _ => ?_⟩)
        fun _ s' hs' => ⟨hs'.1, hinv.trans hs'.2⟩
      exact hs'.2 (hsame.trans hcount.symm)
    refine Prog.ends_modify_bind (Prog.ends_get_bind ?_)
    dsimp only
    split_ifs with habsent
    · refine (ends_sysLink (dir ++ [n]) (E := fun _ _ => False)).bind ?_ fun _ _ => False.elim
      intro r s₁ hr
      cases hr with
      | @fails _ e other files count =>
        have hinv : Invisible sha256 s s₁ := ⟨by rw [files]; exact .refl hsound, count.ge⟩
        cases e with
        | EEXIST => exact hshare s₁ hinv count (by rw [files]; exact hnode)
        | EMLINK => exact absurd rfl other
        | other => exact Prog.ends_throw ⟨by simp, hinv⟩
      | tooMany files count =>
        exact Prog.ends_throw ⟨by simp, by rw [files]; exact .refl hsound, count ▸ Nat.le_succ _⟩
      | @links _ i file absent files count =>
        obtain rfl : i = ino := by simpa using file.symm.trans hnode
        refine Prog.ends_pure ⟨⟨?_, count.ge⟩, fun _ _ => ⟨i, ?_, ?_⟩⟩
        · rw [files]
          exact advances_put hsound (not_inStore_links _) (fun _ => rfl) absent
        · rw [files, LinkedFiles.node_put_of_ne (hl.ne_links _)]
          exact hnode
        · rw [files]
          exact LinkedFiles.node_put_self _
      | raced absent name files count =>
        refine hshare s₁ ⟨?_, count.ge⟩ count ?_
        · rw [files]
          exact advances_put hsound (not_inStore_links _) name absent
        · rw [files, LinkedFiles.node_put_of_ne (hl.ne_links _)]
          exact hnode
    · exact hshare _ ⟨.refl hsound, le_rfl⟩ rfl hnode
  · rw [if_neg hlinkable]
    exact Prog.ends_pure ⟨.refl hsound, fun _ h => absurd h hlinkable⟩

end

/-! ### A call -/

section

variable {cfg : StoreConfig} {sha256 : Str → Str} {canLinkSymlink : Bool} {pid : ℕ}
  {s s' : OptimiseState} {dir : Loc} {n : Str}

/-- The files in the tree at a location that are to be linked are shared, unless there are too many
links. -/
def SharesAll (sha256 : Str → Str) (canLinkSymlink : Bool) (root : Loc) (s s' : OptimiseState) :
    Prop :=
  s'.emlinks = s.emlinks → ∀ l ino, s.fs.Contains root l → s.fs.node l = some (.file ino) →
    (s.fs.file ino).linkable canLinkSymlink = true → Shared sha256 s'.fs l

/-- Below a file there is only the file itself. -/
theorem eq_of_contains_file {fs : LinkedFiles Inode} {root l : Loc} {ino : ℕ}
    (h : fs.Contains root l) (hroot : fs.node root = some (.file ino)) : l = root := by
  induction h with
  | self => rfl
  | entry contains directory listed ih =>
    rw [ih, hroot] at directory
    cases directory

/-- What is in the tree at a location stays in it. -/
theorem Advances.contains {fs fs' : LinkedFiles Inode} (h : Advances sha256 fs fs') {root l : Loc}
    (hroot : InStore root) (hl : fs.Contains root l) : fs'.Contains root l := by
  induction hl with
  | self => exact .self
  | @entry d w n contains directory listed ih =>
    obtain ⟨rest, hrest⟩ := LinkedFiles.prefix_of_contains contains
    have hd : InStore d := hrest ▸ hroot.append rest
    obtain ⟨w', hw'⟩ := h.directory d hd w directory
    exact ih.entry hw' (by rw [h.names d hd]; exact listed)

/-- What has been done for one entry of a directory is not undone by the others. -/
theorem SharesAll.step {s₁ s₂ : OptimiseState} {root : Loc} (hroot : InStore root)
    (h₁ : Invisible sha256 s s₁) (h : SharesAll sha256 canLinkSymlink root s₁ s₂)
    (h₂ : Invisible sha256 s₁ s₂) : SharesAll sha256 canLinkSymlink root s s₂ := by
  intro hsame l ino hl hnode hlinkable
  have hle₁ := h₁.count
  have hle₂ := h₂.count
  obtain ⟨rest, hrest⟩ := LinkedFiles.prefix_of_contains hl
  have hin : InStore l := hrest ▸ hroot.append rest
  rcases h₁.files.linked l hin ino hnode with hkept | ⟨hshared, -⟩
  · refine h (by omega) l ino (h₁.files.contains hroot hl) hkept ?_
    rw [h₁.files.file]
    exact hlinkable
  · exact hshared.advance h₂.files hin

/-- What was shared at one point of the run is shared at its end. -/
theorem SharesAll.advance {s₁ s₂ : OptimiseState} {root : Loc} (hroot : InStore root)
    (h : SharesAll sha256 canLinkSymlink root s s₁) (h₁ : Invisible sha256 s s₁)
    (h₂ : Invisible sha256 s₁ s₂) : SharesAll sha256 canLinkSymlink root s s₂ := by
  intro hsame l ino hl hnode hlinkable
  have hle₁ := h₁.count
  have hle₂ := h₂.count
  obtain ⟨rest, hrest⟩ := LinkedFiles.prefix_of_contains hl
  exact (h (by omega) l ino hl hnode hlinkable).advance h₂.files (hrest ▸ hroot.append rest)

/-- One failure makes the whole list fail. -/
theorem mapM_eq_none {α β : Type} {f : α → Option β} {l : List α} {a : α} (ha : a ∈ l)
    (hf : f a = none) : l.mapM f = none := by
  induction l with
  | nil => cases ha
  | cons b l ih =>
    simp only [List.mapM_cons, Option.bind_eq_bind, Option.pure_def]
    rcases List.mem_cons.mp ha with rfl | ha
    · rw [hf, Option.bind_none]
    · cases f b with
      | none => rfl
      | some c => rw [Option.bind_some, ih ha, Option.bind_none]

/-- The invariant of a call: nothing can be seen of it, a call that returns has linked the files of its
path, and the recursion is not deeper than the tree there. -/
theorem ends_optimisePath_ (hlen : ∀ s, (sha256 s).length = 32) {fuel : ℕ}
    (hcoll : CollisionFree sha256 s.fs) (hsound : LinksSound sha256 s.fs)
    (hl : InStore (dir ++ [n])) :
    (optimisePath_ cfg sha256 canLinkSymlink pid fuel dir n).Ends s
      (fun _ s' => Invisible sha256 s s' ∧ SharesAll sha256 canLinkSymlink (dir ++ [n]) s s')
      fun e s' => (e = .outOfFuel → treeAt s.fs fuel (dir ++ [n]) = none) ∧
        Invisible sha256 s s' := by
  induction fuel generalizing s dir n with
  | zero => exact Prog.ends_throw ⟨fun _ => rfl, .refl hsound⟩
  | succ fuel ih =>
    rw [optimisePath_]
    apply Prog.ends_get_bind
    cases hnode : s.fs.node (dir ++ [n]) with
    | none => exact Prog.ends_throw ⟨by simp, .refl hsound⟩
    | some nd =>
      cases nd with
      | file ino =>
        refine (ends_optimiseFile hlen hcoll hsound hl hnode).mono (fun _ s' hs' => ⟨hs'.1, ?_⟩)
          fun e s' hs' => ⟨fun he => absurd he hs'.1, hs'.2⟩
        intro hsame l i hcontains hi hlinkable
        obtain rfl := eq_of_contains_file hcontains hnode
        obtain rfl : ino = i := by simpa using hnode.symm.trans hi
        exact hs'.2 hsame hlinkable
      | directory w =>
        -- the invariant of the loop: the entries so far are linked
        have hloop := Prog.Ends.each (f := fun i =>
            optimisePath_ cfg sha256 canLinkSymlink pid fuel (dir ++ [n]) i)
          (I := fun done s' => Invisible sha256 s s' ∧ ∀ i ∈ done,
            SharesAll sha256 canLinkSymlink (dir ++ [n] ++ [i]) s s')
          (E := fun e s' => (e = .outOfFuel → treeAt s.fs (fuel + 1) (dir ++ [n]) = none) ∧
            Invisible sha256 s s') (s.fs.names (dir ++ [n]))
          (fun done i rest s₁ hnames hinv => ?_) ⟨.refl hsound, by simp⟩
        · refine hloop.mono (fun _ s' hs' => ⟨hs'.1, ?_⟩) fun _ _ => id
          intro hsame l i hcontains hi hlinkable
          rcases LinkedFiles.contains_cases hcontains with rfl | ⟨m, hm, hcontains⟩
          · rw [hnode] at hi
            cases hi
          · exact hs'.2 m hm hsame l i hcontains hi hlinkable
        · obtain ⟨hinv, hdone⟩ := hinv
          have hcoll₁ : CollisionFree sha256 s₁.fs := by
            intro i j
            rw [hinv.files.file]
            exact hcoll i j
          refine (ih hcoll₁ hinv.files.sound (hl.append [i])).mono (fun _ s₂ hs₂ => ?_)
            fun e s₂ hs₂ => ⟨fun he => ?_, hinv.trans hs₂.2⟩
          · refine ⟨hinv.trans hs₂.1, fun j hj => ?_⟩
            rcases List.mem_append.mp hj with hj | hj
            · exact (hdone j hj).advance (hl.append [j]) hinv hs₂.1
            · rw [List.mem_singleton.mp hj]
              exact SharesAll.step (hl.append [i]) hinv hs₂.2 hs₂.1
          · have hnone : treeAt s.fs fuel (dir ++ [n] ++ [i]) = none := by
              rcases rel_cases (hinv.files.rel_treeAt fuel (hl.append [i])) with
                ⟨ht, -⟩ | ⟨t, t', -, ht', -⟩
              · exact ht
              · rw [hs₂.1 he] at ht'
                cases ht'
            have hi : i ∈ s.fs.names (dir ++ [n]) := by simp [hnames]
            have hmap := mapM_eq_none (f := fun m =>
              (treeAt s.fs fuel (dir ++ [n] ++ [m])).map fun t => (m, t)) hi (by rw [hnone]; rfl)
            unfold treeAt
            rw [hnode]
            exact congrArg (Option.map FileTree.directory) hmap

end

/-! ### Runs -/

/-- Calls of `optimisePath_` for store paths, one after another, whatever happens at them. -/
inductive OptimiseRun (cfg : StoreConfig) (sha256 : Str → Str) (canLinkSymlink : Bool) :
    OptimiseState → OptimiseState → Prop
  | refl (s : OptimiseState) : OptimiseRun cfg sha256 canLinkSymlink s s
  | call {s s' : OptimiseState} (run : OptimiseRun cfg sha256 canLinkSymlink s s') (n : Str)
      (storePath : InStore [n]) (pid fuel : ℕ) (events : List LinkEvent) (rands : List ℕ) :
      OptimiseRun cfg sha256 canLinkSymlink s (optimisePath_ cfg sha256 canLinkSymlink pid fuel [] n
        { s' with events := events, rands := rands }).2

section

variable {cfg : StoreConfig} {sha256 : Str → Str} {canLinkSymlink : Bool} {s s' : OptimiseState}

/-- Every run of the optimiser advances the files. -/
theorem advances_of_run (hlen : ∀ s, (sha256 s).length = 32) (hcoll : CollisionFree sha256 s.fs)
    (hsound : LinksSound sha256 s.fs) (hrun : OptimiseRun cfg sha256 canLinkSymlink s s') :
    Advances sha256 s.fs s'.fs := by
  induction hrun with
  | refl => exact .refl hsound
  | @call s' run n storePath pid fuel events rands ih =>
    have hcoll' : CollisionFree sha256 s'.fs := by
      intro i j
      rw [ih.file]
      exact hcoll i j
    have hcall : (optimisePath_ cfg sha256 canLinkSymlink pid fuel [] n).Ends
        { s' with events := events, rands := rands } _ _ :=
      ends_optimisePath_ hlen hcoll' ih.sound storePath
    refine ih.trans (hcall.state_of (P := fun s'' => Advances sha256 s'.fs s''.fs) ?_ ?_)
    · exact fun _ _ h => h.1.files
    · exact fun _ _ h => h.2.files

/-- Whatever happens at the calls of `link` and `rename`, the serialisation of every store path stays
the same, and every file in the links directory stays under the name of its hash.  A call that returns
and finds no file with too many links has linked all read-only regular files of its path; and the
recursion always ends. -/
theorem optimise_invisible (hlen : ∀ s, (sha256 s).length = 32) (hcoll : CollisionFree sha256 s.fs)
    (hsound : LinksSound sha256 s.fs) (hrun : OptimiseRun cfg sha256 canLinkSymlink s s') :
    (∀ n, InStore [n] → ∀ k filter path, (treeAt s'.fs k [n]).map (dumpPath path filter) =
      (treeAt s.fs k [n]).map (dumpPath path filter)) ∧
    LinksSound sha256 s'.fs ∧
    ∀ n, InStore [n] → ∀ pid fuel events rands r s'', optimisePath_ cfg sha256 canLinkSymlink pid
        fuel [] n { s' with events := events, rands := rands } = (r, s'') →
      (r = .ok () → s''.emlinks = s'.emlinks → ∀ l ino x c, s'.fs.Contains [n] l →
        s'.fs.node l = some (.file ino) → s'.fs.file ino = .regular x false c →
        Shared sha256 s''.fs l) ∧
      (r = .error .outOfFuel → treeAt s'.fs fuel [n] = none) := by
  have hadv := advances_of_run hlen hcoll hsound hrun
  have hcoll' : CollisionFree sha256 s'.fs := by
    intro i j
    rw [hadv.file]
    exact hcoll i j
  refine ⟨fun n hn k filter path => ?_, hadv.sound, ?_⟩
  · rcases rel_cases (hadv.rel_treeAt k hn) with ⟨ht, ht'⟩ | ⟨t, t', ht, ht', hdump⟩
    · rw [ht, ht']
    · rw [ht, ht', Option.map_some, Option.map_some, dumpPath, dumpPath, hdump filter path]
  · intro n hn pid fuel events rands r s'' hcall
    have hends : (optimisePath_ cfg sha256 canLinkSymlink pid fuel [] n).Ends
        { s' with events := events, rands := rands } _ _ :=
      ends_optimisePath_ hlen hcoll' hadv.sound hn
    refine ⟨?_, ?_⟩
    · rintro rfl hcount l ino x c hcontains hnode hfile
      exact (hends.of_ok hcall).2 hcount l ino hcontains hnode (by rw [hfile]; rfl)
    · rintro rfl
      exact (hends.of_error hcall).1 rfl

end

/-! ### Samples -/

/-- A read-only file. -/
def helloFile : Inode := .regular false false (str "hello")

/-- The hash of its serialisation. -/
def helloFileHash : Str :=
  (parsePairs? (str "0a430879c266f8b57f4092a0f935cf3facd48bbccde5760d4748ca405171e969")).getD []

/-- SHA-256 on the serialisation of the file. -/
def helloFileSha256 (s : Str) : Str := if s = helloFile.nar then helloFileHash else List.replicate 32 0

/-- A store with two copies of the file, one of them in a directory. -/
def helloFiles : LinkedFiles Inode where
  node l :=
    if l = [] ∨ l = [linksDirName] ∨ l = [str "a"] then some (.directory false)
    else if l = [str "a", str "f"] then some (.file 0)
    else if l = [str "b"] then some (.file 1)
    else none
  names l :=
    if l = [] then [linksDirName, str "a", str "b"] else if l = [str "a"] then [str "f"] else []
  file _ := helloFile

/-- Nothing has happened yet. -/
def helloState : OptimiseState := ⟨helloFiles, [], [], 0, ⟨0, 0, 0, 0⟩⟩

/-- A call for a path of this store. -/
def helloCall (n : Str) (events : List LinkEvent) (s : OptimiseState) :
    Except OptimiseStop Unit × OptimiseState :=
  optimisePath_ defaultConfig helloFileSha256 true 1 3 [] n { s with events := events, rands := [] }

/-- What the calls on the sample file do. -/
theorem helloCall_eq (n : Str) (events : List LinkEvent) (s : OptimiseState) :
    optimisePath_ defaultConfig helloFileSha256 true 1 3 [] n
        { s with events := events, rands := [] } =
      ((helloCall n events s).1, (helloCall n events s).2) := rfl

/-- The sample hash function gives 32 bytes. -/
theorem length_helloFileSha256 (s : Str) : (helloFileSha256 s).length = 32 := by
  unfold helloFileSha256
  split_ifs
  · decide
  · rfl

/-- The sample has no collision. -/
theorem collisionFree_helloFiles : CollisionFree helloFileSha256 helloFiles := fun _ _ _ => rfl

/-- The links of the sample are sound. -/
theorem linksSound_helloFiles : LinksSound helloFileSha256 helloFiles := by
  intro n ino h
  have hnone : helloFiles.node [linksDirName, n] = none := by
    simp [helloFiles, show linksDirName ≠ str "a" by decide]
  rw [hnone] at h
  cases h

/-- The first sample file is in the store. -/
theorem inStore_a : InStore [str "a"] := ⟨_, _, rfl, by decide⟩

/-- The second sample file is in the store. -/
theorem inStore_b : InStore [str "b"] := ⟨_, _, rfl, by decide⟩

/-- The sample is a run of one call. -/
theorem optimiseRun_helloState : OptimiseRun defaultConfig helloFileSha256 true helloState
    (helloCall (str "a") [] helloState).2 := .call (.refl _) _ inStore_a 1 3 [] []

/-- The two copies become one file. -/
theorem optimise_invisible_helloState :
    Shared helloFileSha256 (helloCall (str "b") [] (helloCall (str "a") [] helloState).2).2.fs
      [str "b"] := by
  have hends : (helloCall (str "b") [] (helloCall (str "a") [] helloState).2).1.toBool = true ∧
      (helloCall (str "b") [] (helloCall (str "a") [] helloState).2).2.emlinks =
        (helloCall (str "a") [] helloState).2.emlinks ∧
      (helloCall (str "a") [] helloState).2.fs.node [str "b"] = some (.file 1) := by
    refine ⟨by decide +kernel, by decide +kernel, by decide +kernel⟩
  have hok : (helloCall (str "b") [] (helloCall (str "a") [] helloState).2).1 = .ok () := by
    cases h : (helloCall (str "b") [] (helloCall (str "a") [] helloState).2).1 with
    | ok => rfl
    | error e => rw [h] at hends; exact absurd hends.1 (by simp [Except.toBool])
  obtain ⟨-, -, hcalls⟩ := optimise_invisible length_helloFileSha256 collisionFree_helloFiles
    linksSound_helloFiles optimiseRun_helloState
  have hfile : (helloCall (str "a") [] helloState).2.fs.file = fun _ => helloFile :=
    (advances_of_run length_helloFileSha256 collisionFree_helloFiles linksSound_helloFiles
      optimiseRun_helloState).file
  exact (hcalls (str "b") inStore_b 1 3 [] [] _ _ (helloCall_eq _ _ _)).1 hok hends.2.1 _ 1 false
    (str "hello") .self hends.2.2 (congrFun hfile 1)

/-- The call is cut off by the bound on the depth of directories. -/
def endsOutOfFuel {α : Type} : Except OptimiseStop α → Bool
  | .error .outOfFuel => true
  | _ => false

/-- A call that throws leaves files as they are: here another process has created a link under the
temporary name. -/
theorem not_shared_of_EEXIST :
    ¬ ∀ (cfg : StoreConfig) (sha256 : Str → Str) (canLinkSymlink : Bool) (s s' : OptimiseState),
      (∀ s, (sha256 s).length = 32) → CollisionFree sha256 s.fs → LinksSound sha256 s.fs →
      OptimiseRun cfg sha256 canLinkSymlink s s' →
      ∀ n, InStore [n] → ∀ pid fuel events rands r s'', optimisePath_ cfg sha256 canLinkSymlink pid
          fuel [] n { s' with events := events, rands := rands } = (r, s'') →
        r ≠ .error .outOfFuel → s''.emlinks = s'.emlinks → ∀ l ino x c, s'.fs.Contains [n] l →
          s'.fs.node l = some (.file ino) → s'.fs.file ino = .regular x false c →
          Shared sha256 s''.fs l := by
  intro hclaim
  have hends : endsOutOfFuel (helloCall (str "b") [.raced 1] (helloCall (str "a") [] helloState).2).1 =
        false ∧
      (helloCall (str "b") [.raced 1] (helloCall (str "a") [] helloState).2).2.emlinks =
        (helloCall (str "a") [] helloState).2.emlinks ∧
      (helloCall (str "a") [] helloState).2.fs.node [str "b"] = some (.file 1) ∧
      (helloCall (str "b") [.raced 1] (helloCall (str "a") [] helloState).2).2.fs.node [str "b"] =
        some (.file 1) ∧
      (helloCall (str "b") [.raced 1] (helloCall (str "a") [] helloState).2).2.fs.node
        (linkLoc helloFileSha256 helloFile) = some (.file 0) := by
    refine ⟨by decide +kernel, by decide +kernel, by decide +kernel, by decide +kernel,
      by decide +kernel⟩
  obtain ⟨hfuel, hcount, hbefore, hafter, hlink⟩ := hends
  have hadv := advances_of_run length_helloFileSha256 collisionFree_helloFiles
    linksSound_helloFiles optimiseRun_helloState
  obtain ⟨i, hi, hshared⟩ := hclaim _ _ _ _ _ length_helloFileSha256 collisionFree_helloFiles
    linksSound_helloFiles optimiseRun_helloState (str "b") inStore_b 1 3 [.raced 1] [] _ _
    (helloCall_eq _ _ _) (fun h => by rw [h] at hfuel; exact Bool.noConfusion hfuel) hcount _ 1 false
    (str "hello") .self hbefore (congrFun hadv.file 1)
  obtain rfl : 1 = i := by simpa using hafter.symm.trans hi
  have hrun : OptimiseRun defaultConfig helloFileSha256 true (helloCall (str "a") [] helloState).2
      (helloCall (str "b") [.raced 1] (helloCall (str "a") [] helloState).2).2 :=
    .call (.refl _) (str "b") inStore_b 1 3 [.raced 1] []
  have hcoll : CollisionFree helloFileSha256 (helloCall (str "a") [] helloState).2.fs := by
    intro i j
    rw [hadv.file]
    exact fun _ => rfl
  have hfile := hadv.trans (advances_of_run length_helloFileSha256 hcoll hadv.sound hrun)
  have hname : (helloCall (str "b") [.raced 1] (helloCall (str "a") [] helloState).2).2.fs.file 1 =
      helloFile := congrFun hfile.file 1
  rw [hname, hlink] at hshared
  cases hshared

end Nix
