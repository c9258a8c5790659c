import NixStore.Derivations.OutputRequests
import NixStore.Lib.Decimal
import NixStore.Lib.FileSystem
import NixStore.Lib.MergedTrees

/-!
# User environments

Model of `buildenv.pl`: a directory with links to the files of packages.  A directory that one package
has is a link to it, until a second package has it too; then it becomes a directory, and the links in it
get the priority that the link had.  The recursion of `createLinks` is bounded by an argument, and so is
the number of rounds in which propagated packages are added.

What Perl itself does is a parameter: the matches of `glob`, which splits a pattern with blanks, and the
comparison of numbers, which is exact from -2^63 up to 2^64 only.
-/

namespace Nix

/-! ### Files -/

/-- What is at a path, when symbolic links are followed. -/
inductive EnvFile where
  | regular (contents : Str)
  /-- A directory, with the names in it. -/
  | directory (names : List Str)

/-- What `buildenv.pl` reads: the file system of the packages, and environment variables. -/
structure EnvFiles where
  file : Path → Option EnvFile
  names_nodup : ∀ {p names}, file p = some (.directory names) → names.Nodup
  isFileName : ∀ {p names}, file p = some (.directory names) → ∀ n ∈ names, IsFileName n
  /-- The paths that match a pattern. -/
  glob : Str → List Path
  /-- The comparison of the numbers that `int` makes of the texts of two integers. -/
  compareNumbers : ℤ → ℤ → Ordering
  /-- `$ENV{"out"}` -/
  out : Path
  /-- `$ENV{"manifest"}` -/
  manifest : Path

namespace EnvFiles

variable (files : EnvFiles)

/-- The names in a directory. -/
def names (path : Path) : List Str :=
  match files.file path with
  | some (.directory names) => names
  | _ => []

/-- The test `-d`. -/
def isDir (path : Path) : Bool :=
  match files.file path with
  | some (.directory _) => true
  | _ => false

end EnvFiles

/-- A name that `*` does not match. -/
def isHidden (name : Str) : Bool := name.head? = some '.'.toUInt8

/-- A match of a pattern in which a dot is any character but a line feed. -/
def matchesPattern : Str → Str → Bool
  | [], [] => true
  | p :: ps, c :: cs =>
    (if p = '.'.toUInt8 then decide (c ≠ 10) else decide (p = c)) && matchesPattern ps cs
  | _, _ => false

/-- A match of a pattern in front of `$`: at the end, or in front of a line feed at the end. -/
def matchesEnd (pattern s : Str) : Bool :=
  matchesPattern pattern (s.drop (s.length - pattern.length)) ||
    (decide (s.getLast? = some 10) &&
      matchesPattern pattern (s.dropLast.drop (s.dropLast.length - pattern.length)))

/-- The files that are not shown in user environments. -/
def specialFiles : List Str :=
  [str "/propagated-build-inputs", str "/nix-support", str "/perllocal.pod", str "/easy-install.pth",
    str "/site.py", str "/site.pyc", str "/info/dir", str "/log"]

/-- The condition under which `createLinks` does nothing. -/
def isSpecial (srcFile : Path) : Bool := specialFiles.any fun pattern => matchesEnd pattern srcFile

/-- What `s/^.*\///` leaves of a path: a dot does not match a line feed. -/
def baseName (srcFile : Path) : Str :=
  (srcFile.takeWhile (· ≠ 10)).rtakeWhile (· ≠ slash) ++ srcFile.dropWhile (· ≠ 10)

/-! ### Links -/

/-- What is in the environment. -/
inductive EnvEntry where
  | directory
  | symlink (target : Path)

/-- What `createLinks` changes.  Places are lists of the names that lead to them from `$out`. -/
structure EnvState where
  out : SortedMap Loc EnvEntry
  priorities : SortedMap Loc ℤ
  symlinks : ℕ

namespace EnvState

/-- A directory without entries. -/
def empty : EnvState := ⟨∅, ∅, 0⟩

/-- Create a link and remember its priority. -/
def symlink (st : EnvState) (srcFile : Path) (dstFile : Loc) (priority : ℤ) : EnvState :=
  ⟨st.out.insert dstFile (.symlink srcFile), st.priorities.insert dstFile priority, st.symlinks + 1⟩

/-- Replace a link by a directory. -/
def mkdir (st : EnvState) (dstFile : Loc) : EnvState :=
  { st with out := st.out.insert dstFile .directory }

/-- The priority of a link; the number of an undefined value is zero. -/
def priority (st : EnvState) (dstFile : Loc) : ℤ := (st.priorities.find? dstFile).getD 0

end EnvState

section

variable (files : EnvFiles)

/-- The text of a place. -/
def EnvFiles.dstText (dstFile : Loc) : Str := files.out ++ subPath dstFile

/-- The body of the loop of `createLinks`; the first argument is the recursive call. -/
def createLink (links : Path → Loc → ℤ → EnvState → Outcome Str EnvState) (dstDir : Loc)
    (priority : ℤ) (st : EnvState) (srcFile : Path) : Outcome Str EnvState :=
  let dstFile := dstDir ++ [baseName srcFile]
  if isSpecial srcFile then .ok st
  else if files.isDir srcFile then
    match st.out.find? dstFile with
    | some .directory => links srcFile dstFile priority st
    | some (.symlink target) =>
      if files.isDir target then do
        let st ← links target dstFile (st.priority dstFile) (st.mkdir dstFile)
        links srcFile dstFile priority st
      else
        .error (str "collission between directory `" ++ srcFile ++ str "' and non-directory `" ++
          target ++ str "'")
    | none => .ok (st.symlink srcFile dstFile priority)
  else
    match st.out.find? dstFile with
    | some .directory => .error (str "error creating link `" ++ files.dstText dstFile ++ str "'")
    | some (.symlink target) =>
      if files.compareNumbers (st.priority dstFile) priority = .eq then
        .error (str "collission between `" ++ srcFile ++ str "' and `" ++ target ++
          str "'; use `nix-env --set-flag priority NUMBER PKGNAME' to change the priority of one of" ++
          str " the conflicting packages\n")
      else if files.compareNumbers (st.priority dstFile) priority = .lt then .ok st
      else .ok (st.symlink srcFile dstFile priority)
    | none => .ok (st.symlink srcFile dstFile priority)

/-- Model of `createLinks`. -/
def createLinks : ℕ → Path → Loc → ℤ → EnvState → Outcome Str EnvState
  | 0, _, _, _, _ => .diverge
  | n + 1, srcDir, dstDir, priority, st =>
    (files.glob (srcDir ++ str "/*")).foldlM (createLink files (createLinks n) dstDir priority) st

end

/-! ### Packages -/

/-- A package that is installed, as it is in `@pkgs`. -/
structure EnvPkg where
  path : Path
  active : Bool
  priority : ℤ

/-- The order in which packages are linked. -/
def EnvPkg.le (files : EnvFiles) (a b : EnvPkg) : Prop :=
  files.compareNumbers a.priority b.priority = .lt ∨
    files.compareNumbers a.priority b.priority = .eq ∧ a.path ≤ b.path

instance decidableEnvPkgLe (files : EnvFiles) (a b : EnvPkg) : Decidable (a.le files b) :=
  inferInstanceAs (Decidable (_ ∨ _))

/-- `%done` and `%postponed` -/
structure EnvQueue where
  done : SortedSet Path
  postponed : SortedSet Path

/-- What `addPkg` changes. -/
structure EnvBuild where
  st : EnvState
  queue : EnvQueue

section

variable (files : EnvFiles)

/-- The packages that a package propagates: the words in the first line of a file of it. -/
def propagatedPkgs (pkgDir : Path) : List Path :=
  match files.file (pkgDir ++ str "/nix-support/propagated-user-env-packages") with
  | some (.regular contents) =>
    let propagated := contents.takeWhile (· ≠ 10)
    tokens isSpace propagated.length propagated
  | _ => []

/-- A package is done, and those that it propagates are postponed, unless they are done. -/
def EnvQueue.add (queue : EnvQueue) (pkgDir : Path) : EnvQueue :=
  let done := queue.done.insert pkgDir
  ⟨done, (propagatedPkgs files pkgDir).foldl
    (fun postponed p => if p ∈ done then postponed else postponed.insert p) queue.postponed⟩

/-- Model of `addPkg`. -/
def addPkg (n : ℕ) (b : EnvBuild) (pkgDir : Path) (priority : ℤ) : Outcome Str EnvBuild :=
  if pkgDir ∈ b.queue.done then .ok b
  else do
    let st ← createLinks files n pkgDir [] priority b.st
    return ⟨st, b.queue.add files pkgDir⟩

/-- Packages with the numbers with which they are linked, one after the other. -/
def addPkgs (n : ℕ) (b : EnvBuild) (pkgs : List (Path × ℤ)) : Outcome Str EnvBuild :=
  pkgs.foldlM (fun b x => addPkg files n b x.1 x.2) b

/-- The postponed packages of a round, in the order of their paths, numbered on. -/
def EnvQueue.round (queue : EnvQueue) (priorityCounter : ℕ) : List (Path × ℤ) :=
  (queue.postponed.keys.zipIdx priorityCounter).map fun x => (x.1, (x.2 : ℤ))

/-- The loop over the postponed packages, with a bound on the number of its rounds. -/
def addPostponed (n : ℕ) : ℕ → ℕ → EnvBuild → Outcome Str EnvBuild
  | 0, _, _ => .diverge
  | k + 1, priorityCounter, b =>
    if b.queue.postponed = ∅ then .ok b
    else do
      let pkgs := b.queue.round priorityCounter
      let b ← addPkgs files n { b with queue := { b.queue with postponed := ∅ } } pkgs
      addPostponed n k (priorityCounter + pkgs.length) b

/-- The packages that the user has installed, in the order in which they are linked. -/
def explicitPkgs (pkgs : List EnvPkg) : List (Path × ℤ) :=
  ((pkgs.insertionSort (EnvPkg.le files)).filter EnvPkg.active).map fun pkg => (pkg.path, pkg.priority)

/-- The place of the link to the manifest. -/
def manifestFile : Loc := [str "manifest.nix"]

/-- Model of `buildenv.pl`, with a bound for its recursion and one for its rounds. -/
def buildEnv (n k : ℕ) (pkgs : List EnvPkg) : Outcome Str EnvState := do
  let b ← addPkgs files n ⟨.empty, ∅, ∅⟩ (explicitPkgs files pkgs)
  let b ← addPostponed files n k 1000 b
  if (b.st.out.find? manifestFile).isSome then .error (str "cannot create manifest")
  else return { b.st with out := b.st.out.insert manifestFile (.symlink files.manifest) }

end

end Nix
