import NixStore.Lib.SortedMap
import NixStore.Lib.Bytes
import NixStore.Lib.Decimal

/-!
# Profiles

Model of `profiles.cc` and of the commands of `nix-env` that change a profile.  The directory of the
profile is a map from names to the targets of symbolic links; the profile is one of the links, and
points to another one, a generation, which points to a user environment.  Processes run commands, and
take turns at every access to the directory.

A process takes the lock on the profile when no other one has it.  What a process throws away (a
command that fails, a dry run) is an exit at any moment; the links that it has created stay.  The
order in which `readDirectory` lists the names, whether a user environment has a `manifest.nix`, the
outcome of a build and the random part of the name of a temporary link are chosen by the run.

The evaluator keeps the value of a file under its path in `fileEvalCache`, as long as the process
runs.  The manifest is looked up under the path of the profile, so a process reads at most one.
-/

namespace Nix

/-! ### Names -/

/-- Model of `find` for strings. -/
def findString (t : Str) : Str → Option ℕ
  | [] => if t = [] then some 0 else none
  | c :: s => if t.isPrefixOf (c :: s) then some 0 else (findString t s).map (· + 1)

/-- Model of `parseName`. -/
def parseName (profileName name : Str) : Option ℕ :=
  if name.take (profileName.length + 1) ≠ profileName ++ str "-" then none
  else
    let s := name.drop (profileName.length + 1)
    match findString (str "-link") s with
    | none => none
    | some p =>
      match string2Int (s.take p) with
      | some n => if n ≥ 0 then some n.toNat else none
      | none => none

/-- Model of `makeName`, in the directory of the profile; the number is an `unsigned int`. -/
def makeName (profileName : Str) (num : ℕ) : Str :=
  profileName ++ str "-" ++ decimal (num % 2 ^ 32) ++ str "-link"

/-- The name of the temporary link of `createSymlink`. -/
def tempLink (link : Str) (pid rand : ℕ) : Str :=
  link ++ str ".tmp-" ++ decimal pid ++ str "-" ++ decimal rand

/-- The name of the temporary link of `switchLink`. -/
def newLink (profileName : Str) : Str := str ".new_" ++ profileName

/-- Model of `Generation`, without the time. -/
structure Generation where
  number : ℕ
  name : Str
deriving DecidableEq

/-- The order of `cmpGensByNumber`. -/
def numberLE (a b : Generation) : Prop := a.number ≤ b.number

instance (a b : Generation) : Decidable (numberLE a b) :=
  inferInstanceAs (Decidable (a.number ≤ b.number))

/-- The generations among the names of a directory, as `findGenerations` sorts them. -/
def findGenerations (profileName : Str) (names : List Str) : List Generation :=
  (names.filterMap fun name =>
    (parseName profileName name).map fun n => ⟨n, name⟩).insertionSort numberLE

/-- The number that `createGeneration` starts from. -/
def lastNumber (gens : List Generation) : ℕ :=
  match gens.getLast? with
  | some gen => gen.number
  | none => 0

/-! ### Commands -/

/-- What an update knows about the profile. -/
structure Basis where
  /-- `lockToken`, the target of the profile. -/
  token : Str
  /-- The user environment in which `manifest.nix` was looked for. -/
  seen : Option Path
  /-- The user environment whose manifest was read, or was in the cache. -/
  base : Option Path
deriving DecidableEq

/-- Why a process creates a generation or switches the profile. -/
inductive Cause where
  /-- The commands that change what is installed. -/
  | update (basis : Basis)
  /-- `--set` -/
  | set
  /-- `--switch-generation` and `--rollback` -/
  | switchGeneration
deriving DecidableEq

/-- `prevGen` -/
def prevGen : ℤ := -2

/-- An argument of `--delete-generations`. -/
inductive DeleteArg where
  | old
  | number (n : ℕ)
deriving DecidableEq

/-- The commands that change a profile. -/
inductive ProfileCommand where
  /-- `--install`, `--uninstall`, `--upgrade` and `--set-flag` -/
  | update
  /-- `--set`, with the output path of the derivation. -/
  | set (outPath : Path)
  | switchGeneration (dstGen : ℤ)
  | deleteGenerations (args : List DeleteArg)
deriving DecidableEq

/-- Where a process is.  In an update, `cache` is the user environment whose `manifest.nix` is in
`fileEvalCache`. -/
inductive ProfilePhase where
  | idle
  /-- At the top of the loop of an update. -/
  | updating (cache : Option Path)
  | tokenRead (token : Str) (cache : Option Path)
  | manifestFound (token : Str) (seen : Option Path) (cache : Option Path)
  | manifestMissing (token : Str) (seen : Option Path) (cache : Option Path)
  | building (basis : Basis) (cache : Option Path)
  | locking (basis : Basis) (outPath : Path) (cache : Option Path)
  | locked (basis : Basis) (outPath : Path) (cache : Option Path)
  /-- In `createGeneration`. -/
  | listing (cause : Cause) (outPath : Path)
  | linking (cause : Cause) (outPath : Path) (num : ℕ)
  | linked (cause : Cause) (num : ℕ) (temp : Str)
  /-- In `switchLink`. -/
  | switchStart (cause : Cause) (target : Str)
  | switching (cause : Cause) (target : Str)
  | finishing
  | switchLocking (dstGen : ℤ)
  | switchLocked (dstGen : ℤ)
  | switchListed (dstGen : ℤ) (gens : List Generation)
  | deleteLocking (args : List DeleteArg)
  | deleteLocked (args : List DeleteArg)
  | deleteListed (args : List DeleteArg) (gens : List Generation)
  | deleting (nums : List ℕ)
deriving DecidableEq

/-- The beginning of a command. -/
def ProfileCommand.begin : ProfileCommand → ProfilePhase
  | .update => .updating none
  | .set outPath => .listing .set outPath
  | .switchGeneration dstGen => .switchLocking dstGen
  | .deleteGenerations args => .deleteLocking args

/-- The processes, the directory of the profile, and who has the lock on the profile. -/
structure ProfileState where
  links : SortedMap Str Path
  lock : Option ℕ
  procs : ℕ → ProfilePhase

/-- What a process does next. -/
inductive ProfileAction where
  | start (command : ProfileCommand)
  | next
  /-- `queryInstSources` reads the manifest of the same profile, as `--from-profile` can ask it to. -/
  | source
  /-- Whether there is a `manifest.nix`. -/
  | look (found : Bool)
  /-- The outcome of the build of the new user environment. -/
  | build (outPath : Path)
  /-- The names in the directory, in the order in which they are listed. -/
  | list (names : List Str)
  /-- The random part of the name of a temporary link. -/
  | link (rand : ℕ)
  | exit
deriving DecidableEq

namespace ProfileState

variable (profileName : Str)

/-- Model of `optimisticLockProfile`: the target of the profile. -/
def token (s : ProfileState) : Str := (s.links.find? profileName).getD []

/-- The user environment that the profile leads to. -/
def userEnv (s : ProfileState) : Option Path := (s.links.find? profileName).bind s.links.find?

/-- Model of `evalFile` for the `manifest.nix` of the profile: the user environment that the value comes
from. -/
def evalManifest (s : ProfileState) (cache : Option Path) : Option Path :=
  match cache with
  | some env => some env
  | none => s.userEnv profileName

/-- The number of the current generation in `findGenerations`. -/
def curGen (s : ProfileState) : ℤ :=
  match (s.links.find? profileName).bind (parseName profileName) with
  | some n => n
  | none => -1

/-- Let a process go on. -/
def goto (s : ProfileState) (p : ℕ) (phase : ProfilePhase) : ProfileState :=
  { s with procs := Function.update s.procs p phase }

/-- Change the links. -/
def setLinks (s : ProfileState) (links : SortedMap Str Path) : ProfileState :=
  { s with links := links }

/-- The lock when a process does not need it any more. -/
def unlock (s : ProfileState) (p : ℕ) : ProfileState :=
  { s with lock := if s.lock = some p then none else s.lock }

/-- Take the lock. -/
def acquire (s : ProfileState) (p : ℕ) (phase : ProfilePhase) : Option ProfileState :=
  if s.lock = none then some ({ s with lock := some p }.goto p phase) else none

end ProfileState

/-- The generation that `switchGeneration` chooses: the last one that fits. -/
def chooseGeneration (dstGen curGen : ℤ) (gens : List Generation) : Option Generation :=
  gens.reverse.find? fun g =>
    (dstGen = prevGen ∧ (g.number : ℤ) < curGen) ∨ (dstGen ≥ 0 ∧ (g.number : ℤ) = dstGen)

/-- The numbers of the generations that `opDeleteGenerations` deletes. -/
def numbersToDelete (args : List DeleteArg) (curGen : ℤ) (gens : List Generation) : List ℕ :=
  args.flatMap fun
    | .old => (gens.filter fun g => (g.number : ℤ) ≠ curGen).map (·.number)
    | .number n => if gens.any fun g => g.number = n then [n] else []

/-- Model of `rename`. -/
def renameLink (links : SortedMap Str Path) (old new : Str) : Option (SortedMap Str Path) :=
  match links.find? old with
  | some target => some ((links.erase old).insert new target)
  | none => none

namespace ProfileState

/-- A process goes on, if it can. -/
def step (profileName : Str) (p : ℕ) (a : ProfileAction) (s : ProfileState) :
    Option ProfileState :=
  match a, s.procs p with
  | .start c, .idle => some (s.goto p c.begin)
  | .exit, .idle => none
  | .exit, _ => some ((s.unlock p).goto p .idle)
  | .source, .updating cache => some (s.goto p (.updating (s.evalManifest profileName cache)))
  | .next, .updating cache => some (s.goto p (.tokenRead (s.token profileName) cache))
  | .look true, .tokenRead token cache =>
    if s.userEnv profileName = none then none
    else some (s.goto p (.manifestFound token (s.userEnv profileName) cache))
  | .look false, .tokenRead token cache =>
    some (s.goto p (.manifestMissing token (s.userEnv profileName) cache))
  | .next, .manifestFound token seen cache => do
    let base ← s.evalManifest profileName cache
    return s.goto p (.building ⟨token, seen, some base⟩ (some base))
  -- the old textual manifest, or nothing
  | .next, .manifestMissing token seen cache =>
    some (s.goto p (.building ⟨token, seen, s.userEnv profileName⟩ cache))
  | .source, .building basis cache =>
    some (s.goto p (.building basis (s.evalManifest profileName cache)))
  | .build outPath, .building basis cache => some (s.goto p (.locking basis outPath cache))
  | .next, .locking basis outPath cache => s.acquire p (.locked basis outPath cache)
  | .next, .locked basis outPath cache =>
    if s.token profileName = basis.token then some (s.goto p (.listing (.update basis) outPath))
    else some ((s.unlock p).goto p (.updating cache))
  | .list names, .listing cause outPath =>
    if names.Perm s.links.keys then
      some (s.goto p (.linking cause outPath (lastNumber (findGenerations profileName names))))
    else none
  | .link rand, .linking cause outPath num =>
    let temp := tempLink (makeName profileName (num + 1)) p rand
    if temp ∈ s.links then none
    else some ((s.setLinks (s.links.insert temp outPath)).goto p (.linked cause num temp))
  | .next, .linked cause num temp => do
    let generation := makeName profileName (num + 1)
    let links ← renameLink s.links temp generation
    return (s.setLinks links).goto p (.switchStart cause generation)
  | .next, .switchStart cause target =>
    if newLink profileName ∈ s.links then none
    else some ((s.setLinks (s.links.insert (newLink profileName) target)).goto p
      (.switching cause target))
  | .next, .switching _ _ => do
    let links ← renameLink s.links (newLink profileName) profileName
    return (s.setLinks links).goto p .finishing
  | .next, .finishing => some ((s.unlock p).goto p .idle)
  | .next, .switchLocking dstGen => s.acquire p (.switchLocked dstGen)
  | .list names, .switchLocked dstGen =>
    if names.Perm s.links.keys then
      some (s.goto p (.switchListed dstGen (findGenerations profileName names)))
    else none
  | .next, .switchListed dstGen gens =>
    match chooseGeneration dstGen (s.curGen profileName) gens with
    | some gen => some (s.goto p (.switchStart .switchGeneration gen.name))
    | none => none
  | .next, .deleteLocking args => s.acquire p (.deleteLocked args)
  | .list names, .deleteLocked args =>
    if names.Perm s.links.keys then
      some (s.goto p (.deleteListed args (findGenerations profileName names)))
    else none
  | .next, .deleteListed args gens =>
    some (s.goto p (.deleting (numbersToDelete args (s.curGen profileName) gens)))
  | .next, .deleting (num :: nums) =>
    let generation := makeName profileName num
    if generation ∈ s.links then
      some ((s.setLinks (s.links.erase generation)).goto p (.deleting nums))
    else none
  | .next, .deleting [] => some ((s.unlock p).goto p .idle)
  | _, _ => none

/-- Steps of processes, one after the other. -/
def run (profileName : Str) : List (ℕ × ProfileAction) → ProfileState → Option ProfileState
  | [], s => some s
  | (p, a) :: rest, s => (s.step profileName p a).bind (run profileName rest)

/-- The links are there, and no process does anything. -/
def initial (links : SortedMap Str Path) : ProfileState := ⟨links, none, fun _ => .idle⟩

end ProfileState

end Nix
