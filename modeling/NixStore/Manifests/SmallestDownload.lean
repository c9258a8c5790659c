import NixStore.Lib.Parser
import NixStore.Lib.Bytes
import NixStore.Lib.ShortestPaths

/-!
# The cheapest way to download a path

Model of `computeSmallestDownload` of `download-using-manifests.pl`.  A graph of the paths that may
contribute to a path is discovered backwards from it; a shortest path in this graph is a sequence of
downloads and patches.
-/

namespace Nix

/-! ### The graph -/

/-- A row of the table of patches. -/
structure PatchRow where
  storePath : Str
  basePath : Str
  baseHash : Str
  url : Str
  size : ℕ
deriving DecidableEq

/-- A row of the table of NAR files. -/
structure NarRow where
  storePath : Str
  url : Str
  size : Option ℕ
deriving DecidableEq

/-- The manifests and the store. -/
structure DownloadEnv where
  patches : List PatchRow
  nars : List NarRow
  isValidPath : Str → Bool
  /-- The hash of a valid path by an algorithm, as `queryPathHash` and `hashPath` give it. -/
  pathHash : Str → Str → Str

/-- The field `info` of an edge, with its type. -/
inductive EdgeInfo where
  | present
  | patch (patch : PatchRow)
  | narfile (narFile : NarRow)
deriving DecidableEq

/-- An edge of the graph. -/
structure DownloadEdge where
  start : Str
  dest : Str
  weight : ℕ
  info : EdgeInfo
deriving DecidableEq

/-- The special node. -/
def startNode : Str := str "start"

/-- Model of `%graph`, less the labels. -/
structure DownloadGraph where
  nodes : List Str
  edges : List DownloadEdge

/-- Model of `addNode`. -/
def DownloadGraph.addNode (g : DownloadGraph) (u : Str) : DownloadGraph :=
  if u ∈ g.nodes then g else { g with nodes := g.nodes ++ [u] }

/-- Model of `addEdge`. -/
def DownloadGraph.addEdge (g : DownloadGraph) (e : DownloadEdge) : DownloadGraph :=
  { g.addNode e.start with edges := g.edges ++ [e] }

/-- The graph with its weights. -/
def DownloadGraph.weighted (g : DownloadGraph) : WeightedGraph Str DownloadEdge where
  edges u := g.edges.filter fun e => e.start = u
  source := DownloadEdge.start
  target := DownloadEdge.dest
  weight := DownloadEdge.weight
  source_of_mem := fun he => of_decide_eq_true (List.mem_filter.mp he).2

/-- Model of `parseHash`: the name of an algorithm and a hash, split at the last colon that has something
on both sides. -/
def DownloadEnv.parseHash (hash : Str) : Str × Str :=
  match (List.range hash.length).reverse.find? fun i =>
      0 < i ∧ i + 1 < hash.length ∧ hash[i]? = some ':'.toUInt8 with
  | some i => (hash.take i, hash.drop (i + 1))
  | none => (str "md5", hash)

/-- A patch to a valid path is used only if the path has the hash that the patch is for. -/
def DownloadEnv.canApply (env : DownloadEnv) (patch : PatchRow) : Bool :=
  !env.isValidPath patch.basePath ||
    env.pathHash (DownloadEnv.parseHash patch.baseHash).1 patch.basePath =
      (DownloadEnv.parseHash patch.baseHash).2

/-- The edge for a path that is present. -/
def presentEdge (u : Str) : DownloadEdge := ⟨startNode, u, 0, .present⟩

/-- The edge for a patch. -/
def patchEdge (patch : PatchRow) : DownloadEdge :=
  ⟨patch.basePath, patch.storePath, patch.size, .patch patch⟩

/-- The weight of a NAR file.  Some arbitrary size is assumed if it is not known, that is, undefined or
0. -/
def narWeight (size : Option ℕ) : ℕ := if size.getD 0 = 0 then 1000000000 else size.getD 0

/-- The edge for a NAR file. -/
def narEdge (narFile : NarRow) : DownloadEdge :=
  ⟨startNode, narFile.storePath, narWeight narFile.size, .narfile narFile⟩

/-- The turn of the first loop for a path that is not done: the graph, and what is added to the queue. -/
def DownloadEnv.explore (env : DownloadEnv) (u : Str) (g : DownloadGraph) (queue : List Str) :
    DownloadGraph × List Str :=
  let g := g.addNode u
  if env.isValidPath u then (g.addEdge (presentEdge u), queue)
  else
    let st := (env.patches.filter fun patch => patch.storePath = u).foldl (fun st patch =>
      if env.canApply patch then (st.1.addEdge (patchEdge patch), st.2 ++ [patch.basePath])
      else st) (g, queue)
    ((env.nars.filter fun narFile => narFile.storePath = u).foldl (fun g narFile =>
      g.addEdge (narEdge narFile)) st.1, st.2)

/-- The first loop: discovers the graph backwards. -/
def DownloadEnv.discover (env : DownloadEnv) : ℕ → DownloadGraph → List Str → List Str →
    Outcome Str DownloadGraph
  | _, g, _, [] => .ok g
  | 0, _, _, _ => .diverge
  | n + 1, g, done, u :: queue =>
    if u ∈ done then env.discover n g done queue
    else env.discover n (env.explore u g queue).1 (u :: done) (env.explore u g queue).2

/-- The distance of a node that has not been reached. -/
def unreached : ℕ := 999999999999

/-- Model of `computeSmallestDownload`; `keys` gives the keys of a hash in some order. -/
def computeSmallestDownload (env : DownloadEnv) (keys : List Str → List Str) (targetPath : Str) :
    Outcome Str (List DownloadEdge) := do
  let g ← env.discover (env.patches.length + 1) ⟨[startNode], []⟩ [] [targetPath]
  let todo := keys g.nodes
  let labels := g.weighted.dijkstra todo (WeightedGraph.initialLabels startNode unreached)
  if labels.pred targetPath = none then return []
  else
    match g.weighted.retrieve startNode labels todo.length targetPath with
    | some path => return path
    | none => .diverge

/-! ### Plans -/

/-- A step of a plan: a path that is present, a NAR file, or a patch that can be applied. -/
inductive IsPlanStep (env : DownloadEnv) (canApply : PatchRow → Bool) : DownloadEdge → Prop
  | present {u : Str} (h : env.isValidPath u = true) : IsPlanStep env canApply (presentEdge u)
  | narfile {narFile : NarRow} (h : narFile ∈ env.nars) : IsPlanStep env canApply (narEdge narFile)
  | patch {patch : PatchRow} (h : patch ∈ env.patches) (hcan : canApply patch = true) :
    IsPlanStep env canApply (patchEdge patch)

/-- The steps, read backwards, lead from the start to a path. -/
inductive Produces (env : DownloadEnv) (canApply : PatchRow → Bool) : Str → List DownloadEdge → Prop
  | nil : Produces env canApply startNode []
  | cons {e : DownloadEdge} {path : List DownloadEdge} (he : IsPlanStep env canApply e)
    (hpath : Produces env canApply e.start path) : Produces env canApply e.dest (e :: path)

/-- The total weight of a plan. -/
def totalWeight (path : List DownloadEdge) : ℕ := (path.map DownloadEdge.weight).sum

end Nix
