import NixStore.Lib.Bytes
import NixStore.Derivations.ATerm
import NixStore.Lib.SortedMap
import NixStore.Derivations.Basic
import NixStore.Derivations.RoundTrip
import NixStore.Store.TopoSort
import NixStore.Util.Hash
import NixStore.Store.StorePaths
import NixStore.Store.Database
import NixStore.Lib.Relations
import NixStore.Store.Graph
import NixStore.Store.Registration
import NixStore.Lib.Prog
import NixStore.Store.Gc
import NixStore.Store.GcSteps
import NixStore.Store.GcStates
import NixStore.Store.GcSafety
import NixStore.Store.GcTermination
import NixStore.Store.GcExactness
import NixStore.Store.GcOrder
import NixStore.Lib.FileSystem
import NixStore.Util.Serialise
import NixStore.Util.Archive
import NixStore.Util.NarRoundTrip
import NixStore.Derivations.HashModulo
import NixStore.Derivations.ModuloInputs
import NixStore.Store.CheckOutputs
import NixStore.Build.Goals
import NixStore.Build.Run
import NixStore.Build.GoalGraph
import NixStore.Build.WorkSteps
import NixStore.Build.WorkSpec
import NixStore.Build.Bookkeeping
import NixStore.Build.LoopInvariant
import NixStore.Build.Consistency
import NixStore.Build.ExitStatus
import NixStore.Build.TopGoals
import NixStore.Store.LockExclusion
import NixStore.Store.TempRootsSafety
import NixStore.Store.WorkerStderr
import NixStore.Store.WorkerOps
import NixStore.Store.WorkerWire
import NixStore.Env.ProfileSafety
import NixStore.Util.Base32
import NixStore.Derivations.Termination
import NixStore.Store.References
import NixStore.Store.PathInjectivity
import NixStore.Env.ProfileRuns
import NixStore.Store.OptimiseSafety
import NixStore.Store.PermRootsSafety
import NixStore.Store.GraphQueries
import NixStore.Expr.DerivationInputs
import NixStore.Util.CanonPath
import NixStore.Lib.LinkWalks
import NixStore.Util.ResolveLinks
import NixStore.Expr.VersionOrder
import NixStore.Store.MissingSizes
import NixStore.Store.VerifyStore
import NixStore.Store.GcDryRun
import NixStore.Store.GcReport
import NixStore.Store.GcLimits
import NixStore.Expr.TextContexts
import NixStore.Expr.StringOps
import NixStore.Expr.ContextElems
import NixStore.Expr.ContextSoundness
import NixStore.Env.VersionDiff
import NixStore.Env.Upgrades
import NixStore.Env.Selectors
import NixStore.Expr.Bindings
import NixStore.Expr.EqValues
import NixStore.Expr.GenericClosure
import NixStore.Lib.Lines
import NixStore.Expr.IndentedStrings
import NixStore.Expr.GetDrvs
import NixStore.Expr.AttrPaths
import NixStore.Lib.LineBreaks
import NixStore.Expr.LexerPositions
import NixStore.Lib.Memory
import NixStore.Util.BufferedSink
import NixStore.Util.BufferedSource
import NixStore.Lib.InputStream
import NixStore.Store.ValidityRegistration
import NixStore.Env.GenerationNames
import NixStore.Lib.Passes
import NixStore.Lib.KeyedTables
import NixStore.Manifests.Tables
import NixStore.Manifests.Propagate
import NixStore.Manifests.Format
import NixStore.Manifests.ManifestRoundTrip
import NixStore.Expr.Scopes
import NixStore.Expr.CallFunction
import NixStore.Expr.FormalMatching
import NixStore.Lib.ShortestPaths
import NixStore.Manifests.SmallestDownload
import NixStore.Manifests.CheapestPlan
import NixStore.Derivations.Tokens
import NixStore.Store.OutputStrings
import NixStore.Expr.XmlRoundTrip
import NixStore.Env.UserEnvPriorities
import NixStore.Store.PathForm
import NixStore.Store.AddDump
import NixStore.Util.ArchiveNames
import NixStore.Util.RestoreSafety
import NixStore.Expr.InstantiatedOutputs
import NixStore.Expr.DrvHashesRuns
import NixStore.Build.Delivery
import NixStore.Lib.Procedures
import NixStore.Expr.Syntax
import NixStore.Expr.Machine
import NixStore.Expr.Evaluation
import NixStore.Expr.PrimOps
import NixStore.Expr.StorePrimOps
import NixStore.Expr.Sessions
import NixStore.Expr.Lookups
import NixStore.Expr.ScopeInvariant
import NixStore.Expr.ScopePrimOps
import NixStore.Expr.ScopeStorePrimOps
import NixStore.Expr.LexicalScoping
import NixStore.Expr.ClosedExprs
import NixStore.Lib.DepthFirst
