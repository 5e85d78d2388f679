import Ratect.Text
import Ratect.Expressions
import Ratect.ExpressionGrammar
import Ratect.PostOrder
import Ratect.Interrupt
import Ratect.Tasks
import Ratect.Prerequisites
import Ratect.TaskOrder
import Ratect.Transition
import Ratect.Fanout
import Ratect.FanoutInvariant
import Ratect.FanoutProperties
import Ratect.FanoutFailures
import Ratect.Containers
import Ratect.Startup
import Ratect.FanoutRules
import Ratect.StartupScripts
import Ratect.Execution
import Ratect.FailFast
import Ratect.Cleanup
import Ratect.StopOrder
import Ratect.CleanupInvariant
import Ratect.CleanupOrder
import Ratect.SignalLadder
import Ratect.CleanupOutcome
import Ratect.CleanupComplete
import Ratect.Paths
import Ratect.Loop
import Ratect.IndexMap
import Ratect.Configuration
import Ratect.IncludeTrust
import Ratect.Includes
import Ratect.LoadedConfig
import Ratect.IncludeInvariant
import Ratect.IncludeGraph
import Ratect.BuildAttribution
import Ratect.BuildOutput
import Ratect.BundleTrust
import Ratect.LoadMerge
import Ratect.DepthFirst
import Ratect.Completion
import Ratect.Inheritance
import Ratect.ExtendsChain
import Ratect.HostPaths
import Ratect.Evaluation
import Ratect.FieldRules
import Ratect.CommandLine
import Ratect.ProjectRules
import Ratect.ProjectLoad
import Ratect.HealthCheckScript
import Ratect.HealthWait
import Ratect.BuildCancels
import Ratect.IdentityHome
import Ratect.SshAgent
import Ratect.Durations
import Ratect.PathConfinement
import Ratect.Literals
import Ratect.LineBuffer
import Ratect.LineRule
import Ratect.LiteralEscaping
import Ratect.Binds
import Ratect.CacheStore
import Ratect.CacheNames
import Ratect.QuietListing
import Ratect.Leftovers
import Ratect.NetworkOwner
import Ratect.ProjectRun
import Ratect.DependencyGraph
import Ratect.Companions
import Ratect.HealthCheckGraph
import Ratect.FileTree
import Ratect.RealPaths
import Ratect.FileWrites
import Ratect.MountPoints
import Ratect.ColonFile
import Ratect.Passwd
import Ratect.PasswdHome
import Ratect.AdditionalUsers
import Ratect.Channel
import Ratect.Stdin
import Ratect.ExitCode
import Ratect.Reporting
import Ratect.Framing
import Ratect.DisplayOrder
import Ratect.EntryLock
import Ratect.EntryLockInvariant
import Ratect.GitIncludeCache
import Ratect.Loggers
import Ratect.FancyLogger
import Ratect.ConsoleSafety
import Ratect.FitRow
import Ratect.TerminalSafety
import Ratect.GlobLanguage
import Ratect.GroupedRegex
import Ratect.IgnoreVerdict
import Ratect.IgnoreFile
import Ratect.ImageReference
import Ratect.ByteSize
import Ratect.Ports
import Ratect.Lines
import Ratect.ListeningSockets
import Ratect.ConversionHeader
import Ratect.ReferenceParsers
import Ratect.BuildContext
import Ratect.EditDistance
import Ratect.Suggestions
import Ratect.Remotes
import Ratect.ExpressionFields
import Ratect.TomlReaders
import Ratect.OlderReferences
import Ratect.WrittenForExpressions
import Ratect.Calls
import Ratect.CreatedContainer
import Ratect.ApplyIdentity
import Ratect.FromRoot
import Ratect.IdentityLayer
import Ratect.Terminal
import Ratect.LiveDisplay
import Ratect.DisplayEvents
import Ratect.DisplayRuns
import Ratect.DependencyLines
import Ratect.KeyOrder
import Ratect.FileNames
import Ratect.ConversionChecks
import Ratect.Conversion
import Ratect.ConversionLookups
import Ratect.ConversionPlaces
import Ratect.ConversionOutcome
import Ratect.Simulation
import Ratect.ConvertedFiles
import Ratect.ConvertedIncludes
import Ratect.ConvertedLoad
import Ratect.ConvertedConfig
import Ratect.ConvertedProject
import Ratect.ContainerWrites
import Ratect.IdentityLinks
