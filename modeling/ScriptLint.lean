import ScriptLint.Main
import ScriptLint.Proofs.Loading
import ScriptLint.Proofs.Analyses
import ScriptLint.Proofs.Execution
import ScriptLint.Proofs.Invariant
import ScriptLint.Proofs.Closure
import ScriptLint.Proofs.Composition
import ScriptLint.Proofs.Debuggers
import ScriptLint.Proofs.Deleting
import ScriptLint.Proofs.Protocol
import ScriptLint.Proofs.Linking
import ScriptLint.Proofs.Interleaving
import ScriptLint.Proofs.Guards
import ScriptLint.Proofs.Tiling
import ScriptLint.Proofs.RoundTrip
import ScriptLint.Proofs.ShortestWays
import ScriptLint.Proofs.Lockstep
import ScriptLint.Proofs.Reporting
import ScriptLint.Proofs.FailedWrites
import ScriptLint.Proofs.Cycles
import ScriptLint.Proofs.UnusedImports
import ScriptLint.Proofs.Isolation
import ScriptLint.Proofs.Retention
import ScriptLint.Proofs.Markup
import ScriptLint.Proofs.Bounds
import ScriptLint.Proofs.FirstFixes
import ScriptLint.Proofs.Offsets
import ScriptLint.Proofs.Findings
import ScriptLint.Proofs.Composite
import ScriptLint.Proofs.Messages
import ScriptLint.Proofs.BatchBound
import ScriptLint.Proofs.Collecting
import ScriptLint.Proofs.Reordering
import ScriptLint.Proofs.Gathering
import ScriptLint.Proofs.ModuleImports
import ScriptLint.Proofs.Exchange
import ScriptLint.Proofs.Readings
import ScriptLint.Proofs.Erasing
import ScriptLint.Proofs.Pruning
import ScriptLint.Proofs.Thinning
import ScriptLint.Proofs.Surviving
import ScriptLint.Proofs.Rereading
import ScriptLint.Proofs.Settling
import ScriptLint.Proofs.Recutting
import ScriptLint.Proofs.Converging
import ScriptLint.Proofs.Merging
import ScriptLint.Proofs.NamedImports
import ScriptLint.Proofs.Leasing
import ScriptLint.Proofs.Custody
import ScriptLint.Proofs.Deeds
import ScriptLint.Proofs.Folders
import ScriptLint.Proofs.Overlaps
import ScriptLint.Proofs.Inputs
import ScriptLint.Proofs.Rearranging
import ScriptLint.Proofs.Scheduling
import ScriptLint.Proofs.GraphTables
import ScriptLint.Proofs.FoundPaths
import ScriptLint.Proofs.Globs
import ScriptLint.Proofs.IgnoredFolders
import ScriptLint.Proofs.Slicing
import ScriptLint.Proofs.Multipliers
import ScriptLint.Proofs.NormalForms
import ScriptLint.Proofs.TrailingSlashes
import ScriptLint.Proofs.ScriptElements
import ScriptLint.Proofs.ArgumentSpellings
import ScriptLint.Proofs.BracketWords
import ScriptLint.Proofs.Lexing
import ScriptLint.Proofs.SpelledNames
import ScriptLint.Proofs.Alignment
import ScriptLint.Proofs.Pieces
