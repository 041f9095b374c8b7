import LineRegex.Main
import LineRegex.Pattern.Arena
import LineRegex.Proofs.Outcomes
import LineRegex.Proofs.Backtracking
import LineRegex.Proofs.Everywhere
import LineRegex.Proofs.Language
import LineRegex.Proofs.Stopping
import LineRegex.Proofs.Scanning
import LineRegex.Proofs.Lines
import LineRegex.Proofs.Leftmost
import LineRegex.Proofs.Budgets
import LineRegex.Proofs.Cache.Consistency
import LineRegex.Proofs.Cache.Recency
import LineRegex.Proofs.Cache.Accounting
import LineRegex.Proofs.Cache.Linked
import LineRegex.Proofs.Increments
import LineRegex.Proofs.Cache.Transparency
import LineRegex.Proofs.Grammar.Derivation
import LineRegex.Proofs.Grammar.Lexemes
import LineRegex.Proofs.Grammar.Atoms
import LineRegex.Proofs.Grammar.References
import LineRegex.Proofs.Grammar.Acceptance
import LineRegex.Proofs.Grammar.Faults
import LineRegex.Proofs.Grammar.Shape
import LineRegex.Proofs.Listing
import LineRegex.Proofs.Grammar.Refusals
import LineRegex.Proofs.WellFormed
import LineRegex.Proofs.Recognition
import LineRegex.Proofs.PrintedForms
import LineRegex.Proofs.RoundTrip
import LineRegex.Proofs.Replacing
import LineRegex.Proofs.Aborting
import LineRegex.Proofs.Driving
import LineRegex.Proofs.Captures
import LineRegex.Proofs.Bounds
import LineRegex.Proofs.Offsets
import LineRegex.Proofs.Concatenation
import LineRegex.Proofs.Width.Clipping
import LineRegex.Proofs.Width.Matching
import LineRegex.Proofs.Width.Parsing
import LineRegex.Proofs.Width.Agreement
import LineRegex.Proofs.Unrolling
import LineRegex.Proofs.Uncaptured
import LineRegex.Proofs.Wrapping
import LineRegex.Proofs.Grammar.Prefixes
import LineRegex.Proofs.Shifting
import LineRegex.Proofs.WholeText
import LineRegex.Proofs.Ranges.Canonical
import LineRegex.Proofs.Ranges.Complement
import LineRegex.Proofs.Grammar.Brackets
import LineRegex.Proofs.Partition
import LineRegex.Proofs.Templates
import LineRegex.Proofs.OutputModes
import LineRegex.Proofs.CommandLine.Layout
import LineRegex.Proofs.CommandLine.Precedence
import LineRegex.Proofs.Sizes
import LineRegex.Proofs.CommandLine.ExitStatus
import LineRegex.Proofs.Restoring
import LineRegex.Proofs.Interpreter.Agreement
import LineRegex.Proofs.Descent.Progress
import LineRegex.Proofs.Descent.Filling
