import RunGrammar.Symbol
import RunGrammar.Rule
import RunGrammar.Failure
import RunGrammar.Grammar.Basic
import RunGrammar.Grammar.Expansion
import RunGrammar.Grammar.Cursor
import RunGrammar.Grammar.Slice
import RunGrammar.Grammar.CommonExtension
import RunGrammar.Grammar.Measures
import RunGrammar.Grammar.Renumbering
import RunGrammar.Text.Runs
import RunGrammar.Text.Chunks
import RunGrammar.Text.RadixSort
import RunGrammar.Text.CountingSort
import RunGrammar.Text.Ascending
import RunGrammar.Text.Storage
import RunGrammar.Text.Sharing
import RunGrammar.Alphabet
import RunGrammar.Alphabet.Table
import RunGrammar.Partition.Adjacency
import RunGrammar.Partition.Basic
import RunGrammar.Partition.Table
import RunGrammar.Compression.Event
import RunGrammar.Compression.Piece
import RunGrammar.Compression.Phase
import RunGrammar.Compression.Rounds
import RunGrammar.Compression.FirstSeen
import RunGrammar.Compression.Dense
import RunGrammar.Compression.Chunked
import RunGrammar.Compression.InPlace
import RunGrammar.Compression.Strategy
import RunGrammar.Bits.Basic
import RunGrammar.Bits.Lemmas
import RunGrammar.Bits.Reader
import RunGrammar.Bits.Field
import RunGrammar.Format.Header
import RunGrammar.Format.Plain
import RunGrammar.Format.Fixed
import RunGrammar.Format.Sorted
import RunGrammar.Format.Choice
import RunGrammar.Decimal.Places
import RunGrammar.Files.Basic
import RunGrammar.Files.Directory
import RunGrammar.CommandLine.Options
import RunGrammar.CommandLine.Job
import RunGrammar.Main
import RunGrammar.Proofs.Failing
import RunGrammar.Proofs.Text.Groups
import RunGrammar.Proofs.Text.Runs
import RunGrammar.Proofs.Text.Largest
import RunGrammar.Proofs.Text.RadixSort
import RunGrammar.Proofs.Text.CountingSort
import RunGrammar.Proofs.Text.Chunks
import RunGrammar.Proofs.Text.Ascending
import RunGrammar.Proofs.Text.Storage
import RunGrammar.Proofs.Text.Sharing
import RunGrammar.Proofs.Grammar.Arena
import RunGrammar.Proofs.Grammar.Lengths
import RunGrammar.Proofs.Grammar.Growth
import RunGrammar.Proofs.Grammar.Editing
import RunGrammar.Proofs.Grammar.Relocation
import RunGrammar.Proofs.Grammar.Reading
import RunGrammar.Proofs.Bits.Packing
import RunGrammar.Proofs.Bits.Reading
import RunGrammar.Proofs.Format.Header
import RunGrammar.Proofs.Format.Exact
import RunGrammar.Proofs.Partition.Adjacencies
import RunGrammar.Proofs.Partition.Greedy
import RunGrammar.Proofs.Compression.Pieces
import RunGrammar.Proofs.Partition.Cut
import RunGrammar.Proofs.Partition.Invariance
import RunGrammar.Proofs.Partition.Table
import RunGrammar.Proofs.Alphabet.Bound
import RunGrammar.Proofs.Alphabet.Letters
import RunGrammar.Proofs.Alphabet.Remapping
import RunGrammar.Proofs.Alphabet.Tables
import RunGrammar.Proofs.Alphabet.Pruning
import RunGrammar.Proofs.Compression.Naming
import RunGrammar.Proofs.Compression.Replacement
import RunGrammar.Proofs.Compression.Stage
import RunGrammar.Proofs.Compression.Progress
import RunGrammar.Proofs.Compression.RuleOrder
import RunGrammar.Proofs.Compression.Simulation
import RunGrammar.Proofs.Compression.FirstSeen
import RunGrammar.Proofs.Compression.Draft
import RunGrammar.Proofs.Compression.Renaming
import RunGrammar.Proofs.Compression.Dense
import RunGrammar.Proofs.Compression.Scans
import RunGrammar.Proofs.Compression.Scanners
import RunGrammar.Proofs.Compression.Chunked
import RunGrammar.Proofs.Compression.Totality
import RunGrammar.Proofs.Compression.Phases
import RunGrammar.Proofs.Compression.ReplacedRuns
import RunGrammar.Proofs.Compression.ReplacedPairs
import RunGrammar.Proofs.Compression.Tiling
import RunGrammar.Proofs.Compression.InPlace
import RunGrammar.Proofs.Compression.Lossless
import RunGrammar.Proofs.Compression.Agreement
import RunGrammar.Proofs.Checked
import RunGrammar.Proofs.Grammar.Slicing
import RunGrammar.Proofs.Grammar.CommonExtension
import RunGrammar.Proofs.Bits.Codes
import RunGrammar.Proofs.Grammar.Renumbering
import RunGrammar.Proofs.Grammar.DepthFirst
import RunGrammar.Proofs.Grammar.SearchStack
import RunGrammar.Proofs.Grammar.Unordered
import RunGrammar.Proofs.Format.Sorted
import RunGrammar.Proofs.Bits.Buffer
import RunGrammar.Proofs.Bits.Bitwise
import RunGrammar.Proofs.Bits.Resuming
import RunGrammar.Proofs.Bits.Careful
import RunGrammar.Proofs.Format.Acceptance
import RunGrammar.Proofs.Compression.Course
import RunGrammar.Proofs.Compression.Unambiguous
import RunGrammar.Proofs.Compression.Live
import RunGrammar.Proofs.Compression.NormalForm
import RunGrammar.Proofs.Compression.Logarithmic
import RunGrammar.Proofs.Bits.Truncation
import RunGrammar.Proofs.Format.Truncation
import RunGrammar.Proofs.Bits.Writing
import RunGrammar.Proofs.Compression.Sessions
import RunGrammar.Proofs.Compression.Relocation
import RunGrammar.Proofs.Grammar.Acyclic
import RunGrammar.Proofs.Grammar.InOrder
import RunGrammar.Proofs.Format.Meaning
import RunGrammar.Proofs.CommandLine.Host
import RunGrammar.Proofs.CommandLine.Job
import RunGrammar.Proofs.Grammar.Iteration
import RunGrammar.Proofs.Bits.Canonical
import RunGrammar.Proofs.Format.Reencoding
import RunGrammar.Proofs.Format.Revalidation
import RunGrammar.Proofs.Grammar.Trees
import RunGrammar.Proofs.Format.Measures
import RunGrammar.Proofs.Compression.Tight
