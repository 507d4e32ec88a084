import StreamFilter.Ascending
import StreamFilter.CommandLine.Options
import StreamFilter.CommandLine.Run
import StreamFilter.Cube.Basic
import StreamFilter.Cube.Cover
import StreamFilter.Document.Basic
import StreamFilter.Document.Outcome
import StreamFilter.Document.Render
import StreamFilter.Fault
import StreamFilter.Filter.Basic
import StreamFilter.Filter.Connective
import StreamFilter.Filter.Csdl
import StreamFilter.Filter.Fold
import StreamFilter.Filter.Height
import StreamFilter.Filter.Json
import StreamFilter.Filter.Meaning
import StreamFilter.Filter.Merge
import StreamFilter.Filter.Yaml
import StreamFilter.Formula.Basic
import StreamFilter.Formula.Parse
import StreamFilter.Formula.Scan
import StreamFilter.Formula.Token
import StreamFilter.Host
import StreamFilter.Json.Basic
import StreamFilter.Json.Print
import StreamFilter.Json.Read
import StreamFilter.Main
import StreamFilter.Minimize.Basic
import StreamFilter.Minimize.Exact
import StreamFilter.Minimize.Heuristic
import StreamFilter.Minimize.Native
import StreamFilter.Minimize.Program
import StreamFilter.Minimize.Sum
import StreamFilter.Number.Basic
import StreamFilter.Number.Binary64
import StreamFilter.Number.Digits
import StreamFilter.Number.Read
import StreamFilter.Optimize
import StreamFilter.Proofs.Ascending
import StreamFilter.Proofs.Batch
import StreamFilter.Proofs.Cube.Absorption
import StreamFilter.Proofs.Cube.Algebra
import StreamFilter.Proofs.Cube.Order
import StreamFilter.Proofs.Cube.Points
import StreamFilter.Proofs.Cube.Tautology
import StreamFilter.Proofs.EssentialAtoms
import StreamFilter.Proofs.Fault
import StreamFilter.Proofs.Faults
import StreamFilter.Proofs.Filter.Admission
import StreamFilter.Proofs.Filter.Atoms
import StreamFilter.Proofs.Filter.Equivalence
import StreamFilter.Proofs.Filter.Fold
import StreamFilter.Proofs.Filter.Json
import StreamFilter.Proofs.Filter.Leaves
import StreamFilter.Proofs.Filter.Legible
import StreamFilter.Proofs.Filter.Merge
import StreamFilter.Proofs.Filter.Normal
import StreamFilter.Proofs.Filter.Reading
import StreamFilter.Proofs.Filter.Recursion
import StreamFilter.Proofs.Filter.Remains
import StreamFilter.Proofs.Filter.Stable
import StreamFilter.Proofs.Filter.Truth
import StreamFilter.Proofs.Filter.Validation
import StreamFilter.Proofs.Filter.Writing
import StreamFilter.Proofs.FoldOnly
import StreamFilter.Proofs.Formula.Grammar
import StreamFilter.Proofs.Formula.Offsets
import StreamFilter.Proofs.Formula.Polarity
import StreamFilter.Proofs.Formula.RoundTrip
import StreamFilter.Proofs.Formula.Variables
import StreamFilter.Proofs.Minimize.AllPrimes
import StreamFilter.Proofs.Minimize.Exact
import StreamFilter.Proofs.Minimize.Heuristic
import StreamFilter.Proofs.Minimize.Limits
import StreamFilter.Proofs.Minimize.Merging
import StreamFilter.Proofs.Minimize.Native
import StreamFilter.Proofs.Minimize.PrimeCover
import StreamFilter.Proofs.Minimize.PrimeSum
import StreamFilter.Proofs.Minimize.Primes
import StreamFilter.Proofs.Minimize.Sum
import StreamFilter.Proofs.Minimize.Unate
import StreamFilter.Proofs.Optimize
import StreamFilter.Proofs.Outcomes
import StreamFilter.Proofs.Size
import StreamFilter.Proofs.Skeleton.Atoms
import StreamFilter.Proofs.Skeleton.Extract
import StreamFilter.Proofs.Skeleton.Registration
import StreamFilter.Proofs.Skeleton.Renumber
import StreamFilter.Proofs.Skeleton.Restore
import StreamFilter.Proofs.Skeleton.Sharing
import StreamFilter.Proofs.Skeleton.Variables
import StreamFilter.Proofs.Text.Quoted
import StreamFilter.Proofs.Text.WordList
import StreamFilter.Proofs.TwoLevel
import StreamFilter.Proofs.Writing
import StreamFilter.Settings.Basic
import StreamFilter.Settings.Decode
import StreamFilter.Settings.Layer
import StreamFilter.Settings.Load
import StreamFilter.Shorter
import StreamFilter.Skeleton.Extract
import StreamFilter.Skeleton.Restore
import StreamFilter.Skeleton.Variables
import StreamFilter.Text.Blank
import StreamFilter.Text.Duration
import StreamFilter.Text.Escaped
import StreamFilter.Text.Extension
import StreamFilter.Text.Hidden
import StreamFilter.Text.Quoted
import StreamFilter.Text.Slice
import StreamFilter.Text.WordList
import StreamFilter.Vocabulary.Basic
import StreamFilter.Vocabulary.Tables
import StreamFilter.Yaml.Basic
import StreamFilter.Yaml.Block
import StreamFilter.Yaml.Parse
import StreamFilter.Yaml.Print
import StreamFilter.Yaml.Quoted
import StreamFilter.Yaml.Token
import StreamFilter.Yaml.Version11.Scalar
import StreamFilter.Yaml.Version11.Token
import StreamFilter.Yaml.Version11.Value
import StreamFilter.Yaml.Version12.Scalar
import StreamFilter.Yaml.Version12.Token
import StreamFilter.Yaml.Version12.Value
