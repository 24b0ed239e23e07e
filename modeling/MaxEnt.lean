import MaxEnt.BigEndian
import MaxEnt.Binary64.Basic
import MaxEnt.Binary64.Rounding
import MaxEnt.Binary64.Shortest
import MaxEnt.Codec.Binary
import MaxEnt.Codec.Error
import MaxEnt.Codec.Field
import MaxEnt.Codec.ModelFile
import MaxEnt.Codec.PlainText
import MaxEnt.Codec.Reader
import MaxEnt.Codec.Writer
import MaxEnt.Corpus
import MaxEnt.Document.Basic
import MaxEnt.Document.File
import MaxEnt.Drain
import MaxEnt.Evaluation.Basic
import MaxEnt.Evaluation.Distribution
import MaxEnt.Event.Basic
import MaxEnt.Event.File
import MaxEnt.Event.HashStream
import MaxEnt.Event.Line
import MaxEnt.Files.Glob
import MaxEnt.Files.Path
import MaxEnt.Files.Tree
import MaxEnt.Gzip.Basic
import MaxEnt.Gzip.Bits
import MaxEnt.Gzip.Crc32
import MaxEnt.Gzip.Inflate
import MaxEnt.Gzip.PrefixCode
import MaxEnt.Hex
import MaxEnt.Index.Basic
import MaxEnt.Index.Indexer
import MaxEnt.Index.Spool
import MaxEnt.Job.Basic
import MaxEnt.Job.Metrics
import MaxEnt.Job.Program
import MaxEnt.Json.Basic
import MaxEnt.Json.Parser
import MaxEnt.Json.Printer
import MaxEnt.Main
import MaxEnt.Md5
import MaxEnt.Model.Basic
import MaxEnt.Model.Equality
import MaxEnt.Model.Layout
import MaxEnt.Model.Probability
import MaxEnt.Numeral.Integer
import MaxEnt.Numeral.Real
import MaxEnt.Parameters.Basic
import MaxEnt.Parameters.Conversion
import MaxEnt.Parameters.Held
import MaxEnt.Parameters.Literal
import MaxEnt.Parameters.PropertiesFile
import MaxEnt.Proofs.BigEndian
import MaxEnt.Proofs.Binary64.Rounding
import MaxEnt.Proofs.Binary64.Shortest
import MaxEnt.Proofs.Binary64.Sign
import MaxEnt.Proofs.Codec.Binary
import MaxEnt.Proofs.Codec.Canonical
import MaxEnt.Proofs.Codec.Cutting
import MaxEnt.Proofs.Codec.Framing
import MaxEnt.Proofs.Codec.GroupToken
import MaxEnt.Proofs.Codec.PlainText
import MaxEnt.Proofs.Codec.Reading
import MaxEnt.Proofs.Codec.RoundTrip
import MaxEnt.Proofs.Codec.Spending
import MaxEnt.Proofs.Codec.Stopping
import MaxEnt.Proofs.Codec.Totality
import MaxEnt.Proofs.Codec.Truncation
import MaxEnt.Proofs.Codec.Watching
import MaxEnt.Proofs.Codec.Writing
import MaxEnt.Proofs.Document.File
import MaxEnt.Proofs.Evaluation.Consistency
import MaxEnt.Proofs.Evaluation.Counting
import MaxEnt.Proofs.Evaluation.Figures
import MaxEnt.Proofs.Evaluation.Verdict
import MaxEnt.Proofs.Event.Digest
import MaxEnt.Proofs.Event.File
import MaxEnt.Proofs.Event.HashStream
import MaxEnt.Proofs.Event.Reading
import MaxEnt.Proofs.Event.RealValued
import MaxEnt.Proofs.Event.Requests
import MaxEnt.Proofs.Except
import MaxEnt.Proofs.Files.Gains
import MaxEnt.Proofs.Files.Glob
import MaxEnt.Proofs.Files.Path
import MaxEnt.Proofs.Files.Tree
import MaxEnt.Proofs.Hex
import MaxEnt.Proofs.Index.Cutoff
import MaxEnt.Proofs.Index.Decoding
import MaxEnt.Proofs.Index.FirstSeen
import MaxEnt.Proofs.Index.Kept
import MaxEnt.Proofs.Index.Merge
import MaxEnt.Proofs.Index.Order
import MaxEnt.Proofs.Index.Reading
import MaxEnt.Proofs.Index.RealValues
import MaxEnt.Proofs.Index.Reindexing
import MaxEnt.Proofs.Index.Renumbering
import MaxEnt.Proofs.Index.Seen
import MaxEnt.Proofs.Index.Sorted
import MaxEnt.Proofs.Index.Sound
import MaxEnt.Proofs.Index.Spool
import MaxEnt.Proofs.Index.Tally
import MaxEnt.Proofs.Index.Unsorted
import MaxEnt.Proofs.Job.Program
import MaxEnt.Proofs.Job.Run
import MaxEnt.Proofs.Json.Number
import MaxEnt.Proofs.Json.Reading
import MaxEnt.Proofs.Json.RoundTrip
import MaxEnt.Proofs.Json.Scalar
import MaxEnt.Proofs.Json.Shown
import MaxEnt.Proofs.Json.String
import MaxEnt.Proofs.Model.Best
import MaxEnt.Proofs.Model.Checks
import MaxEnt.Proofs.Model.Comparison
import MaxEnt.Proofs.Model.Grouping
import MaxEnt.Proofs.Model.Layout
import MaxEnt.Proofs.Model.Mapped
import MaxEnt.Proofs.Model.Order
import MaxEnt.Proofs.Model.Scores
import MaxEnt.Proofs.Numeral.Grammar
import MaxEnt.Proofs.Numeral.Integer
import MaxEnt.Proofs.Numeral.Order
import MaxEnt.Proofs.Numeral.Real
import MaxEnt.Proofs.Numeral.Spelling
import MaxEnt.Proofs.Parameters.Conversion
import MaxEnt.Proofs.Parameters.History
import MaxEnt.Proofs.Parameters.Properties
import MaxEnt.Proofs.Parameters.PropertiesFile
import MaxEnt.Proofs.Parameters.Typed
import MaxEnt.Proofs.Store.Attempt
import MaxEnt.Proofs.Store.Failure
import MaxEnt.Proofs.Store.History
import MaxEnt.Proofs.Store.Latest
import MaxEnt.Proofs.Store.Loading
import MaxEnt.Proofs.Store.Metadata
import MaxEnt.Proofs.Store.Moment
import MaxEnt.Proofs.Store.Saving
import MaxEnt.Proofs.Table
import MaxEnt.Proofs.Text.Acceptance
import MaxEnt.Proofs.Text.Ascii
import MaxEnt.Proofs.Text.Breaks
import MaxEnt.Proofs.Text.Lines
import MaxEnt.Proofs.Text.ModifiedUtf8
import MaxEnt.Proofs.Text.Newlines
import MaxEnt.Proofs.Text.Pieces
import MaxEnt.Proofs.Text.Sequence
import MaxEnt.Proofs.Text.Surrogates
import MaxEnt.Proofs.Text.Trim
import MaxEnt.Proofs.Text.Utf8
import MaxEnt.Proofs.Text.Words
import MaxEnt.Proofs.Training.Active
import MaxEnt.Proofs.Training.Agreement
import MaxEnt.Proofs.Training.Checked
import MaxEnt.Proofs.Training.Defined
import MaxEnt.Proofs.Training.Exact
import MaxEnt.Proofs.Training.Examples
import MaxEnt.Proofs.Training.Inference
import MaxEnt.Proofs.Training.Observed
import MaxEnt.Proofs.Training.Operation
import MaxEnt.Proofs.Training.Ordered
import MaxEnt.Proofs.Training.Phases
import MaxEnt.Proofs.Training.Reports
import MaxEnt.Proofs.Training.Session
import MaxEnt.Proofs.Training.Steps
import MaxEnt.Proofs.Training.Success
import MaxEnt.Proofs.Training.Trained
import MaxEnt.Proofs.Training.Validation
import MaxEnt.Proofs.Training.Weights
import MaxEnt.RunSort.Basic
import MaxEnt.RunSort.Merge
import MaxEnt.Scalar
import MaxEnt.Settings
import MaxEnt.Store.Basic
import MaxEnt.Store.Metadata
import MaxEnt.Store.Moment
import MaxEnt.Store.Prediction
import MaxEnt.Table
import MaxEnt.Text.Basic
import MaxEnt.Text.Blank
import MaxEnt.Text.CodeUnit
import MaxEnt.Text.Digit
import MaxEnt.Text.ModifiedUtf8
import MaxEnt.Text.Printable
import MaxEnt.Text.Quoted
import MaxEnt.Text.Utf8
import MaxEnt.TextFile
import MaxEnt.Training.Example
import MaxEnt.Training.Method
import MaxEnt.Training.Scaling
import MaxEnt.Training.Trainer
