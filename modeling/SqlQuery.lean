import SqlQuery.Main
import SqlQuery.Proofs.Join.Growth
import SqlQuery.Proofs.Join.Numbering
import SqlQuery.Proofs.Join.Resolution
import SqlQuery.Proofs.Join.Multigraph
import SqlQuery.Proofs.Join.Position
import SqlQuery.Proofs.Join.Reversal
import SqlQuery.Proofs.Join.Placement
import SqlQuery.Proofs.Join.Shape
import SqlQuery.Proofs.Join.Least
import SqlQuery.Proofs.Join.Culprit
import SqlQuery.Proofs.Join.Meaning
import SqlQuery.Proofs.Join.Inner
import SqlQuery.Proofs.Join.Deferral
import SqlQuery.Proofs.Join.Stray
import SqlQuery.Proofs.Query.Validity
import SqlQuery.Proofs.Query.Source
import SqlQuery.Proofs.Join.Renaming
import SqlQuery.Proofs.Join.KeyOrder
import SqlQuery.Proofs.Query.Identity
import SqlQuery.Proofs.Record.Fields
import SqlQuery.Proofs.Text.Decimal
import SqlQuery.Proofs.Text.Blank
import SqlQuery.Proofs.Text.Lines
import SqlQuery.Proofs.Record.Content
import SqlQuery.Proofs.Record.Line
import SqlQuery.Proofs.Record.RoundTrip
import SqlQuery.Proofs.Record.Plain
import SqlQuery.Proofs.Record.Recovery
import SqlQuery.Proofs.Query.Layout
import SqlQuery.Proofs.CommandLine.Failure
import SqlQuery.Proofs.CommandLine.Inputs
import SqlQuery.Proofs.CommandLine.Arguments
import SqlQuery.Proofs.CommandLine.Run
import SqlQuery.Proofs.Dialect.Registry
import SqlQuery.Proofs.Query.Verdict
import SqlQuery.Proofs.Query.Outcome
import SqlQuery.Proofs.Query.Exposure
import SqlQuery.Proofs.Join.ByReference
import SqlQuery.Proofs.Record.Grammar
import SqlQuery.Proofs.Record.Ambiguity
import SqlQuery.Proofs.Record.RowLimit
import SqlQuery.Proofs.Record.Column
import SqlQuery.Proofs.Dialect.Equality
import SqlQuery.Proofs.CommandLine.Decomposition
import SqlQuery.Proofs.CommandLine.Unsigned
import SqlQuery.Proofs.CommandLine.Agreement
import SqlQuery.Proofs.CommandLine.LimitOption
