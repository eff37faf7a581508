import VirtualGraph.Text.Quoted
import VirtualGraph.Text.Blank
import VirtualGraph.Text.Percent
import VirtualGraph.Text.Numeral
import VirtualGraph.Sql.Comparator
import VirtualGraph.Pattern.Comparison
import VirtualGraph.Algebra.Expression
import VirtualGraph.Algebra.Lexeme
import VirtualGraph.Algebra.Query
import VirtualGraph.Fault
import VirtualGraph.Algebra.Form
import VirtualGraph.Algebra.Reader
import VirtualGraph.Sql.Dialect
import VirtualGraph.Document.Basic
import VirtualGraph.Document.Json
import VirtualGraph.Document.Table
import VirtualGraph.Mapping.Basic
import VirtualGraph.Mapping.Definition
import VirtualGraph.Mapping.Load
import VirtualGraph.Mapping.Register
import VirtualGraph.Bound.Candidate
import VirtualGraph.Bound.Distribution
import VirtualGraph.Block.Basic
import VirtualGraph.Block.Scope
import VirtualGraph.Block.Simplify
import VirtualGraph.Block.Nulls
import VirtualGraph.Block.Revise
import VirtualGraph.Block.Optimise
import VirtualGraph.Block.Select
import VirtualGraph.Draft.Basic
import VirtualGraph.Explain
import VirtualGraph.Compiler
import VirtualGraph.Command
import VirtualGraph.Main
import VirtualGraph.Proofs.Pattern.Comparison
import VirtualGraph.Proofs.Pattern.Template
import VirtualGraph.Proofs.Block.Truth
import VirtualGraph.Proofs.Block.Normal
import VirtualGraph.Proofs.Block.Revision
import VirtualGraph.Proofs.Block.Rows
import VirtualGraph.Proofs.Block.Convergence
import VirtualGraph.Proofs.Block.Narrowing
import VirtualGraph.Proofs.Block.Outline
import VirtualGraph.Proofs.Block.Nulls
import VirtualGraph.Proofs.Block.Optimise
import VirtualGraph.Proofs.Bound.Distribution
import VirtualGraph.Proofs.Block.Statement
import VirtualGraph.Proofs.Block.Aliases
import VirtualGraph.Proofs.Bound.Plain
import VirtualGraph.Proofs.Bound.Rows
import VirtualGraph.Proofs.Bound.Apart
import VirtualGraph.Proofs.Bound.Normal
import VirtualGraph.Proofs.Bound.Anchored
import VirtualGraph.Proofs.Bound.Loaded
import VirtualGraph.Proofs.Compiler
import VirtualGraph.Proofs.Block.Order
import VirtualGraph.Proofs.Draft.Rows
import VirtualGraph.Proofs.Text.Percent
import VirtualGraph.Proofs.Draft.Expressions
import VirtualGraph.Proofs.Draft.Escaped
import VirtualGraph.Proofs.Draft.Terms
import VirtualGraph.Proofs.Draft.Answers
import VirtualGraph.Proofs.Draft.Columns
import VirtualGraph.Proofs.Draft.Triples
import VirtualGraph.Proofs.Draft.Sources
import VirtualGraph.Proofs.Draft.Unions
import VirtualGraph.Proofs.Draft.Optionals
import VirtualGraph.Proofs.Draft.Extensions
import VirtualGraph.Proofs.Draft.Independent
import VirtualGraph.Proofs.Draft.Exact
import VirtualGraph.Proofs.Draft.Legible
import VirtualGraph.Proofs.Draft.Patterns
import VirtualGraph.Proofs.Draft.Equivalent
import VirtualGraph.Proofs.Mapping.Loaded
import VirtualGraph.Proofs.Mapping.Triples
import VirtualGraph.Proofs.Text.Spelling
import VirtualGraph.Proofs.Pattern.Constants
import VirtualGraph.Proofs.Pattern.Residuals
import VirtualGraph.Proofs.Draft.Choices
import VirtualGraph.Proofs.Draft.Subjects
import VirtualGraph.Proofs.Draft.Encoded
import VirtualGraph.Proofs.Algebra.RoundTrip
import VirtualGraph.Proofs.Mapping.Register
import VirtualGraph.Proofs.Draft.Present
import VirtualGraph.Proofs.Draft.Fitting
import VirtualGraph.Proofs.Draft.Shown
import VirtualGraph.Proofs.Draft.Tests
import VirtualGraph.Proofs.Draft.Sites
import VirtualGraph.Proofs.Draft.Nullability
import VirtualGraph.Proofs.Draft.Like
import VirtualGraph.Proofs.Draft.Complements
import VirtualGraph.Proofs.Draft.Origins
import VirtualGraph.Proofs.Draft.Accounts
import VirtualGraph.Proofs.Draft.Languages
import VirtualGraph.Proofs.Draft.Meaning
import VirtualGraph.Proofs.Draft.Matches
import VirtualGraph.Proofs.Draft.Names
import VirtualGraph.Proofs.Draft.LeftJoins
import VirtualGraph.Proofs.Sql.Quoting
import VirtualGraph.Proofs.Text.Decimal
import VirtualGraph.Proofs.Draft.Ranges
