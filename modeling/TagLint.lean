import TagLint.Main
import TagLint.Text.Utf8.Lemmas
import TagLint.Proofs.Tag.Escapes
import TagLint.Proofs.Text.Cut
import TagLint.Proofs.Tag.RoundTrip
import TagLint.Proofs.Lint.Language
import TagLint.Proofs.Tag.Roles
import TagLint.Proofs.Tag.Accounting
import TagLint.Proofs.Literal.Boundaries
import TagLint.Proofs.Literal.Provenance
import TagLint.Proofs.Tag.Boundaries
import TagLint.Proofs.Literal.Length
import TagLint.Proofs.Lint.Relocation
import TagLint.Proofs.Command.Reports
import TagLint.Proofs.Literal.Order
import TagLint.Proofs.Json.Decoding
import TagLint.Proofs.Manifest.Loading
import TagLint.Proofs.Command.Records
import TagLint.Proofs.Manifest.Written
import TagLint.Proofs.Tag.Concatenation
import TagLint.Proofs.Lint.Silencing
import TagLint.Proofs.Text.Numeral
import TagLint.Proofs.Literal.Grammar
import TagLint.Proofs.Literal.Unescaping
import TagLint.Proofs.Tag.QuotedValues
import TagLint.Proofs.Tag.Quoting
import TagLint.Proofs.Tag.PairStarts
import TagLint.Proofs.Tag.Shapes
import TagLint.Proofs.Literal.Exactness
import TagLint.Proofs.Lint.Suggestion
import TagLint.Proofs.Literal.Verbatim
import TagLint.Proofs.Diagnostic.KeyLabel
import TagLint.Proofs.Tag.OpeningQuotes
import TagLint.Proofs.Lint.MissingSeparator
import TagLint.Proofs.Source.Positions
import TagLint.Proofs.Render.PlainText
import TagLint.Proofs.Render.Colors
import TagLint.Proofs.Render.Carets
import TagLint.Proofs.Lint.Supplied
import TagLint.Proofs.Literal.Anchors
