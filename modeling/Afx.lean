import Afx.Command.Arguments
import Afx.Command.Invocation
import Afx.Command.Output
import Afx.Data.Association
import Afx.Data.Basic
import Afx.Data.Reader
import Afx.Decimal.Shortest
import Afx.Files.Path
import Afx.Files.Store
import Afx.Files.Tree
import Afx.Fusion.Attributes
import Afx.Fusion.Balance
import Afx.Fusion.Block
import Afx.Fusion.Conversion
import Afx.Fusion.Fault
import Afx.Fusion.Indentation
import Afx.Fusion.Rendering
import Afx.Fusion.Settings
import Afx.Fusion.Value
import Afx.Loop
import Afx.Main
import Afx.Markup.Basic
import Afx.Markup.Cursor
import Afx.Markup.Document
import Afx.Markup.Fault
import Afx.Markup.Lexeme
import Afx.Markup.Tag
import Afx.Proofs.Advance
import Afx.Proofs.Agreement
import Afx.Proofs.Attributes
import Afx.Proofs.Balance
import Afx.Proofs.Blocks
import Afx.Proofs.Children
import Afx.Proofs.Concatenation
import Afx.Proofs.Cursors
import Afx.Proofs.Faults
import Afx.Proofs.Fields
import Afx.Proofs.Footprint
import Afx.Proofs.Grammar
import Afx.Proofs.Grouping
import Afx.Proofs.Keys
import Afx.Proofs.Layout
import Afx.Proofs.Lexemes
import Afx.Proofs.Literals
import Afx.Proofs.Locations
import Afx.Proofs.Names
import Afx.Proofs.Nesting
import Afx.Proofs.Overriding
import Afx.Proofs.Overwriting
import Afx.Proofs.Pattern
import Afx.Proofs.Pieces
import Afx.Proofs.Places
import Afx.Proofs.Printing
import Afx.Proofs.ReadBack
import Afx.Proofs.Reading
import Afx.Proofs.Reindentation
import Afx.Proofs.Scanners
import Afx.Proofs.Scanning
import Afx.Proofs.Shorthands
import Afx.Proofs.Spacing
import Afx.Proofs.Totality
import Afx.Proofs.Tree
import Afx.Proofs.Validity
import Afx.Proofs.ValueGrammar
import Afx.Proofs.Wording
import Afx.Proofs.Writing
import Afx.Text.Blank
import Afx.Text.ControlSequence
import Afx.Text.Printable
import Afx.Text.Quoted
import Afx.Text.Segments
