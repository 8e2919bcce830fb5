import QueryDoc.Text.Blank
import QueryDoc.Text.Hidden
import QueryDoc.Text.Quoted
import QueryDoc.Text.Decoding
import QueryDoc.Decimal.Binary64
import QueryDoc.Decimal.Shortest
import QueryDoc.Decimal.Notation
import QueryDoc.Decimal.Integer
import QueryDoc.Punctuator
import QueryDoc.Lexis.Place
import QueryDoc.Lexis.Token
import QueryDoc.Lexis.Lexer
import QueryDoc.Lexis.Key
import QueryDoc.Ast.Basic
import QueryDoc.Ast.Printer
import QueryDoc.Grammar.Lexeme
import QueryDoc.Grammar.Lexer
import QueryDoc.Text.Pieces
import QueryDoc.Text.Lines
import QueryDoc.Text.Scanned
import QueryDoc.Grammar.Literal
import QueryDoc.Grammar.Reader
import QueryDoc.Document.Basic
import QueryDoc.Document.VariableGroup
import QueryDoc.Document.Parse
import QueryDoc.Source
import QueryDoc.Registry
import QueryDoc.Cache
import QueryDoc.Session.Merge
import QueryDoc.Files.Path
import QueryDoc.Files.Volume
import QueryDoc.Files.Content
import QueryDoc.Files.Walk
import QueryDoc.Session.Basic
import QueryDoc.Command.Arguments
import QueryDoc.Command.Outcome
import QueryDoc.Command.Log
import QueryDoc.Command.Check
import QueryDoc.Command.Print
import QueryDoc.Command.Run
import QueryDoc.Main
import QueryDoc.Proofs.Lexis.Scan
import QueryDoc.Proofs.Lexis.Word
import QueryDoc.Proofs.Lexis.Key
import QueryDoc.Proofs.Lexis.Normal
import QueryDoc.Proofs.Lexis.Definitions
import QueryDoc.Proofs.Lexis.Lines
import QueryDoc.Proofs.Lexis.Filler
import QueryDoc.Proofs.Lexis.Language
import QueryDoc.Proofs.Lexis.Numeral
import QueryDoc.Proofs.Lexis.Offset
import QueryDoc.Proofs.Lexis.Tiling
import QueryDoc.Proofs.Lexis.Lexical
import QueryDoc.Proofs.Lexis.Position
import QueryDoc.Proofs.Lexis.Nesting
import QueryDoc.Proofs.Lexis.Tally
import QueryDoc.Proofs.Lexis.Gluing
import QueryDoc.Proofs.Lexis.StringLines
import QueryDoc.Proofs.Grammar.Alignment
import QueryDoc.Proofs.Grammar.Reading
import QueryDoc.Proofs.Grammar.Shape
import QueryDoc.Proofs.Grammar.Pieces
import QueryDoc.Proofs.Grammar.Spelling
import QueryDoc.Proofs.Grammar.Outline
import QueryDoc.Proofs.Grammar.Literals
import QueryDoc.Proofs.Grammar.Faults
import QueryDoc.Proofs.Grammar.Counting
import QueryDoc.Proofs.Document.Frame
import QueryDoc.Proofs.Document.Standing
import QueryDoc.Proofs.Document.FrameText
import QueryDoc.Proofs.Document.Lift
import QueryDoc.Proofs.Document.Declared
import QueryDoc.Proofs.Document.Groups
import QueryDoc.Proofs.Document.Meaning
import QueryDoc.Proofs.Document.Alike
import QueryDoc.Proofs.Document.Extension
import QueryDoc.Proofs.Document.Matching
import QueryDoc.Proofs.Document.Rejection
import QueryDoc.Proofs.Document.Belonging
import QueryDoc.Proofs.Document.Listing
import QueryDoc.Proofs.Session.Merge
import QueryDoc.Proofs.Session.Run
import QueryDoc.Proofs.Session.Coherence
import QueryDoc.Proofs.Session.Embedding
import QueryDoc.Proofs.Session.Transparency
import QueryDoc.Proofs.Session.Stability
import QueryDoc.Proofs.Session.Warnings
import QueryDoc.Proofs.Session.Catalog
import QueryDoc.Proofs.Session.History
import QueryDoc.Proofs.Session.Resolution
import QueryDoc.Proofs.Session.Flattening
import QueryDoc.Proofs.Session.Toggles
import QueryDoc.Proofs.Session.Rejection
import QueryDoc.Proofs.Session.Muting
import QueryDoc.Proofs.Session.InPlace
import QueryDoc.Proofs.Document.Insertion
import QueryDoc.Proofs.Document.Outside
import QueryDoc.Proofs.Document.Blanking
import QueryDoc.Proofs.Document.Budget
import QueryDoc.Proofs.Document.Columns
import QueryDoc.Proofs.Document.Reprinting
import QueryDoc.Proofs.Document.Numbering
import QueryDoc.Proofs.Session.Eliding
import QueryDoc.Proofs.Files.Walk
import QueryDoc.Proofs.Command.Selection
import QueryDoc.Proofs.Session.Balance
import QueryDoc.Proofs.Command.Report
