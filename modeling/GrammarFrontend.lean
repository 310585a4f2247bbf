import GrammarFrontend.Config.Document
import GrammarFrontend.Config.Logging
import GrammarFrontend.Diagnostic.Buffer
import GrammarFrontend.Literal
import GrammarFrontend.Scanner.Lexer
import GrammarFrontend.Walk.Walker
import GrammarFrontend.Proofs.Lexeme.Kinds
import GrammarFrontend.Proofs.Token.RuleSearch
import GrammarFrontend.Proofs.Scanner.Steps
import GrammarFrontend.Proofs.Scanner.Modes
import GrammarFrontend.Proofs.Source.Excerpt
import GrammarFrontend.Proofs.Source.Moves
import GrammarFrontend.Proofs.Scanner.Tiling
import GrammarFrontend.Proofs.Lexeme.Trials
import GrammarFrontend.Proofs.Lexeme.Faults
import GrammarFrontend.Proofs.Scanner.Reports
import GrammarFrontend.Proofs.Walk.Brackets
import GrammarFrontend.Proofs.Walk.Nesting
import GrammarFrontend.Proofs.Walk.Conformance
import GrammarFrontend.Proofs.Walk.Readings
import GrammarFrontend.Proofs.Walk.Recognition.Element
import GrammarFrontend.Proofs.Walk.Recognition.Rule
import GrammarFrontend.Proofs.Walk.Recognition.Grammar
import GrammarFrontend.Proofs.Scanner.Headings
import GrammarFrontend.Proofs.Walk.Recovery
import GrammarFrontend.Proofs.Walk.Reporting
import GrammarFrontend.Proofs.Literal.Spelling
import GrammarFrontend.Proofs.Scanner.Literals
import GrammarFrontend.Proofs.Literal.Items
import GrammarFrontend.Proofs.Literal.InPlace
import GrammarFrontend.Proofs.Literal.Blame
import GrammarFrontend.Proofs.Scanner.Blame
import GrammarFrontend.Proofs.Walk.Confinement
import GrammarFrontend.Proofs.Walk.Restoration
import GrammarFrontend.Proofs.Walk.Listening
import GrammarFrontend.Proofs.Walk.Staying
import GrammarFrontend.Proofs.Walk.Numbering
import GrammarFrontend.Proofs.Walk.Outline
import GrammarFrontend.Proofs.Walk.Constructs
import GrammarFrontend.Proofs.Walk.Echo
import GrammarFrontend.Proofs.Walk.Announcement.Basic
import GrammarFrontend.Proofs.Walk.Announcement.Element
import GrammarFrontend.Proofs.Walk.Announcement.Rule
import GrammarFrontend.Proofs.Walk.Announcement.Grammar
import GrammarFrontend.Proofs.Walk.Descent
import GrammarFrontend.Proofs.Walk.Depth
import GrammarFrontend.Proofs.Walk.Locality
import GrammarFrontend.Proofs.Walk.Sections
import GrammarFrontend.Proofs.Walk.Forgetting
import GrammarFrontend.Proofs.Walk.Instructions
import GrammarFrontend.Proofs.Walk.Unfolding
import GrammarFrontend.Proofs.Walk.Options
import GrammarFrontend.Proofs.Walk.Places
import GrammarFrontend.Proofs.Lexeme.Alone
import GrammarFrontend.Proofs.Lexeme.Enclosure
import GrammarFrontend.Proofs.Lexeme.Balance
import GrammarFrontend.Proofs.Lexeme.Escapes
import GrammarFrontend.Proofs.Lexeme.Rereading
import GrammarFrontend.Proofs.Scanner.Rescan
import GrammarFrontend.Proofs.Scanner.Extents
import GrammarFrontend.Proofs.Scanner.Independence
import GrammarFrontend.Proofs.Lexeme.Longest
import GrammarFrontend.Proofs.Lexeme.Comments
import GrammarFrontend.Proofs.Scanner.Undelimited
import GrammarFrontend.Proofs.Scanner.Comments
import GrammarFrontend.Proofs.Scanner.Pulling
import GrammarFrontend.Proofs.Tree.Rendering
import GrammarFrontend.Proofs.Scanner.Progress
import GrammarFrontend.Proofs.Lexeme.Attempts
import GrammarFrontend.Proofs.Source.Order
import GrammarFrontend.Proofs.Scanner.Speculation
