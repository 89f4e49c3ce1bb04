import JsxLoops.Compile
import JsxLoops.Json.Read
import JsxLoops.Json.Value
import JsxLoops.Json.Write
import JsxLoops.Loop.Adapter
import JsxLoops.Loop.Candidate
import JsxLoops.Loop.Leaf
import JsxLoops.Loop.Lower
import JsxLoops.Loop.Record
import JsxLoops.Loop.Site
import JsxLoops.Loop.Tokens
import JsxLoops.Loop.Verify
import JsxLoops.Options
import JsxLoops.Proofs.Descent
import JsxLoops.Proofs.Editing
import JsxLoops.Proofs.FreeNames
import JsxLoops.Proofs.Idempotence
import JsxLoops.Proofs.Located
import JsxLoops.Proofs.Logs
import JsxLoops.Proofs.Loops
import JsxLoops.Proofs.Lowering
import JsxLoops.Proofs.Mapping
import JsxLoops.Proofs.Nesting
import JsxLoops.Proofs.Node
import JsxLoops.Proofs.Ownership
import JsxLoops.Proofs.Paths
import JsxLoops.Proofs.Reading
import JsxLoops.Proofs.Records
import JsxLoops.Proofs.Renaming
import JsxLoops.Proofs.Rewriting
import JsxLoops.Proofs.Run
import JsxLoops.Proofs.Shape
import JsxLoops.Proofs.Template
import JsxLoops.Proofs.Verification
import JsxLoops.Proofs.Wrapping
import JsxLoops.Report
import JsxLoops.Surface.Class
import JsxLoops.Surface.Declaration
import JsxLoops.Surface.Grammar
import JsxLoops.Surface.Lambda
import JsxLoops.Surface.Mark
import JsxLoops.Surface.Markup
import JsxLoops.Surface.Operand
import JsxLoops.Surface.Operator
import JsxLoops.Surface.Parse
import JsxLoops.Surface.Pattern
import JsxLoops.Surface.Phrase
import JsxLoops.Surface.RenderRoot
import JsxLoops.Surface.Scan
import JsxLoops.Surface.Statement
import JsxLoops.Surface.Token
import JsxLoops.Surface.Types
import JsxLoops.Text.Blank
import JsxLoops.Text.Digit
import JsxLoops.Text.Letter
import JsxLoops.Text.Position
import JsxLoops.Tree.Build
import JsxLoops.Tree.Markup
import JsxLoops.Tree.Node
import JsxLoops.Tree.Print
import JsxLoops.Tree.Rename
import JsxLoops.Tree.Scope
import JsxLoops.Tree.Store
import JsxLoops.Proofs.Leaves
import JsxLoops.Proofs.ItemValue
import JsxLoops.Proofs.Evaluation
import JsxLoops.Proofs.Scan
import JsxLoops.Proofs.Discovery
import JsxLoops.Proofs.Operations
import JsxLoops.Proofs.Surroundings
import JsxLoops.Proofs.Building
import JsxLoops.Proofs.Scopes
import JsxLoops.Proofs.Lexical
import JsxLoops.Proofs.Acceptance
import JsxLoops.Proofs.Erasure
import JsxLoops.Proofs.Likeness
import JsxLoops.Proofs.Layout
import JsxLoops.Proofs.Composition
import JsxLoops.Proofs.Legible
import JsxLoops.Proofs.Lexeme
import JsxLoops.Proofs.Written
import JsxLoops.Proofs.Openings
import JsxLoops.Proofs.Growth
import JsxLoops.Proofs.Sequences
import JsxLoops.Proofs.Rules
import JsxLoops.Proofs.Operands
import JsxLoops.Proofs.Objects
import JsxLoops.Proofs.Chains
import JsxLoops.Proofs.Occurrences
import JsxLoops.Proofs.Replacement
import JsxLoops.Proofs.Returns
import JsxLoops.Proofs.Callbacks
import JsxLoops.Proofs.Peeling
import JsxLoops.Proofs.Parentheses
import JsxLoops.Proofs.Lettering
import JsxLoops.Proofs.Spacing
import JsxLoops.Proofs.Infix
import JsxLoops.Proofs.Formulas
import JsxLoops.Proofs.Values
import JsxLoops.Proofs.RoundTrip
import JsxLoops.Proofs.Copying
import JsxLoops.Proofs.Drafting
import JsxLoops.Proofs.Overriding
import JsxLoops.Proofs.Guards
import JsxLoops.Proofs.Literals
import JsxLoops.Proofs.Recognition
import JsxLoops.Proofs.Markup
import JsxLoops.Proofs.RenderRoot
import JsxLoops.Proofs.Detachment
import JsxLoops.Proofs.Positions
import JsxLoops.Proofs.Cutting
import JsxLoops.Proofs.JsonText
import JsxLoops.Proofs.OptionsText
import JsxLoops.Proofs.Styles
import JsxLoops.Proofs.Redirection
