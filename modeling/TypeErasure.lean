import TypeErasure.Byte
import TypeErasure.Bytes
import TypeErasure.Literal
import TypeErasure.Token
import TypeErasure.Decimal
import TypeErasure.Json
import TypeErasure.Token.Listing
import TypeErasure.Construct
import TypeErasure.Rules
import TypeErasure.Json.Reader
import TypeErasure.Rules.Reader
import TypeErasure.Name
import TypeErasure.Trivia
import TypeErasure.Delimiter
import TypeErasure.Piece
import TypeErasure.Patch
import TypeErasure.Construct.Statement
import TypeErasure.Construct.Annotated
import TypeErasure.Construct.Cast
import TypeErasure.Construct.TypeArguments
import TypeErasure.Construct.ReturnType
import TypeErasure.Class.Header
import TypeErasure.Class.Member
import TypeErasure.Class.Body
import TypeErasure.Grammar
import TypeErasure.Erasure
import TypeErasure.FileTree
import TypeErasure.FileSystem
import TypeErasure.Sources
import TypeErasure.Sources.Walk
import TypeErasure.Action
import TypeErasure.Command
import TypeErasure.Command.Arguments
import TypeErasure.Program
import TypeErasure.Main
import TypeErasure.Proofs.Literal
import TypeErasure.Proofs.Scan
import TypeErasure.Proofs.Layout
import TypeErasure.Proofs.Layout.Construct
import TypeErasure.Proofs.Layout.Class
import TypeErasure.Proofs.Grammar
import TypeErasure.Proofs.Run
import TypeErasure.Proofs.Partition
import TypeErasure.Proofs.Inert
import TypeErasure.Proofs.Nesting
import TypeErasure.Proofs.Cut
import TypeErasure.Proofs.Cut.Construct
import TypeErasure.Proofs.Cut.Class
import TypeErasure.Proofs.Reach
import TypeErasure.Proofs.Balance
import TypeErasure.Proofs.Text
import TypeErasure.Proofs.Checked
import TypeErasure.Proofs.Checked.Construct
import TypeErasure.Proofs.Checked.Class
import TypeErasure.Proofs.Utf8
import TypeErasure.Proofs.Alike
import TypeErasure.Proofs.Alike.Construct
import TypeErasure.Proofs.Alike.Class
import TypeErasure.Proofs.Spelling
import TypeErasure.Proofs.Prefix
import TypeErasure.Proofs.Erased
import TypeErasure.Proofs.AliasHead
import TypeErasure.Proofs.Fork
import TypeErasure.Proofs.Precedence
import TypeErasure.Proofs.Quiet
import TypeErasure.Proofs.Rerun
import TypeErasure.Proofs.Idle
import TypeErasure.Proofs.Copy
import TypeErasure.Proofs.Heading
import TypeErasure.Proofs.Heading.Construct
import TypeErasure.Proofs.Heading.Class
import TypeErasure.Proofs.Heading.Run
import TypeErasure.Proofs.FileTree
import TypeErasure.Proofs.Path
import TypeErasure.Proofs.Walk
import TypeErasure.Proofs.Action
import TypeErasure.Proofs.Sources
import TypeErasure.Proofs.Command
import TypeErasure.Proofs.Linking
import TypeErasure.Proofs.Effects
import TypeErasure.Proofs.Backward
import TypeErasure.Proofs.Placed
import TypeErasure.Proofs.TypeText
import TypeErasure.Proofs.Stepwise
import TypeErasure.Proofs.ClassFields
import TypeErasure.Proofs.Parameters
import TypeErasure.Proofs.FunctionHeader
import TypeErasure.Proofs.TypeStatement
import TypeErasure.Proofs.LineBreak
import TypeErasure.Proofs.ClassBounds
import TypeErasure.Proofs.Conditional
import TypeErasure.Proofs.Lexing
import TypeErasure.Proofs.Group
import TypeErasure.Proofs.Matching
import TypeErasure.Proofs.NextItem
import TypeErasure.Proofs.Itemwise
import TypeErasure.Proofs.Search
import TypeErasure.Proofs.Regex
import TypeErasure.Proofs.JsonGrammar
import TypeErasure.Proofs.JsonText
import TypeErasure.Proofs.Configuration
import TypeErasure.Proofs.Enclosing
import TypeErasure.Proofs.Delimited
