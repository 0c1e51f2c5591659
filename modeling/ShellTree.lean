import ShellTree.Cursor
import ShellTree.Proofs.ArithmeticCommand
import ShellTree.Proofs.Attachment
import ShellTree.Proofs.BareWord
import ShellTree.Proofs.Halt
import ShellTree.Proofs.Json.Tree
import ShellTree.Proofs.Leaves
import ShellTree.Proofs.Lexer
import ShellTree.Proofs.Outcome
import ShellTree.Proofs.Position
import ShellTree.Proofs.Precedence
import ShellTree.Proofs.Session
import ShellTree.Proofs.Skeleton
import ShellTree.Proofs.TokenTiling
import ShellTree.Proofs.Written.CommandTree
import ShellTree.Proofs.Written.Marker
import ShellTree.Proofs.Written.NestedSubshell
import ShellTree.Proofs.Written.Pattern
import ShellTree.Proofs.Written.Statement
