import ConsoleScript.Text.Basic
import ConsoleScript.Text.Utf8
import ConsoleScript.Text.Case
import ConsoleScript.Text.Blank
import ConsoleScript.Text.Quoted
import ConsoleScript.Number.Binary
import ConsoleScript.Number.Decimal
import ConsoleScript.Number.Notation
import ConsoleScript.Source.Token
import ConsoleScript.Source.Lexer
import ConsoleScript.Source.Tree
import ConsoleScript.Source.Parser.State
import ConsoleScript.Source.Parser.Expr
import ConsoleScript.Source.Parser.Stmt
import ConsoleScript.Code.Opcode
import ConsoleScript.Code.Pool
import ConsoleScript.Code.Unit
import ConsoleScript.Code.Instruction
import ConsoleScript.Code.Listing
import ConsoleScript.Code.Shape
import ConsoleScript.Code.Collect
import ConsoleScript.Code.Emit
import ConsoleScript.Code.Compile
import ConsoleScript.Console.Value
import ConsoleScript.Console.Name
import ConsoleScript.PathPattern
import ConsoleScript.Console.Glob
import ConsoleScript.Console.Export
import ConsoleScript.Console.Scope
import ConsoleScript.Files
import ConsoleScript.Prefs.Store
import ConsoleScript.Number.Integer
import ConsoleScript.Console.Fault
import ConsoleScript.Console.Native
import ConsoleScript.Console.Arena
import ConsoleScript.Console.Namespace
import ConsoleScript.Console.Class
import ConsoleScript.Console.Object
import ConsoleScript.Console.Block
import ConsoleScript.Console.State
import ConsoleScript.Console.Instance
import ConsoleScript.Console.Builtin
import ConsoleScript.Console.Machine
import ConsoleScript.Console.Exec
import ConsoleScript.Text.Base64
import ConsoleScript.Docs.Yaml
import ConsoleScript.Docs.Dump
import ConsoleScript.Hash.Sha256
import ConsoleScript.Cbor.Item
import ConsoleScript.Cbor.Parse
import ConsoleScript.Path
import ConsoleScript.CompiledFile
import ConsoleScript.Cbor.CompiledFile
import ConsoleScript.Editor.Uri
import ConsoleScript.Editor.Analysis
import ConsoleScript.Editor.Cursor
import ConsoleScript.Editor.Session
import ConsoleScript.Toml.Moment
import ConsoleScript.Toml.Grammar
import ConsoleScript.Toml.Document
import ConsoleScript.Config
import ConsoleScript.Prefs.Database
import ConsoleScript.Cli.Flags
import ConsoleScript.Cli.Prompt
import ConsoleScript.Cli.App
import ConsoleScript.Cli.Program
import ConsoleScript.Main
import ConsoleScript.Proofs.Text.Characters
import ConsoleScript.Proofs.Text.Reading
import ConsoleScript.Proofs.Source.Parsing
import ConsoleScript.Proofs.Code.Layout
import ConsoleScript.Proofs.Code.Assembly
import ConsoleScript.Proofs.Code.Literals
import ConsoleScript.Proofs.Code.Decoding
import ConsoleScript.Proofs.Code.Streams
import ConsoleScript.Proofs.Console.Activation
import ConsoleScript.Proofs.Console.StackDiscipline
import ConsoleScript.Proofs.Console.Boundaries
import ConsoleScript.Proofs.Console.Evaluation
import ConsoleScript.Proofs.Console.Simulation
import ConsoleScript.Proofs.Console.Equivalence
import ConsoleScript.Proofs.Console.Namespaces
import ConsoleScript.Proofs.Console.Layers
import ConsoleScript.Proofs.Console.Packages
import ConsoleScript.Proofs.Console.LookupTable
import ConsoleScript.Proofs.Console.Lookup
import ConsoleScript.Proofs.Console.Names
import ConsoleScript.Proofs.Console.Tables
import ConsoleScript.Proofs.Console.Variables
import ConsoleScript.Proofs.Console.Dictionary
import ConsoleScript.Proofs.Console.Frames
import ConsoleScript.Proofs.Cbor.Widths
import ConsoleScript.Proofs.Cbor.RoundTrip
import ConsoleScript.Proofs.Code.Codecs
import ConsoleScript.Proofs.Cbor.CompiledFile
import ConsoleScript.Proofs.Code.Storage
import ConsoleScript.Proofs.Number.Doubles
import ConsoleScript.Proofs.Number.Rounding
import ConsoleScript.Proofs.Number.Numerals
import ConsoleScript.Proofs.Number.Writing
import ConsoleScript.Proofs.Number.Lasting
import ConsoleScript.Proofs.Console.Assignments
import ConsoleScript.Proofs.Prefs.Rows
import ConsoleScript.Proofs.Prefs.Restoring
import ConsoleScript.Proofs.Source.Lexing
import ConsoleScript.Proofs.Source.Tokens
import ConsoleScript.Proofs.Source.Statements
import ConsoleScript.Proofs.Source.Wholes
import ConsoleScript.Proofs.Console.Immediates
import ConsoleScript.Proofs.Console.Exporting
import ConsoleScript.Proofs.Console.Reloading
import ConsoleScript.Proofs.Console.Objects
import ConsoleScript.Proofs.Console.Changes
import ConsoleScript.Proofs.Console.Effects
import ConsoleScript.Proofs.Console.Process
import ConsoleScript.Proofs.Console.Registration
import ConsoleScript.Proofs.Console.Stages
import ConsoleScript.Proofs.Console.Steadiness
import ConsoleScript.Proofs.Console.Sessions
import ConsoleScript.Proofs.Console.Depth
import ConsoleScript.Proofs.Console.Containment
import ConsoleScript.Proofs.Console.Linkage
import ConsoleScript.Proofs.Console.Membership
import ConsoleScript.Proofs.Console.Registry
import ConsoleScript.Proofs.Console.Classes
import ConsoleScript.Proofs.Console.Lifetime
import ConsoleScript.Proofs.Console.Relocation
import ConsoleScript.Proofs.Console.Stretches
import ConsoleScript.Proofs.Console.Weaving
import ConsoleScript.Proofs.Console.Discarding
import ConsoleScript.Proofs.Console.Negation
import ConsoleScript.Proofs.Source.Advancing
import ConsoleScript.Proofs.Source.ExpressionRounds
import ConsoleScript.Proofs.Source.StatementRounds
import ConsoleScript.Proofs.Source.Termination
import ConsoleScript.Proofs.Source.Climbing
import ConsoleScript.Proofs.Source.Switches
import ConsoleScript.Proofs.Console.Quiet
import ConsoleScript.Proofs.Console.Switching
import ConsoleScript.Proofs.Console.Unwatched
import ConsoleScript.Proofs.Console.ObjectTrees
import ConsoleScript.Proofs.Console.Construction
import ConsoleScript.Proofs.Console.Escaping
import ConsoleScript.Proofs.Console.Patterns
import ConsoleScript.Proofs.Console.Handles
import ConsoleScript.Proofs.Console.ParentCalls
import ConsoleScript.Proofs.Console.Owning
import ConsoleScript.Proofs.Console.Populated
import ConsoleScript.Proofs.Console.Deletion
import ConsoleScript.Proofs.Editor.Completions
import ConsoleScript.Proofs.Path.Cleaning
import ConsoleScript.Proofs.Path.Destinations
import ConsoleScript.Proofs.Code.LineTable
import ConsoleScript.Proofs.Source.Balance
import ConsoleScript.Proofs.Cli.Prompt
import ConsoleScript.Proofs.Source.LetterCase
import ConsoleScript.Proofs.Number.Grammar
import ConsoleScript.Proofs.Console.Ancestry
