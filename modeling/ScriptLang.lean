import ScriptLang.Attempt
import ScriptLang.CommandLine.Arguments
import ScriptLang.CommandLine.Execution
import ScriptLang.Decimal
import ScriptLang.Decimal.Reading
import ScriptLang.Decimal.Shortest
import ScriptLang.Diagnostic
import ScriptLang.Generator
import ScriptLang.Intern.Hash
import ScriptLang.Intern.Table
import ScriptLang.Json
import ScriptLang.Lexer
import ScriptLang.Lexer.Cursor
import ScriptLang.Lexer.Error
import ScriptLang.Lexer.Progress
import ScriptLang.Lexer.Readers
import ScriptLang.Lexer.Scanner
import ScriptLang.Lowering
import ScriptLang.Machine
import ScriptLang.Machine.CallStack
import ScriptLang.Machine.Error
import ScriptLang.Machine.FunctionTable
import ScriptLang.Machine.Instruction
import ScriptLang.Main
import ScriptLang.Memory
import ScriptLang.Parser
import ScriptLang.Parser.Error
import ScriptLang.Parser.Grammar
import ScriptLang.Parser.Progress
import ScriptLang.Parser.State
import ScriptLang.Proofs.CommandLine.Listing
import ScriptLang.Proofs.Evaluation
import ScriptLang.Proofs.Execution
import ScriptLang.Proofs.Generator
import ScriptLang.Proofs.Generator.Scoping
import ScriptLang.Proofs.Grammar
import ScriptLang.Proofs.Grammar.Kinds
import ScriptLang.Proofs.Grammar.Prediction
import ScriptLang.Proofs.Grammar.Relocation
import ScriptLang.Proofs.Intern
import ScriptLang.Proofs.Intern.Extension
import ScriptLang.Proofs.Intern.Hash
import ScriptLang.Proofs.Intern.History
import ScriptLang.Proofs.Lexer
import ScriptLang.Proofs.Lexer.Bound
import ScriptLang.Proofs.Lexer.Buffer
import ScriptLang.Proofs.Lexer.Layout
import ScriptLang.Proofs.Lexer.Lexemes
import ScriptLang.Proofs.Lexer.Positions
import ScriptLang.Proofs.Lexer.Reports
import ScriptLang.Proofs.Lexer.Spacing
import ScriptLang.Proofs.Lexer.Spelling
import ScriptLang.Proofs.Lexer.Splitting
import ScriptLang.Proofs.Lexer.Texts
import ScriptLang.Proofs.Lexer.Trivia
import ScriptLang.Proofs.Lowering
import ScriptLang.Proofs.Machine.Bracketing
import ScriptLang.Proofs.Machine.CallChain
import ScriptLang.Proofs.Machine.Confinement
import ScriptLang.Proofs.Machine.Effect
import ScriptLang.Proofs.Machine.Footprint
import ScriptLang.Proofs.Machine.Functions
import ScriptLang.Proofs.Machine.Provenance
import ScriptLang.Proofs.Machine.Run
import ScriptLang.Proofs.Machine.Safety
import ScriptLang.Proofs.Machine.Termination
import ScriptLang.Proofs.Memory
import ScriptLang.Proofs.Memory.Writes
import ScriptLang.Proofs.Parser.Braces
import ScriptLang.Proofs.Parser.Calls
import ScriptLang.Proofs.Parser.Concatenation
import ScriptLang.Proofs.Parser.Correctness
import ScriptLang.Proofs.Parser.Depth
import ScriptLang.Proofs.Parser.Handles
import ScriptLang.Proofs.Parser.Independence
import ScriptLang.Proofs.Parser.Layers
import ScriptLang.Proofs.Parser.Laziness
import ScriptLang.Proofs.Parser.Lookahead
import ScriptLang.Proofs.Parser.Prefixes
import ScriptLang.Proofs.Parser.Simulation
import ScriptLang.Proofs.Parser.Stream
import ScriptLang.Proofs.Parser.Termination
import ScriptLang.Proofs.Parser.Waiting
import ScriptLang.Proofs.Printing
import ScriptLang.Proofs.Storage.Cursor
import ScriptLang.Proofs.Storage.Declarations
import ScriptLang.Proofs.Storage.Scope
import ScriptLang.Proofs.Storage.Section
import ScriptLang.Proofs.Storage.SymbolTable
import ScriptLang.Proofs.Syntax.Tokens
import ScriptLang.Proofs.Text
import ScriptLang.Proofs.Value
import ScriptLang.Storage.Scope
import ScriptLang.Storage.Section
import ScriptLang.Storage.SymbolTable
import ScriptLang.Storage.Variable
import ScriptLang.Syntax.Description
import ScriptLang.Syntax.Document
import ScriptLang.Syntax.Operator
import ScriptLang.Syntax.Outline
import ScriptLang.Syntax.Tree
import ScriptLang.Text
import ScriptLang.Text.Byte
import ScriptLang.Text.Padding
import ScriptLang.Token
import ScriptLang.Value
import ScriptLang.Value.Number
