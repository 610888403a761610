import Preproc.Batch
import Preproc.CommandLine
import Preproc.CommandLine.Options
import Preproc.Condition
import Preproc.Conditional
import Preproc.Config
import Preproc.Constant
import Preproc.Context
import Preproc.Diagnostic
import Preproc.Directive
import Preproc.Directive.Grammar
import Preproc.Disk
import Preproc.Expansion
import Preproc.Expansion.Arguments
import Preproc.Expansion.Stack
import Preproc.Expression
import Preproc.HeaderSearch
import Preproc.Lexeme
import Preproc.Lexer
import Preproc.Macro
import Preproc.Macro.Operators
import Preproc.Macro.Replacement
import Preproc.Macro.Table
import Preproc.Main
import Preproc.Note
import Preproc.Path
import Preproc.Preprocessor
import Preproc.Preprocessor.Run
import Preproc.Preprocessor.Termination
import Preproc.Source
import Preproc.Text.Alphanumeric
import Preproc.Text.Blank
import Preproc.Text.Charset
import Preproc.Text.Digit
import Preproc.Text.Numeral
import Preproc.Text.Printable
import Preproc.Text.Quoted
import Preproc.Text.Ranges
import Preproc.Text.Split
import Preproc.Token
import Preproc.Token.DefinedOperand
import Preproc.Token.Joined
import Preproc.Token.Layout
import Preproc.Token.Vocabulary
import Preproc.Word
import Preproc.Proofs.ForStd
import Preproc.Proofs.Samples
import Preproc.Proofs.Expansion.Reading
import Preproc.Proofs.Expansion.Run
import Preproc.Proofs.Expansion.Totality
import Preproc.Proofs.Expansion.Painting
import Preproc.Proofs.Expansion.ObjectLike
import Preproc.Proofs.Expression.Grammar
import Preproc.Proofs.Expression.Soundness
import Preproc.Proofs.Expression.Completeness
import Preproc.Proofs.Expression.Truth
import Preproc.Proofs.Expression.Arithmetic
import Preproc.Proofs.Expression.Signedness
import Preproc.Proofs.Lexing.Gaps
import Preproc.Proofs.Lexing.Lossless
import Preproc.Proofs.Conditional.Structured
import Preproc.Proofs.Preprocessor.Effects
import Preproc.Proofs.Preprocessor.Nesting
import Preproc.Proofs.Preprocessor.Recovery
import Preproc.Proofs.Preprocessor.Strictness
import Preproc.Proofs.Conditional.FailOpen
import Preproc.Proofs.Expansion.Notes
import Preproc.Proofs.Expansion.Provenance
import Preproc.Proofs.Preprocessor.Abreast
import Preproc.Proofs.Preprocessor.Skipping
import Preproc.Proofs.Expansion.Sound
import Preproc.Proofs.Lexing.Layout
import Preproc.Proofs.Preprocessor.Definitions
import Preproc.Proofs.Preprocessor.Output
import Preproc.Proofs.Preprocessor.Directives
import Preproc.Proofs.Conditional.Marks
import Preproc.Proofs.Preprocessor.Inclusions
import Preproc.Proofs.Preprocessor.Once
import Preproc.Proofs.Preprocessor.Refusals
import Preproc.Proofs.Preprocessor.Depth
import Preproc.Proofs.Preprocessor.Imbalance
import Preproc.Proofs.Expansion.Limits
import Preproc.Proofs.Expansion.Budget
import Preproc.Proofs.Preprocessor.EndToken
import Preproc.Proofs.Conditional.Lives
import Preproc.Proofs.Macro.NormalForm
import Preproc.Proofs.Macro.PlainParams
import Preproc.Proofs.Expansion.ArgumentLists
import Preproc.Proofs.Macro.Chains
import Preproc.Proofs.Lexing.Readings
import Preproc.Proofs.Lexing.Splices
import Preproc.Proofs.Lexing.Places
import Preproc.Proofs.Lexing.Phrases
import Preproc.Proofs.Macro.Faces
import Preproc.Proofs.Macro.Headers
import Preproc.Proofs.Macro.DefinitionForms
import Preproc.Proofs.Macro.Renormalizing
import Preproc.Proofs.Macro.Spelling
import Preproc.Proofs.Lexing.Relexing
import Preproc.Proofs.Macro.Stringizing
import Preproc.Proofs.Preprocessor.JoinedStrings
import Preproc.Proofs.Constant.Digits
import Preproc.Proofs.Constant.IntegerLiterals
import Preproc.Proofs.Constant.CharacterLiterals
import Preproc.Proofs.Directive.ParameterLists
import Preproc.Proofs.Directive.HeaderNames
import Preproc.Proofs.Conditional.NameTests
import Preproc.Proofs.Expansion.LiveMacros
import Preproc.Proofs.Expansion.Lookahead
import Preproc.Proofs.Preprocessor.HeaderCache
import Preproc.Proofs.Directive.Scanning
import Preproc.Proofs.Directive.Backtracking
import Preproc.Proofs.Directive.Recognition
