import SplBasic.Text.Blank
import SplBasic.Text.Line
import SplBasic.Token.Kind
import SplBasic.Token.Basic
import SplBasic.Token.Lexeme
import SplBasic.Token.Scan
import SplBasic.Source
import SplBasic.Triple
import SplBasic.Forest
import SplBasic.Program.Ty
import SplBasic.Program.Expr
import SplBasic.Program.Command
import SplBasic.Program.Basic
import SplBasic.Program.Parser
import SplBasic.Scope.Tree
import SplBasic.Scope.Error
import SplBasic.Scope.Declare
import SplBasic.Scope.Resolve
import SplBasic.Typing.Error
import SplBasic.Typing.Check
import SplBasic.Listing.Statement
import SplBasic.Listing.Lower
import SplBasic.ParseTree
import SplBasic.Diagnostic
import SplBasic.Compile
import SplBasic.Scope.Table
import SplBasic.CommandLine.Arguments
import SplBasic.CommandLine.FileSystem
import SplBasic.CommandLine.Run
import SplBasic.Main
import SplBasic.Proofs.Execution
import SplBasic.Proofs.BranchLowering
import SplBasic.Proofs.Grammar
import SplBasic.Proofs.ParserSoundness
import SplBasic.Proofs.ParserCompleteness
import SplBasic.Proofs.Productions
import SplBasic.Proofs.SentenceTrees
import SplBasic.Proofs.SourceTokens
import SplBasic.Proofs.LexicalGrammar
import SplBasic.Proofs.LexerExactness
import SplBasic.Proofs.ProgramNames
import SplBasic.Proofs.StaticScope
import SplBasic.Proofs.ScopeModel
import SplBasic.Proofs.WellScoped
import SplBasic.Proofs.UniqueNames
import SplBasic.Proofs.Renaming
import SplBasic.Proofs.TypeChecking
import SplBasic.Proofs.ViablePrefix
import SplBasic.Proofs.Lookahead
import SplBasic.Proofs.ParserBounds
import SplBasic.Proofs.ParserExactness
import SplBasic.Proofs.RelabelledScopes
import SplBasic.Proofs.ConsistentRenaming
import SplBasic.Proofs.DistinctFunctions
import SplBasic.Proofs.LayoutIndependence
import SplBasic.Proofs.ListingShape
import SplBasic.Proofs.JumpTargets
import SplBasic.Proofs.LineCounter
import SplBasic.Proofs.SourceTexts
import SplBasic.Proofs.UnboundNames
import SplBasic.Proofs.RepeatedPasses
import SplBasic.Proofs.ScopeNesting
import SplBasic.Proofs.SymbolArena
import SplBasic.Proofs.ScopeWalk
import SplBasic.Proofs.StepwiseResolution
import SplBasic.Proofs.NamesInOrder
import SplBasic.Proofs.FunctionBlocks
import SplBasic.Proofs.ScanResumption
import SplBasic.Proofs.SourceLines
import SplBasic.Proofs.ProblemPlaces
import SplBasic.Proofs.ErrorPlaces
import SplBasic.Proofs.ScopeHistory
import SplBasic.Proofs.ScopeArena
import SplBasic.Proofs.DerivationTrees
import SplBasic.Proofs.UseResolution
import SplBasic.Proofs.DeclarationOrder
import SplBasic.Proofs.UnambiguousTerms
import SplBasic.Proofs.TreeListings
import SplBasic.Proofs.CommandRuns
