import ExprLang.Binary64
import ExprLang.Binary64.Shortest
import ExprLang.Command
import ExprLang.Command.Directory
import ExprLang.Command.Request
import ExprLang.Command.Sample
import ExprLang.Diagnostic
import ExprLang.Journal
import ExprLang.Lexer
import ExprLang.Lexer.Session
import ExprLang.Main
import ExprLang.Options
import ExprLang.Parser
import ExprLang.Parser.Expression
import ExprLang.Parser.Item
import ExprLang.Parser.Session
import ExprLang.Parser.Statement
import ExprLang.Parser.Tables
import ExprLang.Proofs.ParserRun
import ExprLang.Text
import ExprLang.Text.Place
import ExprLang.Token
import ExprLang.Tree
import ExprLang.Tree.Check
import ExprLang.Tree.Copy
import ExprLang.Tree.Description
import ExprLang.Tree.Equality
import ExprLang.Tree.Outline
import ExprLang.Tree.Printer
import ExprLang.Tree.Survey
import ExprLang.Tree.Walks
import ExprLang.Proofs.Frame
import ExprLang.Proofs.Derivation
import ExprLang.Proofs.Reading
import ExprLang.Proofs.ReadingExpressions
import ExprLang.Proofs.ReadingStatements
import ExprLang.Proofs.ReadingItems
import ExprLang.Proofs.Recognition
import ExprLang.Proofs.RecognizingExpressions
import ExprLang.Proofs.RecognizingStatements
import ExprLang.Proofs.RecognizingItems
import ExprLang.Proofs.Acceptance
import ExprLang.Proofs.CorrectPrefix
import ExprLang.Proofs.Failures
import ExprLang.Proofs.Mirroring
import ExprLang.Proofs.MirroringExpressions
import ExprLang.Proofs.MirroringStatements
import ExprLang.Proofs.MirroringItems
import ExprLang.Proofs.Limits
import ExprLang.Proofs.RenamedSources
import ExprLang.Proofs.JoinedSources
import ExprLang.Proofs.Composition
import ExprLang.Proofs.Copying
import ExprLang.Proofs.Equality
import ExprLang.Proofs.WellFormed
import ExprLang.Proofs.Safety
import ExprLang.Proofs.ParserSessions
import ExprLang.Proofs.MissingExpressions
import ExprLang.Proofs.Diagnoses
import ExprLang.Proofs.WrittenTokens
import ExprLang.Proofs.Labels
import ExprLang.Proofs.Likeness
import ExprLang.Proofs.Outlines
import ExprLang.Proofs.Dumps
import ExprLang.Proofs.Places
import ExprLang.Proofs.Carets
import ExprLang.Proofs.Reports
import ExprLang.Proofs.Progress
import ExprLang.Proofs.Journals
import ExprLang.Proofs.Heights
import ExprLang.Proofs.GivenNames
import ExprLang.Proofs.OperatorTrees
import ExprLang.Proofs.OtherPowers
import ExprLang.Proofs.PrecedenceClimbing
import ExprLang.Proofs.ShortestDecimals
import ExprLang.Proofs.NumberTexts
import ExprLang.Proofs.PrintedExpressions
import ExprLang.Proofs.EqualTrees
import ExprLang.Proofs.Offsets
import ExprLang.Proofs.Listings
import ExprLang.Proofs.Readers
import ExprLang.Proofs.Levels
import ExprLang.Proofs.FailedSteps
import ExprLang.Proofs.LexerSessions
import ExprLang.Proofs.Surveys
import ExprLang.Proofs.Descriptions
import ExprLang.Proofs.DescribedTrees
