import LoxLexer.Cursor.Session
import LoxLexer.Fault
import LoxLexer.Main
import LoxLexer.Proofs.MaximalMunch
import LoxLexer.Proofs.TokenPositions
import LoxLexer.Proofs.Schedules
import LoxLexer.Proofs.Lookahead
import LoxLexer.Proofs.Restarts
import LoxLexer.Proofs.Borders
import LoxLexer.Proofs.Contents
import LoxLexer.Proofs.Respacing
import LoxLexer.Proofs.Juxtaposition
import LoxLexer.Proofs.PartialOutput
import LoxLexer.Proofs.LineFeeds
import LoxLexer.Proofs.Prompts
import LoxLexer.Proofs.Concatenation
import LoxLexer.Proofs.Blanking
import LoxLexer.Proofs.ReadingBack
import LoxLexer.Proofs.Ranks
import LoxLexer.Proofs.DisplayedNumbers
import LoxLexer.Proofs.Gaps
import LoxLexer.Proofs.ReportLines
import LoxLexer.Proofs.LineEndings
import LoxLexer.Proofs.Crossings
import LoxLexer.Proofs.ReportMemory
import LoxLexer.Proofs.Traces
import LoxLexer.Proofs.Literals
import LoxLexer.Proofs.Equality
import LoxLexer.Proofs.FileRuns
import LoxLexer.Proofs.Progress
