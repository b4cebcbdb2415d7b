import JamTokens.Lexer.Items
import JamTokens.Main
import JamTokens.Proofs.Assembly
import JamTokens.Proofs.Peeking
import JamTokens.Proofs.Delivery
import JamTokens.Proofs.Grammar
import JamTokens.Proofs.Scanning
import JamTokens.Proofs.Flushing
import JamTokens.Proofs.Portions
import JamTokens.Proofs.Recovery
import JamTokens.Proofs.Lowering
import JamTokens.Proofs.MovingOn
import JamTokens.Proofs.TextFeeds
import JamTokens.Proofs.Sessions
import JamTokens.Proofs.Restarting
import JamTokens.Proofs.Joining
import JamTokens.Proofs.Interning
import JamTokens.Proofs.Constants
import JamTokens.Proofs.Making
import JamTokens.Proofs.Spelling
import JamTokens.Proofs.Streams
import JamTokens.Proofs.Pauses
import JamTokens.Proofs.EndOfInput
import JamTokens.Proofs.Stopping
import JamTokens.Proofs.Places
import JamTokens.Proofs.Layout
import JamTokens.Proofs.Telling
import JamTokens.Proofs.Counters
import JamTokens.Proofs.Endings
import JamTokens.Proofs.Sharing
import JamTokens.Proofs.CheckedRuns
import JamTokens.Proofs.Consumption
import JamTokens.Proofs.Formats
import JamTokens.Proofs.ReadingEnds
import JamTokens.Proofs.FullSinks
import JamTokens.Proofs.Literals
import JamTokens.Proofs.Precedence
import JamTokens.Proofs.Failing
import JamTokens.Proofs.Lookahead
import JamTokens.Proofs.LexemeStarts
import JamTokens.Proofs.Configuration
