import Squeeze.Delivery
import Squeeze.Json.Parser
import Squeeze.Session
import Squeeze.SourceMap.Decoding
import Squeeze.SourceMap.Document
import Squeeze.Proofs.Provenance
import Squeeze.Proofs.Joining
import Squeeze.Proofs.Commentless
import Squeeze.Proofs.SegmentText
import Squeeze.Text.Lines
import Squeeze.Proofs.Streaming
import Squeeze.Proofs.Neighbours
import Squeeze.Proofs.RegexOpening
import Squeeze.Proofs.Shrinking
import Squeeze.Proofs.LiteralCopying
import Squeeze.Proofs.Respelling
import Squeeze.Proofs.CommentStripping
import Squeeze.Proofs.Peeking
import Squeeze.Proofs.OutputPlaces
import Squeeze.Proofs.Receiving
import Squeeze.Proofs.CharacterStream
import Squeeze.Proofs.PlaceBounds
import Squeeze.Proofs.MainLoop
import Squeeze.Json.Grammar
import Squeeze.Proofs.JsonReading
import Squeeze.Proofs.MapDocument
import Squeeze.Proofs.MapDocument
import Squeeze.Proofs.MainLoop
