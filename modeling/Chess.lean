import Chess.Script.Answer
import Chess.Main
import Chess.Proofs.Board.Coherence
import Chess.Proofs.Except
import Chess.Proofs.Board.Setup
import Chess.Proofs.Board.Agree
import Chess.Proofs.Board.Congruence
import Chess.Proofs.Move.Line
import Chess.Proofs.Representation
import Chess.Proofs.Move.Rules
import Chess.Proofs.Board.Position
import Chess.Proofs.Notation.FenRoundTrip
import Chess.Proofs.Board.Origin
import Chess.Proofs.Board.Disambiguation
import Chess.Proofs.Notation.ReadBack
import Chess.Proofs.Notation.Reread
import Chess.Proofs.Board.Rename
import Chess.Proofs.History.Prune
import Chess.Proofs.Move.Arena
import Chess.Proofs.Move.Replica
import Chess.Proofs.Move.Walk
import Chess.Proofs.Board.Attacks
import Chess.Proofs.Board.Cached
import Chess.Proofs.Move.Guard
import Chess.Proofs.Perft
import Chess.Proofs.Notation.CastlingLetters
import Chess.Proofs.Notation.FenGrammar
import Chess.Proofs.Move.Promoted
import Chess.Proofs.History.Sound
import Chess.Proofs.History.Edit
import Chess.Proofs.History.Steps
import Chess.Proofs.History.Reachable
import Chess.Proofs.Pgn.Escape
import Chess.Proofs.Pgn.Layout
import Chess.Proofs.Pgn.Movetext
import Chess.Proofs.Pgn.Parse
import Chess.Proofs.Board.Buildable
import Chess.Proofs.Refusals
import Chess.Proofs.Notation.RankErrors
import Chess.Proofs.Pgn.Wrap
import Chess.Proofs.Pgn.Items
import Chess.Proofs.Pgn.Reading
import Chess.Proofs.Pgn.TagNames
import Chess.Proofs.Pgn.Rebuild
import Chess.Proofs.Pgn.RoundTrip
import Chess.Proofs.History.Events
import Chess.Proofs.History.Traversal
import Chess.Proofs.History.Reshape
import Chess.Proofs.History.LongLine
import Chess.Proofs.Geometry.Line
import Chess.Proofs.Board.Threats
import Chess.Proofs.Move.Played
import Chess.Proofs.Rules.Generation
import Chess.Proofs.Board.CastleRights
import Chess.Proofs.Notation.UciReread
import Chess.Proofs.Record.Grown
import Chess.Proofs.Record.Replay
import Chess.Proofs.Record.RoundTrip
