import HclLiteral.Embedding.Heredoc
import HclLiteral.Embedding.Places
import HclLiteral.Escape.Basic
import HclLiteral.Escape.Decode
import HclLiteral.Escape.Grammar
import HclLiteral.Escape.Piece
import HclLiteral.Fragment
import HclLiteral.Interpolation.Attempt
import HclLiteral.Interpolation.Spans
import HclLiteral.Interpolation.Stepwise
import HclLiteral.Interpolation.Trace
import HclLiteral.Offset
import HclLiteral.Span
import HclLiteral.Text.Basic
import HclLiteral.Text.Cursor
import HclLiteral.Text.Utf8
import HclLiteral.Token.Number
import HclLiteral.Token.Quoted
import HclLiteral.Token.Read
import HclLiteral.Token.Reader
import HclLiteral.Token.Scanner
import HclLiteral.Token.Tag
import HclLiteral.Proofs.QuotedGrammar
import HclLiteral.Proofs.Attempt
import HclLiteral.Proofs.Decode
import HclLiteral.Proofs.SpanLayout
import HclLiteral.Proofs.Spans
import HclLiteral.Proofs.Stepwise
import HclLiteral.Proofs.EscapeGrammar
import HclLiteral.Proofs.PieceSequence
import HclLiteral.Proofs.Lossy
import HclLiteral.Proofs.DecodeCut
import HclLiteral.Proofs.NumberMatch
import HclLiteral.Proofs.StringFrames
import HclLiteral.Proofs.TokenMatch
import HclLiteral.Proofs.SpanMarks
import HclLiteral.Proofs.ScanTrace
import HclLiteral.Proofs.HeredocLines
import HclLiteral.Proofs.ReaderMoves
import HclLiteral.Proofs.StringLayers
import HclLiteral.Proofs.ReaderTokens
import HclLiteral.Proofs.Tiling
import HclLiteral.Proofs.FragmentTiling
import HclLiteral.Proofs.GapLimit
import HclLiteral.Proofs.FragmentDecode
import HclLiteral.Proofs.IslandSpans
import HclLiteral.Proofs.Leftovers
import HclLiteral.Proofs.IslandFlag
import HclLiteral.Proofs.OffsetTable
import HclLiteral.Proofs.Locality
import HclLiteral.Proofs.Rescan
import HclLiteral.Proofs.Placement
import HclLiteral.Proofs.StringPlaces
import HclLiteral.Proofs.HeredocPlaces
import HclLiteral.Proofs.BraceNesting
import HclLiteral.Proofs.CharacterWalk
import HclLiteral.Proofs.HostOffset
import HclLiteral.Escape.Pass
import HclLiteral.Proofs.EscapeBytes
import HclLiteral.Proofs.DecodePass
import HclLiteral.Proofs.Passthrough
import HclLiteral.Fragment.Sweep
import HclLiteral.Proofs.FragmentSweep
import HclLiteral.Interpolation.Search
import HclLiteral.Embedding.Guarded
import HclLiteral.Proofs.SpanSearch
import HclLiteral.Proofs.TrapFree
