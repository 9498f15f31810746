import AlgoBox.Session
import AlgoBox.Node.Json
import AlgoBox.Json.Reader
import AlgoBox.Proofs.Derivation
import AlgoBox.Proofs.Lookahead
import AlgoBox.Proofs.Soundness
import AlgoBox.Proofs.Agreement
import AlgoBox.Proofs.Grouping
import AlgoBox.Proofs.Completeness
import AlgoBox.Proofs.Progress
import AlgoBox.Proofs.Scanning
import AlgoBox.Proofs.Parsing
import AlgoBox.Proofs.EarliestFault
import AlgoBox.Proofs.NormalForm
import AlgoBox.Proofs.Outlining
import AlgoBox.Proofs.RenderTotal
import AlgoBox.Proofs.Lossless
import AlgoBox.Proofs.Idle
import AlgoBox.Proofs.Calls
import AlgoBox.Proofs.Predicting
import AlgoBox.Proofs.Unrolling
import AlgoBox.Proofs.Correspondence
import AlgoBox.Proofs.Lockstep
import AlgoBox.Proofs.PlaceBlind
import AlgoBox.Proofs.LayoutIndependence
import AlgoBox.Proofs.Boxes
import AlgoBox.Proofs.Layout
import AlgoBox.Proofs.Drawing
import AlgoBox.Proofs.WellNested
import AlgoBox.Proofs.Lines
import AlgoBox.Proofs.LineNumbers
import AlgoBox.Proofs.Seams
import AlgoBox.Proofs.Spans
import AlgoBox.Proofs.Locating
import AlgoBox.Proofs.Concatenation
import AlgoBox.Proofs.Independence
import AlgoBox.Proofs.TagSequence
import AlgoBox.Proofs.Masking
import AlgoBox.Proofs.Following
import AlgoBox.Proofs.Unreported
import AlgoBox.Proofs.Parts
import AlgoBox.Proofs.Pieces
import AlgoBox.Proofs.Placement
import AlgoBox.Proofs.Positions
import AlgoBox.Proofs.NestedSpans
import AlgoBox.Proofs.Cutting
import AlgoBox.Proofs.JsonRoundTrip
import AlgoBox.Proofs.Restoring
import AlgoBox.Proofs.LogLevels
import AlgoBox.Proofs.Sessions
import AlgoBox.Proofs.Splitting
import AlgoBox.Proofs.Driving
import AlgoBox.Proofs.Sticking
import AlgoBox.Proofs.LexicalFaults
import AlgoBox.Proofs.TableOrder
import AlgoBox.Proofs.Displayed
import AlgoBox.Proofs.Contents
import AlgoBox.Proofs.Switches
import AlgoBox.Proofs.Typesetting
import AlgoBox.Proofs.Captions
import AlgoBox.Proofs.Below
import AlgoBox.Proofs.References
import AlgoBox.Proofs.VisibleText
import AlgoBox.Proofs.OutlineLines
import AlgoBox.Proofs.MessageLines
import AlgoBox.Proofs.Deciding
import AlgoBox.Proofs.LocationOrder
import AlgoBox.Proofs.Excerpts
import AlgoBox.Proofs.Actions
import AlgoBox.Proofs.Flags
import AlgoBox.Proofs.Bracketing
import AlgoBox.Proofs.Rounding
import AlgoBox.Proofs.Numerals
import AlgoBox.Proofs.Lengths
import AlgoBox.Proofs.Notation
import AlgoBox.Proofs.RoundingOrder
import AlgoBox.Proofs.LengthRounding
import AlgoBox.Proofs.Formatting
import AlgoBox.Proofs.StyleLengths
import AlgoBox.Proofs.Terminating
import AlgoBox.Proofs.Escaping
