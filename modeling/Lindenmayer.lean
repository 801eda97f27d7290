import Lindenmayer.Alphabet
import Lindenmayer.Color
import Lindenmayer.Config
import Lindenmayer.Drawing
import Lindenmayer.Expansion
import Lindenmayer.Folder
import Lindenmayer.Geometry.Line
import Lindenmayer.Geometry.Point
import Lindenmayer.Geometry.Rect
import Lindenmayer.Geometry.Rotation
import Lindenmayer.Json.Codec
import Lindenmayer.Json.Lexeme
import Lindenmayer.Json.Shape
import Lindenmayer.Json.Skip
import Lindenmayer.Json.Value
import Lindenmayer.Log
import Lindenmayer.Main
import Lindenmayer.Number.Angle
import Lindenmayer.Number.Layout
import Lindenmayer.Number.Numeral
import Lindenmayer.Number.Order
import Lindenmayer.Number.Rounding
import Lindenmayer.Number.Shortest
import Lindenmayer.Options
import Lindenmayer.Program
import Lindenmayer.Proofs.AlikeDrawing
import Lindenmayer.Proofs.BoundingBox
import Lindenmayer.Proofs.Brackets
import Lindenmayer.Proofs.Branches
import Lindenmayer.Proofs.CacheTransparency
import Lindenmayer.Proofs.CheckedCompilation
import Lindenmayer.Proofs.ColorTexts
import Lindenmayer.Proofs.CommandLine
import Lindenmayer.Proofs.CompactForm
import Lindenmayer.Proofs.Compilation
import Lindenmayer.Proofs.ConfigDocuments
import Lindenmayer.Proofs.Continuations
import Lindenmayer.Proofs.Conversions
import Lindenmayer.Proofs.Correspondence
import Lindenmayer.Proofs.Coverage
import Lindenmayer.Proofs.DepthFirst
import Lindenmayer.Proofs.Diagnostics
import Lindenmayer.Proofs.DistinctNumbers
import Lindenmayer.Proofs.Double
import Lindenmayer.Proofs.Evaluation
import Lindenmayer.Proofs.Exactness
import Lindenmayer.Proofs.Except
import Lindenmayer.Proofs.ExitStatus
import Lindenmayer.Proofs.Generations
import Lindenmayer.Proofs.Grammar
import Lindenmayer.Proofs.History
import Lindenmayer.Proofs.Interleaving
import Lindenmayer.Proofs.JsonForms
import Lindenmayer.Proofs.JsonLayout
import Lindenmayer.Proofs.JsonLists
import Lindenmayer.Proofs.JsonNumbers
import Lindenmayer.Proofs.JsonRecords
import Lindenmayer.Proofs.JsonSkipping
import Lindenmayer.Proofs.JsonTokens
import Lindenmayer.Proofs.LargerBound
import Lindenmayer.Proofs.Lattice
import Lindenmayer.Proofs.LawfulCodecs
import Lindenmayer.Proofs.Lexing
import Lindenmayer.Proofs.Lookups
import Lindenmayer.Proofs.Nesting
import Lindenmayer.Proofs.NumberTexts
import Lindenmayer.Proofs.Numerals
import Lindenmayer.Proofs.NumericalOrder
import Lindenmayer.Proofs.Overshoot
import Lindenmayer.Proofs.Paths
import Lindenmayer.Proofs.PreviousGeneration
import Lindenmayer.Proofs.QuarterTurns
import Lindenmayer.Proofs.Reading
import Lindenmayer.Proofs.ReadingBack
import Lindenmayer.Proofs.Records
import Lindenmayer.Proofs.Rejection
import Lindenmayer.Proofs.Renaming
import Lindenmayer.Proofs.ResultDocuments
import Lindenmayer.Proofs.Retention
import Lindenmayer.Proofs.Roundoff
import Lindenmayer.Proofs.Settings
import Lindenmayer.Proofs.Settled
import Lindenmayer.Proofs.ShortOutput
import Lindenmayer.Proofs.ShortestDigits
import Lindenmayer.Proofs.SignedZero
import Lindenmayer.Proofs.Snapping
import Lindenmayer.Proofs.Spans
import Lindenmayer.Proofs.SpelledDrawing
import Lindenmayer.Proofs.Substitution
import Lindenmayer.Proofs.Symbols
import Lindenmayer.Proofs.Terminals
import Lindenmayer.Proofs.TextForm
import Lindenmayer.Proofs.TextualRewriting
import Lindenmayer.Proofs.Unambiguous
import Lindenmayer.Proofs.Validity
import Lindenmayer.Proofs.Viability
import Lindenmayer.Proofs.WorkingMemory
import Lindenmayer.Proofs.Writing
import Lindenmayer.Proofs.WrittenNumbers
import Lindenmayer.Report
import Lindenmayer.Script.Blank
import Lindenmayer.Script.Parser
import Lindenmayer.Script.SyntaxError
import Lindenmayer.Script.Terminal
import Lindenmayer.Script.Token
import Lindenmayer.Simulator
import Lindenmayer.Sink
import Lindenmayer.Text
import Lindenmayer.Worker
