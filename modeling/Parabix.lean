import Parabix.Library.Fault
import Parabix.Library.Buffer
import Parabix.Library.RunLength
import Parabix.Library.BitStream
import Parabix.Library.Intervals
import Parabix.UCD.UnicodeSet
import Parabix.UCD.Vectors
import Parabix.UCD.Constructors
import Parabix.UCD.QuadIterator
import Parabix.UCD.Merge
import Parabix.UCD.Operators
import Parabix.UCD.InsertRange
import Parabix.UCD.RangeMembers
import Parabix.UCD.Insert
import Parabix.UCD.InsertMembers
import Parabix.UCD.Comparison
import Parabix.UCD.Canonical
import Parabix.UCD.Reachable
import Parabix.UCD.Intervals
import Parabix.RE.CC
import Parabix.RE.Multiplex
import Parabix.RE.MultiplexExact
import Parabix.RE.ExactCode
import Parabix.Pablo.Scan
import Parabix.Pablo.StrengthReduction
import Parabix.Pablo.Expression
import Parabix.Pablo.Builder
import Parabix.Library.Bits
import Parabix.Library.DelayLine
import Parabix.Pablo.CarryManager
import Parabix.Pablo.IndexedAdvance
import Parabix.Pablo.IndexedFields
import Parabix.Pablo.CarryQueue
import Parabix.Pablo.IndexedExact
import Parabix.Pablo.LongAdvance
import Parabix.Pablo.LongBuffer
import Parabix.Pablo.LongSummary
import Parabix.Pablo.LongExact
import Parabix.Pablo.LongRun
import Parabix.Library.Branch
import Parabix.Library.Spread
import Parabix.Library.CodedText
import Parabix.Library.Compaction
import Parabix.Library.EachFrom
import Parabix.Library.Powers
import Parabix.Library.Encoding
import Parabix.Library.Fields
import Parabix.Library.LowestBit
import Parabix.Library.UTF16
import Parabix.Library.UTF8
import Parabix.UCD.Encoder
import Parabix.UCD.Ranges
import Parabix.RE.Syntax
import Parabix.RE.Meaning
import Parabix.RE.Constructors
import Parabix.RE.Repetition
import Parabix.RE.Alphabet
import Parabix.Pablo.BixNum
import Parabix.Pablo.BixNumExact
import Parabix.RE.CCCompiler
import Parabix.RE.Outline
import Parabix.RE.RepetitionExact
import Parabix.RE.RepetitionOutline
import Parabix.RE.ToUTF8
import Parabix.RE.ToUTF8Class
import Parabix.RE.ToUTF8Exact
import Parabix.IDISA.Pext
import Parabix.IDISA.Pdep
import Parabix.IDISA.Moves
import Parabix.IDISA.Expand
import Parabix.Unicode.Basis
import Parabix.Unicode.DepositMask
import Parabix.Unicode.UTF8Gen
import Parabix.Unicode.UTF8Decoder
import Parabix.Unicode.LineBreak
import Parabix.Unicode.UTF8DecoderExact
import Parabix.Unicode.LineBreakExact
import Parabix.Unicode.UTF16Gen
import Parabix.Streamutils.StreamExpand
import Parabix.Streamutils.Merge
import Parabix.Streamutils.MergeExact
import Parabix.Streamutils.StreamCompress
import Parabix.Streamutils.StreamCompressExact
import Parabix.UCD.Isolates
import Parabix.RE.CodeUnitCompiler
import Parabix.RE.TernaryCompiler
import Parabix.RE.TernaryCompilerExact
import Parabix.Pablo.Borrow
import Parabix.Pablo.Span
import Parabix.Library.Brackets
import Parabix.RE.ConstructorsExact
import Parabix.IDISA.Compress
import Parabix.IDISA.CompressARM
import Parabix.Util.Nesting
import Parabix.Library.Base64
import Parabix.Library.Placement
import Parabix.Library.PrefixOrder
import Parabix.RE.Memoization
import Parabix.RE.MemoizationExact
import Parabix.IDISA.Vectors
import Parabix.Pablo.EveryNth
import Parabix.Unicode.SelfComposable
import Parabix.Unicode.SelfComposableExact
import Parabix.Streamutils.FilterByMask
import Parabix.Streamutils.SpreadMask
import Parabix.Util.Radix64
import Parabix.Util.Radix64Exact
import Parabix.Library.CanonicalOrder
import Parabix.Library.Expansion
import Parabix.Pablo.BixNumDivision
import Parabix.Unicode.Hangul
import Parabix.UCD.Normalization
import Parabix.UCD.NormalizationExact
import Parabix.Unicode.HangulComposition
import Parabix.Unicode.HangulExact
import Parabix.Unicode.HangulCompositionExact
import Parabix.RE.SetOperations
import Parabix.RE.StarNormal
import Parabix.Pablo.ExpressionTable
import Parabix.Pablo.ExpressionTableExact
import Parabix.Library.IndexedRun
import Parabix.RE.BoundedRepetition
import Parabix.Pablo.Folds
import Parabix.Pablo.FoldsExact
import Parabix.RE.Anchors
import Parabix.RE.RemoveEmpty
import Parabix.Library.WithoutEmpty
import Parabix.RE.RemoveEmptyExact
import Parabix.RE.Assertions
import Parabix.Library.Spans
import Parabix.RE.Boundaries
import Parabix.RE.BoundariesExact
import Parabix.RE.WordBoundaries
import Parabix.RE.WordBoundariesExact
import Parabix.Library.WordStore
import Parabix.Streamutils.ScanSpreadMask
import Parabix.Streamutils.UnitSpreadMask
import Parabix.Streamutils.ScanSpreadMaskExact
import Parabix.Streamutils.DirectSpreadMaskExact
import Parabix.Library.CountedRun
import Parabix.RE.Characteristic
import Parabix.RE.CharacteristicExact
import Parabix.Library.Avoiding
import Parabix.RE.ClassOverlap
import Parabix.RE.Transformer
import Parabix.RE.ExcludeCC
import Parabix.RE.Expression
import Parabix.RE.LengthRange
import Parabix.RE.LengthRangeExact
import Parabix.RE.Nullable
import Parabix.RE.LineAnchors
import Parabix.RE.RemoveNullable
import Parabix.RE.FirstSymbol
import Parabix.RE.FirstSymbolExact
import Parabix.RE.PartialMatches
import Parabix.RE.SequenceSearch
import Parabix.RE.SequenceSearchExact
import Parabix.RE.VariableAltPromotion
import Parabix.RE.UniquePrefix
import Parabix.RE.Reverse
import Parabix.UCD.IntervalMembers
import Parabix.UCD.Selection
import Parabix.RE.LookaheadPromotion
import Parabix.RE.ExpressionConstructors
import Parabix.RE.GraphemeMode
import Parabix.RE.GraphemeModeExact
import Parabix.RE.LookaheadPromotionExact
import Parabix.RE.MultiplexInverse
import Parabix.RE.NameLookaheads
import Parabix.RE.NameLookaheadsExact
import Parabix.RE.Permute
import Parabix.RE.PermuteLetters
import Parabix.RE.Unroll
import Parabix.Pablo.BixNumComparison
import Parabix.Pablo.StatementBuilder
import Parabix.IDISA.Shifts
import Parabix.IDISA.BlockAdvance
import Parabix.IDISA.VariableShifts
import Parabix.IDISA.Extraction
import Parabix.Streamutils.Deletion
import Parabix.Streamutils.PdepKernel
import Parabix.Streamutils.RunIndex
import Parabix.Streamutils.UntilN
import Parabix.UCD.CommonCodeUnits
import Parabix.RE.FixedMatchSpans
import Parabix.RE.MatchLengths
import Parabix.IDISA.PopCount
import Parabix.Streamutils.StringInsert
import Parabix.Library.Turnstiles
import Parabix.Pipeline.Synchronization
import Parabix.Library.Increments
import Parabix.RE.BlockCompiler
import Parabix.RE.BlockCompilerSteps
import Parabix.RE.BlockCompilerOperators
import Parabix.RE.BlockCompilerExact
