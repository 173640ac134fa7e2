import SignalisCodec.Theory.Leb128
import SignalisCodec.Theory.Overlong
import SignalisCodec.Theory.PrefixCode
import SignalisCodec.Theory.FirstSeen
import SignalisCodec.Theory.Tiling
import SignalisCodec.Theory.TwosComplement
import SignalisCodec.Theory.Audit
import SignalisCodec.Theory.Levels
import SignalisCodec.Theory.Template
import SignalisCodec.Theory.Translate
import SignalisCodec.Core.Encoder
import SignalisCodec.Core.Decoder
import SignalisCodec.Core.Indexer
import SignalisCodec.Core.Packed
import SignalisCodec.Core.ZigZag
import SignalisCodec.Grammar.ReadVarint
import SignalisCodec.Grammar.VarintExact
import SignalisCodec.Grammar.RoundTrip
import SignalisCodec.Grammar.ShortestVarint
import SignalisCodec.Grammar.ReaderRuns
import SignalisCodec.Grammar.EncoderRuns
import SignalisCodec.Grammar.Canonical
import SignalisCodec.Grammar.Packing
import SignalisCodec.Grammar.IndexSpans
import SignalisCodec.Grammar.IndexTiling
import SignalisCodec.Grammar.ErrorPosition
import SignalisCodec.Grammar.Extension
import SignalisCodec.Grammar.KeyAliasing
import SignalisCodec.Grammar.Concatenation
import SignalisCodec.Grammar.PackedConcatenation
import SignalisCodec.Tree.DepthLimit
import SignalisCodec.Tree.Calls
import SignalisCodec.Tree.CallBounds
import SignalisCodec.Tree.NestedKeys
import SignalisCodec.Tree.FlatRefinement
import SignalisCodec.Tree.Reencode
import SignalisCodec.Tree.TrialDepth
import SignalisCodec.Tree.FailingRecord
import SignalisCodec.Tree.Work
import SignalisCodec.Tree.Image
import SignalisCodec.Tree.Concatenation
import SignalisCodec.Tree.Truncation
import SignalisCodec.Tree.Nesting
import SignalisCodec.Binding.Native
import SignalisCodec.Binding.EncoderChecks
import SignalisCodec.Binding.Packed
import SignalisCodec.Binding.Reassembly
import SignalisCodec.Binding.ErrorText
import SignalisCodec.Binding.Tree
import SignalisCodec.Typed.Host
import SignalisCodec.Typed.Helpers
import SignalisCodec.Typed.Packed
import SignalisCodec.Typed.Conversions
import SignalisCodec.Typed.ZigZag
import SignalisCodec.Typed.NativeZigZag
import SignalisCodec.Typed.PackedExact
import SignalisCodec.Typed.PackedStable
import SignalisCodec.Typed.Widening
import SignalisCodec.Typed.Tag
import SignalisCodec.Lazy.Message
import SignalisCodec.Lazy.Slots
import SignalisCodec.Lazy.Agreement
import SignalisCodec.Lazy.FirstOccurrence
import SignalisCodec.Lazy.Navigation
import SignalisCodec.Lazy.Overwriting
import SignalisCodec.Lazy.Numbered
import SignalisCodec.Lazy.Typed
import SignalisCodec.Lazy.PackedFields
import SignalisCodec.Lazy.Exceptions
