import JavaFx.Lib.Run
import JavaFx.Lib.Java
import JavaFx.Lib.Memo
import JavaFx.Collections.ListChangeBuilder
import JavaFx.Collections.ListChangeTracks
import JavaFx.Collections.ListChangeAddRemove
import JavaFx.Collections.ListChangeSession
import JavaFx.Collections.ListChangeReplay
import JavaFx.Collections.SortHelperSorts
import JavaFx.Collections.SortedListRun
import JavaFx.Collections.VetoableListErrors
import JavaFx.Collections.VetoableListRemovals
import JavaFx.Binding.ContentBinding
import JavaFx.Binding.MapContentBinding
import JavaFx.Binding.SetContentBinding
import JavaFx.Binding.CollectionExpressionHelperRun
import JavaFx.Binding.ExpressionHelperRun
import JavaFx.Binding.BidirectionalCascade
import JavaFx.Binding.BidirectionalRun
import JavaFx.Css.CompoundSelector
import JavaFx.Css.SelectorPartitioningMatch
import JavaFx.Css.StylesheetReread
import JavaFx.Css.StyleMapIds
import JavaFx.Css.FindMatchingStylesShared
import JavaFx.Event.EventDispatchChain
import JavaFx.Animation.TimelineClipCore
import JavaFx.Animation.InfiniteClipEnvelopeRun
import JavaFx.Concurrent.TaskUpdates
import JavaFx.Concurrent.TaskState
import JavaFx.Concurrent.ServiceRun
import JavaFx.Scene.ParentLayoutRun
import JavaFx.Scene.ParentBoundsRun
import JavaFx.Control.TextInputControlSelect
import JavaFx.Control.TextAreaContent
import JavaFx.Control.SelectedCellsMap
import JavaFx.Control.TreeUtil
import JavaFx.Control.SelectedIndicesView
import JavaFx.Control.SelectionShift
import JavaFx.Prism.RectanglePackerRun
import JavaFx.Prism.RectanglePacker
import JavaFx.Web.CookieManagerRun
import JavaFx.Json.JSONReadersRun
import JavaFx.Json.JSONSymbolGrammar
import JavaFx.Fxml.ExpressionPriorities
import JavaFx.Fxml.ExpressionValueRun
import JavaFx.Animation.FiniteClipEnvelope
import JavaFx.Animation.AnimationSync
import JavaFx.Animation.AnimationRates
import JavaFx.Animation.AnimationPulses
import JavaFx.Scene.TabOrderCycle
import JavaFx.Prism.PrepareForAllocation
import JavaFx.Css.CascadingStyle
import JavaFx.Css.Match
import JavaFx.Css.CompoundSelectorTriggers
import JavaFx.Css.ParsedValueRoundTrip
import JavaFx.Event.CompositeEventHandlerRun
import JavaFx.Collections.SequentialListIterator
import JavaFx.Iio.PNGIDATChunkInputStream
import JavaFx.Iio.PNGImageLoader2
import JavaFx.Css.BitSetListeners
import JavaFx.Geom.DirtyRegionHalves
import JavaFx.Geom.DirtyRegionApart
import JavaFx.Iio.SmoothMinifierRun
import JavaFx.Css.PseudoClassState
import JavaFx.Control.ArrayLinkedListRun
import JavaFx.Media.VariantPlaylist
import JavaFx.Animation.SequentialTransition
import JavaFx.Fxml.ExpressionVariables
import JavaFx.Fxml.ExpressionSentences
import JavaFx.Web.DataURLRun
import JavaFx.Iio.BMPRunLengthRun
