import PipeANN.InsertSafety
import PipeANN.AllocatorBounds
import PipeANN.PageCache
import PipeANN.LabelListing
import PipeANN.MergeInPlace
import PipeANN.MergeWriteBack
import PipeANN.CollectionRestart
import PipeANN.NavigationIndex
import PipeANN.BuildProtocol
import PipeANN.FloatOrder
import PipeANN.OutputFields
import PipeANN.FilteredRemove
import PipeANN.BufferPool
import PipeANN.BackgroundWrites
import PipeANN.LockProgress
import PipeANN.SpdkProgress
import PipeANN.StringOrder
import PipeANN.StringBuckets
import PipeANN.AttrProbes
import PipeANN.LabelMerge
import PipeANN.RangeInterleaving
import PipeANN.SearchResults
import PipeANN.ContinuousWrites
import PipeANN.StringFiles
import PipeANN.ShardMergeRecords
import PipeANN.LikeMatching
import PipeANN.RangeMerge
import PipeANN.FilterTyping
import PipeANN.PageSearch
import PipeANN.PipeSearch
import PipeANN.RerankReads
import PipeANN.PageLayout
import PipeANN.RandomSlice
import PipeANN.SlotLocks
import PipeANN.SpdkReader
