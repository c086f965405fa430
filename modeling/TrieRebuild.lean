import TrieRebuild.Foundation.Overlay
import TrieRebuild.Foundation.FiniteMap
import TrieRebuild.Foundation.Transaction
import TrieRebuild.Foundation.XorFold
import TrieRebuild.Trie.Types
import TrieRebuild.Trie.Updates
import TrieRebuild.Rebuild.WriteUpdates
import TrieRebuild.Rebuild.WriteSpec
import TrieRebuild.Rebuild.WriteEffect
import TrieRebuild.Rebuild.Upserts
import TrieRebuild.Sink.WriteChunks
import TrieRebuild.Foundation.Chunking
import TrieRebuild.Sink.WriterLoop
import TrieRebuild.Trie.ReferenceReth
import TrieRebuild.Sink.LastWriter
import TrieRebuild.Sink.Channel
import TrieRebuild.Sink.ChannelInvariant
import TrieRebuild.Sink.FinishingRun
import TrieRebuild.Sink.Liveness
import TrieRebuild.Sink.Conservation
import TrieRebuild.Sink.Failure
import TrieRebuild.Digest.HashInput
import TrieRebuild.Digest.NodeDigest
import TrieRebuild.Digest.ScanRanges
import TrieRebuild.Digest.TableScan
import TrieRebuild.Digest.Separation
import TrieRebuild.Foundation.Loop
import TrieRebuild.Memory.MemoryState
import TrieRebuild.Memory.WriteHashedState
import TrieRebuild.Parity
import TrieRebuild.Rebuild.EmptyTries
import TrieRebuild.Rebuild.RebuildRun
import TrieRebuild.Foundation.Interleaving
import TrieRebuild.Foundation.Words
import TrieRebuild.Digest.PushInterleaving
import TrieRebuild.Sink.Repeats
import TrieRebuild.Sink.ShardInterleaving
import TrieRebuild.Memory.SortedReads
import TrieRebuild.Synth.Shape
import TrieRebuild.Foundation.Threads
import TrieRebuild.Alloc.LiveBytes
import TrieRebuild.Alloc.Peak
import TrieRebuild.Progress.Lines
import TrieRebuild.Sink.Persisted
import TrieRebuild.Progress.Completion
import TrieRebuild.Alloc.PeakExact
import TrieRebuild.Digest.ScanErrors
import TrieRebuild.Digest.TeeSink
import TrieRebuild.Sink.Delivered
import TrieRebuild.Rebuild.Interrupted
import TrieRebuild.Bench.Args
import TrieRebuild.Bench.Guarantees
import TrieRebuild.Bench.Sessions
