import Sink.Admission.Wakeups
import Sink.Attempts
import Sink.Batches.Combine
import Sink.Batches.QueueShutdown
import Sink.Batches.Waves
import Sink.Budgets
import Sink.Capacity.ScopeSafety
import Sink.Concurrent
import Sink.Exhaustion
import Sink.FailureBudget
import Sink.Gateway.Affinity
import Sink.Gateway.Retry
import Sink.Kafka.Replicas
import Sink.Merge.Decoding
import Sink.Merge.Fidelity
import Sink.Merge.TestNumbers
import Sink.Native.Protection
import Sink.Reads.Rounds
import Sink.Records.Reads
import Sink.Scan.Commands
import Sink.Scan.MongoScan
import Sink.Scan.SearchScan
import Sink.Search.Replace
import Sink.Search.SplitReads
