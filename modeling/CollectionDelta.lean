import CollectionDelta.Main
import CollectionDelta.Text.Lossy
import CollectionDelta.Proofs.RoundTrip
import CollectionDelta.Proofs.Restoration.Acceptance
import CollectionDelta.Proofs.Release.Once
import CollectionDelta.Proofs.Format.FailedWrite
import CollectionDelta.Proofs.Format.Truncation
import CollectionDelta.Proofs.Restoration.Compared
import CollectionDelta.Proofs.Directory.Listed
import CollectionDelta.Proofs.DiffFile.RoundTrip
import CollectionDelta.Proofs.DiffFile.Confined
import CollectionDelta.Proofs.Difference.Attempts
import CollectionDelta.Proofs.Format.Finish
import CollectionDelta.Proofs.DiffFile.Overlap
import CollectionDelta.Proofs.Format.Arrival
import CollectionDelta.Proofs.Listing
import CollectionDelta.Proofs.Restoration.Repeated
import CollectionDelta.Proofs.CommandLine.Paths
import CollectionDelta.Proofs.FileTree.Fresh
import CollectionDelta.Proofs.Program.Unforced
import CollectionDelta.Proofs.Format.Canonical
import CollectionDelta.Proofs.DiffFile.Output
import CollectionDelta.Proofs.Format.Demand
import CollectionDelta.Proofs.Format.Corrupted
import CollectionDelta.Proofs.Format.Statistics
import CollectionDelta.Proofs.DiffFile.Balance
import CollectionDelta.Proofs.Restoration.Attempts
import CollectionDelta.Proofs.Comparator.Taken
import CollectionDelta.Proofs.Format.Head
import CollectionDelta.Proofs.Format.Items
import CollectionDelta.Proofs.ByteSize
import CollectionDelta.Proofs.Collection.History
import CollectionDelta.Proofs.Deflate.Bits
import CollectionDelta.Proofs.Deflate.Canonical
import CollectionDelta.Proofs.Deflate.FixedBlock
import CollectionDelta.Proofs.Deflate.RoundTrip
import CollectionDelta.Proofs.Lzma.Interval
