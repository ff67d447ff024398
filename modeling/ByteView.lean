import ByteView.Fault
import ByteView.Platform
import ByteView.Range
import ByteView.Word
import ByteView.Bytes
import ByteView.Block
import ByteView.Store.Flat
import ByteView.Store.Segmented
import ByteView.Store
import ByteView.View
import ByteView.View.Compare
import ByteView.Mapping.Options
import ByteView.Mapping.File
import ByteView.Mapping.Memory
import ByteView.Records.Sort
import ByteView.Records.Key
import ByteView.Records.Verify
import ByteView.Session.Spec
import ByteView.Session.Run
import ByteView.Tool.Args
import ByteView.Tool.Report
import ByteView.Tool.Command
import ByteView.Tool.Cli
import ByteView.Main
import ByteView.Proofs.Bytes
import ByteView.Proofs.Block
import ByteView.Proofs.Word
import ByteView.Proofs.Segmented
import ByteView.Proofs.SegmentedRefinement
import ByteView.Proofs.Store
import ByteView.Proofs.View
import ByteView.Proofs.SortSteps
import ByteView.Proofs.SortPermutes
import ByteView.Proofs.SortOrders
import ByteView.Proofs.FileMapping
import ByteView.Proofs.SortCommand
import ByteView.Proofs.Decoding
import ByteView.Proofs.Windows
import ByteView.Proofs.SortProgress
import ByteView.Proofs.SortSorted
import ByteView.Proofs.Compare
import ByteView.Proofs.MapRegion
import ByteView.Proofs.KeyBytes
import ByteView.Proofs.VerifyOffsets
import ByteView.Proofs.SortCost
import ByteView.Proofs.SortPartition
import ByteView.Proofs.SortDepth
import ByteView.Proofs.Pieces
import ByteView.Proofs.SegmentTable
