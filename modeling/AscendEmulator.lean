import AscendEmulator.Lib.Run
import AscendEmulator.Lib.OrdMap
import AscendEmulator.Common.EventProofs
import AscendEmulator.Common.Scalar.Restores
import AscendEmulator.Common.Scalar.Safety
import AscendEmulator.C220.Sync.FlagsAdvance
import AscendEmulator.C220.Sync.FlagsLedger
import AscendEmulator.C220.Cube.ExactProofs
import AscendEmulator.C220.Cube.MmadProofs
import AscendEmulator.C220.Fixp.Conflict
import AscendEmulator.C220.Lsu.CommitProofs
import AscendEmulator.C220.Lsu.PipelineProofs
import AscendEmulator.C220.Lsu.StoreReplay
import AscendEmulator.C220.Memory.BiuLimit
import AscendEmulator.C220.Memory.BiuWritePhases
import AscendEmulator.C220.Memory.L1TransportProofs
import AscendEmulator.C220.Memory.TimedServiceProofs
import AscendEmulator.C220.Memory.UbServiceProofs
import AscendEmulator.C220.Mte.BiuWriteCommandsProofs
import AscendEmulator.C220.Mte.BiuWriteSourceRuns
import AscendEmulator.C220.Mte.OrderedWrites
import AscendEmulator.C220.Mte.ReturnsProofs
import AscendEmulator.Image.LoaderProofs
import AscendEmulator.Memory.HbmProofs
import AscendEmulator.Memory.MappedProofs
import AscendEmulator.Memory.PvMemoryFlat
import AscendEmulator.C220.Lsu.PortQueue
import AscendEmulator.C220.Lsu.PortQueueProofs
import AscendEmulator.C220.Lsu.WriteHazards
import AscendEmulator.C220.Lsu.Cache
import AscendEmulator.C220.Mte.BiuReadFrontend
import AscendEmulator.C220.Mte.BiuReadArbiter
import AscendEmulator.C220.Vector.Sort
import AscendEmulator.C220.Vector.SortProofs
import AscendEmulator.C220.Vector.SortOrder
import AscendEmulator.C220.Vector.Merge
import AscendEmulator.C220.Vector.MergeProofs
import AscendEmulator.C310.BufferProofs
import AscendEmulator.C220.Numeric.Fp16
import AscendEmulator.C220.Cube.FsmV0Proofs
import AscendEmulator.C220.Cube.FsmV1Proofs
import AscendEmulator.C220.Fixp.Layout
import AscendEmulator.C220.Fixp.LayoutProofs
import AscendEmulator.C220.Fixp.ExternalQueue
import AscendEmulator.C220.Fixp.ExternalQueueProofs
import AscendEmulator.C220.Fixp.ReadUopProofs
import AscendEmulator.C220.Fixp.Nz2nd
import AscendEmulator.C220.Fixp.Nz2ndProofs
import AscendEmulator.C220.Fixp.Nz2ndExact
import AscendEmulator.Lib.Extended
import AscendEmulator.C220.Cube.Slice
import AscendEmulator.C220.Cube.Hf32
import AscendEmulator.C220.Cube.SliceProofs
import AscendEmulator.C220.Memory.L0c
import AscendEmulator.C220.Mte.L1ToOut
import AscendEmulator.C220.Mte.L1ToOutProofs
import AscendEmulator.C220.Cube.Inputs
import AscendEmulator.C220.Cube.Tiles
