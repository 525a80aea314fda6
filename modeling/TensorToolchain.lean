import TensorToolchain.CommandLine.ConfigFile
import TensorToolchain.CommandLine.Endpoint
import TensorToolchain.CommandLine.Frontend
import TensorToolchain.CommandLine.MemoryPool
import TensorToolchain.CommandLine.ModelInput
import TensorToolchain.CommandLine.PassConfig
import TensorToolchain.CommandLine.ProjectOption
import TensorToolchain.CommandLine.Shape
import TensorToolchain.Device
import TensorToolchain.ErrorText
import TensorToolchain.Firmware.Request
import TensorToolchain.GpuKernel.Request
import TensorToolchain.LayoutChoice.Request
import TensorToolchain.Microkernel.Request
import TensorToolchain.Number.UnitPrefix
import TensorToolchain.Operator.Registry
import TensorToolchain.Proofs.CommandLine
import TensorToolchain.Proofs.FastConvolution
import TensorToolchain.Proofs.Firmware.SoundPlacement
import TensorToolchain.Proofs.Firmware.StorageMap
import TensorToolchain.Proofs.GpuKernel
import TensorToolchain.Proofs.LayoutChoice.FollowableLinks
import TensorToolchain.Proofs.LayoutChoice.GraphRun
import TensorToolchain.Proofs.LayoutChoice.LeastChoice
import TensorToolchain.Proofs.Microkernel.Declarations
import TensorToolchain.Proofs.Microkernel.Rescaling
import TensorToolchain.Proofs.Npu
import TensorToolchain.Proofs.Number.FixedPoint
import TensorToolchain.Proofs.Pipeline.Listing
import TensorToolchain.Proofs.ProjectServer
import TensorToolchain.Proofs.Script.Chains
import TensorToolchain.Proofs.Script.Scopes
import TensorToolchain.Proofs.Tensor.Slices
import TensorToolchain.Proofs.Tracker.Lifetimes
import TensorToolchain.Proofs.Tuning.NextIndex
import TensorToolchain.Proofs.Tuning.Recall
import TensorToolchain.Proofs.Tuning.Reorderings
import TensorToolchain.Proofs.Tuning.WorkloadFactor
import TensorToolchain.Proofs.TypeNames
import TensorToolchain.Requirements.Join
import TensorToolchain.Script.Intrinsics
import TensorToolchain.Tensor.TileLayout
import TensorToolchain.TextAttributes
import TensorToolchain.Tracker.Session
import TensorToolchain.Tracker.Summary
import TensorToolchain.Tuning.FeaturePacking
import TensorToolchain.Tuning.RoundedText
import TensorToolchain.Tuning.Session
