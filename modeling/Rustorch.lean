import Rustorch.Planner.Peak
import Rustorch.Planner.Completeness
import Rustorch.Planner.Cycles
import Rustorch.Planner.Enumeration
import Rustorch.Cpu.InPlace
import Rustorch.Nn.StateDict
import Rustorch.Nn.Inference
import Rustorch.Optim.Resume
import Rustorch.Nn.KvHistory
import Rustorch.Nn.SamplingFilters
import Rustorch.Nn.Rope
import Rustorch.Llm.Generate
import Rustorch.Data.Coverage
import Rustorch.Gguf.Safety
import Rustorch.Gguf.SgemvQ4K
import Rustorch.Serde.Safety
import Rustorch.Serde.Checkpoint
import Rustorch.Sweep.Asha
import Rustorch.Sweep.Coverage
import Rustorch.Cuda.Live
import Rustorch.Cuda.Pending
import Rustorch.Autograd.PathSums
import Rustorch.Autograd.Transparency
import Rustorch.Console.SafeJoin
import Rustorch.Console.Resume
import Rustorch.Serve.Batches
import Rustorch.Serve.Autoscale
import Rustorch.Log.TensorBoard
import Rustorch.Rpc.Delivery
import Rustorch.Rpc.Ownership
import Rustorch.Attention.OnlineState
import Rustorch.Cpu.Gather
import Rustorch.Cpu.MaxPool
import Rustorch.Cpu.Roll
import Rustorch.Cpu.EmptyShapes
import Rustorch.Cpu.SplitCat
import Rustorch.Fusion.Dispatcher
import Rustorch.Fusion.MatmulPaths
import Rustorch.Fusion.Matcher
import Rustorch.Quant.Histogram
import Rustorch.Console.RunEvents
import Rustorch.Console.Sweeps
import Rustorch.Optim.Clip
import Rustorch.Cpu.BatchNorm
import Rustorch.Wgpu.Broadcast
import Rustorch.Wgpu.BufferPool
import Rustorch.Wgpu.Preprocessor
import Rustorch.Nn.MultiHead
import Rustorch.Wgpu.Dispatch
import Rustorch.Nn.Hooks
import Rustorch.Cuda.Representation
import Rustorch.Data.RandomCrop
import Rustorch.Nn.Rnn
import Rustorch.Llm.Qwen35Weights
