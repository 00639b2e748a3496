import CnnAccelerator.Lib.Clocked
import CnnAccelerator.Lib.RingFill
import CnnAccelerator.Lib.LastMax
import CnnAccelerator.Lib.Accumulate
import CnnAccelerator.Accelerator
import CnnAccelerator.Transfers
import CnnAccelerator.Counters
import CnnAccelerator.StartCommands
import CnnAccelerator.ResponseOrder
import CnnAccelerator.EventDriven
import CnnAccelerator.Scores
import CnnAccelerator.Argmax
import CnnAccelerator.Driver
import CnnAccelerator.Prediction
import CnnAccelerator.Precision
import CnnAccelerator.Isolation
import CnnAccelerator.Surplus
import CnnAccelerator.Lib.Progress
import CnnAccelerator.Termination
import CnnAccelerator.Lib.Tiling
import CnnAccelerator.Notebook
import CnnAccelerator.Aggregate
import CnnAccelerator.Layout
import CnnAccelerator.Memory
import CnnAccelerator.HostAccess
import CnnAccelerator.RunningMaximum
import CnnAccelerator.Sessions
import CnnAccelerator.ByteMemory
import CnnAccelerator.LateCalls
import CnnAccelerator.Latency
import CnnAccelerator.Quantisation
import CnnAccelerator.HeaderFile
import CnnAccelerator.Deployment
import CnnAccelerator.Quiescence
