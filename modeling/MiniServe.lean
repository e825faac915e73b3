import MiniServe.Lib.Forest
import MiniServe.Cache.RadixEvict
import MiniServe.Cache.AllocRun
import MiniServe.Cache.KVRun
import MiniServe.Engine.Output
import MiniServe.Engine.Preempted
import MiniServe.Engine.Termination
import MiniServe.Server.Protocol
import MiniServe.Server.Answered
import MiniServe.Spec.Fits
import MiniServe.Spec.Gamma
import MiniServe.Spec.Readmit
import MiniServe.Engine.Sampler
import MiniServe.Engine.Overlap
import MiniServe.Server.Detokenizer
import MiniServe.Cache.KVLookup
import MiniServe.Cache.RadixLRU
import MiniServe.Engine.Arrival
import MiniServe.Engine.Budget
import MiniServe.Engine.Tables
import MiniServe.Spec.DraftPass
import MiniServe.Spec.DraftRound
import MiniServe.Spec.DraftRuns
import MiniServe.Engine.Noise
import MiniServe.Lib.TopMass
import MiniServe.Engine.Nucleus
import MiniServe.Engine.DecodeGraphs
import MiniServe.Model.Fused
import MiniServe.Server.Validation
import MiniServe.Server.DecodingStates
import MiniServe.Spec.DraftPrefill
import MiniServe.Minicore.CoreRefines
import MiniServe.Server.Cancel
import MiniServe.Engine.OnDevice
import MiniServe.Engine.Offline
import MiniServe.Engine.Sampling
import MiniServe.Model.Transfer
