import ActiveRmt.PyValues
import ActiveRmt.Doubles
import ActiveRmt.Programs
import ActiveRmt.Blocks
import ActiveRmt.ActiveFunction
import ActiveRmt.Allocator
import ActiveRmt.HoleScan
import ActiveRmt.Placement
import ActiveRmt.Arrivals
import ActiveRmt.Departures
import ActiveRmt.AllocatorRuns
import ActiveRmt.Augmentation
import ActiveRmt.Admission
import ActiveRmt.Capacity
import ActiveRmt.Switch
import ActiveRmt.Controller
import ActiveRmt.Handlers
import ActiveRmt.Protocol
import ActiveRmt.Mutation
import ActiveRmt.Dataplane
import ActiveRmt.InstructionTable
import ActiveRmt.Execution
import ActiveRmt.Recirculation
import ActiveRmt.MemorySync
import ActiveRmt.Compiler
import ActiveRmt.Optimizer
import ActiveRmt.Versions
import ActiveRmt.Buffers
import ActiveRmt.Client
import ActiveRmt.Frames
import ActiveRmt.ControlLoop
import ActiveRmt.Adoption
import ActiveRmt.WriteRound
import ActiveRmt.MallocRequest
import ActiveRmt.KeyedTable
import ActiveRmt.CacheRequests
import ActiveRmt.CText
import ActiveRmt.ProgramFiles
import ActiveRmt.Metadata
import ActiveRmt.CacheTimer
import ActiveRmt.HeavyHitter
import ActiveRmt.Redis
import ActiveRmt.Snapshot
import ActiveRmt.Clearing
import ActiveRmt.Bookkeeping
import ActiveRmt.Residents
import ActiveRmt.Drains
import ActiveRmt.TxQueue
import ActiveRmt.Enumeration
import ActiveRmt.FairShares
import ActiveRmt.AccessDemands
import ActiveRmt.Remapping
import ActiveRmt.Disruption
import ActiveRmt.Abandoned
import ActiveRmt.Constraints
import ActiveRmt.Offline
import ActiveRmt.Checksums
import ActiveRmt.Fragments
import ActiveRmt.PacketScan
import ActiveRmt.RespSafety
import ActiveRmt.TableMirror
import ActiveRmt.GrantTable
import ActiveRmt.Confinement
import ActiveRmt.Isolation
import ActiveRmt.Network
import ActiveRmt.ActiveLanguage
import ActiveRmt.Meaning
import ActiveRmt.SwitchCache
