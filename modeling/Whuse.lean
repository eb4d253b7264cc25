import Whuse.MachineWord
import Whuse.IntervalTable
import Whuse.AddressSpace
import Whuse.CallRuns
import Whuse.MappingTable
import Whuse.OwnedMapping
import Whuse.ProtectionMap
import Whuse.UserMemory
import Whuse.CallEffects
import Whuse.ForkIsolation
import Whuse.MappingContents
import Whuse.ElfLoader
import Whuse.FrameExclusivity
import Whuse.TrapHandler
import Whuse.TrapReturn
import Whuse.BlockingCalls
import Whuse.BlockRestart
import Whuse.PagedView
import Whuse.RadixTable
import Whuse.RadixPaging
import Whuse.PageTables
import Whuse.PageTableWalk
import Whuse.MemoryCalls
import Whuse.HardwareView
import Whuse.SchedulerConservation
import Whuse.CountedQueue
import Whuse.PipeObjects
import Whuse.PipeQueues
import Whuse.LockSafety
import Whuse.SignalFrame
import Whuse.ProcessTable
import Whuse.TableEffects
import Whuse.WaitReaping
import Whuse.ExitIsolation
import Whuse.ProcessCalls
import Whuse.ExecCall
import Whuse.ExecFailure
import Whuse.TableFiling
import Whuse.TaskAgreement
import Whuse.AgreementRuns
import Whuse.WaitBook
import Whuse.FutexCalls
import Whuse.FutexQueues
import Whuse.FutexRuns
import Whuse.FutexSeparation
import Whuse.VforkOrder
import Whuse.PipeCalls
import Whuse.PipeReadiness
import Whuse.PipeWakeups
import Whuse.AliasGroups
import Whuse.OffsetCalls
import Whuse.SharedOffsets
import Whuse.GroupAttributes
import Whuse.ParentLinks
import Whuse.PrivilegeSets
import Whuse.DeathNotices
import Whuse.LinkedWalk
import Whuse.RobustLists
import Whuse.ExitObligations
import Whuse.LostSignals
import Whuse.NameCalls
import Whuse.NameEdits
import Whuse.DirectoryTree
import Whuse.NameLookups
import Whuse.OpenFrames
import Whuse.ByteAccess
import Whuse.FrameBudget
import Whuse.Placement
import Whuse.CloneEquivalence
import Whuse.ScriptHops
import Whuse.FutexOrder
import Whuse.LockNormalForm
import Whuse.SubtreeExit
import Whuse.RobustWalk
import Whuse.UserStrings
import Whuse.StartupStack
import Whuse.CloneFailure
import Whuse.RegularFiles
import Whuse.HandlerReentry
import Whuse.RoundRobin
import Whuse.DirectoryListing
import Whuse.CloseRange
import Whuse.SectorReads
import Whuse.MountLookup
import Whuse.DescriptorSets
import Whuse.RangedReads
import Whuse.PathTexts
import Whuse.RawChecksum
import Whuse.ContextIsolation
