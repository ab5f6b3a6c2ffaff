import Cthulhu.Word
import Cthulhu.Lib.Linked
import Cthulhu.Lib.Run
import Cthulhu.Lib.Progress
import Cthulhu.Lib.Queues
import Cthulhu.Lib.Links
import Cthulhu.Lib.LinkCount
import Cthulhu.Lib.LinkWalk
import Cthulhu.Lib.LinkSides
import Cthulhu.Lib.LinkPaths
import Cthulhu.Lib.Spinlock
import Cthulhu.Lib.Bytes
import Cthulhu.Lib.Literals
import Cthulhu.Memory.FramePool
import Cthulhu.Memory.PoolSteps
import Cthulhu.Memory.PoolInvariant
import Cthulhu.Memory.MakePool
import Cthulhu.Memory.PoolGeometry
import Cthulhu.Memory.FrameLookup
import Cthulhu.Memory.ModuleReturn
import Cthulhu.Memory.PoolOps
import Cthulhu.Memory.PoolRuns
import Cthulhu.Memory.PageTable
import Cthulhu.Memory.Paging
import Cthulhu.Memory.BootPool
import Cthulhu.Memory.BootSearch
import Cthulhu.Memory.References
import Cthulhu.Memory.GetPage
import Cthulhu.Memory.PageWalk
import Cthulhu.Memory.Counted
import Cthulhu.Memory.Release
import Cthulhu.Memory.CountedOps
import Cthulhu.Memory.CountedLoops
import Cthulhu.Memory.LeafEntries
import Cthulhu.Memory.CountedMaps
import Cthulhu.Memory.ReferenceRuns
import Cthulhu.Lib.LinkOwners
import Cthulhu.Memory.Isolation
import Cthulhu.Memory.IsolationRuns
import Cthulhu.Memory.UserTables
import Cthulhu.Memory.UserWalks
import Cthulhu.Memory.UserRuns
import Cthulhu.Memory.Unmap
import Cthulhu.Memory.UnmapRange
import Cthulhu.Memory.Withdraw
import Cthulhu.Memory.FrameNeed
import Cthulhu.Memory.Extend
import Cthulhu.Memory.ExtendRange
import Cthulhu.Memory.Restore
import Cthulhu.Memory.Inverse
import Cthulhu.Memory.AllOrNothing
import Cthulhu.Memory.LockLog
import Cthulhu.Memory.LockCalls
import Cthulhu.Memory.LockDiscipline
import Cthulhu.Process.VaAreas
import Cthulhu.Process.VaBounds
import Cthulhu.Process.Allocation
import Cthulhu.Memory.HeapTables
import Cthulhu.Memory.HeapWalks
import Cthulhu.Process.RoundTrip
import Cthulhu.Process.KernelHalf
import Cthulhu.Process.Faults
import Cthulhu.Process.Grants
import Cthulhu.Process.Resumption
import Cthulhu.Process.AreaOrder
import Cthulhu.Process.AreaRequests
import Cthulhu.Process.AreaHoles
import Cthulhu.Process.Registers
import Cthulhu.Process.Scheduler
import Cthulhu.Process.Selection
import Cthulhu.Process.Futex
import Cthulhu.Process.SchedulerSteps
import Cthulhu.Process.FutexRuns
import Cthulhu.Process.LostWakeup
import Cthulhu.Process.Exclusive
import Cthulhu.Process.Starvation
import Cthulhu.Process.Balance
import Cthulhu.Process.TimerHook
import Cthulhu.Process.Context
import Cthulhu.Process.Creation
import Cthulhu.Process.LockCode
import Cthulhu.Process.Deadlock
import Cthulhu.Syscalls.Validate
import Cthulhu.Syscalls.CheckState
import Cthulhu.Syscalls.Classify
import Cthulhu.Syscalls.Continuation
import Cthulhu.Syscalls.Replay
import Cthulhu.Cpus.Ipi
import Cthulhu.Cpus.Shootdown
import Cthulhu.Cpus.ShootdownRuns
import Cthulhu.Cpus.Mailbox
import Cthulhu.Cpus.MailboxInvariant
import Cthulhu.Cpus.MailboxSteps
import Cthulhu.Cpus.MailboxRuns
import Cthulhu.Loader.OwnPages
import Cthulhu.Loader.Acquire
import Cthulhu.Loader.Copy
import Cthulhu.Loader.Fill
import Cthulhu.Loader.Elf
import Cthulhu.Loader.Sections
import Cthulhu.Loader.FillSection
import Cthulhu.Loader.Contents
import Cthulhu.Syscalls.Messages
import Cthulhu.Syscalls.ValidateMessage
import Cthulhu.Memory.Translate
import Cthulhu.Process.Reservations
import Cthulhu.Syscalls.ValidateString
import Cthulhu.Syscalls.StringEnds
import Cthulhu.Memory.ChangeType
import Cthulhu.Loader.Protect
import Cthulhu.Loader.Exec
import Cthulhu.Loader.Rewrites
import Cthulhu.Loader.Reload
import Cthulhu.Memory.TableTree
import Cthulhu.Process.MapPhysical
import Cthulhu.Loader.Places
import Cthulhu.Loader.Transfer
import Cthulhu.Loader.Mapped
import Cthulhu.Loader.Apart
import Cthulhu.Loader.HostileImages
import Cthulhu.Loader.ExactCopies
import Cthulhu.Rlyeh.PathTree
import Cthulhu.Rlyeh.LoadHeader
import Cthulhu.Rlyeh.Lookup
import Cthulhu.Rlyeh.PathBuffer
import Cthulhu.Rlyeh.Mkfs
import Cthulhu.Rlyeh.Image
import Cthulhu.Process.DirectAlloc
import Cthulhu.Process.FreeArea
import Cthulhu.Syscalls.InitramfsEntry
import Cthulhu.Process.Stage1
import Cthulhu.Syscalls.MessageBuffers
import Cthulhu.Syscalls.ProcessArguments
import Cthulhu.Memory.LockRelease
import Cthulhu.Syscalls.LockingCalls
import Cthulhu.Syscalls.LockingRuns
import Cthulhu.Lib.BitFields
import Cthulhu.Lib.Calendar
import Cthulhu.Lib.BoundedLog
import Cthulhu.Lib.Blocks
import Cthulhu.Lib.CInt
import Cthulhu.Lib.CivilDays
import Cthulhu.Lib.Tokens
import Cthulhu.Lib.Stopping
import Cthulhu.Memory.WritableRange
import Cthulhu.Memory.FrameBudget
import Cthulhu.Syscalls.Repair
import Cthulhu.Memory.AccessRights
import Cthulhu.Boot.AcpiTables
import Cthulhu.Boot.TableWalks
import Cthulhu.Boot.Processors
import Cthulhu.Boot.Gdt
import Cthulhu.Boot.Clock
import Cthulhu.Boot.BusyWait
import Cthulhu.Boot.DaysFromCivil
import Cthulhu.Devices.Configuration
import Cthulhu.Devices.Enumeration
import Cthulhu.Devices.Descriptions
import Cthulhu.Devices.Mmio
import Cthulhu.Devices.Drivers
import Cthulhu.Memory.Mirror
import Cthulhu.Boot.AddressSpace
import Cthulhu.Memory.SearchTermination
import Cthulhu.Memory.BootStrings
import Cthulhu.Process.AreaLookup
import Cthulhu.Syscalls.EntryCode
import Cthulhu.Syscalls.Convention
import Cthulhu.Interrupts.StubCode
import Cthulhu.Interrupts.GsRuns
import Cthulhu.Interrupts.Acknowledge
import Cthulhu.Cpus.SpinlockCode
import Cthulhu.Screen.FrameBuffer
import Cthulhu.Screen.Flush
import Cthulhu.Screen.Console
import Cthulhu.Screen.Transcript
