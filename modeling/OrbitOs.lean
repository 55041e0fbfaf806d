import OrbitOs.Base.Runs
import OrbitOs.Base.TwoLevel
import OrbitOs.Fs.Initrd
import OrbitOs.Fs.InitrdRoundTrip
import OrbitOs.Fs.InitrdSafety
import OrbitOs.Kernel.CString
import OrbitOs.Memory.Blocks
import OrbitOs.Memory.PmmAccounting
import OrbitOs.Memory.PmmBounds
import OrbitOs.Memory.PmmBoot
import OrbitOs.Memory.PmmRegions
import OrbitOs.Memory.PmmInit
import OrbitOs.Memory.PmmOwnership
import OrbitOs.Memory.PmmProtection
import OrbitOs.Memory.Vmm
import OrbitOs.Memory.Rights
import OrbitOs.Memory.Access
import OrbitOs.Memory.IdentityMap
import OrbitOs.Memory.PagingStart
import OrbitOs.Process.Process
import OrbitOs.Process.Creation
import OrbitOs.Process.CreationFailure
import OrbitOs.Process.Switching
import OrbitOs.Process.OneRing
import OrbitOs.Process.Fairness
import OrbitOs.Kernel.Interrupts
import OrbitOs.Kernel.Transparency
import OrbitOs.Kernel.Syscall
import OrbitOs.Process.UserMode
import OrbitOs.Process.InterruptFlag
import OrbitOs.Process.Preemption
import OrbitOs.Base.RingBuffer
import OrbitOs.Base.RoundRobin
import OrbitOs.Drivers.Keyboard
import OrbitOs.Drivers.Terminal
import OrbitOs.Drivers.E1000
import OrbitOs.Drivers.Pci
import OrbitOs.Shell.LineEditor
import OrbitOs.Process.Access
import OrbitOs.Fs.InitrdAccess
import OrbitOs.Fs.InitrdRead
import OrbitOs.Fs.InitrdTruncation
import OrbitOs.Kernel.Paging
import OrbitOs.Fs.Console
import OrbitOs.Kernel.BootFiles
import OrbitOs.Shell.Commands
import OrbitOs.Shell.Cat
import OrbitOs.Shell.ReadBuffer
import OrbitOs.Base.Resumption
import OrbitOs.Drivers.SharedTerminal
import OrbitOs.Drivers.Uninterrupted
import OrbitOs.Base.Numerals
import OrbitOs.Kernel.Compare
import OrbitOs.Kernel.Itoa
import OrbitOs.Base.Calendar
import OrbitOs.Drivers.Rtc
import OrbitOs.Drivers.RtcReading
import OrbitOs.Drivers.RtcDecoding
import OrbitOs.Drivers.ShiftKeys
import OrbitOs.Base.Layout
import OrbitOs.Base.NumberText
import OrbitOs.Drivers.TerminalLayout
import OrbitOs.Memory.PmmInvalidFree
import OrbitOs.Machine.Pic8259
import OrbitOs.Drivers.Pic
import OrbitOs.Kernel.Delivery
import OrbitOs.Kernel.DeliveryLedger
import OrbitOs.Kernel.DeliveryProgress
import OrbitOs.Machine.Descriptors
import OrbitOs.Kernel.DescriptorTables
import OrbitOs.Kernel.Dispatch
import OrbitOs.Kernel.SystemCalls
import OrbitOs.Process.InterruptedCode
import OrbitOs.Process.Timer
import OrbitOs.Drivers.Pit
import OrbitOs.Drivers.PciSetup
import OrbitOs.Drivers.Strokes
import OrbitOs.Shell.Answers
import OrbitOs.Shell.Desk
import OrbitOs.Shell.Reports
import OrbitOs.Drivers.TerminalCursor
import OrbitOs.Shell.BootText
import OrbitOs.Shell.DeviceList
