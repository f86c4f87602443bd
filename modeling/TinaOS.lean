import TinaOS.Library.Allocator
import TinaOS.Library.BoundedLoop
import TinaOS.Library.Sequences
import TinaOS.Library.LinkedRing
import TinaOS.Library.Arena
import TinaOS.Library.ByteMemory
import TinaOS.Library.WriteLog
import TinaOS.Library.MaximalRuns
import TinaOS.Library.ObjectStore
import TinaOS.Malloc
import TinaOS.FreeList
import TinaOS.MallocSteps
import TinaOS.FreeSteps
import TinaOS.AllocatorRuns
import TinaOS.AllocatorWrites
import TinaOS.AllocatorContract
import TinaOS.FirstFit
import TinaOS.MallocSizes
import TinaOS.FreeOrder
import TinaOS.Calloc
import TinaOS.FreeRuns
import TinaOS.HeapObjects
import TinaOS.Sbrk
import TinaOS.MallocSearch
import TinaOS.SbrkFailure
import TinaOS.Strings
import TinaOS.Strsep
import TinaOS.Memcpy
import TinaOS.StringComparison
import TinaOS.Strdup
import TinaOS.SplitCopy
import TinaOS.Vga
import TinaOS.ScreenContents
import TinaOS.ScreenLines
import TinaOS.HardwareCursor
import TinaOS.Stdio
import TinaOS.Numerals
import TinaOS.FormatsAlike
import TinaOS.ItoaNumeral
import TinaOS.FormatItems
import TinaOS.FormatEnd
import TinaOS.ColoredOutput
import TinaOS.Ata
import TinaOS.AtaDevice
import TinaOS.AtaReads
import TinaOS.AtaIdentify
import TinaOS.AtaAccesses
import TinaOS.AtaSectors
import TinaOS.AtaPolling
import TinaOS.DriveTable
import TinaOS.DriveName
import TinaOS.Pci
import TinaOS.PciWords
import TinaOS.PciScan
import TinaOS.PciAccesses
import TinaOS.PciStores
import TinaOS.PciTable
import TinaOS.Keyboard
import TinaOS.MessageLines
import TinaOS.BootMessages
import TinaOS.BootScreen
import TinaOS.ReadReports
import TinaOS.MainDrive
