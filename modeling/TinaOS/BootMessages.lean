import TinaOS.DriveName
import TinaOS.MessageLines
import TinaOS.Pci

/-!
# The start of the kernel

`kernel_start` clears the screen and initializes the drivers, which print what they do. Here the
drivers print: `none` is a poll loop that exhausts its budget, or output that does not return.
Every message comes out as one line, the output changes nothing else, and the drivers do what
they do without it.
-/

namespace TinaOS.Boot

open ByteMemory Allocators Stdio Vga
open Strings (ascii CString)
open Ata (Driver PRIMARY_BUS SECONDARY_BUS MASTER_DRIVE SLAVE_DRIVE PRIMARY_IO SECONDARY_IO ATA_STATUS
  ATA_ERR ATA_DRQ NO_DRIVE ataBuffer)

variable {α δ ε : Type}

def currentOperation : CString := ⟨constant "[CurrentOperation] => %s:%s", by decide⟩

def identifyDriveText : CString := ⟨constant "identify_drive", by decide⟩

def pollingBsy : CString := ⟨constant "Polling drive until BSY bit is free", by decide⟩

def pollingDrq : CString := ⟨constant "Polling until DRQ bit is free", by decide⟩

def noDriveFound : CString :=
  ⟨constant "[ATA] => identify_drive: No drive found on %s bus", by decide⟩

def busIsOnline : CString := ⟨constant "[ATA] => identify_drive: %s bus is online", by decide⟩

/-- What `noDriveFound` calls a bus. -/
def busText (bus : BitVec 8) : CString :=
  if bus = PRIMARY_BUS then ⟨constant "primary", by decide⟩ else ⟨constant "secondary", by decide⟩

/-- What `busIsOnline` calls a bus. -/
def busTitle (bus : BitVec 8) : CString :=
  if bus = PRIMARY_BUS then ⟨constant "Primary", by decide⟩ else ⟨constant "Secondary", by decide⟩

def foundPrimaryMaster : CString :=
  ⟨constant "[ATA] => initialize_ata_driver: Found primary master drive with name: %s", by decide⟩

def foundPrimarySlave : CString :=
  ⟨constant "[ATA] => initialize_ata_driver: Found primary slave drive with name: %s", by decide⟩

def foundSecondaryMaster : CString :=
  ⟨constant "[ATA] => initialize_ata_driver: Found secondary master drive with name: %s", by decide⟩

def foundSecondarySlave : CString :=
  ⟨constant "[ATA] => initialize_ata_driver: Found secondary slave drive with name: %s", by decide⟩

def initiliazeDrivers : CString := ⟨constant "initiliaze_drivers", by decide⟩

def initializingAll : CString := ⟨constant "Initializing all drivers", by decide⟩

def kernelTitle : CString := ⟨constant "TINAOS Kernel", by decide⟩

/-- What the kernel runs on: the stack above a call, where `va_arg` looks for missing arguments,
the allocator, the devices, the address of `ata_read`, and the two colours that `ata.c` uses and no
file declares. -/
structure Platform (α δ ε : Type) where
  above : BitVec 32
  frame : List Arg
  alloc : Allocator α
  disks : Ata.Ports δ
  config : Pci.Ports ε
  ataRead : Ptr
  red : BitVec 8
  green : BitVec 8

/-- The variables of the kernel: those of the two drivers, and the terminal. -/
structure Machine (α δ ε : Type) where
  driver : Driver α δ
  config : ε
  devices : Ptr
  deviceCount : BitVec 32
  terminal : Terminal

def writeCurrentOperation (K : Platform α δ ε) (fuel : ℕ) (function text : CString) (t : Terminal) :
    Option Terminal :=
  (printf K.above fuel currentOperation [.str function, .str text] t).toOption

/-- The string at `p`, if it ends within the given number of bytes. -/
def charsAt (m : Mem) : ℕ → Ptr → Option (List (BitVec 8))
  | 0, _ => none
  | fuel + 1, p => if m p = 0 then some [] else (charsAt m fuel (p + 1)).map (m p :: ·)

def stringAt (fuel : ℕ) (m : Mem) (p : Ptr) : Option CString :=
  (charsAt m fuel p).bind fun cs => if h : 0 ∉ cs then some ⟨cs, h⟩ else none

def readStatus (K : Platform α δ ε) (fuel : ℕ) (io : BitVec 16) (s : δ × Terminal) :
    (δ × Terminal) ⊕ Option (δ × Terminal) :=
  let (status, d) := K.disks.inb (io + ATA_STATUS) s.1
  match writeCurrentOperation K fuel identifyDriveText pollingDrq s.2 with
  | none => .inr none
  | some t => if status &&& ATA_DRQ = 0 then .inl (d, t) else .inr (some (d, t))

def identifyDrive (K : Platform α δ ε) (fuel : ℕ) (bus drive : BitVec 8) (s : Mem × δ × Terminal) :
    Option (BitVec 8 × Mem × δ × Terminal) :=
  let (m, d, t) := s
  let io := if bus = PRIMARY_BUS then PRIMARY_IO else SECONDARY_IO
  let d := Ata.issueIdentify K.disks bus drive io d
  let (status, d) := K.disks.inb (io + ATA_STATUS) d
  if status ≠ 0 then
    if status &&& ATA_ERR ≠ 0 then do
      let t ← (cprintf K.above fuel Palette.cyan.code noDriveFound [.str (busText bus)] t).toOption
      some (0, m, d, t)
    else do
      let t ← writeCurrentOperation K fuel identifyDriveText pollingBsy t
      let d ← BoundedLoop.run (Ata.waitBusy K.disks io) fuel d
      let polled ← BoundedLoop.run (readStatus K fuel io) fuel (d, t)
      let (d, t) ← polled
      let t ← (cprintf K.above fuel Palette.green.code busIsOnline [.str (busTitle bus)] t).toOption
      let (m, d) := Ata.readWords K.disks io ataBuffer 256 (m, d)
      some (0, m, d, t)
  else some (0, m, d, t)

def getDriveName (K : Platform α δ ε) (fuel : ℕ) (bus drive : BitVec 8) (s : Machine α δ ε) :
    Option (Ptr × Machine α δ ε) := do
  let (found, m, d, t) ←
    identifyDrive K fuel bus drive (s.driver.mem, s.driver.ports, s.terminal)
  let s := { s with driver := { s.driver with mem := m, ports := d }, terminal := t }
  if found ≠ 0 then
    let (driveBuffer, driver) := Ata.driveName K.alloc s.driver
    let fmt ← stringAt fuel driver.mem driveBuffer
    let t ← (cprintf K.above fuel K.red fmt K.frame s.terminal).toOption
    some (driveBuffer, { s with driver := driver, terminal := t })
  else some (NO_DRIVE, s)

/-- What `initiliaze_ata_driver` does for one position. -/
def probe (K : Platform α δ ε) (fuel : ℕ) (bus slot : BitVec 8) (io : BitVec 16) (text : CString)
    (s : Machine α δ ε) : Option (Machine α δ ε) := do
  let (name, s) ← getDriveName K fuel bus slot s
  if name ≠ NO_DRIVE then
    let driver := Ata.registerDrive K.alloc K.ataRead bus slot io name s.driver
    let str ← stringAt fuel driver.mem name
    let t ← (cprintf K.above fuel K.green text [.str str] s.terminal).toOption
    some { s with driver := driver, terminal := t }
  else some s

def initiliazeAtaDriver (K : Platform α δ ε) (fuel : ℕ) (s : Machine α δ ε) :
    Option (Machine α δ ε) := do
  let s ← probe K fuel PRIMARY_BUS MASTER_DRIVE PRIMARY_IO foundPrimaryMaster s
  let s ← probe K fuel PRIMARY_BUS SLAVE_DRIVE PRIMARY_IO foundPrimarySlave s
  let s ← probe K fuel SECONDARY_BUS MASTER_DRIVE SECONDARY_IO foundSecondaryMaster s
  probe K fuel SECONDARY_BUS SLAVE_DRIVE SECONDARY_IO foundSecondarySlave s

/-- `initialize_pci_devices`, which prints nothing. -/
def initializePciDevices (K : Platform α δ ε) (s : Machine α δ ε) : Machine α δ ε :=
  let scan := Pci.initializePciDevices K.alloc K.config
    { mem := s.driver.mem, heap := s.driver.heap, ports := s.config, devices := s.devices,
      deviceCount := s.deviceCount, stores := [], indices := [], blocks := [] }
  { s with
    driver := { s.driver with mem := scan.mem, heap := scan.heap }
    config := scan.ports
    devices := scan.devices
    deviceCount := scan.deviceCount }

def initializeDrivers (K : Platform α δ ε) (fuel : ℕ) (s : Machine α δ ε) :
    Option (Machine α δ ε) := do
  let t ← writeCurrentOperation K fuel initiliazeDrivers initializingAll s.terminal
  initiliazeAtaDriver K fuel (initializePciDevices K { s with terminal := t })

/-- `kernel_start` up to its last loop, which calls `get_main_drive` for ever and changes nothing. -/
def kernelStart (K : Platform α δ ε) (fuel : ℕ) (s : Machine α δ ε) : Option (Machine α δ ε) := do
  let t ← (writePassString K.above fuel K.frame kernelTitle [] (makeVgaTerminal s.terminal)).toOption
  initializeDrivers K fuel { s with terminal := t }

def operationText (function text : CString) : List (BitVec 8) :=
  constant "[CurrentOperation] => " ++ function.chars ++ constant ":" ++ text.chars

def noDriveText (bus : BitVec 8) : List (BitVec 8) :=
  constant "[ATA] => identify_drive: No drive found on " ++ (busText bus).chars ++ constant " bus"

def onlineText (bus : BitVec 8) : List (BitVec 8) :=
  constant "[ATA] => identify_drive: " ++ (busTitle bus).chars ++ constant " bus is online"

theorem writeCurrentOperation_eq (K : Platform α δ ε) (n : ℕ) (function str : CString)
    (t : Terminal) : writeCurrentOperation K (n + 1) function str t =
      some (putLine t ⟨t.terminalColor, operationText function str⟩) := by
  have htext : currentOperation.chars =
      text (between (constant "[CurrentOperation] => ") function (constant ":") str) := by
    rw [text_between]
    decide
  have hline := printf_line htext (valid_between (by decide) (by decide) function str) K.above n [] t
  rw [args_between, printed_between] at hline
  exact congrArg Except.toOption hline

theorem cprintf_noDriveFound (above : BitVec 32) (n : ℕ) (bus : BitVec 8) (t : Terminal) :
    (cprintf above n Palette.cyan.code noDriveFound [.str (busText bus)] t).toOption =
      some (putLine t (onWhite .cyan (noDriveText bus))) :=
  cprintf_around (constant "[ATA] => identify_drive: No drive found on ") (constant " bus")
    (by decide) (by decide) (by decide) above n .cyan (busText bus) t

theorem cprintf_busIsOnline (above : BitVec 32) (n : ℕ) (bus : BitVec 8) (t : Terminal) :
    (cprintf above n Palette.green.code busIsOnline [.str (busTitle bus)] t).toOption =
      some (putLine t (onWhite .green (onlineText bus))) :=
  cprintf_around (constant "[ATA] => identify_drive: ") (constant " bus is online") (by decide)
    (by decide) (by decide) above n .green (busTitle bus) t

theorem writePassString_kernelTitle (above : BitVec 32) (n : ℕ) (frame ap : List Arg)
    (t : Terminal) : (writePassString above (n + 1) frame kernelTitle ap t).toOption =
      some (putLine t (onWhite .green kernelTitle.chars)) :=
  writeColored_plain (by decide) .green above n frame ap t

end TinaOS.Boot
