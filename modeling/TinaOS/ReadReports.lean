import TinaOS.BootScreen

/-!
# What a read reports

`ata_read_once` prints only when something is wrong: a line for a drive that it does not know, and
`krnl_panic` for a drive that reports a failure. The panic clears the screen and ends in a loop. It
passes the line number where its format takes a string, so the line shows what lies at that address.
-/

namespace TinaOS.Boot

open ByteMemory Stdio Vga
open Strings (ascii CString)
open Ata (AtaDrive Panic driveCase pollAtaDrive issueRead readWords delay ATA_ALT_STATUS)

variable {α δ ε : Type}

def kernelPanic : CString :=
  ⟨constant "[KERNEL_PANIC] => Kernel panic in %s at function %s", by decide⟩

def failureText : CString := ⟨constant "Device failure occurred while polling drive", by decide⟩

def pollAtaDriveText : CString := ⟨constant "poll_ata_drive", by decide⟩

def unknownDrive : CString := ⟨constant "[ATA] => ata_read_once: Unknown drive", by decide⟩

/-- The line of the panic in `poll_ata_drive`, passed as the address of a string. -/
def LINE : Ptr := 44

/-- `krnl_panic` up to its last loop. -/
def krnlPanic (K : Platform α δ ε) (fuel : ℕ) (m : Mem) (file : CString) (line : Ptr)
    (function message : CString) (t : Terminal) : Option Terminal := do
  let str ← stringAt fuel m line
  let t ← (cprintf K.above fuel Palette.red.code kernelPanic [.str file, .str str, .str function]
    (makeVgaTerminal t)).toOption
  (cprintf K.above fuel Palette.red.code message [] t).toOption

/-- `ata_read_once` with its output. A panic leaves only the terminal. -/
def ataReadOnce (K : Platform α δ ε) (file : CString) (fuel : ℕ) (buffer : Ptr) (lba : BitVec 32)
    (device : AtaDrive) (s : Mem × δ × Terminal) :
    Option (Except Terminal (Mem × δ × Terminal)) :=
  let (m, d, t) := s
  match driveCase device.driveId with
  | none => do
    let t ← (writeErrorString K.above fuel K.frame unknownDrive [] t).toOption
    some (.ok (m, d, t))
  | some drive =>
    let io := device.io
    match pollAtaDrive K.disks fuel io (issueRead K.disks lba drive io d) with
    | none => none
    | some (.error .deviceFailure) => do
      let t ← krnlPanic K fuel m file LINE pollAtaDriveText failureText t
      some (.error t)
    | some (.ok d) =>
      let (m, d) := readWords K.disks io buffer 256 (m, d)
      some (.ok (m, delay K.disks (io + ATA_ALT_STATUS) d, t))

variable {m : Mem} {str : CString}

end TinaOS.Boot
