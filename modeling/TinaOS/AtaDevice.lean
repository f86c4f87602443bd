import TinaOS.Ata
import Mathlib.Logic.Function.Basic

/-!
# Reading one sector from a disk

A controller has two buses, each with a task file, a transfer in progress and a record of
the read commands it got. Status reads answer busy for a while after a command, for as
long as the controller likes. The driver leaves one address register unwritten and gives
another the wrong byte, so what it reads depends on the register it left alone.
-/

namespace TinaOS.Ata

open ByteMemory

inductive Bus where
  | primary | secondary
  deriving DecidableEq, Repr

inductive Slot where
  | master | slave
  deriving DecidableEq, Repr

def Bus.code : Bus → Byte
  | .primary => PRIMARY_BUS
  | .secondary => SECONDARY_BUS

def Bus.base : Bus → BitVec 16
  | .primary => PRIMARY_IO
  | .secondary => SECONDARY_IO

def Slot.code : Slot → Byte
  | .master => MASTER_DRIVE
  | .slave => SLAVE_DRIVE

/-- The `drive_id` that the driver assigns. -/
def driveId (b : Bus) (slot : Slot) : Byte := b.code <<< 1 ||| slot.code

abbrev Sector := ℕ → BitVec 16

/-- One bus of the controller: the last byte written to each register of the task file, the
status reads still answered busy, and the transfer. `issued` records the drive and the sector
of each read command, the latest first. -/
structure Channel where
  regs : BitVec 16 → Byte
  busy : ℕ
  sector : Sector
  pos : ℕ
  issued : List (Slot × BitVec 28)

def Channel.selected (c : Channel) : Slot :=
  if (c.regs ATA_HD_SEL).getLsbD 4 then .slave else .master

/-- The 28-bit sector number in the task file. -/
def Channel.address (c : Channel) : BitVec 28 :=
  (c.regs ATA_HD_SEL).extractLsb' 0 4 ++ c.regs ATA_LBA_HIGH ++ c.regs ATA_LBA_MID ++
    c.regs ATA_LBA_LOW

abbrev Disks := Slot → BitVec 28 → Sector

/-- A write to a register; a read command starts a transfer, after `wait` busy status reads. -/
def Channel.outb (disks : Disks) (wait : Channel → ℕ) (off : BitVec 16) (v : Byte) (c : Channel) :
    Channel :=
  if off = ATA_COMMAND then
    if v = ATA_COMMAND_READ_PIO then
      { c with
        busy := wait c
        sector := disks c.selected c.address
        pos := 0
        issued := (c.selected, c.address) :: c.issued }
    else c
  else { c with regs := Function.update c.regs off v }

def Channel.inb (off : BitVec 16) (c : Channel) : Byte × Channel :=
  if off = ATA_STATUS then
    if c.busy = 0 then (if c.pos < 256 then ATA_DRQ else 0, c)
    else (ATA_BSY, { c with busy := c.busy - 1 })
  else (c.regs off, c)

def Channel.inw (off : BitVec 16) (c : Channel) : BitVec 16 × Channel :=
  if off = ATA_DATA ∧ c.pos < 256 then (c.sector c.pos, { c with pos := c.pos + 1 })
  else (0xFFFF, c)

def decode (port : BitVec 16) : Option (Bus × BitVec 16) :=
  if port - PRIMARY_IO < 8 then some (.primary, port - PRIMARY_IO)
  else if port - SECONDARY_IO < 8 then some (.secondary, port - SECONDARY_IO)
  else none

/-- The standard controller, over any contents of the disks. Ports of no register read as
all ones. -/
def controller (disks : Bus → Disks) (wait : Bus → Channel → ℕ) : Ports (Bus → Channel) where
  inb port d := match decode port with
    | none => (0xFF, d)
    | some (b, off) => ((Channel.inb off (d b)).1, Function.update d b (Channel.inb off (d b)).2)
  inw port d := match decode port with
    | none => (0xFFFF, d)
    | some (b, off) => ((Channel.inw off (d b)).1, Function.update d b (Channel.inw off (d b)).2)
  outb port v d := match decode port with
    | none => d
    | some (b, off) => Function.update d b (Channel.outb (disks b) (wait b) off v (d b))

variable {disks : Bus → Disks} {wait : Bus → Channel → ℕ} {b : Bus} {c : Channel}
  {d : Bus → Channel} {off : BitVec 16}

theorem decode_base (b : Bus) (h : off < 8) : decode (b.base + off) = some (b, off) := by
  have hp : PRIMARY_IO + off - PRIMARY_IO = off := by rw [BitVec.add_comm, BitVec.add_sub_cancel]
  have hs : SECONDARY_IO + off - SECONDARY_IO = off := by
    rw [BitVec.add_comm, BitVec.add_sub_cancel]
  cases b with
  | primary => simp only [decode, Bus.base, hp, h, if_true]
  | secondary =>
    have hn : ¬ SECONDARY_IO + off - PRIMARY_IO < 8 := by
      simp only [BitVec.lt_def, PRIMARY_IO, SECONDARY_IO, BitVec.toNat_sub, BitVec.toNat_add,
        BitVec.reduceToNat] at *
      omega
    simp only [decode, Bus.base, hn, hs, h, if_true, if_false]

theorem controller_outb (h : off < 8) (v : Byte) (d : Bus → Channel) :
    (controller disks wait).outb (b.base + off) v d =
      Function.update d b (Channel.outb (disks b) (wait b) off v (d b)) := by
  simp only [controller, decode_base b h]

theorem controller_inb (h : off < 8) (d : Bus → Channel) :
    (controller disks wait).inb (b.base + off) d =
      ((Channel.inb off (d b)).1, Function.update d b (Channel.inb off (d b)).2) := by
  simp only [controller, decode_base b h]

theorem controller_inw (h : off < 8) (d : Bus → Channel) :
    (controller disks wait).inw (b.base + off) d =
      ((Channel.inw off (d b)).1, Function.update d b (Channel.inw off (d b)).2) := by
  simp only [controller, decode_base b h]

/-- The port that the driver takes for the alternate status belongs to no register. -/
theorem delay_altStatus (b : Bus) (d : Bus → Channel) :
    delay (controller disks wait) (b.base + ATA_ALT_STATUS) d = d := by
  cases b <;> rfl

/-- The task file when the command is written: one register keeps what it held. -/
def taskFile (lba : BitVec 32) (drive : Byte) (c : Channel) : Channel :=
  let command : Byte := if drive = MASTER_DRIVE then 0xE0 else 0xF0
  let regs := Function.update c.regs ATA_HD_SEL (command ||| (lba >>> 24 &&& 0x0F).setWidth 8)
  let regs := Function.update regs 1 0x00
  let regs := Function.update regs ATA_SECTOR_COUNT_0 1
  let regs := Function.update regs ATA_LBA_LOW (lba.setWidth 8)
  { c with regs := Function.update regs ATA_LBA_MID ((lba >>> 16).setWidth 8) }

theorem issueRead_eq (disks : Bus → Disks) (wait : Bus → Channel → ℕ) (b : Bus) (lba : BitVec 32)
    (drive : Byte) (d : Bus → Channel) :
    issueRead (controller disks wait) lba drive b.base d =
      Function.update d b (Channel.outb (disks b) (wait b) ATA_COMMAND ATA_COMMAND_READ_PIO
        (taskFile lba drive (d b))) := by
  have hcommand : ATA_COMMAND < 8 := by decide
  have hregs : ATA_HD_SEL < 8 ∧ (1 : BitVec 16) < 8 ∧ ATA_SECTOR_COUNT_0 < 8 ∧ ATA_LBA_LOW < 8 ∧
      ATA_LBA_MID < 8 := by decide
  obtain ⟨h₁, h₂, h₃, h₄, h₅⟩ := hregs
  simp only [issueRead, controller_outb hcommand, controller_outb h₁, controller_outb h₂,
    controller_outb h₃, controller_outb h₄, controller_outb h₅, Function.update_self,
    Function.update_idem]
  rfl

theorem inb_status_busy (h : c.busy ≠ 0) :
    Channel.inb ATA_STATUS c = (ATA_BSY, { c with busy := c.busy - 1 }) := by
  rw [Channel.inb, if_pos rfl, if_neg h]

theorem inb_status_ready (h : c.busy = 0) (hpos : c.pos < 256) :
    Channel.inb ATA_STATUS c = (ATA_DRQ, c) := by
  rw [Channel.inb, if_pos rfl, if_pos h, if_pos hpos]

theorem run_retryPoll (hpos : c.pos < 256) {fuel : ℕ} (hf : c.busy < fuel) :
    BoundedLoop.run (retryPoll (controller disks wait) b.base) fuel (Function.update d b c) =
      some (Function.update d b { c with busy := 0 }) := by
  have hstatus : ATA_STATUS < 8 := by decide
  induction fuel generalizing c with
  | zero => omega
  | succ fuel ih =>
    by_cases hb : c.busy = 0
    · have hstep : retryPoll (controller disks wait) b.base (Function.update d b c) =
          .inr (Function.update d b c) := by
        simp only [retryPoll, controller_inb hstatus, Function.update_self, Function.update_idem,
          inb_status_ready hb hpos]
        exact if_neg (by decide)
      rw [BoundedLoop.run_of_inr hstep, ← hb]
    · have hstep : retryPoll (controller disks wait) b.base (Function.update d b c) =
          .inl (Function.update d b { c with busy := c.busy - 1 }) := by
        simp only [retryPoll, controller_inb hstatus, Function.update_self, Function.update_idem,
          inb_status_busy hb]
        exact if_pos (by decide)
      have hnext := ih (c := { c with busy := c.busy - 1 }) hpos (by simp only; omega)
      rw [BoundedLoop.run_of_inl hstep, hnext]

theorem pollAtaDrive_eq (hpos : c.pos < 256) {fuel : ℕ} (hf : c.busy < fuel) :
    pollAtaDrive (controller disks wait) fuel b.base (Function.update d b c) =
      some (.ok (Function.update d b { c with busy := 0 })) := by
  have hstatus : ATA_STATUS < 8 := by decide
  obtain ⟨fuel, rfl⟩ : ∃ k, fuel = k + 1 := ⟨fuel - 1, by omega⟩
  have hready : retryPollAgain (controller disks wait) b.base
      (Function.update d b { c with busy := 0 }) =
        .inr (.ok (Function.update d b { c with busy := 0 })) := by
    simp only [retryPollAgain, controller_inb hstatus, Function.update_self, Function.update_idem,
      inb_status_ready (c := { c with busy := 0 }) rfl hpos]
    exact (if_neg (by decide)).trans (if_neg (by decide))
  rw [pollAtaDrive, delay_altStatus]
  simp only [run_retryPoll hpos hf]
  exact BoundedLoop.run_of_inr hready fuel

def sectorByte (sector : Sector) (j : ℕ) : Byte := (sector (j / 2)).extractLsb' (8 * (j % 2)) 8

theorem store16_writeBytes (m : Mem) (a : Ptr) (sector : Sector) {i : ℕ} (hi : 2 * i + 2 ≤ 2 ^ 32) :
    store16 (writeBytes m a (2 * i) (sectorByte sector)) (a + BitVec.ofNat 32 (i * 2)) (sector i) =
      writeBytes m a (2 * (i + 1)) (sectorByte sector) := by
  rw [Nat.mul_add, ← writeBytes_append m a (sectorByte sector) hi, store16, Nat.mul_comm i 2]
  apply writeBytes_congr
  intro j hj
  have hdiv : (2 * i + j) / 2 = i := by omega
  have hmod : (2 * i + j) % 2 = j := by omega
  rw [sectorByte, hdiv, hmod]

theorem readWords_succ {P : Ports δ} {io : BitVec 16} {buffer : Ptr} {n : ℕ} {s : Mem × δ} {m : Mem}
    {d : δ} (h : readWords P io buffer n s = (m, d)) :
    readWords P io buffer (n + 1) s =
      (store16 m (buffer + BitVec.ofNat 32 (n * 2)) (P.inw (io + ATA_DATA) d).1,
        (P.inw (io + ATA_DATA) d).2) := by
  rw [readWords] at h
  rw [readWords, List.range_succ, List.foldl_append, h]
  rfl

theorem readWords_eq (m : Mem) (buffer : Ptr) {n : ℕ} (hn : n ≤ 256) :
    readWords (controller disks wait) b.base buffer n (m, Function.update d b { c with pos := 0 }) =
      (writeBytes m buffer (2 * n) (sectorByte c.sector),
        Function.update d b { c with pos := n }) := by
  have hdata : ATA_DATA < 8 := by decide
  induction n with
  | zero => rfl
  | succ n ih =>
    have hword : Channel.inw ATA_DATA { c with pos := n } = (c.sector n, { c with pos := n + 1 }) :=
      if_pos ⟨rfl, hn⟩
    rw [readWords_succ (ih (by omega)), controller_inw hdata, Function.update_self,
      Function.update_idem, hword, store16_writeBytes m buffer c.sector (by omega)]

def Channel.started (disks : Disks) (busy : ℕ) (c : Channel) : Channel :=
  { c with
    busy := busy
    sector := disks c.selected c.address
    pos := 0
    issued := (c.selected, c.address) :: c.issued }

theorem outb_read (disks : Disks) (wait : Channel → ℕ) (c : Channel) :
    Channel.outb disks wait ATA_COMMAND ATA_COMMAND_READ_PIO c = c.started disks (wait c) := by
  rw [Channel.outb, if_pos rfl, if_pos rfl, Channel.started]

/-- The command is answered to its last word. -/
def Channel.finished (disks : Disks) (c : Channel) : Channel := { c.started disks 0 with pos := 256 }

/-- The driver returns with the sector that its command addressed, in the buffer; on the other bus
nothing has changed. -/
theorem ataReadOnce_update (disks : Bus → Disks) (wait : Bus → Channel → ℕ) {drive : Byte}
    {device : AtaDrive} (hid : driveCase device.driveId = some drive) (hio : device.io = b.base)
    (buffer : Ptr) (lba : BitVec 32) (m : Mem) (d : Bus → Channel) :
    ∃ fuel, ataReadOnce (controller disks wait) fuel buffer lba device (m, d) =
      some (.ok (writeBytes m buffer 512 (sectorByte (disks b (taskFile lba drive (d b)).selected
        (taskFile lba drive (d b)).address)),
        Function.update d b ((taskFile lba drive (d b)).finished (disks b)))) := by
  generalize hc : taskFile lba drive (d b) = c
  have hissue := issueRead_eq disks wait b lba drive d
  rw [hc, outb_read] at hissue
  have hpoll : pollAtaDrive (controller disks wait) (wait b c + 1) b.base
      (Function.update d b (c.started (disks b) (wait b c))) =
        some (.ok (Function.update d b (c.started (disks b) 0))) :=
    pollAtaDrive_eq (Nat.zero_lt_succ 255) (Nat.lt_succ_self _)
  have hwords : readWords (controller disks wait) b.base buffer 256
      (m, Function.update d b (c.started (disks b) 0)) =
        (writeBytes m buffer 512 (sectorByte (disks b c.selected c.address)),
          Function.update d b (c.finished (disks b))) :=
    readWords_eq (c := c.started (disks b) 0) (n := 256) m buffer (Nat.le_refl _)
  refine ⟨wait b c + 1, ?_⟩
  simp only [ataReadOnce, hid, hio, hissue, hpoll, hwords, delay_altStatus]

theorem ataReadOnce_eq (disks : Bus → Disks) (wait : Bus → Channel → ℕ) {drive : Byte}
    {device : AtaDrive} (hid : driveCase device.driveId = some drive) (hio : device.io = b.base)
    (buffer : Ptr) (lba : BitVec 32) (m : Mem) (d : Bus → Channel) :
    ∃ fuel d', ataReadOnce (controller disks wait) fuel buffer lba device (m, d) =
      some (.ok (writeBytes m buffer 512 (sectorByte (disks b (taskFile lba drive (d b)).selected
        (taskFile lba drive (d b)).address)), d')) ∧
      (d' b).issued = ((taskFile lba drive (d b)).selected, (taskFile lba drive (d b)).address) ::
        (d b).issued := by
  obtain ⟨fuel, hread⟩ := ataReadOnce_update disks wait hid hio buffer lba m d
  refine ⟨fuel, _, hread, ?_⟩
  rw [Function.update_self]
  rfl

/-- The drive that the `switch` takes for the one that is named. -/
def picked (b : Bus) (slot : Slot) : Slot := if b = .secondary then .master else slot

theorem driveCase_driveId (b : Bus) (slot : Slot) :
    driveCase (driveId b slot) = some (picked b slot).code := by
  cases b <;> cases slot <;> decide

theorem shiftRight_setWidth (lba : BitVec 32) : (lba >>> 16).setWidth 8 = lba.extractLsb' 16 8 := by
  ext i hi
  simp

theorem nibble_eq (lba : BitVec 32) :
    (lba >>> 24 &&& 0x0F).setWidth 8 = 0#4 ++ lba.extractLsb' 24 4 := by
  apply BitVec.eq_of_toNat_eq
  have hand : (lba >>> 24 &&& 0x0F).toNat = lba.toNat >>> 24 % 2 ^ 4 := by
    rw [BitVec.toNat_and, BitVec.toNat_ushiftRight]
    exact Nat.and_two_pow_sub_one_eq_mod _ 4
  have happend : (0#4 ++ lba.extractLsb' 24 4).toNat = lba.toNat >>> 24 % 2 ^ 4 := by
    rw [BitVec.toNat_append, BitVec.extractLsb'_toNat, BitVec.toNat_ofNat, Nat.zero_mod,
      Nat.zero_shiftLeft, Nat.zero_or]
  rw [BitVec.toNat_setWidth, hand, happend]
  omega

/-- The upper half of the byte that selects a drive. -/
def Slot.commandBits : Slot → BitVec 4
  | .master => 0xE
  | .slave => 0xF

theorem regs_hdSel (lba : BitVec 32) (slot : Slot) (c : Channel) :
    (taskFile lba slot.code c).regs ATA_HD_SEL =
      slot.commandBits ++ lba.extractLsb' 24 4 := by
  have hregs : (taskFile lba slot.code c).regs ATA_HD_SEL =
      (if slot.code = MASTER_DRIVE then 0xE0 else 0xF0 : Byte) |||
        (lba >>> 24 &&& 0x0F).setWidth 8 := by
    simp only [taskFile]
    rw [Function.update_of_ne (by decide), Function.update_of_ne (by decide),
      Function.update_of_ne (by decide), Function.update_of_ne (by decide), Function.update_self]
  rw [hregs, nibble_eq]
  cases slot with
  | master =>
    have hcommand : (0xE0 : Byte) = 0xE#4 ++ 0#4 := rfl
    have hmaster : Slot.master.code = MASTER_DRIVE := rfl
    rw [if_pos hmaster, hcommand, BitVec.or_append, BitVec.zero_or, BitVec.or_zero]
    rfl
  | slave =>
    have hcommand : (0xF0 : Byte) = 0xF#4 ++ 0#4 := rfl
    have hslave : Slot.slave.code ≠ MASTER_DRIVE := by decide
    rw [if_neg hslave, hcommand, BitVec.or_append, BitVec.zero_or, BitVec.or_zero]
    rfl

theorem selected_taskFile (lba : BitVec 32) (slot : Slot) (c : Channel) :
    (taskFile lba slot.code c).selected = slot := by
  rw [Channel.selected, regs_hdSel, BitVec.getLsbD_append]
  cases slot <;> rfl

theorem address_taskFile (lba : BitVec 32) (slot : Slot) (c : Channel) :
    (taskFile lba slot.code c).address = lba.extractLsb' 24 4 ++ c.regs ATA_LBA_HIGH ++
      lba.extractLsb' 16 8 ++ lba.extractLsb' 0 8 := by
  have hhigh : (taskFile lba slot.code c).regs ATA_LBA_HIGH = c.regs ATA_LBA_HIGH := by
    simp only [taskFile]
    rw [Function.update_of_ne (by decide), Function.update_of_ne (by decide),
      Function.update_of_ne (by decide), Function.update_of_ne (by decide),
      Function.update_of_ne (by decide)]
  have hmid : (taskFile lba slot.code c).regs ATA_LBA_MID = lba.extractLsb' 16 8 := by
    simp only [taskFile, Function.update_self, shiftRight_setWidth]
  have hlow : (taskFile lba slot.code c).regs ATA_LBA_LOW = lba.extractLsb' 0 8 := by
    simp only [taskFile]
    rw [Function.update_of_ne (by decide), Function.update_self,
      BitVec.setWidth_eq_extractLsb' (by decide)]
  rw [Channel.address, regs_hdSel, BitVec.extractLsb'_append_eq_right, hhigh, hmid, hlow]

theorem setWidth_eq_bytes (lba : BitVec 32) :
    lba.setWidth 28 = lba.extractLsb' 24 4 ++ lba.extractLsb' 16 8 ++ lba.extractLsb' 8 8 ++
      lba.extractLsb' 0 8 := by
  have h₁ : lba.extractLsb' 24 4 ++ lba.extractLsb' 16 8 = lba.extractLsb' 16 12 :=
    BitVec.extractLsb'_append_extractLsb'_eq_extractLsb' rfl
  have h₂ : lba.extractLsb' 16 12 ++ lba.extractLsb' 8 8 = lba.extractLsb' 8 20 :=
    BitVec.extractLsb'_append_extractLsb'_eq_extractLsb' rfl
  have h₃ : lba.extractLsb' 8 20 ++ lba.extractLsb' 0 8 = lba.extractLsb' 0 28 :=
    BitVec.extractLsb'_append_extractLsb'_eq_extractLsb' rfl
  rw [h₁, h₂, h₃, BitVec.setWidth_eq_extractLsb' (by decide)]

/-- The address that the command carries is the one asked for exactly if the register left
alone holds the third byte and this byte is also the second one. -/
theorem address_eq_iff (lba : BitVec 32) (slot : Slot) (c : Channel) :
    (taskFile lba slot.code c).address = lba.setWidth 28 ↔
      c.regs ATA_LBA_HIGH = lba.extractLsb' 16 8 ∧ lba.extractLsb' 16 8 = lba.extractLsb' 8 8 := by
  rw [address_taskFile, setWidth_eq_bytes, BitVec.append_left_inj]
  constructor
  · intro h
    have hmid := congrArg (BitVec.extractLsb' 0 8) h
    rw [BitVec.extractLsb'_append_eq_right, BitVec.extractLsb'_append_eq_right] at hmid
    rw [hmid, BitVec.append_left_inj, BitVec.append_right_inj] at h
    exact ⟨h.trans hmid.symm, hmid⟩
  · rintro ⟨h, hmid⟩
    rw [h, hmid]

theorem pollAtaDrive_unique {P : Ports δ} {fuel fuel' : ℕ} {io : BitVec 16} {d : δ}
    {r r' : Except Panic δ} (h : pollAtaDrive P fuel io d = some r)
    (h' : pollAtaDrive P fuel' io d = some r') : r = r' := by
  simp only [pollAtaDrive] at h h'
  split at h
  · cases h
  · rename_i d₁ h₁
    split at h'
    · cases h'
    · rename_i d₂ h₂
      obtain rfl := BoundedLoop.run_unique h₁ h₂
      exact BoundedLoop.run_unique h h'

theorem ataReadOnce_unique {P : Ports δ} {fuel fuel' : ℕ} {buffer : Ptr} {lba : BitVec 32}
    {device : AtaDrive} {s : Mem × δ} {r r' : Except Panic (Mem × δ)}
    (h : ataReadOnce P fuel buffer lba device s = some r)
    (h' : ataReadOnce P fuel' buffer lba device s = some r') : r = r' := by
  cases hcase : driveCase device.driveId with
  | none =>
    simp only [ataReadOnce, hcase, Option.some.injEq] at h h'
    exact h.symm.trans h'
  | some drive =>
    simp only [ataReadOnce, hcase] at h h'
    cases hp : pollAtaDrive P fuel device.io (issueRead P lba drive device.io s.2) with
    | none => simp only [hp] at h; cases h
    | some out =>
      cases hp' : pollAtaDrive P fuel' device.io (issueRead P lba drive device.io s.2) with
      | none => simp only [hp'] at h'; cases h'
      | some out' =>
        obtain rfl := pollAtaDrive_unique hp hp'
        rw [hp] at h
        rw [hp'] at h'
        exact Option.some.inj (h.symm.trans h')

/-- From `(m, d)` to `(m', d')` one command was issued, for the sector `lba` of the drive in
`slot`; the buffer holds that sector, and no other byte of memory has changed. -/
structure Delivered (disks : Bus → Disks) (b : Bus) (slot : Slot) (lba : BitVec 32) (buffer : Ptr)
    (m : Mem) (d : Bus → Channel) (m' : Mem) (d' : Bus → Channel) : Prop where
  addressed : (d' b).issued = (slot, lba.setWidth 28) :: (d b).issued
  memory : ∀ x, m' x = if (x - buffer).toNat < 512
    then sectorByte (disks b slot (lba.setWidth 28)) (x - buffer).toNat else m x

/-- `ata_read_once` returns with the sector `lba` of the drive in `slot`. -/
def Delivers (disks : Bus → Disks) (wait : Bus → Channel → ℕ) (b : Bus) (slot : Slot)
    (lba : BitVec 32) (buffer : Ptr) (m : Mem) (d : Bus → Channel) : Prop :=
  ∃ fuel m' d', ataReadOnce (controller disks wait) fuel buffer lba ⟨driveId b slot, b.base⟩ (m, d) =
    some (.ok (m', d')) ∧ Delivered disks b slot lba buffer m d m' d'

theorem delivers_iff_addressed (disks : Bus → Disks) (wait : Bus → Channel → ℕ) (b : Bus)
    (slot : Slot) (lba : BitVec 32) (buffer : Ptr) (m : Mem) (d : Bus → Channel) :
    Delivers disks wait b slot lba buffer m d ↔
      picked b slot = slot ∧ (taskFile lba (picked b slot).code (d b)).address = lba.setWidth 28 := by
  have hcase : driveCase (AtaDrive.mk (driveId b slot) b.base).driveId =
      some (picked b slot).code := driveCase_driveId b slot
  obtain ⟨fuel₀, d₀, hread, hissued⟩ :=
    ataReadOnce_eq disks wait (b := b) hcase rfl buffer lba m d
  rw [selected_taskFile] at hread hissued
  constructor
  · rintro ⟨fuel, m', d', hread', hdelivered⟩
    have heq := ataReadOnce_unique hread hread'
    obtain ⟨-, rfl⟩ := Prod.mk.inj (Except.ok.inj heq)
    have haddressed := hissued.symm.trans hdelivered.addressed
    exact Prod.mk.inj (List.cons.inj haddressed).1
  · rintro ⟨hslot, haddress⟩
    rw [haddress, hslot] at hread hissued
    exact ⟨fuel₀, _, d₀, hread, hissued, fun _ => rfl⟩

/-- `ata_read_once` delivers the sector asked for exactly if the drive is not the slave of the
secondary bus, the second byte of the sector number equals the third, and the register
`LBA_HIGH` already holds this byte. -/
theorem delivers_iff (disks : Bus → Disks) (wait : Bus → Channel → ℕ) (b : Bus) (slot : Slot)
    (lba : BitVec 32) (buffer : Ptr) (m : Mem) (d : Bus → Channel) :
    Delivers disks wait b slot lba buffer m d ↔
      ¬ (b = .secondary ∧ slot = .slave) ∧ (d b).regs ATA_LBA_HIGH = lba.extractLsb' 16 8 ∧
        lba.extractLsb' 16 8 = lba.extractLsb' 8 8 := by
  have hpicked : picked b slot = slot ↔ ¬ (b = .secondary ∧ slot = .slave) := by
    cases b <;> cases slot <;> decide
  rw [delivers_iff_addressed, hpicked, address_eq_iff]

def idle : Bus → Channel := fun _ =>
  { regs := fun _ => 0, busy := 0, sector := fun _ => 0, pos := 256, issued := [] }

theorem not_delivers_256 : ¬ Delivers (fun _ _ _ _ => 0) (fun _ _ => 0) .primary .master 256
    0x100000 (fun _ => 0) idle := by
  rw [delivers_iff_addressed, address_eq_iff]
  rintro ⟨-, -, hbytes⟩
  exact absurd hbytes (by decide)

end TinaOS.Ata
