import TinaOS.AtaDevice
import TinaOS.Library.Allocator

/-!
# Detecting the drives

The driver sends IDENTIFY to the four positions and registers a record for each drive whose
name it gets. `identify_drive` reads the answer of a drive and then returns 0 all the same, so
no name is ever made and no record registered. The driver is the incoming side of the conflict
markers in `ata.c`; what it prints is left out.
-/

namespace TinaOS.Ata

open ByteMemory Allocators

def ATA_IDENTIFY : Byte := 0xEC
def ATA_MODEL : ℕ := 54
def NO_DRIVE : Ptr := 0xFFFF

/-- `ata_buffer`, which no code sets. -/
def ataBuffer : Ptr := 0

/-- `sizeof(ata_drive)`: `drive_name` at 0, `drive_id` at 4, `lba_low` at 5, `lba_mid` at 6,
`lba_high` at 7, `io` at 8, `read` at 12 and `write` at 16. -/
def ATA_DRIVE : BitVec 32 := 20

variable {α δ : Type*}

def selectDrive (P : Ports δ) (bus slot : Byte) (d : δ) : δ :=
  if bus = PRIMARY_BUS then
    if slot = MASTER_DRIVE then P.outb ( PRIMARY_IO + ATA_HD_SEL) 0xA0 d
    else P.outb ( PRIMARY_IO + ATA_HD_SEL) 0xB0 d
  else if slot = MASTER_DRIVE then P.outb ( SECONDARY_IO + ATA_HD_SEL) 0xA0 d
  else P.outb ( SECONDARY_IO + ATA_HD_SEL) 0xB0 d

/-- The loop that waits for `BSY`; its mask is the truth value of `ATA_BSY != 0`. -/
def waitBusy (P : Ports δ) (io : BitVec 16) (d : δ) : δ ⊕ δ :=
  let (status, d) := P.inb (io + ATA_STATUS) d
  if status &&& (if ATA_BSY ≠ 0 then 1 else 0) ≠ 0 then .inl d else .inr d

def readStatus (P : Ports δ) (io : BitVec 16) (d : δ) : δ ⊕ δ :=
  let (status, d) := P.inb (io + ATA_STATUS) d
  if status &&& ATA_DRQ = 0 then .inl d else .inr d

/-- The port writes of `identify_drive`, in order. -/
def issueIdentify (P : Ports δ) (bus drive : Byte) (io : BitVec 16) (d : δ) : δ :=
  let d := selectDrive P bus drive d
  let d := P.outb (io + ATA_SECTOR_COUNT_0) 0 d
  let d := P.outb (io + ATA_LBA_LOW) 0 d
  let d := P.outb (io + ATA_LBA_MID) 0 d
  let d := P.outb (io + ATA_LBA_HIGH) 0 d
  P.outb (io + ATA_COMMAND) ATA_IDENTIFY d

/-- `identify_drive`: the value returned, memory and the device. -/
def identifyDrive (P : Ports δ) (fuel : ℕ) (bus drive : Byte) (s : Mem × δ) :
    Option (Byte × Mem × δ) :=
  let io := if bus = PRIMARY_BUS then PRIMARY_IO else SECONDARY_IO
  let d := issueIdentify P bus drive io s.2
  let (status, d) := P.inb (io + ATA_STATUS) d
  if status ≠ 0 then
    if status &&& ATA_ERR ≠ 0 then some (0, s.1, d)
    else
      match BoundedLoop.run (waitBusy P io) fuel d with
      | none => none
      | some d =>
        match BoundedLoop.run (readStatus P io) fuel d with
        | none => none
        | some d => some (0, readWords P io ataBuffer 256 (s.1, d))
  else some (0, s.1, d)

/-- The variables of the driver, memory, the allocator and the device. -/
structure Driver (α δ : Type*) where
  mem : Mem
  heap : α
  ports : δ
  drives : Ptr
  driveCount : BitVec 32

def Driver.malloc (alloc : Allocator α) (nbytes : BitVec 32) (s : Driver α δ) : Ptr × Driver α δ :=
  let (p, m, h) := alloc nbytes s.mem s.heap
  (p, { s with mem := m, heap := h })

/-- The loop of `get_drive_name`: the bytes of each word of the model name change places. -/
def copyName (buffer : Ptr) (m : Mem) : Mem :=
  (List.range 20).foldl (fun m i =>
    let idx := 2 * i
    let m := Function.update m (buffer + BitVec.ofNat 32 idx)
      (m (ataBuffer + BitVec.ofNat 32 (ATA_MODEL + idx + 1)))
    Function.update m (buffer + BitVec.ofNat 32 (idx + 1))
      (m (ataBuffer + BitVec.ofNat 32 (ATA_MODEL + idx)))) m

def getDriveName (alloc : Allocator α) (P : Ports δ) (fuel : ℕ) (bus drive : Byte)
    (s : Driver α δ) : Option (Ptr × Driver α δ) :=
  match identifyDrive P fuel bus drive (s.mem, s.ports) with
  | none => none
  | some (found, m, d) =>
    let s := { s with mem := m, ports := d }
    if found ≠ 0 then
      let (driveBuffer, s) := s.malloc alloc 40
      some (driveBuffer, { s with mem := copyName driveBuffer s.mem })
    else some (NO_DRIVE, s)

def addDrive (drive : Ptr) (s : Driver α δ) : Driver α δ :=
  { s with
    mem := store32 s.mem (s.drives + 4 * s.driveCount) drive
    driveCount := s.driveCount + 1 }

/-- What `initiliaze_ata_driver` does for one position when it has a name for its drive. -/
def registerDrive (alloc : Allocator α) (ataRead : Ptr) (bus slot : Byte) (io : BitVec 16)
    (name : Ptr) (s : Driver α δ) : Driver α δ :=
  let (drive, s) := s.malloc alloc ATA_DRIVE
  let m := store32 s.mem drive name
  let m := Function.update m (drive + 4) (bus <<< 1 ||| slot)
  let baseAddress : BitVec 16 := if m (drive + 4) ≠ 0 then 0x1F0 else 0x170
  let m := Function.update m (drive + 5) ((baseAddress + 3).setWidth 8)
  let m := Function.update m (drive + 6) ((baseAddress + 4).setWidth 8)
  let m := Function.update m (drive + 7) ((baseAddress + 5).setWidth 8)
  let m := store16 m (drive + 8) io
  let m := store32 m (drive + 12) ataRead
  addDrive drive { s with mem := m }

/-- One position: its name, and if there is one its record. -/
def probe (alloc : Allocator α) (P : Ports δ) (ataRead : Ptr) (fuel : ℕ) (bus slot : Byte)
    (io : BitVec 16) (s : Driver α δ) : Option (Driver α δ) :=
  match getDriveName alloc P fuel bus slot s with
  | none => none
  | some (name, s) =>
    if name ≠ NO_DRIVE then some (registerDrive alloc ataRead bus slot io name s) else some s

def initiliazeAtaDriver (alloc : Allocator α) (P : Ports δ) (ataRead : Ptr) (fuel : ℕ)
    (s : Driver α δ) : Option (Driver α δ) := do
  let s ← probe alloc P ataRead fuel PRIMARY_BUS MASTER_DRIVE PRIMARY_IO s
  let s ← probe alloc P ataRead fuel PRIMARY_BUS SLAVE_DRIVE PRIMARY_IO s
  let s ← probe alloc P ataRead fuel SECONDARY_BUS MASTER_DRIVE SECONDARY_IO s
  probe alloc P ataRead fuel SECONDARY_BUS SLAVE_DRIVE SECONDARY_IO s

/-- A drive with its answer to IDENTIFY: statuses with `BSY` set, then a status with `BSY` and `ERR`
clear and `DRQ` set, and 256 words. -/
structure Drive where
  busy : List Byte
  ready : Byte
  words : Sector
  busy_set : ∀ s ∈ busy, s &&& ATA_BSY ≠ 0
  busy_clear : ready &&& ATA_BSY = 0
  err_clear : ready &&& ATA_ERR = 0
  drq_set : ready &&& ATA_DRQ ≠ 0

/-- One bus: the byte in the drive select register, the statuses still to come, the one after
them, and the words. -/
structure Line where
  select : Byte
  statuses : List Byte
  status : Byte
  words : Sector
  pos : ℕ

def Line.selected (l : Line) : Slot := if l.select.getLsbD 4 then .slave else .master

/-- IDENTIFY to an absent drive leaves the status 0. -/
def Line.outb (present : Slot → Option Drive) (off : BitVec 16) (v : Byte) (l : Line) : Line :=
  if off = ATA_HD_SEL then { l with select := v }
  else if off = ATA_COMMAND ∧ v = ATA_IDENTIFY then
    match present l.selected with
    | none => { l with statuses := [], status := 0 }
    | some d => { l with statuses := d.busy, status := d.ready, words := d.words, pos := 0 }
  else l

def Line.inb (off : BitVec 16) (l : Line) : Byte × Line :=
  if off = ATA_STATUS then
    match l.statuses with
    | [] => (l.status, l)
    | s :: rest => (s, { l with statuses := rest })
  else (0, l)

def Line.inw (off : BitVec 16) (l : Line) : BitVec 16 × Line :=
  if off = ATA_DATA ∧ l.pos < 256 then (l.words l.pos, { l with pos := l.pos + 1 }) else (0xFFFF, l)

abbrev Drives := Bus → Slot → Option Drive

/-- The two buses with the drives present. -/
def identifier (present : Drives) : Ports (Bus → Line) where
  inb port d := match decode port with
    | none => (0xFF, d)
    | some (b, off) => ((Line.inb off (d b)).1, Function.update d b (Line.inb off (d b)).2)
  inw port d := match decode port with
    | none => (0xFFFF, d)
    | some (b, off) => ((Line.inw off (d b)).1, Function.update d b (Line.inw off (d b)).2)
  outb port v d := match decode port with
    | none => d
    | some (b, off) => Function.update d b (Line.outb (present b) off v (d b))

variable {present : Drives} {b : Bus} {slot : Slot} {l : Line} {d : Bus → Line} {off : BitVec 16}

theorem identifier_outb (h : off < 8) (v : Byte) (d : Bus → Line) :
    (identifier present).outb (b.base + off) v d =
      Function.update d b (Line.outb (present b) off v (d b)) := by
  simp only [identifier, decode_base b h]

theorem identifier_inb (h : off < 8) (d : Bus → Line) :
    (identifier present).inb (b.base + off) d =
      ((Line.inb off (d b)).1, Function.update d b (Line.inb off (d b)).2) := by
  simp only [identifier, decode_base b h]

theorem Line.outb_other (present : Slot → Option Drive) (v : Byte) (l : Line)
    (hs : off ≠ ATA_HD_SEL) (hc : off ≠ ATA_COMMAND) : Line.outb present off v l = l := by
  rw [Line.outb, if_neg hs, if_neg fun h => hc h.1]

/-- The byte that selects a slot. -/
def Slot.select : Slot → Byte
  | .master => 0xA0
  | .slave => 0xB0

theorem selectDrive_eq (P : Ports δ) (b : Bus) (slot : Slot) (d : δ) :
    selectDrive P b.code slot.code d = P.outb (b.base + ATA_HD_SEL) slot.select d := by
  cases b <;> cases slot <;> rfl

theorem base_eq (b : Bus) : (if b.code = PRIMARY_BUS then PRIMARY_IO else SECONDARY_IO) = b.base := by
  cases b <;> rfl

theorem selected_select (slot : Slot) (l : Line) :
    ({ l with select := slot.select } : Line).selected = slot := by
  cases slot with
  | master =>
    have hbit : ¬ Slot.master.select.getLsbD 4 = true := by decide
    exact if_neg hbit
  | slave =>
    have hbit : Slot.slave.select.getLsbD 4 = true := by decide
    exact if_pos hbit

/-- The bus after the command: the answer of the drive in the slot lies ready. -/
def answering (o : Option Drive) (slot : Slot) (l : Line) : Line :=
  match o with
  | none => { l with select := slot.select, statuses := [], status := 0 }
  | some d => ⟨slot.select, d.busy, d.ready, d.words, 0⟩

theorem issueIdentify_eq (present : Drives) (b : Bus) (slot : Slot) (d : Bus → Line) :
    issueIdentify (identifier present) b.code slot.code b.base d =
      Function.update d b (answering (present b slot) slot (d b)) := by
  have hselect : Line.outb (present b) ATA_HD_SEL slot.select (d b) =
      { d b with select := slot.select } := if_pos rfl
  have hcommand : Line.outb (present b) ATA_COMMAND ATA_IDENTIFY { d b with select := slot.select } =
      answering (present b slot) slot (d b) := by
    rw [Line.outb, if_neg (by decide), if_pos ⟨rfl, rfl⟩, selected_select]
    cases present b slot with
    | none => rfl
    | some drive => rfl
  have hregs : ATA_HD_SEL < 8 ∧ ATA_SECTOR_COUNT_0 < 8 ∧ ATA_LBA_LOW < 8 ∧ ATA_LBA_MID < 8 ∧
      ATA_LBA_HIGH < 8 ∧ ATA_COMMAND < 8 := by decide
  obtain ⟨h₁, h₂, h₃, h₄, h₅, h₆⟩ := hregs
  have hother : ∀ off, off ≠ ATA_HD_SEL → off ≠ ATA_COMMAND →
      Line.outb (present b) off 0 { d b with select := slot.select } =
        { d b with select := slot.select } := fun _ hs hc => Line.outb_other _ _ _ hs hc
  have hcount := hother ATA_SECTOR_COUNT_0 (by decide) (by decide)
  have hlow := hother ATA_LBA_LOW (by decide) (by decide)
  have hmid := hother ATA_LBA_MID (by decide) (by decide)
  have hhigh := hother ATA_LBA_HIGH (by decide) (by decide)
  simp only [issueIdentify, selectDrive_eq, identifier_outb h₁, identifier_outb h₂,
    identifier_outb h₃, identifier_outb h₄, identifier_outb h₅, identifier_outb h₆,
    Function.update_self, Function.update_idem, hselect, hcount, hlow, hmid, hhigh, hcommand]

/-- A loop that reads the status until a test holds ends with the last status at the latest. -/
theorem run_poll {body : (Bus → Line) → (Bus → Line) ⊕ (Bus → Line)} (stop : Byte → Prop)
    [DecidablePred stop] (hbody : ∀ l, body (Function.update d b l) =
      if stop (Line.inb ATA_STATUS l).1 then .inr (Function.update d b (Line.inb ATA_STATUS l).2)
      else .inl (Function.update d b (Line.inb ATA_STATUS l).2))
    (hlast : stop l.status) {fuel : ℕ} (hf : l.statuses.length < fuel) :
    ∃ rest, BoundedLoop.run body fuel (Function.update d b l) =
      some (Function.update d b { l with statuses := rest }) ∧ rest.length ≤ l.statuses.length := by
  obtain ⟨fuel, rfl⟩ : ∃ f, fuel = f + 1 := ⟨fuel - 1, by omega⟩
  induction hs : l.statuses generalizing l fuel with
  | nil =>
    have hinb : Line.inb ATA_STATUS l = (l.status, l) := by
      rw [Line.inb, if_pos rfl, hs]
    have hstep := hbody l
    rw [hinb, if_pos hlast] at hstep
    refine ⟨[], ?_, Nat.le_refl _⟩
    rw [BoundedLoop.run_of_inr hstep, ← hs]
  | cons status rest ih =>
    have hinb : Line.inb ATA_STATUS l = (status, { l with statuses := rest }) := by
      rw [Line.inb, if_pos rfl, hs]
    have hstep := hbody l
    rw [hinb] at hstep
    by_cases hstop : stop status
    · rw [if_pos hstop] at hstep
      exact ⟨rest, BoundedLoop.run_of_inr hstep fuel, Nat.le_succ _⟩
    · rw [if_neg hstop] at hstep
      rw [hs, List.length_cons] at hf
      obtain ⟨fuel, rfl⟩ : ∃ f, fuel = f + 1 := ⟨fuel - 1, by omega⟩
      obtain ⟨rest', hrun, hle⟩ := ih (l := { l with statuses := rest }) hlast fuel
        (by simp only; omega) rfl
      refine ⟨rest', ?_, Nat.le_succ_of_le hle⟩
      rw [BoundedLoop.run_of_inl hstep, hrun]

variable {P : Ports δ} {fuel : ℕ} {bus drive found : Byte}

/-- `identify_drive` returns 0, whatever the device answers. -/
theorem identifyDrive_found {s s' : Mem × δ} (h : identifyDrive P fuel bus drive s = some (found, s')) :
    found = 0 := by
  simp only [identifyDrive] at h
  generalize (if bus = PRIMARY_BUS then PRIMARY_IO else SECONDARY_IO) = io at h
  split_ifs at h
  · exact (Prod.mk.inj (Option.some.inj h)).1.symm
  · split at h
    · cases h
    · split at h
      · cases h
      · exact (Prod.mk.inj (Option.some.inj h)).1.symm
  · exact (Prod.mk.inj (Option.some.inj h)).1.symm

theorem inb_identify (present : Drives) (b : Bus) (l : Line) (d : Bus → Line) :
    (identifier present).inb (b.base + ATA_STATUS) (Function.update d b l) =
      ((Line.inb ATA_STATUS l).1, Function.update d b (Line.inb ATA_STATUS l).2) := by
  have hstatus : ATA_STATUS < 8 := by decide
  rw [identifier_inb hstatus, Function.update_self, Function.update_idem]

/-- An absent drive leaves memory alone. -/
theorem identifyDrive_absent (h : present b slot = none) (fuel : ℕ) (m : Mem) (d : Bus → Line) :
    ∃ d', identifyDrive (identifier present) fuel b.code slot.code (m, d) = some (0, m, d') := by
  refine ⟨Function.update d b (answering none slot (d b)), ?_⟩
  simp only [identifyDrive, base_eq, issueIdentify_eq, inb_identify, h]
  rfl

theorem run_waitBusy (present : Drives) (b : Bus) (d : Bus → Line)
    (hlast : l.status &&& ATA_ERR = 0) (hf : l.statuses.length < fuel) :
    ∃ rest, BoundedLoop.run (waitBusy (identifier present) b.base) fuel (Function.update d b l) =
      some (Function.update d b { l with statuses := rest }) ∧ rest.length ≤ l.statuses.length := by
  refine run_poll (fun status => status &&& ATA_ERR = 0) (fun l => ?_) hlast hf
  have hmask : (if ATA_BSY ≠ 0 then 1 else 0 : Byte) = ATA_ERR := by decide
  simp only [waitBusy, inb_identify, hmask, ne_eq, ite_not]

theorem run_readStatus (present : Drives) (b : Bus) (d : Bus → Line)
    (hlast : l.status &&& ATA_DRQ ≠ 0) (hf : l.statuses.length < fuel) :
    ∃ rest, BoundedLoop.run (readStatus (identifier present) b.base) fuel (Function.update d b l) =
      some (Function.update d b { l with statuses := rest }) ∧ rest.length ≤ l.statuses.length := by
  refine run_poll (fun status => status &&& ATA_DRQ ≠ 0) (fun l => ?_) hlast hf
  simp only [readStatus, inb_identify, ne_eq, ite_not]

theorem inb_statuses (l : Line) : ∃ rest, (Line.inb ATA_STATUS l).2 = { l with statuses := rest } ∧
    rest.length ≤ l.statuses.length := by
  obtain ⟨select, statuses, status, words, pos⟩ := l
  cases statuses with
  | nil => exact ⟨[], rfl, Nat.le_refl _⟩
  | cons first rest => exact ⟨rest, rfl, Nat.le_succ _⟩

/-- A drive that is there is read, too: `identify_drive` returns from both of its loops. -/
theorem identifyDrive_returns (hf : ∀ drive, present b slot = some drive → drive.busy.length < fuel)
    (s : Mem × (Bus → Line)) :
    ∃ s', identifyDrive (identifier present) fuel b.code slot.code s = some (0, s') := by
  cases h : present b slot with
  | none =>
    obtain ⟨d', heq⟩ := identifyDrive_absent h fuel s.1 s.2
    exact ⟨(s.1, d'), heq⟩
  | some drive =>
    have hbusy := hf drive h
    simp only [identifyDrive, base_eq, issueIdentify_eq, inb_identify, h]
    obtain ⟨rest₁, hinb, hle₁⟩ := inb_statuses (answering (some drive) slot (s.2 b))
    simp only [hinb]
    obtain ⟨rest₂, hwait, hle₂⟩ := run_waitBusy present b s.2
      (l := { answering (some drive) slot (s.2 b) with statuses := rest₁ }) drive.err_clear
      (Nat.lt_of_le_of_lt hle₁ hbusy)
    obtain ⟨rest₃, hread, -⟩ := run_readStatus present b s.2
      (l := { answering (some drive) slot (s.2 b) with statuses := rest₂ }) drive.drq_set
      (Nat.lt_of_le_of_lt (Nat.le_trans hle₂ hle₁) hbusy)
    simp only [hwait, hread]
    split_ifs
    · exact ⟨_, rfl⟩
    · exact ⟨_, rfl⟩
    · exact ⟨_, rfl⟩

/-- No position gets past its identification. -/
theorem probe_eq (alloc : Allocator α) (P : Ports δ) (ataRead : Ptr) (fuel : ℕ) (bus slot : Byte)
    (io : BitVec 16) (s : Driver α δ) :
    probe alloc P ataRead fuel bus slot io s =
      (identifyDrive P fuel bus slot (s.mem, s.ports)).map fun out =>
        { s with mem := out.2.1, ports := out.2.2 } := by
  cases h : identifyDrive P fuel bus slot (s.mem, s.ports) with
  | none => simp only [probe, getDriveName, h, Option.map_none]
  | some out =>
    obtain ⟨found, m, d⟩ := out
    obtain rfl := identifyDrive_found h
    simp only [probe, getDriveName, h, Option.map_some, ne_eq, not_true_eq_false, if_false]

/-- The driver adds nothing to its table, whatever the device and the allocator answer. -/
theorem initiliazeAtaDriver_keeps {alloc : Allocator α} {ataRead : Ptr} {s s' : Driver α δ}
    (h : initiliazeAtaDriver alloc P ataRead fuel s = some s') :
    s'.drives = s.drives ∧ s'.driveCount = s.driveCount ∧ s'.heap = s.heap := by
  simp only [initiliazeAtaDriver, probe_eq, Option.bind_eq_bind, Option.bind_eq_some_iff,
    Option.map_eq_some_iff] at h
  obtain ⟨s₁, ⟨-, -, rfl⟩, s₂, ⟨-, -, rfl⟩, s₃, ⟨-, -, rfl⟩, -, -, rfl⟩ := h
  exact ⟨rfl, rfl, rfl⟩

/-- More status reads than any drive stays busy. -/
theorem exists_patience (present : Drives) :
    ∃ fuel, ∀ b slot drive, present b slot = some drive → drive.busy.length < fuel := by
  let wait := fun b slot => ((present b slot).map fun drive => drive.busy.length).getD 0
  refine ⟨wait .primary .master + wait .primary .slave + wait .secondary .master +
    wait .secondary .slave + 1, fun b slot drive h => ?_⟩
  have hwait : wait b slot = drive.busy.length := by
    simp only [wait, h, Option.map_some, Option.getD_some]
  rw [← hwait]
  cases b with
  | primary =>
    cases slot with
    | master => omega
    | slave => omega
  | secondary =>
    cases slot with
    | master => omega
    | slave => omega

/-- The four positions, one after the other. -/
theorem initiliazeAtaDriver_of_probe (alloc : Allocator α) (ataRead : Ptr)
    (R : Driver α (Bus → Line) → Driver α (Bus → Line) → Prop)
    (htrans : ∀ {s s' s''}, R s s' → R s' s'' → R s s'')
    (hprobe : ∀ (b : Bus) (slot : Slot) (io : BitVec 16) s, ∃ s',
      probe alloc (identifier present) ataRead fuel b.code slot.code io s = some s' ∧ R s s')
    (s : Driver α (Bus → Line)) :
    ∃ s', initiliazeAtaDriver alloc (identifier present) ataRead fuel s = some s' ∧ R s s' := by
  obtain ⟨s₁, h₁, hR₁⟩ := hprobe .primary .master PRIMARY_IO s
  obtain ⟨s₂, h₂, hR₂⟩ := hprobe .primary .slave PRIMARY_IO s₁
  obtain ⟨s₃, h₃, hR₃⟩ := hprobe .secondary .master SECONDARY_IO s₂
  obtain ⟨s₄, h₄, hR₄⟩ := hprobe .secondary .slave SECONDARY_IO s₃
  simp only [Bus.code, Slot.code] at h₁ h₂ h₃ h₄
  refine ⟨s₄, ?_, htrans (htrans (htrans hR₁ hR₂) hR₃) hR₄⟩
  simp only [initiliazeAtaDriver, h₁, h₂, h₃, h₄, Option.bind_eq_bind, Option.bind_some]

/-- With any drives the driver returns, and its table has not grown. -/
theorem initiliazeAtaDriver_returns (alloc : Allocator α) (present : Drives) (ataRead : Ptr)
    (s : Driver α (Bus → Line)) :
    ∃ fuel s', initiliazeAtaDriver alloc (identifier present) ataRead fuel s = some s' ∧
      s'.drives = s.drives ∧ s'.driveCount = s.driveCount := by
  obtain ⟨fuel, hf⟩ := exists_patience present
  have hprobe : ∀ (b : Bus) (slot : Slot) (io : BitVec 16) (s : Driver α (Bus → Line)), ∃ s',
      probe alloc (identifier present) ataRead fuel b.code slot.code io s = some s' ∧ True := by
    intro b slot io s
    obtain ⟨out, heq⟩ := identifyDrive_returns (hf b slot) (s.mem, s.ports)
    rw [probe_eq, heq]
    exact ⟨_, rfl, trivial⟩
  obtain ⟨s', hrun, -⟩ :=
    initiliazeAtaDriver_of_probe alloc ataRead (fun _ _ => True) (fun _ _ => trivial) hprobe s
  have hkeeps := initiliazeAtaDriver_keeps hrun
  exact ⟨fuel, s', hrun, hkeeps.1, hkeeps.2.1⟩

/-- Without drives it leaves memory alone, too. -/
theorem initiliazeAtaDriver_absent (h : ∀ b slot, present b slot = none) (alloc : Allocator α)
    (ataRead : Ptr) (fuel : ℕ) (s : Driver α (Bus → Line)) :
    ∃ s', initiliazeAtaDriver alloc (identifier present) ataRead fuel s = some s' ∧
      s'.mem = s.mem := by
  refine initiliazeAtaDriver_of_probe alloc ataRead (fun s s' => s'.mem = s.mem)
    (fun h₁ h₂ => h₂.trans h₁) (fun b slot io s => ?_) s
  obtain ⟨d', heq⟩ := identifyDrive_absent (h b slot) fuel s.mem s.ports
  rw [probe_eq, heq]
  exact ⟨_, rfl, rfl⟩

/-- The positions in the order in which the driver probes them. -/
def positions : List (Bus × Slot) :=
  [(.primary, .master), (.primary, .slave), (.secondary, .master), (.secondary, .slave)]

/-- The drives present, in probe order. -/
def detected (present : Drives) : List (Bus × Slot × Drive) :=
  positions.filterMap fun (b, slot) => (present b slot).map fun drive => (b, slot, drive)

/-- Byte `k` of the model name, which the words hold high byte first. -/
def modelByte (words : Sector) (k : ℕ) : Byte :=
  if k % 2 = 0 then sectorByte words (ATA_MODEL + k + 1) else sectorByte words (ATA_MODEL + k - 1)

/-- The record at `r` describes the drive in the given position. -/
structure Describes (m : Mem) (r : Ptr) (b : Bus) (slot : Slot) (drive : Drive) : Prop where
  id : m (r + 4) = driveId b slot
  lba_low : m (r + 5) = (b.base + 3).setWidth 8
  lba_mid : m (r + 6) = (b.base + 4).setWidth 8
  lba_high : m (r + 7) = (b.base + 5).setWidth 8
  io : load16 m (r + 8) = b.base
  name : ∀ k < 40, m (load32 m r + BitVec.ofNat 32 k) = modelByte drive.words k

def Driver.entry (s : Driver α δ) (i : BitVec 32) : Ptr := load32 s.mem (s.drives + 4 * i)

/-- The driver returns, with one record more for each drive present, in probe order. -/
def Detects (alloc : Allocator α) (present : Drives) (ataRead : Ptr) (s : Driver α (Bus → Line)) :
    Prop :=
  ∃ fuel s', initiliazeAtaDriver alloc (identifier present) ataRead fuel s = some s' ∧
    s'.drives = s.drives ∧
    s'.driveCount = s.driveCount + BitVec.ofNat 32 (detected present).length ∧
    (∀ i < s.driveCount, s'.entry i = s.entry i) ∧
    ∀ i (hi : i < (detected present).length),
      Describes s'.mem (s'.entry (s.driveCount + BitVec.ofNat 32 i)) (detected present)[i].1
        (detected present)[i].2.1 (detected present)[i].2.2

theorem detected_length_le (present : Drives) : (detected present).length ≤ 4 :=
  List.length_filterMap_le _ positions

theorem detected_eq_nil_iff : detected present = [] ↔ ∀ b slot, present b slot = none := by
  rw [detected, List.filterMap_eq_nil_iff]
  simp only [Option.map_eq_none_iff]
  constructor
  · intro h b slot
    exact h (b, slot) (by cases b <;> cases slot <;> decide)
  · exact fun h p _ => h p.1 p.2

variable {alloc : Allocator α} {ataRead : Ptr} {s : Driver α (Bus → Line)}

theorem detected_eq_nil_of_detects (h : Detects alloc present ataRead s) : detected present = [] := by
  obtain ⟨fuel, s', hrun, -, hcount, -⟩ := h
  rw [(initiliazeAtaDriver_keeps hrun).2.1] at hcount
  have hlen := detected_length_le present
  have hzero := congrArg BitVec.toNat hcount
  rw [BitVec.toNat_add, BitVec.toNat_ofNat] at hzero
  exact List.length_eq_zero_iff.mp (by omega)

/-- The driver detects the drives present exactly if there are none. -/
theorem detects_iff (alloc : Allocator α) (present : Drives) (ataRead : Ptr)
    (s : Driver α (Bus → Line)) :
    Detects alloc present ataRead s ↔ ∀ b slot, present b slot = none := by
  constructor
  · exact fun h => detected_eq_nil_iff.mp (detected_eq_nil_of_detects h)
  · intro hnone
    have hnil := detected_eq_nil_iff.mpr hnone
    obtain ⟨s', hrun, hmem⟩ := initiliazeAtaDriver_absent hnone alloc ataRead 0 s
    obtain ⟨hdrives, hcount, -⟩ := initiliazeAtaDriver_keeps hrun
    refine ⟨0, s', hrun, hdrives, ?_, fun i _ => ?_, fun i hi => ?_⟩
    · rw [hnil, hcount]
      exact (BitVec.add_zero _).symm
    · rw [Driver.entry, Driver.entry, hmem, hdrives]
    · rw [hnil] at hi
      cases hi

/-- A drive that is busy for one status. -/
def quickDrive : Drive where
  busy := [ATA_BSY]
  ready := ATA_DRQ
  words := fun _ => 0x4141
  busy_set := by decide
  busy_clear := by decide
  err_clear := by decide
  drq_set := by decide

def onlyMaster : Drives := fun b slot =>
  if b = .primary ∧ slot = .master then some quickDrive else none

/-- No drive yet, a table at `0x200000`, and free memory from `0x300000` on. -/
def bootDriver : Driver Ptr (Bus → Line) where
  mem := fun _ => 0
  heap := 0x300000
  ports := fun _ => ⟨0, [], 0, fun _ => 0, 0⟩
  drives := 0x200000
  driveCount := 0

/-- With one drive the driver returns with an empty table. -/
theorem not_detects_onlyMaster : ¬ Detects bump onlyMaster 0x04000000 bootDriver ∧
    ∃ fuel s', initiliazeAtaDriver bump (identifier onlyMaster) 0x04000000 fuel bootDriver = some s' ∧
      s'.driveCount = 0 := by
  constructor
  · intro h
    have hnone := detected_eq_nil_iff.mp (detected_eq_nil_of_detects h) .primary .master
    cases hnone
  · obtain ⟨fuel, s', hrun, -, hcount⟩ :=
      initiliazeAtaDriver_returns bump onlyMaster 0x04000000 bootDriver
    exact ⟨fuel, s', hrun, hcount⟩

/-- The low address port in a record comes from the wrong bus for all drives but one. -/
theorem registerDrive_lba_low {s : Driver α δ} {r : Ptr} {m : Mem} {h : α} {b : Bus} {slot : Slot}
    (hmalloc : alloc ATA_DRIVE s.mem s.heap = (r, m, h))
    (hapart : Apart (s.drives + 4 * s.driveCount) 4 r 20) (name : Ptr) :
    (registerDrive alloc ataRead b.code slot.code b.base name s).mem (r + 5) =
        (b.base + 3).setWidth 8 ↔ b = .primary ∧ slot = .slave := by
  have hentry : 4 ≤ (r + 5 - (s.drives + 4 * s.driveCount)).toNat := hapart.outside (i := 5) (by decide)
  have hread : 4 ≤ (r + 5 - (r + 12)).toNat := by bv_omega
  have hio : 2 ≤ (r + 5 - (r + 8)).toNat := by bv_omega
  have hhigh : r + 5 ≠ r + 7 := by bv_omega
  have hmid : r + 5 ≠ r + 6 := by bv_omega
  have hlow : (registerDrive alloc ataRead b.code slot.code b.base name s).mem (r + 5) =
      ((if driveId b slot ≠ 0 then 0x1F0 else 0x170 : BitVec 16) + 3).setWidth 8 := by
    simp only [registerDrive, Driver.malloc, hmalloc, addDrive, store32_outside _ hentry,
      store32_outside _ hread]
    rw [store16, writeBytes_outside _ hio, Function.update_of_ne hhigh, Function.update_of_ne hmid,
      Function.update_self, Function.update_self]
    rfl
  rw [hlow]
  cases b with
  | primary =>
    cases slot with
    | master => decide
    | slave => decide
  | secondary =>
    cases slot with
    | master => decide
    | slave => decide

end TinaOS.Ata
