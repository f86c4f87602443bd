import TinaOS.AtaIdentify
import TinaOS.AtaReads

/-!
# The port accesses of the disk driver

Every access that the driver makes to the disks is one of a short list: it reads the status, the data
and the place where it takes the alternate status to be, and of all commands it sends only IDENTIFY
and the read of sectors. So no run of the driver writes to a disk, whatever the disks answer, as long
as its read functions get the records that the driver makes. Its messages, which are left out, write
to the two ports of the cursor.
-/

namespace TinaOS.Ata

open ByteMemory Allocators

/-- An access of a port, with the byte that was written. -/
inductive Access where
  | inb (port : BitVec 16)
  | inw (port : BitVec 16)
  | outb (port : BitVec 16) (value : Byte)
  deriving DecidableEq, Repr

/-- What `identify_drive` does with the ports of a bus. -/
inductive Probing : Access → Prop
  | status (b : Bus) : Probing (.inb (b.base + ATA_STATUS))
  | data (b : Bus) : Probing (.inw (b.base + ATA_DATA))
  | select (b : Bus) (v : Byte) : Probing (.outb (b.base + ATA_HD_SEL) v)
  | count (b : Bus) : Probing (.outb (b.base + ATA_SECTOR_COUNT_0) 0)
  | low (b : Bus) : Probing (.outb (b.base + ATA_LBA_LOW) 0)
  | mid (b : Bus) : Probing (.outb (b.base + ATA_LBA_MID) 0)
  | high (b : Bus) : Probing (.outb (b.base + ATA_LBA_HIGH) 0)
  | identify (b : Bus) : Probing (.outb (b.base + ATA_COMMAND) ATA_IDENTIFY)

/-- What the driver does with them. -/
inductive Permitted : Access → Prop
  | probing {a : Access} (h : Probing a) : Permitted a
  | altStatus (b : Bus) : Permitted (.inb (b.base + ATA_ALT_STATUS))
  | features (b : Bus) : Permitted (.outb (b.base + 1) 0)
  | count (b : Bus) : Permitted (.outb (b.base + ATA_SECTOR_COUNT_0) 1)
  | low (b : Bus) (v : Byte) : Permitted (.outb (b.base + ATA_LBA_LOW) v)
  | mid (b : Bus) (v : Byte) : Permitted (.outb (b.base + ATA_LBA_MID) v)
  | read (b : Bus) : Permitted (.outb (b.base + ATA_COMMAND) ATA_COMMAND_READ_PIO)

theorem command_ne {b b' : Bus} {off : BitVec 16} (h : off < 7) : b.base + ATA_COMMAND ≠ b'.base + off := by
  intro heq
  have hports := congrArg BitVec.toNat heq
  rw [BitVec.lt_def] at h
  cases b <;> cases b' <;>
    simp only [Bus.base, PRIMARY_IO, SECONDARY_IO, ATA_COMMAND, BitVec.toNat_add,
      BitVec.reduceToNat] at hports h <;> omega

theorem Probing.command {b : Bus} {v : Byte} (h : Probing (.outb (b.base + ATA_COMMAND) v)) :
    v = ATA_IDENTIFY := by
  generalize ha : Access.outb (b.base + ATA_COMMAND) v = a at h
  cases h with
  | status | data => cases ha
  | select | count | low | mid | high => exact absurd (Access.outb.inj ha).1 (command_ne (by decide))
  | identify => exact (Access.outb.inj ha).2

/-- Of the commands only two are permitted. -/
theorem Permitted.command {b : Bus} {v : Byte} (h : Permitted (.outb (b.base + ATA_COMMAND) v)) :
    v = ATA_IDENTIFY ∨ v = ATA_COMMAND_READ_PIO := by
  generalize ha : Access.outb (b.base + ATA_COMMAND) v = a at h
  cases h with
  | probing h => exact .inl (ha ▸ h).command
  | altStatus => cases ha
  | features | count | low | mid => exact absurd (Access.outb.inj ha).1 (command_ne (by decide))
  | read => exact .inr (Access.outb.inj ha).2

/-- A property of the device that the accesses in `Q` keep. -/
structure Keeps {δ : Type*} (P : Ports δ) (Q : Access → Prop) (I : δ → Prop) : Prop where
  inb : ∀ port d, Q (.inb port) → I d → I (P.inb port d).2
  inw : ∀ port d, Q (.inw port) → I d → I (P.inw port d).2
  outb : ∀ port v d, Q (.outb port v) → I d → I (P.outb port v d)

variable {α δ : Type*} {P : Ports δ} {I : δ → Prop} {b : Bus} {slot : Slot} {d d' : δ} {m m' : Mem}
  {fuel : ℕ}

theorem Keeps.probing (K : Keeps P Permitted I) : Keeps P Probing I where
  inb port d hp := K.inb port d (.probing hp)
  inw port d hp := K.inw port d (.probing hp)
  outb port v d hp := K.outb port v d (.probing hp)

theorem Keeps.delay (K : Keeps P Permitted I) (b : Bus) (hd : I d) :
    I (Ata.delay P (b.base + ATA_ALT_STATUS) d) := by
  have hinb : ∀ d, I d → I (P.inb (b.base + ATA_ALT_STATUS) d).2 :=
    fun d => K.inb _ d (.altStatus b)
  exact hinb _ (hinb _ (hinb _ (hinb _ hd)))

/-- A loop that reads the status and goes on or leaves with the device. -/
theorem Keeps.run (K : Keeps P Probing I) (b : Bus) {body : δ → δ ⊕ δ}
    (hbody : ∀ d, body d = .inl (P.inb (b.base + ATA_STATUS) d).2 ∨
      body d = .inr (P.inb (b.base + ATA_STATUS) d).2)
    (hd : I d) (h : BoundedLoop.run body fuel d = some d') : I d' := by
  have hinb : ∀ d, I d → I (P.inb (b.base + ATA_STATUS) d).2 := fun d => K.inb _ d (.status b)
  refine BoundedLoop.run_keeps (I := I) (J := I) (fun d d' hd hstep => ?_) (fun d d' hd hstep => ?_)
    hd h
  · rcases hbody d with heq | heq
    · rw [heq] at hstep
      exact Sum.inl.inj hstep ▸ hinb d hd
    · rw [heq] at hstep
      cases hstep
  · rcases hbody d with heq | heq
    · rw [heq] at hstep
      cases hstep
    · rw [heq] at hstep
      exact Sum.inr.inj hstep ▸ hinb d hd

theorem inl_or_inr (c : Prop) [Decidable c] (d : δ) :
    (if c then .inl d else .inr d : δ ⊕ δ) = .inl d ∨
      (if c then .inl d else .inr d : δ ⊕ δ) = .inr d := by
  split_ifs
  · exact .inl rfl
  · exact .inr rfl

theorem Keeps.pollAtaDrive (K : Keeps P Permitted I) (b : Bus) (hd : I d)
    (h : Ata.pollAtaDrive P fuel b.base d = some (.ok d')) : I d' := by
  have hinb : ∀ d, I d → I (P.inb (b.base + ATA_STATUS) d).2 :=
    fun d => K.probing.inb _ d (.status b)
  simp only [Ata.pollAtaDrive] at h
  cases hbusy : BoundedLoop.run (retryPoll P b.base) fuel
      (Ata.delay P (b.base + ATA_ALT_STATUS) d) with
  | none =>
    rw [hbusy] at h
    cases h
  | some d₁ =>
    rw [hbusy] at h
    have hd₁ : I d₁ := K.probing.run b (fun _ => inl_or_inr _ _) (K.delay b hd) hbusy
    refine BoundedLoop.run_keeps (I := I) (J := fun r => ∀ d', r = .ok d' → I d')
      (fun d d' hd hstep => ?_) (fun d r hd hstep d' hr => ?_) hd₁ h d' rfl
    · simp only [retryPollAgain] at hstep
      split_ifs at hstep
      exact Sum.inl.inj hstep ▸ hinb d hd
    · subst hr
      simp only [retryPollAgain] at hstep
      split_ifs at hstep
      · cases Sum.inr.inj hstep
      · exact Except.ok.inj (Sum.inr.inj hstep) ▸ hinb d hd

theorem Keeps.issueRead (K : Keeps P Permitted I) (lba : BitVec 32) (drive : Byte) (b : Bus) (hd : I d) :
    I (Ata.issueRead P lba drive b.base d) := by
  refine K.outb _ _ _ (.read b) ?_
  refine K.outb _ _ _ (.mid b _) ?_
  refine K.outb _ _ _ (.low b _) ?_
  refine K.outb _ _ _ (.count b) ?_
  refine K.outb _ _ _ (.features b) ?_
  exact K.probing.outb _ _ _ (.select b _) hd

theorem Keeps.readWords (K : Keeps P Probing I) (b : Bus) (buffer : Ptr) (n : ℕ) (hd : I d) :
    I (Ata.readWords P b.base buffer n (m, d)).2 := by
  induction n with
  | zero => exact hd
  | succ n ih =>
    rw [readWords_succ (s := (m, d)) rfl]
    exact K.inw _ _ (.data b) ih

theorem Keeps.ataReadOnce (K : Keeps P Permitted I) (r : Request) (hd : I d)
    (h : Ata.ataReadOnce P fuel r.buffer r.lba r.drive (m, d) = some (.ok (m', d'))) : I d' := by
  have hid : driveCase r.drive.driveId = some (picked r.bus r.slot).code :=
    driveCase_driveId r.bus r.slot
  have hio : r.drive.io = r.bus.base := rfl
  have hissue := K.issueRead r.lba (picked r.bus r.slot).code r.bus hd
  simp only [Ata.ataReadOnce, hid, hio] at h
  cases hpoll : Ata.pollAtaDrive P fuel r.bus.base
      (Ata.issueRead P r.lba (picked r.bus r.slot).code r.bus.base d) with
  | none =>
    rw [hpoll] at h
    cases h
  | some polled =>
    rw [hpoll] at h
    cases polled with
    | error e => cases h
    | ok d₁ =>
      have hwords := K.probing.readWords (m := m) r.bus r.buffer 256 (K.pollAtaDrive r.bus hissue hpoll)
      obtain ⟨-, rfl⟩ := Prod.mk.inj (Except.ok.inj (Option.some.inj h))
      exact K.delay r.bus hwords

theorem once_eq_some {buffer : Ptr} {lba : BitVec 32} {device : Ptr} {s s' : Mem × δ}
    (h : once P fuel buffer lba device s = some s') :
    Ata.ataReadOnce P fuel buffer lba (driveAt s.1 device) s = some (.ok s') := by
  obtain ⟨out, hout, hok⟩ := Option.bind_eq_some_iff.mp h
  cases out with
  | error e => cases hok
  | ok s₁ => rw [hout, Option.some.inj hok]

/-- The loop of `ata_read` before a round: it still starts at the first sector, its copies will miss
the record, and the record is as it was. -/
structure Rounds (device : Ptr) (record : AtaDrive) (J : Mem × δ → Prop) (s : ReadLoop (Mem × δ)) :
    Prop where
  sector_eq : s.sector = 0
  misses : Misses s.buffer (512 * rounds s.sectorCount) device
  drive : driveAt s.state.1 device = record
  kept : J s.state

/-- What each call of the loop of `ata_read` keeps, the loop keeps, when its copies miss the record. -/
theorem ataRead_keeps {J : Mem × δ → Prop} {record : AtaDrive} {buffer device : Ptr}
    {lba n : BitVec 32} {budget : ℕ} {t t' : Mem × δ}
    (hf : ∀ buffer lba t t', J t → Ata.ataReadOnce P fuel buffer lba record t = some (.ok t') → J t')
    (hdrive : driveAt t.1 device = record) (hmiss : Misses buffer (512 * rounds n) device) (ht : J t)
    (h : Ata.ataRead (once P fuel) budget buffer lba n device t = some (some t')) : J t' := by
  refine BoundedLoop.run_keeps (I := Rounds device record J)
    (J := fun out => ∀ t', out = some t' → J t') (fun s s' hs hstep => ?_)
    (fun s out hs hstep t' hout => ?_) ⟨rfl, hmiss, hdrive, ht⟩ h t' rfl
  · obtain ⟨sector, count, buffer, state⟩ := s
    obtain ⟨rfl, hmiss, hdrive, hkept⟩ := hs
    simp only at hmiss hdrive hkept
    cases hrounds : rounds count with
    | zero =>
      rw [ataReadStep_end _ _ _ _ _ hrounds] at hstep
      cases hstep
    | succ r =>
      cases hread : once P fuel buffer lba device state with
      | none =>
        have hlba : lba + 0 = lba := BitVec.add_zero lba
        simp only [ataReadStep, hlba, hread] at hstep
        split_ifs at hstep
      | some state' =>
        obtain ⟨hnext, hrest⟩ := ataReadStep_next hrounds hread
        rw [hnext] at hstep
        rw [hrounds] at hmiss
        obtain rfl := Sum.inl.inj hstep
        have hcall := once_eq_some hread
        rw [hdrive] at hcall
        refine ⟨rfl, ?_, ?_, hf _ _ _ _ hkept hcall⟩
        · simp only [hrest]
          exact hmiss.tail
        · exact ((hmiss.mono (by omega)).driveAt_eq hcall).trans hdrive
  · subst hout
    simp only [ataReadStep] at hstep
    split_ifs at hstep
    · cases hread : once P fuel s.buffer (lba + s.sector) device s.state with
      | none =>
        rw [hread] at hstep
        cases Sum.inr.inj hstep
      | some state =>
        rw [hread] at hstep
        cases hstep
    · exact Option.some.inj (Sum.inr.inj hstep) ▸ hs.kept

theorem Keeps.issueIdentify (K : Keeps P Probing I) (bus drive : Byte) (b : Bus) (hd : I d) :
    I (Ata.issueIdentify P bus drive b.base d) := by
  refine K.outb _ _ _ (.identify b) ?_
  refine K.outb _ _ _ (.high b) ?_
  refine K.outb _ _ _ (.mid b) ?_
  refine K.outb _ _ _ (.low b) ?_
  refine K.outb _ _ _ (.count b) ?_
  rw [selectDrive]
  split_ifs
  · exact K.outb _ _ _ (.select .primary _) hd
  · exact K.outb _ _ _ (.select .primary _) hd
  · exact K.outb _ _ _ (.select .secondary _) hd
  · exact K.outb _ _ _ (.select .secondary _) hd

theorem Keeps.identifyDrive (K : Keeps P Probing I) (bus drive : Byte) {found : Byte} (hd : I d)
    (h : Ata.identifyDrive P fuel bus drive (m, d) = some (found, m', d')) : I d' := by
  obtain ⟨b, hb⟩ : ∃ b : Bus,
      (if bus = PRIMARY_BUS then PRIMARY_IO else SECONDARY_IO) = b.base := by
    split_ifs
    · exact ⟨.primary, rfl⟩
    · exact ⟨.secondary, rfl⟩
  have hstatus := K.inb _ _ (.status b) (K.issueIdentify bus drive b hd)
  simp only [Ata.identifyDrive, hb] at h
  split_ifs at h
  · obtain ⟨-, hout⟩ := Prod.mk.inj (Option.some.inj h)
    exact (Prod.mk.inj hout).2 ▸ hstatus
  · split at h
    · cases h
    · rename_i d₁ hwait
      have hd₁ := K.run b (fun _ => inl_or_inr _ _) hstatus hwait
      split at h
      · cases h
      · rename_i d₂ hread
        have hd₂ := K.run b (fun _ => inl_or_inr _ _) hd₁ hread
        have hwords := K.readWords (m := m) b ataBuffer 256 hd₂
        obtain ⟨-, hout⟩ := Prod.mk.inj (Option.some.inj h)
        rw [hout] at hwords
        exact hwords
  · obtain ⟨-, hout⟩ := Prod.mk.inj (Option.some.inj h)
    exact (Prod.mk.inj hout).2 ▸ hstatus

theorem Keeps.initiliazeAtaDriver (K : Keeps P Probing I) {alloc : Allocator α} {ataRead : Ptr}
    {s s' : Driver α δ} (hs : I s.ports)
    (h : Ata.initiliazeAtaDriver alloc P ataRead fuel s = some s') : I s'.ports := by
  have hprobe : ∀ bus slot io (s s' : Driver α δ), I s.ports →
      Ata.probe alloc P ataRead fuel bus slot io s = some s' → I s'.ports := by
    intro bus slot io s s' hs h
    rw [Ata.probe_eq, Option.map_eq_some_iff] at h
    obtain ⟨⟨found, m, d⟩, hidentify, rfl⟩ := h
    exact K.identifyDrive bus slot hs hidentify
  simp only [Ata.initiliazeAtaDriver, Option.bind_eq_bind, Option.bind_eq_some_iff] at h
  obtain ⟨s₁, h₁, s₂, h₂, s₃, h₃, h₄⟩ := h
  exact hprobe _ _ _ _ _ (hprobe _ _ _ _ _ (hprobe _ _ _ _ _ (hprobe _ _ _ _ _ hs h₁) h₂) h₃) h₄

/-- What happens to the driver from outside: a call of one of its functions, the read functions with
the address of a record, or stores of their callers, which leave the memory `m`. -/
inductive Use where
  | start
  | readOnce (buffer : Ptr) (lba : BitVec 32) (device : Ptr)
  | read (buffer : Ptr) (lba n : BitVec 32) (device : Ptr)
  | stores (m : Mem)

/-- The driver afterwards; `none` if it panics or exhausts a budget. Its messages are left out: they
change nothing but the screen and the cursor. -/
def use (alloc : Allocator α) (P : Ports δ) (ataRead : Ptr) (fuel : ℕ) (u : Use)
    (s : Driver α δ) : Option (Driver α δ) :=
  match u with
  | .start => initiliazeAtaDriver alloc P ataRead fuel s
  | .readOnce buffer lba device => (once P fuel buffer lba device (s.mem, s.ports)).map fun out =>
      { s with mem := out.1, ports := out.2 }
  | .read buffer lba n device =>
    (Ata.ataRead (once P fuel) fuel buffer lba n device (s.mem, s.ports)).join.map fun out =>
      { s with mem := out.1, ports := out.2 }
  | .stores m => some { s with mem := m }

/-- The record at `device` is of a drive in one of the four positions, as the driver fills it. -/
def Recorded (m : Mem) (device : Ptr) : Prop :=
  ∃ b slot, driveAt m device = ⟨driveId b slot, b.base⟩

/-- A read function gets a record as the driver fills it, and `ata_read` does not run over it. -/
def Use.Allowed (m : Mem) : Use → Prop
  | .readOnce _ _ device => Recorded m device
  | .read buffer _ n device => Recorded m device ∧ Misses buffer (512 * rounds n) device
  | .start | .stores _ => True

theorem Keeps.use (K : Keeps P Permitted I) {alloc : Allocator α} {ataRead : Ptr} {u : Use}
    {s s' : Driver α δ} (hu : u.Allowed s.mem) (hs : I s.ports)
    (h : Ata.use alloc P ataRead fuel u s = some s') : I s'.ports := by
  cases u with
  | start => exact K.probing.initiliazeAtaDriver hs h
  | readOnce buffer lba device =>
    obtain ⟨b, slot, hdrive⟩ := hu
    obtain ⟨⟨m, d⟩, hread, rfl⟩ := Option.map_eq_some_iff.mp h
    have hcall := once_eq_some hread
    rw [hdrive] at hcall
    exact K.ataReadOnce ⟨b, slot, lba, buffer⟩ hs hcall
  | read buffer lba n device =>
    obtain ⟨⟨b, slot, hdrive⟩, hmiss⟩ := hu
    obtain ⟨⟨m, d⟩, hread, rfl⟩ := Option.map_eq_some_iff.mp h
    exact ataRead_keeps (J := fun t : Mem × δ => I t.2) (fun buffer lba _ _ ht hcall =>
      K.ataReadOnce ⟨b, slot, lba, buffer⟩ ht hcall) hdrive hmiss hs (Option.join_eq_some_iff.mp hread)
  | stores m => exact Option.some.inj h ▸ hs

/-- Runs of the driver, each call with a budget of its own. -/
inductive Uses (alloc : Allocator α) (P : Ports δ) (ataRead : Ptr) : Driver α δ → Driver α δ → Prop
  | nil (s) : Uses alloc P ataRead s s
  | cons {fuel u s s₁ s₂} (hu : u.Allowed s.mem) (hcall : use alloc P ataRead fuel u s = some s₁)
    (hrest : Uses alloc P ataRead s₁ s₂) : Uses alloc P ataRead s s₂

theorem Keeps.uses (K : Keeps P Permitted I) {alloc : Allocator α} {ataRead : Ptr}
    {s s' : Driver α δ} (hs : I s.ports) (h : Uses alloc P ataRead s s') : I s'.ports := by
  induction h with
  | nil s => exact hs
  | cons hu hcall _ ih => exact ih (K.use hu hs hcall)

/-- The same ports with a record of all accesses, the latest first. -/
def recorded (P : Ports δ) : Ports (δ × List Access) where
  inb port s := ((P.inb port s.1).1, (P.inb port s.1).2, .inb port :: s.2)
  inw port s := ((P.inw port s.1).1, (P.inw port s.1).2, .inw port :: s.2)
  outb port v s := (P.outb port v s.1, .outb port v :: s.2)

theorem keeps_recorded (P : Ports δ) :
    Keeps (recorded P) Permitted fun s => ∀ a ∈ s.2, Permitted a where
  inb _ _ hp hd := List.forall_mem_cons.mpr ⟨hp, hd⟩
  inw _ _ hp hd := List.forall_mem_cons.mpr ⟨hp, hd⟩
  outb _ _ _ hp hd := List.forall_mem_cons.mpr ⟨hp, hd⟩

/-- Over any device, any run of the driver makes permitted accesses only; the commands among them are
IDENTIFY and the read of sectors, to one of the two buses. -/
theorem accesses_permitted (P : Ports δ) (alloc : Allocator α) (ataRead : Ptr)
    (s : Driver α (δ × List Access)) (hs : s.ports.2 = []) {s' : Driver α (δ × List Access)}
    (h : Uses alloc (recorded P) ataRead s s') :
    (∀ a ∈ s'.ports.2, Permitted a) ∧
    ∀ (b : Bus) (v : Byte), .outb (b.base + ATA_COMMAND) v ∈ s'.ports.2 →
      v = ATA_IDENTIFY ∨ v = ATA_COMMAND_READ_PIO := by
  have hnone : ∀ a ∈ s.ports.2, Permitted a := by simp [hs]
  have hall := (keeps_recorded P).uses hnone h
  exact ⟨hall, fun b v hv => (hall _ hv).command⟩

/-- A disk that is always ready with a word. -/
def readyDisk : Ports Unit := ⟨fun _ d => (ATA_DRQ, d), fun _ d => (0x4241, d), fun _ _ d => d⟩

/-- The driver before its start, with the record of a drive at `0x2000`. -/
def recordDriver : Driver Unit (Unit × List Access) :=
  ⟨withRecord (fun _ => 0) 0x2000 ⟨1, PRIMARY_IO⟩, (), ((), []), 0, 0⟩

def readyUse : ℕ → Use → Driver Unit (Unit × List Access) → Option (Driver Unit (Unit × List Access)) :=
  use (fun _ m h => (0, m, h)) (recorded readyDisk) 0

theorem accesses_permitted_readyDisk : ∃ s', Uses (fun _ m h => (0, m, h)) (recorded readyDisk) 0
      recordDriver s' ∧ s'.ports.2.length = 1876 ∧ ∀ a ∈ s'.ports.2, Permitted a := by
  have hrun : ∀ s₁ s₂ s₃, readyUse 1 .start recordDriver = s₁ →
      s₁.bind (readyUse 1 (.readOnce 0x1000 5 0x2000)) = s₂ →
      s₂.bind (readyUse 3 (.read 0x3000 5 (-2) 0x2000)) = s₃ →
      (s₁.map fun s => driveAt s.mem 0x2000) = some ⟨1, PRIMARY_IO⟩ ∧
      (s₂.map fun s => driveAt s.mem 0x2000) = some ⟨1, PRIMARY_IO⟩ ∧
      (s₃.map fun s => s.ports.2.length) = some 1876 := by
    rintro _ _ _ rfl rfl rfl
    decide +kernel
  obtain ⟨h₁, h₂, h₃⟩ := hrun _ _ _ rfl rfl rfl
  obtain ⟨s₁, hs₁, hdrive₁⟩ := Option.map_eq_some_iff.mp h₁
  rw [hs₁, Option.bind_some] at h₂ h₃
  obtain ⟨s₂, hs₂, hdrive₂⟩ := Option.map_eq_some_iff.mp h₂
  rw [hs₂, Option.bind_some] at h₃
  obtain ⟨s₃, hs₃, hlength⟩ := Option.map_eq_some_iff.mp h₃
  have hmiss : Misses 0x3000 (512 * rounds (-2)) 0x2000 := by
    unfold Misses
    decide
  have hstart : Use.Allowed recordDriver.mem .start := trivial
  have honce : Use.Allowed s₁.mem (.readOnce 0x1000 5 0x2000) := ⟨.primary, .slave, hdrive₁⟩
  have hread : Use.Allowed s₂.mem (.read 0x3000 5 (-2) 0x2000) :=
    ⟨⟨.primary, .slave, hdrive₂⟩, hmiss⟩
  have h : Uses (fun _ m h => (0, m, h)) (recorded readyDisk) 0 recordDriver s₃ :=
    .cons hstart hs₁ <| .cons honce hs₂ <| .cons hread hs₃ <| .nil s₃
  exact ⟨s₃, h, hlength, (accesses_permitted readyDisk _ 0 recordDriver rfl h).1⟩

end TinaOS.Ata
