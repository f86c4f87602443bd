import TinaOS.Library.BoundedLoop
import TinaOS.Library.ByteMemory
import Mathlib.Tactic.ByContra
import Mathlib.Tactic.SplitIfs

/-!
# The disk driver of `drivers/ata.c`

The driver reaches a drive through input and output ports. The ports are a parameter with
a state of its own type, so the same driver runs against any device. A poll loop gets a
budget of status reads; `none` is an exhausted budget.
-/

namespace TinaOS.Ata

open ByteMemory

abbrev Byte := BitVec 8

/-- The port instructions of `sys/system.c`, answered by a device with state `δ`. -/
structure Ports (δ : Type*) where
  inb : BitVec 16 → δ → Byte × δ
  inw : BitVec 16 → δ → BitVec 16 × δ
  outb : BitVec 16 → Byte → δ → δ

def PRIMARY_BUS : Byte := 0
def SECONDARY_BUS : Byte := 1
def MASTER_DRIVE : Byte := 0
def SLAVE_DRIVE : Byte := 1
def PRIMARY_IO : BitVec 16 := 0x1F0
def SECONDARY_IO : BitVec 16 := 0x170
def ATA_DATA : BitVec 16 := 0x00
def ATA_SECTOR_COUNT_0 : BitVec 16 := 0x02
def ATA_LBA_LOW : BitVec 16 := 0x03
def ATA_LBA_MID : BitVec 16 := 0x04
def ATA_LBA_HIGH : BitVec 16 := 0x05
def ATA_HD_SEL : BitVec 16 := 0x06
def ATA_COMMAND : BitVec 16 := 0x07
def ATA_STATUS : BitVec 16 := 0x07
def ATA_ALT_STATUS : BitVec 16 := 0x0C
def ATA_BSY : Byte := 0x80
def ATA_DRQ : Byte := 0x08
def ATA_ERR : Byte := 0x01
def ATA_COMMAND_READ_PIO : Byte := 0x20

structure AtaDrive where
  driveId : Byte
  io : BitVec 16
  deriving DecidableEq, Repr

/-- A `krnl_panic`, which does not return. -/
inductive Panic where
  | deviceFailure
  deriving DecidableEq, Repr

variable {δ ρ σ : Type*}

def delay (P : Ports δ) (port : BitVec 16) (d : δ) : δ :=
  (List.range 4).foldl (fun d _ => (P.inb port d).2) d

def retryPoll (P : Ports δ) (io : BitVec 16) (d : δ) : δ ⊕ δ :=
  let (status, d) := P.inb (io + ATA_STATUS) d
  if status &&& ATA_BSY ≠ 0 then .inl d else .inr d

def retryPollAgain (P : Ports δ) (io : BitVec 16) (d : δ) : δ ⊕ Except Panic δ :=
  let (status, d) := P.inb (io + ATA_STATUS) d
  if status &&& ATA_ERR ≠ 0 then .inr (.error .deviceFailure)
  else if status &&& ATA_DRQ = 0 then .inl d
  else .inr (.ok d)

def pollAtaDrive (P : Ports δ) (fuel : ℕ) (io : BitVec 16) (d : δ) : Option (Except Panic δ) :=
  let d := delay P (io + ATA_ALT_STATUS) d
  match BoundedLoop.run (retryPoll P io) fuel d with
  | none => none
  | some d => BoundedLoop.run (retryPollAgain P io) fuel d

/-- The `switch` of `ata_read_once`; `none` is its default case. -/
def driveCase (driveId : Byte) : Option Byte :=
  if driveId = PRIMARY_BUS <<< 1 ||| MASTER_DRIVE then some MASTER_DRIVE
  else if driveId = PRIMARY_BUS <<< 1 ||| SLAVE_DRIVE then some SLAVE_DRIVE
  else if driveId = SECONDARY_BUS <<< 1 ||| MASTER_DRIVE then some MASTER_DRIVE
  else if driveId = SECONDARY_BUS <<< 1 ||| SLAVE_DRIVE then some MASTER_DRIVE
  else none

/-- The port writes of `ata_read_once`, in order. -/
def issueRead (P : Ports δ) (lba : BitVec 32) (drive : Byte) (io : BitVec 16) (d : δ) : δ :=
  let command : Byte := if drive = MASTER_DRIVE then 0xE0 else 0xF0
  let d := P.outb (io + ATA_HD_SEL) (command ||| (lba >>> 24 &&& 0x0F).setWidth 8) d
  let d := P.outb (io + 1) 0x00 d
  let d := P.outb (io + ATA_SECTOR_COUNT_0) 1 d
  let d := P.outb (io + ATA_LBA_LOW) (lba.setWidth 8) d
  let d := P.outb (io + ATA_LBA_MID) ((lba >>> 16).setWidth 8) d
  P.outb (io + ATA_COMMAND) ATA_COMMAND_READ_PIO d

/-- The first `n` rounds of the loop that stores the words of the data port. -/
def readWords (P : Ports δ) (io : BitVec 16) (buffer : Ptr) (n : ℕ) (s : Mem × δ) : Mem × δ :=
  (List.range n).foldl (fun (m, d) i =>
    let (data, d) := P.inw (io + ATA_DATA) d
    (store16 m (buffer + BitVec.ofNat 32 (i * 2)) data, d)) s

/-- `ata_read_once`, on memory and on the device. -/
def ataReadOnce (P : Ports δ) (fuel : ℕ) (buffer : Ptr) (lba : BitVec 32) (device : AtaDrive)
    (s : Mem × δ) : Option (Except Panic (Mem × δ)) :=
  match driveCase device.driveId with
  | none => some (.ok s)
  | some drive =>
    let io := device.io
    match pollAtaDrive P fuel io (issueRead P lba drive io s.2) with
    | none => none
    | some (.error e) => some (.error e)
    | some (.ok d) =>
      let (m, d) := readWords P io buffer 256 (s.1, d)
      some (.ok (m, delay P (io + ATA_ALT_STATUS) d))

/-- The variables of the loop of `ata_read`. -/
structure ReadLoop (σ : Type*) where
  sector : BitVec 32
  sectorCount : BitVec 32
  buffer : Ptr
  state : σ

/-- One round of the loop: the step is `sector_count++`. `none` is a call that does not return. -/
def ataReadStep (once : Ptr → BitVec 32 → ρ → σ → Option σ) (lba : BitVec 32) (drive : ρ)
    (s : ReadLoop σ) : ReadLoop σ ⊕ Option σ :=
  if s.sector < s.sectorCount then
    match once s.buffer (lba + s.sector) drive s.state with
    | none => .inr none
    | some state =>
      .inl { s with sectorCount := s.sectorCount + 1, buffer := s.buffer + 512, state := state }
  else .inr (some s.state)

/-- `ata_read`, over any `ata_read_once` and whatever that is told of the drive. -/
def ataRead (once : Ptr → BitVec 32 → ρ → σ → Option σ) (fuel : ℕ) (buffer : Ptr)
    (lba sectorCount : BitVec 32) (drive : ρ) (s : σ) : Option (Option σ) :=
  BoundedLoop.run (ataReadStep once lba drive) fuel ⟨0, sectorCount, buffer, s⟩

section Loop

variable {f : Ptr → BitVec 32 → AtaDrive → σ → σ} {buffer : Ptr} {lba n : BitVec 32}
  {drive : AtaDrive} {s : σ}

/-- An `ata_read_once` that returns has some effect on the state. -/
def returning (f : Ptr → BitVec 32 → AtaDrive → σ → σ) :
    Ptr → BitVec 32 → AtaDrive → σ → Option σ := fun b l d s => some (f b l d s)

/-- Read the same sector again and again, each time 512 bytes further on. -/
def rereadSector (f : Ptr → BitVec 32 → AtaDrive → σ → σ) (lba : BitVec 32) (drive : AtaDrive) :
    ℕ → Ptr → σ → σ
  | 0, _, s => s
  | r + 1, buffer, s => rereadSector f lba drive r (buffer + 512) (f buffer lba drive s)

/-- The rounds until the count has gone round to zero. -/
def rounds (n : BitVec 32) : ℕ := (2 ^ 32 - n.toNat) % 2 ^ 32

private theorem run_ataReadStep (f : Ptr → BitVec 32 → AtaDrive → σ → σ) (lba : BitVec 32)
    (drive : AtaDrive) {r fuel : ℕ} (hn : rounds n = r) (hf : r < fuel) (buffer : Ptr) (s : σ) :
    BoundedLoop.run (ataReadStep (returning f) lba drive) fuel ⟨0, n, buffer, s⟩ =
      some (some (rereadSector f lba drive r buffer s)) := by
  induction r generalizing n fuel buffer s with
  | zero =>
    obtain ⟨fuel, rfl⟩ : ∃ k, fuel = k + 1 := ⟨fuel - 1, by omega⟩
    have hz : n = 0 := by
      have hlt := n.isLt
      simp only [rounds] at hn
      apply BitVec.eq_of_toNat_eq
      simp only [BitVec.reduceToNat]
      omega
    refine BoundedLoop.run_of_inr ?_ fuel
    simp [ataReadStep, hz, rereadSector]
  | succ r ih =>
    obtain ⟨fuel, rfl⟩ : ∃ k, fuel = k + 1 := ⟨fuel - 1, by omega⟩
    have hlt := n.isLt
    simp only [rounds] at hn
    have hpos : (0 : BitVec 32) < n := by
      simp only [BitVec.lt_def, BitVec.reduceToNat]
      omega
    have hstep : ataReadStep (returning f) lba drive ⟨0, n, buffer, s⟩ =
        .inl ⟨0, n + 1, buffer + 512, f buffer lba drive s⟩ := by
      have hlba : lba + 0 = lba := BitVec.add_zero lba
      simp only [ataReadStep, returning, hpos, if_true, hlba]
    rw [BoundedLoop.run_of_inl hstep]
    refine ih ?_ (by omega) _ _
    simp only [rounds, BitVec.toNat_add, BitVec.reduceToNat]
    omega

/-- `ata_read` reads the first sector into one place after the other until the count wraps. -/
theorem ataRead_eq (f : Ptr → BitVec 32 → AtaDrive → σ → σ) (buffer : Ptr) (lba n : BitVec 32)
    (drive : AtaDrive) (s : σ) {fuel : ℕ} (hf : rounds n < fuel) :
    ataRead (returning f) fuel buffer lba n drive s =
      some (some (rereadSector f lba drive (rounds n) buffer s)) :=
  run_ataReadStep f lba drive rfl hf buffer s

/-- What `ata_read` is for: sector after sector, each into its own 512 bytes. -/
def readSectors (f : Ptr → BitVec 32 → AtaDrive → σ → σ) (buffer : Ptr) (lba n : BitVec 32)
    (drive : AtaDrive) (s : σ) : σ :=
  (List.range n.toNat).foldl (fun s k =>
    f (buffer + BitVec.ofNat 32 (512 * k)) (lba + BitVec.ofNat 32 k) drive s) s

def transfer (disk : BitVec 32 → ℕ → Byte) (buffer : Ptr) (lba : BitVec 32) (_ : AtaDrive)
    (m : Mem) : Mem := writeBytes m buffer 512 (disk lba)

/-- `ata_read` returns after one call for each sector, in order, whatever a call does; it writes
the bytes of these sectors and no others; and it may be split into two reads. -/
structure ReadsInOrder (buffer : Ptr) (lba n : BitVec 32) (drive : AtaDrive) : Prop where
  calls : ∀ (σ : Type) (f : Ptr → BitVec 32 → AtaDrive → σ → σ) (s : σ), ∃ fuel,
    ataRead (returning f) fuel buffer lba n drive s = some (some (readSectors f buffer lba n drive s))
  bytes : ∀ (disk : BitVec 32 → ℕ → Byte) (m : Mem), 512 * n.toNat ≤ 2 ^ 32 → ∃ fuel m',
    ataRead (returning (transfer disk)) fuel buffer lba n drive m = some (some m') ∧
      ∀ x, m' x = if (x - buffer).toNat < 512 * n.toNat
        then disk (lba + BitVec.ofNat 32 ((x - buffer).toNat / 512)) ((x - buffer).toNat % 512)
        else m x
  split : ∀ (σ : Type) (f : Ptr → BitVec 32 → AtaDrive → σ → σ) (s : σ) (n' : BitVec 32),
    lba.toNat + n.toNat + n'.toNat ≤ 2 ^ 28 → ∃ fuel s₁ s₂,
      ataRead (returning f) fuel buffer lba n drive s = some (some s₁) ∧
      ataRead (returning f) fuel (buffer + 512 * n) (lba + n) n' drive s₁ = some (some s₂) ∧
      ataRead (returning f) fuel buffer lba (n + n') drive s = some (some s₂)

private theorem rereadSector_count (lba : BitVec 32) (drive : AtaDrive) (r : ℕ) (buffer : Ptr)
    (c : ℕ) : rereadSector (fun _ _ _ c => c + 1) lba drive r buffer c = c + r := by
  induction r generalizing buffer c with
  | zero => rfl
  | succ r ih =>
    rw [rereadSector, ih]
    omega

private theorem readSectors_count (buffer : Ptr) (lba n : BitVec 32) (drive : AtaDrive) (c : ℕ) :
    readSectors (fun _ _ _ c => c + 1) buffer lba n drive c = c + n.toNat := by
  rw [readSectors]
  induction n.toNat with
  | zero => rfl
  | succ k ih =>
    rw [List.range_succ, List.foldl_append, ih]
    rfl

theorem not_readsInOrder (hlt : n.toNat ≤ 2 ^ 28) (hn : n ≠ 0) : ¬ ReadsInOrder buffer lba n drive := by
  intro h
  obtain ⟨fuel, hrun⟩ := h.calls ℕ (fun _ _ _ c => c + 1) 0
  have heq := BoundedLoop.run_unique hrun (ataRead_eq _ buffer lba n drive 0 (Nat.lt_succ_self _))
  rw [readSectors_count, rereadSector_count, Option.some.injEq] at heq
  have hpos : n.toNat ≠ 0 := fun h0 => hn (BitVec.eq_of_toNat_eq h0)
  simp only [rounds] at heq
  omega

/-- `ata_read` does its work only if there is none. -/
theorem readsInOrder_iff (hlba : lba.toNat + n.toNat ≤ 2 ^ 28) :
    ReadsInOrder buffer lba n drive ↔ n = 0 := by
  constructor
  · intro h
    by_contra hn
    exact not_readsInOrder (by omega) hn h
  · rintro rfl
    have hzero : ∀ {σ : Type} (f : Ptr → BitVec 32 → AtaDrive → σ → σ) (s : σ) (fuel : ℕ),
        ataRead (returning f) (fuel + 1) buffer lba 0 drive s = some (some s) := fun f s fuel =>
      ataRead_eq f buffer lba 0 drive s (Nat.succ_pos _)
    constructor
    case calls => exact fun σ f s => ⟨1, hzero f s 0⟩
    case bytes =>
      exact fun disk m _ => ⟨1, m, hzero (transfer disk) m 0, fun x => (if_neg (by simp)).symm⟩
    case split =>
      intro σ f s n' _
      refine ⟨rounds n' + 1, s, rereadSector f lba drive (rounds n') buffer s, hzero f s _, ?_, ?_⟩
      · have hbuffer : buffer + 512 * 0 = buffer := BitVec.add_zero buffer
        have hlba : lba + 0 = lba := BitVec.add_zero lba
        rw [hbuffer, hlba]
        exact ataRead_eq f buffer lba n' drive s (Nat.lt_succ_self _)
      · have hn' : 0 + n' = n' := BitVec.zero_add n'
        rw [hn']
        exact ataRead_eq f buffer lba n' drive s (Nat.lt_succ_self _)

/-- Reading one sector makes `2 ^ 32 - 1` calls. -/
theorem not_readsInOrder_one : ¬ ReadsInOrder 0x100000 0 1 ⟨0, PRIMARY_IO⟩ :=
  not_readsInOrder (by decide) (by decide)

theorem readsInOrder_zero : ReadsInOrder 0x100000 5 0 ⟨0, PRIMARY_IO⟩ :=
  (readsInOrder_iff (by decide)).mpr rfl

end Loop

end TinaOS.Ata
