import TinaOS.AtaIdentify
import TinaOS.Library.Sequences

/-!
# Polling a drive

A drive may answer status reads with any sequence of bytes. Both `identify_drive` and
`poll_ata_drive` wait twice, one wait behind the other, and forget what the first one has seen.
-/

namespace TinaOS.Ata

open ByteMemory Sequences

def ATA_DF : Byte := 0x20

abbrev BsyClear (status : Byte) : Prop := status &&& ATA_BSY = 0

abbrev ErrClear (status : Byte) : Prop := status &&& ATA_ERR = 0

abbrev DfClear (status : Byte) : Prop := status &&& ATA_DF = 0

abbrev DrqSet (status : Byte) : Prop := status &&& ATA_DRQ ≠ 0

/-- The number of status bytes read so far, and what it was at each read of the data port, the
latest first. -/
structure Watch where
  reads : ℕ
  dataReads : List ℕ

def Watch.start : Watch := ⟨0, []⟩

/-- A drive at `io` with any status bytes and any data. Other ports read as all ones. -/
def watched (io : BitVec 16) (status : ℕ → Byte) (data : ℕ → BitVec 16) : Ports Watch where
  inb port w :=
    if port = io + ATA_STATUS then (status w.reads, { w with reads := w.reads + 1 }) else (0xFF, w)
  inw port w :=
    if port = io + ATA_DATA then
      (data w.dataReads.length, { w with dataReads := w.reads :: w.dataReads })
    else (0xFFFF, w)
  outb _ _ w := w

/-- The base of the registers of a bus. -/
def busIo (bus : Byte) : BitVec 16 := if bus = PRIMARY_BUS then PRIMARY_IO else SECONDARY_IO

variable {io : BitVec 16} {status : ℕ → Byte} {data : ℕ → BitVec 16} {fuel k : ℕ} {l : List ℕ}
  {w : Watch} {bus slot : Byte} {port : BitVec 16} {m : Mem}

theorem watched_inb (io : BitVec 16) (status : ℕ → Byte) (data : ℕ → BitVec 16) (k : ℕ)
    (l : List ℕ) : (watched io status data).inb (io + ATA_STATUS) ⟨k, l⟩ = (status k, ⟨k + 1, l⟩) :=
  if_pos rfl

theorem run_waitBusy_watched :
    BoundedLoop.run (waitBusy (watched io status data) io) fuel ⟨k, l⟩ = some w ↔
      ∃ n, FirstFrom ErrClear status k n ∧ n < k + fuel ∧ ⟨n + 1, l⟩ = w := by
  refine run_iff (fun k => Watch.mk k l) (fun k => Watch.mk (k + 1) l) fun k => ?_
  have hmask : (if ATA_BSY ≠ 0 then 1 else 0 : Byte) = ATA_ERR := by decide
  simp only [waitBusy, watched_inb, hmask, ne_eq, ite_not]

theorem run_readStatus_watched :
    BoundedLoop.run (readStatus (watched io status data) io) fuel ⟨k, l⟩ = some w ↔
      ∃ n, FirstFrom DrqSet status k n ∧ n < k + fuel ∧ ⟨n + 1, l⟩ = w := by
  refine run_iff (fun k => Watch.mk k l) (fun k => Watch.mk (k + 1) l) fun k => ?_
  simp only [readStatus, watched_inb, ne_eq, ite_not]

theorem run_retryPoll_watched :
    BoundedLoop.run (retryPoll (watched io status data) io) fuel ⟨k, l⟩ = some w ↔
      ∃ n, FirstFrom BsyClear status k n ∧ n < k + fuel ∧ ⟨n + 1, l⟩ = w := by
  refine run_iff (fun k => Watch.mk k l) (fun k => Watch.mk (k + 1) l) fun k => ?_
  simp only [retryPoll, watched_inb, ne_eq, ite_not]

/-- What the second wait of `poll_ata_drive` makes of the status that ends it. -/
def pollOutcome (status : Byte) (w : Watch) : Except Panic Watch :=
  if status &&& ATA_ERR ≠ 0 then .error .deviceFailure else .ok w

theorem pollOutcome_eq_ok {b : Byte} {w w' : Watch} :
    pollOutcome b w = .ok w' ↔ ErrClear b ∧ w = w' := by
  by_cases herr : ErrClear b
  · rw [pollOutcome, if_neg (not_not.mpr herr), Except.ok.injEq, and_iff_right herr]
  · rw [pollOutcome, if_pos herr]
    refine ⟨fun h => ?_, fun h => absurd h.1 herr⟩
    cases h

theorem run_retryPollAgain_watched {r : Except Panic Watch} :
    BoundedLoop.run (retryPollAgain (watched io status data) io) fuel ⟨k, l⟩ = some r ↔
      ∃ n, FirstFrom (fun b => ¬ ErrClear b ∨ DrqSet b) status k n ∧ n < k + fuel ∧
        pollOutcome (status n) ⟨n + 1, l⟩ = r := by
  refine run_iff (fun k => Watch.mk k l) (fun n => pollOutcome (status n) ⟨n + 1, l⟩) fun k => ?_
  simp only [retryPollAgain, watched_inb, pollOutcome]
  by_cases herr : status k &&& ATA_ERR = 0
  · by_cases hdrq : status k &&& ATA_DRQ = 0
    · simp only [herr, hdrq, ne_eq, not_true_eq_false, or_self, if_false, if_true]
    · simp only [herr, hdrq, ne_eq, not_true_eq_false, not_false_eq_true, or_true, if_false, if_true]
  · simp only [herr, ne_eq, not_false_eq_true, true_or, if_true]

theorem readWords_watched (io : BitVec 16) (status : ℕ → Byte) (data : ℕ → BitVec 16)
    (buffer : Ptr) (m : Mem) (k : ℕ) {n : ℕ} (hn : n ≤ 256) :
    readWords (watched io status data) io buffer n (m, ⟨k, []⟩) =
      (writeBytes m buffer (2 * n) (sectorByte data), ⟨k, List.replicate n k⟩) := by
  induction n with
  | zero => rfl
  | succ n ih =>
    have hword : (watched io status data).inw (io + ATA_DATA) ⟨k, List.replicate n k⟩ =
        (data n, ⟨k, List.replicate (n + 1) k⟩) := by
      simp only [watched, if_true, List.length_replicate, List.replicate_succ]
    rw [readWords_succ (ih (by omega)), hword, store16_writeBytes m buffer data (by omega)]

theorem issueIdentify_watched (bus slot : Byte) (w : Watch) :
    issueIdentify (watched io status data) bus slot io w = w := by
  simp only [issueIdentify, selectDrive, watched, ite_self]

/-- The first status tells that there is a drive, and no error. -/
def Answers (status : Byte) : Prop := status ≠ 0 ∧ ErrClear status

theorem identifyDrive_silent (h : ¬ Answers (status 0)) (fuel : ℕ) :
    identifyDrive (watched (busIo bus) status data) fuel bus slot (m, Watch.start) =
      some (0, m, ⟨1, []⟩) := by
  simp only [identifyDrive, ← busIo.eq_def, issueIdentify_watched, Watch.start, watched_inb]
  by_cases h0 : status 0 = 0
  · exact if_neg (not_not.mpr h0)
  · rw [if_pos h0]
    exact if_pos fun herr => h ⟨h0, herr⟩

theorem identifyDrive_answers (h : Answers (status 0)) (fuel : ℕ) :
    identifyDrive (watched (busIo bus) status data) fuel bus slot (m, Watch.start) =
      (BoundedLoop.run (waitBusy (watched (busIo bus) status data) (busIo bus)) fuel ⟨1, []⟩).bind
        fun w => (BoundedLoop.run (readStatus (watched (busIo bus) status data) (busIo bus)) fuel w).map
          fun w => (0, readWords (watched (busIo bus) status data) (busIo bus) ataBuffer 256 (m, w)) := by
  simp only [identifyDrive, ← busIo.eq_def, issueIdentify_watched, Watch.start, watched_inb]
  rw [if_pos h.1, if_neg (not_not.mpr h.2)]
  split
  · rename_i hwait
    rw [hwait]
    rfl
  · rename_i w hwait
    rw [hwait, Option.bind_some]
    split
    · rename_i hread
      rw [hread]
      rfl
    · rename_i w' hread
      rw [hread]
      rfl

/-- `identify_drive` waits twice behind the first status. -/
theorem identifyDrive_watched (bus slot : Byte) (status : ℕ → Byte) (data : ℕ → BitVec 16) (m : Mem)
    {r : Byte × Mem × Watch} (h : Answers (status 0)) :
    (∃ fuel, identifyDrive (watched (busIo bus) status data) fuel bus slot (m, Watch.start) = some r) ↔
      ∃ n₁ n₂, FirstFrom ErrClear status 1 n₁ ∧ FirstFrom DrqSet status (n₁ + 1) n₂ ∧
        (0, readWords (watched (busIo bus) status data) (busIo bus) ataBuffer 256
          (m, ⟨n₂ + 1, []⟩)) = r := by
  simp only [identifyDrive_answers h, Option.bind_eq_some_iff, Option.map_eq_some_iff]
  constructor
  · rintro ⟨fuel, w₁, hwait, w₂, hread, hr⟩
    obtain ⟨n₁, hn₁, -, rfl⟩ := run_waitBusy_watched.mp hwait
    obtain ⟨n₂, hn₂, -, rfl⟩ := run_readStatus_watched.mp hread
    exact ⟨n₁, n₂, hn₁, hn₂, hr⟩
  · rintro ⟨n₁, n₂, hn₁, hn₂, hr⟩
    have hle := hn₂.le
    exact ⟨n₂, _, run_waitBusy_watched.mpr ⟨n₁, hn₁, by omega, rfl⟩, _,
      run_readStatus_watched.mpr ⟨n₂, hn₂, by omega, rfl⟩, hr⟩

theorem delay_watched (hport : port ≠ io + ATA_STATUS) (w : Watch) :
    delay (watched io status data) port w = w := by
  have hread : ∀ w, ((watched io status data).inb port w).2 = w := fun w => by
    simp only [watched, hport, if_false]
  simp only [delay, hread]
  rfl

theorem altStatus_ne_status (io : BitVec 16) : io + ATA_ALT_STATUS ≠ io + ATA_STATUS := by
  simp only [ATA_ALT_STATUS, ATA_STATUS]
  bv_omega

/-- `poll_ata_drive` waits twice, too. -/
theorem pollAtaDrive_watched (io : BitVec 16) (data : ℕ → BitVec 16) {r : Except Panic Watch} :
    (∃ fuel, pollAtaDrive (watched io status data) fuel io Watch.start = some r) ↔
      ∃ n₁ n₂, FirstFrom BsyClear status 0 n₁ ∧
        FirstFrom (fun b => ¬ ErrClear b ∨ DrqSet b) status (n₁ + 1) n₂ ∧
        pollOutcome (status n₂) ⟨n₂ + 1, []⟩ = r := by
  have hpoll : ∀ fuel, pollAtaDrive (watched io status data) fuel io Watch.start =
      (BoundedLoop.run (retryPoll (watched io status data) io) fuel ⟨0, []⟩).bind
        (BoundedLoop.run (retryPollAgain (watched io status data) io) fuel) := by
    intro fuel
    rw [pollAtaDrive, delay_watched (altStatus_ne_status io), Watch.start]
    split
    · rename_i hwait
      rw [hwait]
      rfl
    · rename_i w hwait
      rw [hwait]
      rfl
  simp only [hpoll, Option.bind_eq_some_iff]
  constructor
  · rintro ⟨fuel, w, hwait, hagain⟩
    obtain ⟨n₁, hn₁, -, rfl⟩ := run_retryPoll_watched.mp hwait
    obtain ⟨n₂, hn₂, -, hr⟩ := run_retryPollAgain_watched.mp hagain
    exact ⟨n₁, n₂, hn₁, hn₂, hr⟩
  · rintro ⟨n₁, n₂, hn₁, hn₂, hr⟩
    have hle := hn₂.le
    exact ⟨n₂ + 1, _, run_retryPoll_watched.mpr ⟨n₁, hn₁, by omega, rfl⟩,
      run_retryPollAgain_watched.mpr ⟨n₂, hn₂, by omega, hr⟩⟩

/-- A status at which the drive has data, and is neither busy nor reports an error. -/
def InDataPhase (status : Byte) : Prop := BsyClear status ∧ ErrClear status ∧ DrqSet status

theorem mem_dataReads_readWords (io : BitVec 16) (status : ℕ → Byte) (data : ℕ → BitVec 16)
    (buffer : Ptr) (m : Mem) (k j : ℕ) :
    j ∈ (readWords (watched io status data) io buffer 256 (m, ⟨k, []⟩)).2.dataReads ↔ j = k := by
  rw [readWords_watched io status data buffer m k (Nat.le_refl _), List.mem_replicate]
  exact and_iff_right (by decide)

/-- `identify_drive` reads data in a data phase only, exactly if this holds unless the first status
is 0 or has `ERR` set: of the status bytes behind the next one with `ERR` clear, the first one with
`DRQ` set has `BSY` and `ERR` clear. -/
theorem identifyDrive_inDataPhase_iff (bus slot : Byte) (status : ℕ → Byte) (data : ℕ → BitVec 16)
    (m : Mem) :
    (∀ fuel found m' w, identifyDrive (watched (busIo bus) status data) fuel bus slot
        (m, Watch.start) = some (found, m', w) →
      ∀ k ∈ w.dataReads, ∃ n, k = n + 1 ∧ InDataPhase (status n)) ↔
    (Answers (status 0) → ∀ n₁ n₂, FirstFrom ErrClear status 1 n₁ →
      FirstFrom DrqSet status (n₁ + 1) n₂ → BsyClear (status n₂) ∧ ErrClear (status n₂)) := by
  constructor
  · intro h hanswers n₁ n₂ hn₁ hn₂
    obtain ⟨fuel, hrun⟩ := (identifyDrive_watched bus slot status data m hanswers).mpr
      ⟨n₁, n₂, hn₁, hn₂, rfl⟩
    have hmem := mem_dataReads_readWords (busIo bus) status data ataBuffer m (n₂ + 1) (n₂ + 1)
    generalize readWords (watched (busIo bus) status data) (busIo bus) ataBuffer 256
      (m, ⟨n₂ + 1, []⟩) = out at hrun hmem
    obtain ⟨n, hn, hbsy, herr, -⟩ := h fuel _ _ _ hrun (n₂ + 1) (hmem.mpr rfl)
    obtain rfl : n₂ = n := Nat.succ.inj hn
    exact ⟨hbsy, herr⟩
  · intro h fuel found m' w hrun k hk
    by_cases hanswers : Answers (status 0)
    · obtain ⟨n₁, n₂, hn₁, hn₂, hr⟩ :=
        (identifyDrive_watched bus slot status data m hanswers).mp ⟨fuel, hrun⟩
      obtain ⟨hbsy, herr⟩ := h hanswers n₁ n₂ hn₁ hn₂
      have hmem := mem_dataReads_readWords (busIo bus) status data ataBuffer m (n₂ + 1) k
      rw [(Prod.mk.inj hr).2] at hmem
      exact ⟨n₂, hmem.mp hk, hbsy, herr, hn₂.holds⟩
    · rw [identifyDrive_silent hanswers] at hrun
      obtain ⟨-, -, rfl⟩ : 0 = found ∧ m = m' ∧ (⟨1, []⟩ : Watch) = w := by simpa using hrun
      cases hk

/-- A drive that stays busy, from its third status on with `DRQ` set. -/
def busyDrq (n : ℕ) : Byte := if n < 2 then ATA_BSY else ATA_BSY ||| ATA_DRQ

theorem not_identifyDrive_inDataPhase : ¬ ∀ (bus slot : Byte) (status : ℕ → Byte)
    (data : ℕ → BitVec 16) (m : Mem), ∀ fuel found m' w,
      identifyDrive (watched (busIo bus) status data) fuel bus slot (m, Watch.start) =
        some (found, m', w) → ∀ k ∈ w.dataReads, ∃ n, k = n + 1 ∧ InDataPhase (status n) := by
  intro h
  have hanswers : Answers (busyDrq 0) := ⟨by decide, by decide⟩
  obtain ⟨fuel, hrun⟩ := (identifyDrive_watched 0 0 busyDrq (fun _ => 0) (fun _ => 0) hanswers).mpr
    ⟨1, 2, firstFrom_self (by decide), firstFrom_self (by decide), rfl⟩
  have hmem := mem_dataReads_readWords (busIo 0) busyDrq (fun _ => 0) ataBuffer (fun _ => 0) 3 3
  generalize readWords (watched (busIo 0) busyDrq fun _ => 0) (busIo 0) ataBuffer 256
    (fun _ => 0, ⟨3, []⟩) = out at hrun hmem
  obtain ⟨n, hn, hbsy, -⟩ := h 0 0 busyDrq _ _ fuel _ _ _ hrun 3 (hmem.mpr rfl)
  obtain rfl : 2 = n := Nat.succ.inj hn
  exact absurd hbsy (by decide)

/-- A status at which the drive has data, and reports neither an error nor a fault. -/
def TransferReady (status : Byte) : Prop :=
  BsyClear status ∧ ErrClear status ∧ DfClear status ∧ DrqSet status

theorem issueRead_watched (lba : BitVec 32) (drive : Byte) (w : Watch) :
    issueRead (watched io status data) lba drive io w = w := rfl

/-- `ata_read_once` reads data behind the two waits, or not at all. -/
theorem ataReadOnce_watched {buffer : Ptr} {lba : BitVec 32} {device : AtaDrive} {m' : Mem} {w : Watch}
    (h : ataReadOnce (watched device.io status data) fuel buffer lba device (m, Watch.start) =
      some (.ok (m', w))) (hk : k ∈ w.dataReads) :
    ∃ n₁ n₂, FirstFrom BsyClear status 0 n₁ ∧
      FirstFrom (fun b => ¬ ErrClear b ∨ DrqSet b) status (n₁ + 1) n₂ ∧ ErrClear (status n₂) ∧
      k = n₂ + 1 := by
  rw [ataReadOnce] at h
  split at h
  · obtain ⟨-, rfl⟩ : m = m' ∧ Watch.start = w := by simpa using h
    cases hk
  · simp only [issueRead_watched] at h
    split at h
    · cases h
    · cases h
    · rename_i w₁ hpoll
      obtain ⟨n₁, n₂, hn₁, hn₂, hr⟩ := (pollAtaDrive_watched _ data).mp ⟨fuel, hpoll⟩
      obtain ⟨herr, rfl⟩ := pollOutcome_eq_ok.mp hr
      refine ⟨n₁, n₂, hn₁, hn₂, herr, ?_⟩
      have hmem := mem_dataReads_readWords device.io status data buffer m (n₂ + 1) k
      simp only [delay_watched (altStatus_ne_status _), Option.some.injEq, Except.ok.injEq,
        Prod.mk.injEq] at h
      rw [h.2] at hmem
      exact hmem.mp hk

/-- `poll_ata_drive` returns, and `ata_read_once` reads data, only when the drive is ready, exactly if
this holds: of the status bytes behind the first one with `BSY` clear, the first one with `ERR` or
`DRQ` set has `ERR` set, or `BSY` and `DF` clear. -/
theorem pollAtaDrive_transferReady_iff (io : BitVec 16) (status : ℕ → Byte)
    (data : ℕ → BitVec 16) :
    ((∀ fuel w, pollAtaDrive (watched io status data) fuel io Watch.start = some (.ok w) →
        ∃ n, w.reads = n + 1 ∧ TransferReady (status n)) ∧
      ∀ fuel buffer lba device m m' w, device.io = io →
        ataReadOnce (watched io status data) fuel buffer lba device (m, Watch.start) =
          some (.ok (m', w)) →
        ∀ k ∈ w.dataReads, ∃ n, k = n + 1 ∧ TransferReady (status n)) ↔
    (∀ n₁ n₂, FirstFrom BsyClear status 0 n₁ →
      FirstFrom (fun b => ¬ ErrClear b ∨ DrqSet b) status (n₁ + 1) n₂ → ErrClear (status n₂) →
      BsyClear (status n₂) ∧ DfClear (status n₂)) := by
  constructor
  · rintro ⟨h, -⟩ n₁ n₂ hn₁ hn₂ herr
    have hr := pollOutcome_eq_ok (w := ⟨n₂ + 1, []⟩).mpr ⟨herr, rfl⟩
    obtain ⟨fuel, hrun⟩ := (pollAtaDrive_watched io data).mpr
      ⟨n₁, n₂, hn₁, hn₂, hr⟩
    obtain ⟨n, hn, hbsy, -, hdf, -⟩ := h fuel _ hrun
    obtain rfl : n₂ = n := Nat.succ.inj hn
    exact ⟨hbsy, hdf⟩
  · intro h
    have hready : ∀ n₁ n₂, FirstFrom BsyClear status 0 n₁ →
        FirstFrom (fun b => ¬ ErrClear b ∨ DrqSet b) status (n₁ + 1) n₂ → ErrClear (status n₂) →
        TransferReady (status n₂) := by
      intro n₁ n₂ hn₁ hn₂ herr
      obtain ⟨hbsy, hdf⟩ := h n₁ n₂ hn₁ hn₂ herr
      exact ⟨hbsy, herr, hdf, hn₂.holds.resolve_left (not_not.mpr herr)⟩
    constructor
    · intro fuel w hrun
      obtain ⟨n₁, n₂, hn₁, hn₂, hr⟩ := (pollAtaDrive_watched io data).mp ⟨fuel, hrun⟩
      obtain ⟨herr, rfl⟩ := pollOutcome_eq_ok.mp hr
      exact ⟨n₂, rfl, hready n₁ n₂ hn₁ hn₂ herr⟩
    · rintro fuel buffer lba device m m' w rfl hrun k hk
      obtain ⟨n₁, n₂, hn₁, hn₂, herr, rfl⟩ := ataReadOnce_watched hrun hk
      exact ⟨n₂, rfl, hready n₁ n₂ hn₁ hn₂ herr⟩

/-- A drive that is ready at first, and then has data and reports a fault. -/
def readyThenFault (n : ℕ) : Byte := if n = 0 then 0x40 else 0x40 ||| ATA_DF ||| ATA_DRQ

theorem not_pollAtaDrive_transferReady : ¬ ∀ (io : BitVec 16) (status : ℕ → Byte)
    (data : ℕ → BitVec 16) (fuel : ℕ) (w : Watch),
    pollAtaDrive (watched io status data) fuel io Watch.start = some (.ok w) →
      ∃ n, w.reads = n + 1 ∧ TransferReady (status n) := by
  intro h
  have hok := pollOutcome_eq_ok (b := readyThenFault 1) (w := ⟨2, []⟩).mpr ⟨by decide, rfl⟩
  obtain ⟨fuel, hrun⟩ := (pollAtaDrive_watched PRIMARY_IO fun _ => 0).mpr
    ⟨0, 1, firstFrom_self (by decide), firstFrom_self (by decide), hok⟩
  obtain ⟨n, hn, -, -, hdf, -⟩ := h _ _ _ fuel _ hrun
  obtain rfl : 1 = n := Nat.succ.inj hn
  exact absurd hdf (by decide)

/-- From read `N` on the status is `b`: the drive is not busy, and has failed or has data. -/
structure Settled (status : ℕ → Byte) (N : ℕ) (b : Byte) : Prop where
  constant : ∀ n, N ≤ n → status n = b
  bsy_clear : BsyClear b
  some_set : ¬ ErrClear b ∨ ¬ DfClear b ∨ DrqSet b

/-- `identify_drive` stops exactly if the first status is 0 or has `ERR` set, or behind it some status
has `ERR` clear and a later one `DRQ` set; `poll_ata_drive` does exactly if some status has `BSY`
clear and a later one `ERR` or `DRQ` set. -/
theorem polling_stops_iff (bus slot : Byte) (io : BitVec 16) (status : ℕ → Byte)
    (data : ℕ → BitVec 16) (m : Mem) :
    ((∃ fuel r, identifyDrive (watched (busIo bus) status data) fuel bus slot (m, Watch.start) =
        some r) ∧
      ∃ fuel r, pollAtaDrive (watched io status data) fuel io Watch.start = some r) ↔
    (Answers (status 0) →
      ∃ i j, 1 ≤ i ∧ i < j ∧ ErrClear (status i) ∧ DrqSet (status j)) ∧
    ∃ i j, i < j ∧ BsyClear (status i) ∧ (¬ ErrClear (status j) ∨ DrqSet (status j)) := by
  apply and_congr
  · by_cases hanswers : Answers (status 0)
    · rw [exists_comm, forall_prop_of_true hanswers, ← exists_firstFrom_firstFrom_iff]
      simp only [identifyDrive_watched bus slot status data m hanswers]
      constructor
      · rintro ⟨r, n₁, n₂, hn₁, hn₂, -⟩
        exact ⟨n₁, n₂, hn₁, hn₂⟩
      · rintro ⟨n₁, n₂, hn₁, hn₂⟩
        exact ⟨_, n₁, n₂, hn₁, hn₂, rfl⟩
    · refine ⟨fun _ h => absurd h hanswers, fun _ => ⟨0, _, identifyDrive_silent hanswers 0⟩⟩
  · have hbehind : (∃ i j, i < j ∧ BsyClear (status i) ∧
        (¬ ErrClear (status j) ∨ DrqSet (status j))) ↔ ∃ i j, 0 ≤ i ∧ i < j ∧ BsyClear (status i) ∧
        (¬ ErrClear (status j) ∨ DrqSet (status j)) := by
      simp only [Nat.zero_le, true_and]
    rw [exists_comm, hbehind, ← exists_firstFrom_firstFrom_iff
      (q := fun b => ¬ ErrClear b ∨ DrqSet b)]
    simp only [pollAtaDrive_watched]
    constructor
    · rintro ⟨r, n₁, n₂, hn₁, hn₂, -⟩
      exact ⟨n₁, n₂, hn₁, hn₂⟩
    · rintro ⟨n₁, n₂, hn₁, hn₂⟩
      exact ⟨_, n₁, n₂, hn₁, hn₂, rfl⟩

/-- A drive that is busy at first, and then reports an error. -/
def busyThenError (n : ℕ) : Byte := if n = 0 then ATA_BSY else 0x40 ||| ATA_ERR

theorem settled_busyThenError : Settled busyThenError 1 (0x40 ||| ATA_ERR) :=
  ⟨fun n hn => if_neg (by omega), by decide, .inl (by decide)⟩

theorem settled_fault : Settled (fun _ => 0x40 ||| ATA_DF) 0 (0x40 ||| ATA_DF) :=
  ⟨fun _ _ => rfl, by decide, .inr (.inl (by decide))⟩

/-- On an error behind its first status `identify_drive` spins, and on a fault `poll_ata_drive`. -/
theorem not_polling_stops :
    (Settled busyThenError 1 (0x40 ||| ATA_ERR) ∧ ∀ bus slot data m fuel r,
      identifyDrive (watched (busIo bus) busyThenError data) fuel bus slot (m, Watch.start) ≠ some r) ∧
    Settled (fun _ => 0x40 ||| ATA_DF) 0 (0x40 ||| ATA_DF) ∧ ∀ io data fuel r,
      pollAtaDrive (watched io (fun _ => 0x40 ||| ATA_DF) data) fuel io Watch.start ≠ some r := by
  refine ⟨⟨settled_busyThenError, fun bus slot data m fuel r h => ?_⟩, settled_fault,
    fun io data fuel r h => ?_⟩
  · have hanswers : Answers (busyThenError 0) := ⟨by decide, by decide⟩
    obtain ⟨n₁, n₂, hn₁, -, -⟩ :=
      (identifyDrive_watched bus slot busyThenError data m hanswers).mp ⟨fuel, h⟩
    have hholds := hn₁.holds
    rw [settled_busyThenError.constant n₁ hn₁.le] at hholds
    exact absurd hholds (by decide)
  · obtain ⟨n₁, n₂, -, hn₂, -⟩ := (pollAtaDrive_watched io data).mp ⟨fuel, h⟩
    exact absurd hn₂.holds (by decide)

end TinaOS.Ata
