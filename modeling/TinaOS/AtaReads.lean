import TinaOS.AtaDevice

/-!
# A run of reads

The driver is asked for sectors of several drives, one after the other. No read writes the
register `LBA_HIGH`, so over a whole run a bus keeps the byte it held before, and every number
that differs from another one only in its second byte gets the same sector.
`ata_read` is such a run: the first sector over and over, for as long as the copies leave the record
of its drive alone, which it loads again in every round.
-/

namespace TinaOS.Ata

open ByteMemory

/-- One call of `ata_read_once`. -/
structure Request where
  bus : Bus
  slot : Slot
  lba : BitVec 32
  buffer : Ptr

def Request.drive (r : Request) : AtaDrive := ⟨driveId r.bus r.slot, r.bus.base⟩

/-- One call after the other, as long as none panics. -/
def readAll (P : Ports δ) (fuel : ℕ) : List Request → Mem × δ → Option (Except Panic (Mem × δ))
  | [], s => some (.ok s)
  | r :: rs, s => match ataReadOnce P fuel r.buffer r.lba r.drive s with
    | none => none
    | some (.error e) => some (.error e)
    | some (.ok s) => readAll P fuel rs s

/-- The sector that a bus goes to: `high` is what its register `LBA_HIGH` holds. -/
def heard (high : Byte) (lba : BitVec 32) : BitVec 28 :=
  lba.extractLsb' 24 4 ++ high ++ lba.extractLsb' 16 8 ++ lba.extractLsb' 0 8

/-- The command that a call issues. -/
def Request.command (high : Bus → Byte) (r : Request) : Slot × BitVec 28 :=
  (picked r.bus r.slot, heard (high r.bus) r.lba)

/-- The memory after a call. -/
def deliver (disks : Bus → Disks) (high : Bus → Byte) (m : Mem) (r : Request) : Mem :=
  writeBytes m r.buffer 512
    (sectorByte (disks r.bus (r.command high).1 (r.command high).2))

/-- The fields `drive_id` and `io` of the record at `device`. -/
def driveAt (m : Mem) (device : Ptr) : AtaDrive := ⟨m (device + 4), load16 m (device + 8)⟩

/-- `ata_read_once` with the address of a record, as a call that returns or does not. -/
def once (P : Ports δ) (fuel : ℕ) (buffer : Ptr) (lba : BitVec 32) (device : Ptr) (s : Mem × δ) :
    Option (Mem × δ) :=
  (ataReadOnce P fuel buffer lba (driveAt s.1 device) s).bind Except.toOption

/-- The memory with a record at `device`. -/
def withRecord (m : Mem) (device : Ptr) (record : AtaDrive) : Mem :=
  store16 (Function.update m (device + 4) record.driveId) (device + 8) record.io

/-- The fields of the record at `device` lie outside the first `len` bytes of `buffer`. -/
def Misses (buffer : Ptr) (len : ℕ) (device : Ptr) : Prop :=
  ∀ i ∈ [4, 8, 9], len ≤ (device + BitVec.ofNat 32 i - buffer).toNat

variable {δ : Type*} {P : Ports δ} {disks : Bus → Disks} {wait : Bus → Channel → ℕ} {b : Bus}
  {fuel fuel' : ℕ} {io : BitVec 16} {buffer device : Ptr} {lba n : BitVec 32} {record : AtaDrive}
  {m m' : Mem} {d : Bus → Channel} {rs : List Request}

/-- The registers `LBA_HIGH`. -/
def highs (d : Bus → Channel) (b : Bus) : Byte := (d b).regs ATA_LBA_HIGH

theorem pollAtaDrive_mono {d : δ} {out : Except Panic δ} (h : pollAtaDrive P fuel io d = some out)
    (hf : fuel ≤ fuel') : pollAtaDrive P fuel' io d = some out := by
  simp only [pollAtaDrive] at h ⊢
  cases hbusy : BoundedLoop.run (retryPoll P io) fuel (delay P (io + ATA_ALT_STATUS) d) with
  | none =>
    rw [hbusy] at h
    cases h
  | some d₁ =>
    rw [hbusy] at h
    rw [BoundedLoop.run_mono hbusy hf]
    exact BoundedLoop.run_mono h hf

theorem ataReadOnce_mono {s : Mem × δ} {out : Except Panic (Mem × δ)}
    (h : ataReadOnce P fuel buffer lba record s = some out) (hf : fuel ≤ fuel') :
    ataReadOnce P fuel' buffer lba record s = some out := by
  cases hcase : driveCase record.driveId with
  | none =>
    simp only [ataReadOnce, hcase] at h ⊢
    exact h
  | some drive =>
    simp only [ataReadOnce, hcase] at h ⊢
    cases hpoll : pollAtaDrive P fuel record.io (issueRead P lba drive record.io s.2) with
    | none =>
      rw [hpoll] at h
      cases h
    | some polled =>
      rw [hpoll] at h
      rw [pollAtaDrive_mono hpoll hf]
      exact h

theorem readAll_mono {s : Mem × δ} {out : Except Panic (Mem × δ)}
    (h : readAll P fuel rs s = some out) (hf : fuel ≤ fuel') : readAll P fuel' rs s = some out := by
  induction rs generalizing s with
  | nil => exact h
  | cons r rs ih =>
    rw [readAll] at h ⊢
    cases hread : ataReadOnce P fuel r.buffer r.lba r.drive s with
    | none =>
      rw [hread] at h
      cases h
    | some answer =>
      rw [hread] at h
      rw [ataReadOnce_mono hread hf]
      cases answer with
      | error e => exact h
      | ok s => exact ih h

theorem regs_taskFile (lba : BitVec 32) (drive : Byte) (c : Channel) :
    (taskFile lba drive c).regs ATA_LBA_HIGH = c.regs ATA_LBA_HIGH := by
  simp only [taskFile]
  rw [Function.update_of_ne (by decide), Function.update_of_ne (by decide),
    Function.update_of_ne (by decide), Function.update_of_ne (by decide),
    Function.update_of_ne (by decide)]

theorem command_taskFile (r : Request) (d : Bus → Channel) :
    ((taskFile r.lba (picked r.bus r.slot).code (d r.bus)).selected,
      (taskFile r.lba (picked r.bus r.slot).code (d r.bus)).address) = r.command (highs d) := by
  rw [selected_taskFile, address_taskFile]
  rfl

/-- What a call leaves of the controller: the command is on record, and the bytes that no call
writes are the same. -/
structure Answered (r : Request) (d d' : Bus → Channel) : Prop where
  highs_eq : highs d' = highs d
  issued_eq : ∀ b, (d' b).issued =
    (if r.bus = b then [r.command (highs d)] else []) ++ (d b).issued

/-- With patience enough, a call delivers what its command addressed. -/
theorem ataReadOnce_answered (disks : Bus → Disks) (wait : Bus → Channel → ℕ) (r : Request)
    (m : Mem) (d : Bus → Channel) : ∃ fuel d', Answered r d d' ∧
      ataReadOnce (controller disks wait) fuel r.buffer r.lba r.drive (m, d) =
        some (.ok (deliver disks (highs d) m r, d')) := by
  have hcommand := command_taskFile r d
  have hhigh := regs_taskFile r.lba (picked r.bus r.slot).code (d r.bus)
  have hold : (taskFile r.lba (picked r.bus r.slot).code (d r.bus)).issued = (d r.bus).issued := rfl
  have hid : driveCase r.drive.driveId = some (picked r.bus r.slot).code :=
    driveCase_driveId r.bus r.slot
  obtain ⟨fuel, hread⟩ := ataReadOnce_update disks wait hid rfl r.buffer r.lba m d
  generalize taskFile r.lba (picked r.bus r.slot).code (d r.bus) = c at *
  refine ⟨fuel, Function.update d r.bus (c.finished (disks r.bus)), ⟨?_, ?_⟩, ?_⟩
  · funext b
    by_cases hb : b = r.bus
    · subst hb
      rw [highs, Function.update_self]
      exact hhigh
    · rw [highs, Function.update_of_ne hb]
      rfl
  · intro b
    by_cases hb : r.bus = b
    · subst hb
      rw [Function.update_self, if_pos rfl, ← hcommand, ← hold]
      rfl
    · rw [Function.update_of_ne (Ne.symm hb), if_neg hb]
      rfl
  · rw [hread, deliver, ← hcommand]

/-- The commands of a run on one bus, the latest first. -/
def commands (high : Bus → Byte) (b : Bus) : List Request → List (Slot × BitVec 28)
  | [] => []
  | r :: rs => commands high b rs ++ if r.bus = b then [r.command high] else []

/-- Every call of a run of reads delivers the sector that its bus hears: the byte of `LBA_HIGH` is
the one from before the run in all of them. -/
theorem reads_run (disks : Bus → Disks) (wait : Bus → Channel → ℕ) (rs : List Request) (m : Mem)
    (d : Bus → Channel) : ∃ fuel d',
      readAll (controller disks wait) fuel rs (m, d) =
        some (.ok (rs.foldl (deliver disks (highs d)) m, d')) ∧
      highs d' = highs d ∧ ∀ b, (d' b).issued = commands (highs d) b rs ++ (d b).issued := by
  induction rs generalizing m d with
  | nil => exact ⟨0, d, rfl, rfl, fun b => rfl⟩
  | cons r rs ih =>
    obtain ⟨first, d₁, hanswer, hread⟩ := ataReadOnce_answered disks wait r m d
    obtain ⟨rest, d', hrun, hhighs, hissued⟩ := ih (deliver disks (highs d) m r) d₁
    rw [hanswer.highs_eq] at hrun hhighs hissued
    refine ⟨max first rest, d', ?_, hhighs, ?_⟩
    · rw [readAll, ataReadOnce_mono hread (Nat.le_max_left _ _)]
      exact readAll_mono hrun (Nat.le_max_right _ _)
    · intro b
      rw [hissued, hanswer.issued_eq, commands, List.append_assoc]

/-- The same sector, each time 512 bytes further on. -/
def repeats (b : Bus) (slot : Slot) (lba : BitVec 32) : ℕ → Ptr → List Request
  | 0, _ => []
  | r + 1, buffer => ⟨b, slot, lba, buffer⟩ :: repeats b slot lba r (buffer + 512)

theorem ataReadStep_next {ρ σ : Type*} {f : Ptr → BitVec 32 → ρ → σ → Option σ} {drive : ρ}
    {s s' : σ} {r : ℕ} (hn : rounds n = r + 1) (h : f buffer lba drive s = some s') :
    ataReadStep f lba drive ⟨0, n, buffer, s⟩ = .inl ⟨0, n + 1, buffer + 512, s'⟩ ∧
      rounds (n + 1) = r := by
  have hlt := n.isLt
  simp only [rounds] at hn
  have hpos : (0 : BitVec 32) < n := by
    simp only [BitVec.lt_def, BitVec.reduceToNat]
    omega
  have hlba : lba + 0 = lba := BitVec.add_zero lba
  constructor
  · simp only [ataReadStep, hpos, if_true, hlba, h]
  · simp only [rounds, BitVec.toNat_add, BitVec.reduceToNat]
    omega

theorem ataReadStep_end {ρ σ : Type*} (f : Ptr → BitVec 32 → ρ → σ → Option σ) (lba : BitVec 32)
    (drive : ρ) (buffer : Ptr) (s : σ) (hn : rounds n = 0) :
    ataReadStep f lba drive ⟨0, n, buffer, s⟩ = .inr (some s) := by
  have hlt := n.isLt
  simp only [rounds] at hn
  have hzero : n = 0 := by
    apply BitVec.eq_of_toNat_eq
    simp only [BitVec.reduceToNat]
    omega
  simp [ataReadStep, hzero]

theorem Misses.mono {k l : ℕ} (h : Misses buffer l device) (hk : k ≤ l) : Misses buffer k device :=
  fun i hi => Nat.le_trans hk (h i hi)

theorem Misses.tail {k : ℕ} (h : Misses buffer (512 * (k + 1)) device) :
    Misses (buffer + 512) (512 * k) device := by
  intro i hi
  have hmiss := h i hi
  generalize device + BitVec.ofNat 32 i = x at hmiss ⊢
  simp only [BitVec.toNat_sub, BitVec.toNat_add, BitVec.reduceToNat] at *
  omega

/-- With a count from 1 to `2 ^ 32 - 2 ^ 23`, the copies come to every address. -/
theorem Misses.count (h : Misses buffer (512 * rounds n) device) :
    n = 0 ∨ 2 ^ 32 - 2 ^ 23 < n.toNat := by
  have hmiss := h 4 (by simp)
  have hlt := (device + BitVec.ofNat 32 4 - buffer).isLt
  rw [or_iff_not_imp_left]
  intro hn
  have hpos : n.toNat ≠ 0 := fun h0 => hn (BitVec.eq_of_toNat_eq h0)
  rw [rounds] at hmiss
  omega

theorem driveAt_congr (h : ∀ i ∈ [4, 8, 9],
    m' (device + BitVec.ofNat 32 i) = m (device + BitVec.ofNat 32 i)) :
    driveAt m' device = driveAt m device := by
  have hid : m' (device + 4) = m (device + 4) := h 4 (by simp)
  have hio : load16 m' (device + 8) = load16 m (device + 8) := by
    apply load16_congr
    intro i hi
    have hi' : i = 0 ∨ i = 1 := by omega
    rcases hi' with rfl | rfl
    · simpa using h 8 (by simp)
    · have hnext : device + 8 + BitVec.ofNat 32 1 = device + BitVec.ofNat 32 9 :=
        offset_offset device 8 1
      rw [hnext]
      exact h 9 (by simp)
  rw [driveAt, driveAt, hid, hio]

theorem driveAt_withRecord (m : Mem) (device : Ptr) (record : AtaDrive) :
    driveAt (withRecord m device record) device = record := by
  have hid : withRecord m device record (device + 4) = record.driveId := by
    have hapart : 2 ≤ (device + 4 - (device + 8)).toNat := by
      simp only [BitVec.toNat_sub, BitVec.toNat_add, BitVec.reduceToNat]
      omega
    rw [withRecord, store16, writeBytes_outside _ hapart, Function.update_self]
  rw [driveAt, hid, withRecord, load16_store16_same]

theorem readWords_outside {io : BitVec 16} {n : ℕ} {s : Mem × δ} (hn : n ≤ 256) {x : Ptr}
    (hx : 512 ≤ (x - buffer).toNat) : (readWords P io buffer n s).1 x = s.1 x := by
  induction n with
  | zero => rfl
  | succ n ih =>
    have hword : 2 ≤ (x - (buffer + BitVec.ofNat 32 (n * 2))).toNat := by
      simp only [BitVec.toNat_sub, BitVec.toNat_add, BitVec.toNat_ofNat] at *
      omega
    rcases hwords : readWords P io buffer n s with ⟨m, d⟩
    have hprev := ih (by omega)
    rw [hwords] at hprev
    rw [readWords_succ hwords, ← hprev]
    simp only [store16]
    exact writeBytes_outside _ hword

/-- A call stores to the 512 bytes of its buffer only, over any device. -/
theorem ataReadOnce_outside {s s' : Mem × δ}
    (h : ataReadOnce P fuel buffer lba record s = some (.ok s')) {x : Ptr}
    (hx : 512 ≤ (x - buffer).toNat) : s'.1 x = s.1 x := by
  cases hcase : driveCase record.driveId with
  | none =>
    simp only [ataReadOnce, hcase] at h
    rw [Except.ok.inj (Option.some.inj h)]
  | some drive =>
    simp only [ataReadOnce, hcase] at h
    cases hpoll : pollAtaDrive P fuel record.io (issueRead P lba drive record.io s.2) with
    | none =>
      rw [hpoll] at h
      cases h
    | some polled =>
      rw [hpoll] at h
      cases polled with
      | error e => cases h
      | ok d =>
        have hout := Except.ok.inj (Option.some.inj h)
        rcases hwords : readWords P record.io buffer 256 (s.1, d) with ⟨m₁, d₁⟩
        have houtside : (readWords P record.io buffer 256 (s.1, d)).1 x = s.1 x :=
          readWords_outside (Nat.le_refl 256) hx
        rw [hwords] at hout houtside
        rw [← hout]
        exact houtside

theorem Misses.driveAt_eq {s s' : Mem × δ} (hmiss : Misses buffer 512 device)
    (h : ataReadOnce P fuel buffer lba record s = some (.ok s')) :
    driveAt s'.1 device = driveAt s.1 device :=
  driveAt_congr fun i hi => ataReadOnce_outside h (hmiss i hi)

/-- While the copies miss its record, `ata_read` is the run that asks for its first sector, with one
more in the count after every call. -/
theorem run_of_readAll {slot : Slot} {k : ℕ} {s s' : Mem × δ} (hk : k ≤ rounds n)
    (hmiss : Misses buffer (512 * k) device) (hdrive : driveAt s.1 device = ⟨driveId b slot, b.base⟩)
    (h : readAll P fuel (repeats b slot lba k buffer) s = some (.ok s')) (more : ℕ) :
    BoundedLoop.run (ataReadStep (once P fuel) lba device) (k + more) ⟨0, n, buffer, s⟩ =
      BoundedLoop.run (ataReadStep (once P fuel) lba device) more
        ⟨0, n + BitVec.ofNat 32 k, buffer + BitVec.ofNat 32 (512 * k), s'⟩ := by
  induction k generalizing n buffer s with
  | zero =>
    obtain rfl : s = s' := by simpa [repeats, readAll] using h
    rw [Nat.zero_add, Nat.mul_zero, add_offset_zero, add_offset_zero]
  | succ k ih =>
    rw [repeats, readAll] at h
    cases hread : ataReadOnce P fuel buffer lba ⟨driveId b slot, b.base⟩ s with
    | none =>
      simp only [Request.drive, hread] at h
      cases h
    | some answer =>
      simp only [Request.drive, hread] at h
      cases answer with
      | error e => cases h
      | ok s₁ =>
        have honce : once P fuel buffer lba device s = some s₁ := by
          rw [once, hdrive, hread]
          rfl
        obtain ⟨r, hr⟩ := Nat.exists_eq_add_of_le hk
        have hcounted : rounds n = k + r + 1 := by omega
        obtain ⟨hstep, hrest⟩ := ataReadStep_next hcounted honce
        have hdrive₁ : driveAt s₁.1 device = ⟨driveId b slot, b.base⟩ :=
          ((hmiss.mono (by omega)).driveAt_eq hread).trans hdrive
        have hcount : n + 1 + BitVec.ofNat 32 k = n + BitVec.ofNat 32 (k + 1) := next_offset n k
        have hbuffer : buffer + 512 + BitVec.ofNat 32 (512 * k) =
            buffer + BitVec.ofNat 32 (512 * (k + 1)) := by
          rw [Nat.mul_succ, Nat.add_comm]
          exact offset_offset buffer 512 (512 * k)
        rw [Nat.add_right_comm, BoundedLoop.run_of_inl hstep,
          ih (by omega) hmiss.tail hdrive₁ h, hcount, hbuffer]

/-- The calls of `ata_read` lay one copy of the sector behind the other. -/
theorem deliver_repeats (disks : Bus → Disks) (high : Bus → Byte) (b : Bus) (slot : Slot)
    (lba : BitVec 32) (m : Mem) (buffer : Ptr) (r k : ℕ) :
    (repeats b slot lba r (buffer + BitVec.ofNat 32 (512 * k))).foldl (deliver disks high)
        (writeBytes m buffer (512 * k) fun i =>
          sectorByte (disks b (picked b slot) (heard (high b) lba)) (i % 512)) =
      writeBytes m buffer (512 * (k + r)) fun i =>
        sectorByte (disks b (picked b slot) (heard (high b) lba)) (i % 512) := by
  induction r generalizing k with
  | zero => rfl
  | succ r ih =>
    have hnext : buffer + BitVec.ofNat 32 (512 * k) + 512 =
        buffer + BitVec.ofNat 32 (512 * (k + 1)) := offset_offset buffer (512 * k) 512
    have hdvd : 512 ∣ 2 ^ 32 := by decide
    rw [repeats, List.foldl_cons, hnext, deliver]
    simp only [Request.command]
    rw [writeBytes_again m buffer _ hdvd k, ih (k + 1), Nat.add_assoc k 1 r, Nat.add_comm 1 r]

theorem commands_repeats (high : Bus → Byte) (b b' : Bus) (slot : Slot) (lba : BitVec 32) (r : ℕ)
    (buffer : Ptr) : commands high b' (repeats b slot lba r buffer) =
      if b = b' then List.replicate r (picked b slot, heard (high b) lba) else [] := by
  induction r generalizing buffer with
  | zero => simp [repeats, commands]
  | succ r ih =>
    rw [repeats, commands, ih]
    by_cases hb : b = b'
    · simp only [if_pos hb, Request.command]
      exact List.replicate_succ'.symm
    · simp only [if_neg hb, List.append_nil]

/-- `ata_read` asks for its first sector again and again, and so lays copies of this sector over the
memory behind the buffer: as long as they miss the record of its drive, the loop goes on, until the
count has gone round to zero and it returns. -/
theorem ataRead_floods (disks : Bus → Disks) (wait : Bus → Channel → ℕ) (b : Bus) (slot : Slot)
    (lba n : BitVec 32) (buffer device : Ptr) (m : Mem) (d : Bus → Channel)
    (hdrive : driveAt m device = ⟨driveId b slot, b.base⟩) {k : ℕ} (hk : k ≤ rounds n)
    (hmiss : Misses buffer (512 * k) device) : ∃ fuel m' d',
      (∀ more, BoundedLoop.run (ataReadStep (once (controller disks wait) fuel) lba device) (k + more)
          ⟨0, n, buffer, (m, d)⟩ =
        BoundedLoop.run (ataReadStep (once (controller disks wait) fuel) lba device) more
          ⟨0, n + BitVec.ofNat 32 k, buffer + BitVec.ofNat 32 (512 * k), (m', d')⟩) ∧
      (k = rounds n → ataRead (once (controller disks wait) fuel) (k + 1) buffer lba n device (m, d) =
        some (some (m', d'))) ∧
      (∀ x, m' x = if (x - buffer).toNat < 512 * k
        then sectorByte (disks b (picked b slot) (heard (highs d b) lba)) ((x - buffer).toNat % 512)
        else m x) ∧
      ∀ b', (d' b').issued =
        (if b = b' then List.replicate k (picked b slot, heard (highs d b) lba) else []) ++
          (d b').issued := by
  obtain ⟨fuel, d', hrun, -, hissued⟩ :=
    reads_run disks wait (repeats b slot lba k buffer) m d
  have hloop := run_of_readAll hk hmiss hdrive hrun
  refine ⟨fuel, _, d', hloop, fun hend => ?_, fun x => ?_, fun b' => ?_⟩
  · have hcount : rounds (n + BitVec.ofNat 32 k) = 0 := by
      have hlt := n.isLt
      simp only [rounds, BitVec.toNat_add, BitVec.toNat_ofNat] at hend ⊢
      omega
    rw [ataRead, hloop 1]
    exact BoundedLoop.run_of_inr (ataReadStep_end _ lba _ _ _ hcount) 0
  · have hflood := deliver_repeats disks (highs d) b slot lba m buffer k 0
    have hempty : writeBytes m buffer (512 * 0) (fun i =>
        sectorByte (disks b (picked b slot) (heard (highs d b) lba)) (i % 512)) = m := rfl
    rw [Nat.mul_zero, add_offset_zero, ← Nat.mul_zero 512, hempty, Nat.zero_add] at hflood
    rw [hflood]
    rfl
  · rw [hissued, commands_repeats]

/-- Two copies of a sector, and the count is zero. -/
theorem ataRead_floods_two : ∃ fuel m' d',
    ataRead (once (controller (fun _ _ _ _ => 0x4241) fun _ _ => 3) fuel) 3 0x1000 7 (-2) 0x10
      (withRecord (fun _ => 0) 0x10 ⟨0, PRIMARY_IO⟩, idle) = some (some (m', d')) ∧
    m' 0x1000 = 0x41 ∧ m' 0x1201 = 0x42 ∧ m' 0x1400 = 0 ∧
    (d' .primary).issued = List.replicate 2 (.master, 7) := by
  have hdrive : driveAt (withRecord (fun _ => 0) 0x10 ⟨0, PRIMARY_IO⟩) 0x10 =
      ⟨driveId .primary .master, Bus.primary.base⟩ := driveAt_withRecord _ _ _
  have hmiss : Misses 0x1000 (512 * 2) 0x10 := by
    unfold Misses
    decide
  obtain ⟨fuel, m', d', -, hreturns, hmem, hissued⟩ :=
    ataRead_floods (fun _ _ _ _ => 0x4241) (fun _ _ => 3) .primary .master 7 (-2) 0x1000 0x10 _ idle
      hdrive (by decide : 2 ≤ rounds (-2)) hmiss
  refine ⟨fuel, m', d', hreturns (by decide), ?_, ?_, ?_, ?_⟩
  · rw [hmem]
    decide
  · rw [hmem]
    decide
  · rw [hmem]
    decide
  · rw [hissued]
    decide

end TinaOS.Ata
