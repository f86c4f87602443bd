import TinaOS.AtaAccesses

/-!
# The sectors in reach

The driver writes zero to `LBA_HIGH` when it looks for drives, and nothing else ever. So from then
on it gets no sector whose number has a bit in its third byte, from no run of calls with the records
that it makes; and on the secondary bus it gets nothing from the slave, which it takes for the
master.
-/

namespace TinaOS.Ata

open ByteMemory Allocators

variable {α : Type*} {disks : Bus → Disks} {wait : Bus → Channel → ℕ} {b : Bus} {slot : Slot}
  {c : Channel} {d d' : Bus → Channel} {old : Bus → List (Slot × BitVec 28)} {off : BitVec 16}
  {high : Byte} {lba : BitVec 32} {n : BitVec 28} {m m' : Mem} {fuel : ℕ}

/-- The registers `LBA_HIGH` hold zero and the commands are the old ones. -/
structure Quiet (old : Bus → List (Slot × BitVec 28)) (d : Bus → Channel) : Prop where
  highs_eq : ∀ b, highs d b = 0
  issued_eq : ∀ b, (d b).issued = old b

theorem Quiet.update (h : Quiet old d) (hhigh : c.regs ATA_LBA_HIGH = 0) (hissued : c.issued = old b) :
    Quiet old (Function.update d b c) := by
  constructor
  · intro b'
    by_cases hb : b' = b
    · subst hb
      rw [highs, Function.update_self]
      exact hhigh
    · rw [highs, Function.update_of_ne hb]
      exact h.highs_eq b'
  · intro b'
    by_cases hb : b' = b
    · subst hb
      rw [Function.update_self]
      exact hissued
    · rw [Function.update_of_ne hb]
      exact h.issued_eq b'

theorem Quiet.read (h : Quiet old d) {x : Channel} (hregs : x.regs = (d b).regs)
    (hissued : x.issued = (d b).issued) : Quiet old (Function.update d b x) :=
  h.update ((congrFun hregs _).trans (h.highs_eq b)) (hissued.trans (h.issued_eq b))

/-- A write to a register, of zero if it is `LBA_HIGH`. -/
theorem Quiet.write (h : Quiet old d) (hoff : off < 8) (hcommand : off ≠ ATA_COMMAND) {v : Byte}
    (hv : off = ATA_LBA_HIGH → v = 0) :
    Quiet old ((controller disks wait).outb (b.base + off) v d) := by
  rw [controller_outb hoff, Channel.outb, if_neg hcommand]
  refine h.update ?_ (h.issued_eq b)
  by_cases hhigh : off = ATA_LBA_HIGH
  · subst hhigh
    have hself : Function.update (d b).regs ATA_LBA_HIGH v ATA_LBA_HIGH = v := Function.update_self _ _ _
    exact hself.trans (hv rfl)
  · exact (Function.update_of_ne (Ne.symm hhigh) _ _).trans (h.highs_eq b)

theorem keeps_quiet (disks : Bus → Disks) (wait : Bus → Channel → ℕ)
    (old : Bus → List (Slot × BitVec 28)) : Keeps (controller disks wait) Probing (Quiet old) where
  inb port d hp hd := by
    cases hp with
    | status b =>
      rw [controller_inb (by decide)]
      refine hd.read ?_ ?_ <;> rw [Channel.inb, if_pos rfl] <;> split_ifs <;> rfl
  inw port d hp hd := by
    cases hp with
    | data b =>
      rw [controller_inw (by decide)]
      refine hd.read ?_ ?_ <;> rw [Channel.inw] <;> split_ifs <;> rfl
  outb port v d hp hd := by
    cases hp with
    | select => exact hd.write (by decide) (by decide) fun h => absurd h (by decide)
    | count => exact hd.write (by decide) (by decide) fun _ => rfl
    | low => exact hd.write (by decide) (by decide) fun _ => rfl
    | mid => exact hd.write (by decide) (by decide) fun _ => rfl
    | high => exact hd.write (by decide) (by decide) fun _ => rfl
    | identify b =>
      rw [controller_outb (by decide)]
      exact hd.read rfl rfl

/-- A call that returns leaves what its command made of the controller. -/
theorem answered_of_ataReadOnce {r : Request}
    (h : ataReadOnce (controller disks wait) fuel r.buffer r.lba r.drive (m, d) =
      some (.ok (m', d'))) : Answered r d d' := by
  obtain ⟨fuel₀, d₀, hanswer, h₀⟩ := ataReadOnce_answered disks wait r m d
  have hsame := Except.ok.inj (ataReadOnce_unique h h₀)
  exact (Prod.mk.inj hsame).2 ▸ hanswer

theorem extractLsb'_heard (high : Byte) (lba : BitVec 32) : (heard high lba).extractLsb' 16 8 = high := by
  rw [heard, BitVec.extractLsb'_append_eq_of_le (by decide),
    BitVec.extractLsb'_append_eq_of_le (by decide)]
  exact BitVec.extractLsb'_append_eq_right

/-- The sectors of a bus that some read gets. -/
def InReach (b : Bus) (slot : Slot) (n : BitVec 28) : Prop :=
  n.extractLsb' 16 8 = 0 ∧ (b = .secondary → slot = .master)

/-- So far all commands were for sectors in reach. -/
structure Within (d : Bus → Channel) : Prop where
  highs_eq : ∀ b, highs d b = 0
  issued : ∀ b, ∀ c ∈ (d b).issued, InReach b c.1 c.2

theorem Within.start (h : Within d) (hd : Quiet (fun b => (d b).issued) d') : Within d' where
  highs_eq := hd.highs_eq
  issued b c hc := h.issued b c (hd.issued_eq b ▸ hc)

theorem Within.answered (h : Within d) {r : Request} (ha : Answered r d d') : Within d' := by
  constructor
  · exact fun b => (congrFun ha.highs_eq b).trans (h.highs_eq b)
  · intro b c hc
    rw [ha.issued_eq b, List.mem_append] at hc
    rcases hc with hc | hc
    · split_ifs at hc with hb
      · subst hb
        obtain rfl := List.mem_singleton.mp hc
        exact ⟨(extractLsb'_heard _ r.lba).trans (h.highs_eq r.bus), fun hs => if_pos hs⟩
      · cases hc
    · exact h.issued b c hc

variable {alloc : Allocator α} {ataRead : Ptr} {s s' : Driver α (Bus → Channel)}

theorem Within.use {u : Use} (h : Within s.ports) (hu : u.Allowed s.mem)
    (hcall : Ata.use alloc (controller disks wait) ataRead fuel u s = some s') : Within s'.ports := by
  have hread : ∀ (r : Request) (t t' : Mem × (Bus → Channel)), Within t.2 →
      ataReadOnce (controller disks wait) fuel r.buffer r.lba r.drive t = some (.ok t') →
        Within t'.2 :=
    fun r t t' ht hread => ht.answered (answered_of_ataReadOnce hread)
  cases u with
  | start =>
    have hquiet : Quiet (fun b => (s.ports b).issued) s.ports := ⟨h.highs_eq, fun b => rfl⟩
    exact h.start ((keeps_quiet disks wait _).initiliazeAtaDriver hquiet hcall)
  | readOnce buffer lba device =>
    obtain ⟨b, slot, hdrive⟩ := hu
    obtain ⟨t, honce, rfl⟩ := Option.map_eq_some_iff.mp hcall
    have hanswer := once_eq_some honce
    rw [hdrive] at hanswer
    exact hread ⟨b, slot, lba, buffer⟩ _ _ h hanswer
  | read buffer lba n device =>
    obtain ⟨⟨b, slot, hdrive⟩, hmiss⟩ := hu
    obtain ⟨t, hloop, rfl⟩ := Option.map_eq_some_iff.mp hcall
    exact ataRead_keeps (J := fun t : Mem × (Bus → Channel) => Within t.2)
      (fun buffer lba => hread ⟨b, slot, lba, buffer⟩) hdrive hmiss h (Option.join_eq_some_iff.mp hloop)
  | stores m => exact Option.some.inj hcall ▸ h

theorem Within.uses (h : Within s.ports) (hr : Uses alloc (controller disks wait) ataRead s s') :
    Within s'.ports := by
  induction hr with
  | nil s => exact h
  | cons hu hcall _ ih => exact ih (h.use hu hcall)

/-- The number to ask for. -/
def askedFor (n : BitVec 28) : BitVec 32 :=
  (0 : BitVec 4) ++ n.extractLsb' 24 4 ++ n.extractLsb' 8 8 ++ (0 : Byte) ++ n.extractLsb' 0 8

theorem heard_askedFor (n : BitVec 28) : heard (n.extractLsb' 16 8) (askedFor n) = n := by
  have hnibble : (askedFor n).extractLsb' 24 4 = n.extractLsb' 24 4 := by
    rw [askedFor, BitVec.extractLsb'_append_eq_of_le (by decide),
      BitVec.extractLsb'_append_eq_of_le (by decide), BitVec.extractLsb'_append_eq_of_le (by decide)]
    exact BitVec.extractLsb'_append_eq_right
  have hmid : (askedFor n).extractLsb' 16 8 = n.extractLsb' 8 8 := by
    rw [askedFor, BitVec.extractLsb'_append_eq_of_le (by decide),
      BitVec.extractLsb'_append_eq_of_le (by decide)]
    exact BitVec.extractLsb'_append_eq_right
  have hlow : (askedFor n).extractLsb' 0 8 = n.extractLsb' 0 8 := BitVec.extractLsb'_append_eq_right
  have h₁ : n.extractLsb' 24 4 ++ n.extractLsb' 16 8 = n.extractLsb' 16 12 :=
    BitVec.extractLsb'_append_extractLsb'_eq_extractLsb' rfl
  have h₂ : n.extractLsb' 16 12 ++ n.extractLsb' 8 8 = n.extractLsb' 8 20 :=
    BitVec.extractLsb'_append_extractLsb'_eq_extractLsb' rfl
  have h₃ : n.extractLsb' 8 20 ++ n.extractLsb' 0 8 = n.extractLsb' 0 28 :=
    BitVec.extractLsb'_append_extractLsb'_eq_extractLsb' rfl
  rw [heard, hnibble, hmid, hlow, h₁, h₂, h₃]
  exact BitVec.extractLsb'_eq_self

/-- Over the controller, the sectors that runs of the driver get are those in reach: one in 256, and
none of the slave of the secondary bus. -/
theorem sectors_reached (disks : Bus → Disks) (wait : Bus → Channel → ℕ) (alloc : Allocator α)
    (ataRead : Ptr) (s : Driver α (Bus → Channel)) (hhigh : ∀ b, highs s.ports b = 0)
    (hnew : ∀ b, (s.ports b).issued = []) (b : Bus) (slot : Slot) (n : BitVec 28) :
    (∃ s', Uses alloc (controller disks wait) ataRead s s' ∧ (slot, n) ∈ (s'.ports b).issued) ↔
      InReach b slot n := by
  constructor
  · rintro ⟨s', hr, hissued⟩
    have h : Within s.ports := ⟨hhigh, fun b c hc => by rw [hnew b] at hc; cases hc⟩
    exact (h.uses hr).issued b (slot, n) hissued
  · rintro ⟨hzero, hmaster⟩
    let r : Request := ⟨b, slot, askedFor n, 0⟩
    -- A caller stores the record of the drive first.
    let m := withRecord s.mem 0 r.drive
    have hdrive : driveAt m 0 = r.drive := driveAt_withRecord _ _ _
    obtain ⟨fuel, d', hanswer, hread⟩ := ataReadOnce_answered disks wait r m s.ports
    have hpicked : picked b slot = slot := by
      rw [picked]
      split_ifs with hb
      · exact (hmaster hb).symm
      · rfl
    have hcommand : r.command (highs s.ports) = (slot, n) := by
      rw [Request.command, hhigh r.bus, ← hzero]
      exact Prod.ext hpicked (heard_askedFor n)
    have honce : once (controller disks wait) fuel r.buffer r.lba 0 (m, s.ports) =
        some (deliver disks (highs s.ports) m r, d') := by
      rw [once, hdrive, hread]
      rfl
    have hstores : use alloc (controller disks wait) ataRead 0 (.stores m) s =
        some { s with mem := m } := rfl
    have hcall : use alloc (controller disks wait) ataRead fuel (.readOnce r.buffer r.lba 0)
        { s with mem := m } =
        some { s with mem := deliver disks (highs s.ports) m r, ports := d' } := by
      rw [use, honce]
      rfl
    have hallowed : Use.Allowed s.mem (.stores m) := trivial
    have hallowed' : Use.Allowed m (.readOnce r.buffer r.lba 0) := ⟨b, slot, hdrive⟩
    refine ⟨_, .cons hallowed hstores (.cons hallowed' hcall (.nil _)), ?_⟩
    rw [hanswer.issued_eq b, if_pos rfl, hcommand]
    exact List.mem_append_left _ (List.mem_singleton.mpr rfl)

/-- Sector 255 of the primary slave is in reach, and the sector behind the first 64 Ki is not, whatever
is asked for. -/
theorem sectors_reached_idle :
    (∃ s' : Driver Unit (Bus → Channel),
      Uses (fun _ m h => (0, m, h)) (controller (fun _ _ _ _ => 0) fun _ _ => 0) 0
        ⟨fun _ => 0, (), idle, 0, 0⟩ s' ∧ (.slave, 255) ∈ (s'.ports .primary).issued) ∧
    ¬ ∃ s' : Driver Unit (Bus → Channel),
      Uses (fun _ m h => (0, m, h)) (controller (fun _ _ _ _ => 0) fun _ _ => 0) 0
        ⟨fun _ => 0, (), idle, 0, 0⟩ s' ∧ (.master, 65536) ∈ (s'.ports .primary).issued := by
  have hreach := sectors_reached (fun _ _ _ _ => 0) (fun _ _ => 0) (fun _ m h => (0, m, h)) 0
    ⟨fun _ => 0, (), idle, 0, 0⟩ (fun _ => rfl) (fun _ => rfl) .primary
  refine ⟨(hreach .slave 255).mpr ⟨by decide, fun h => nomatch h⟩, fun h => ?_⟩
  exact absurd ((hreach .master 65536).mp h).1 (by decide)

end TinaOS.Ata
