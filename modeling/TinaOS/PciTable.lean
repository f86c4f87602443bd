import TinaOS.AllocatorContract
import TinaOS.PciScan
import Mathlib.Logic.Function.Basic
import Mathlib.Tactic.SplitIfs

/-!
# What the table of PCI devices lists

`malloc` is any allocator that meets its contract. All functions of a bus share one record,
so an entry of the table ends up describing the last function of its bus.
-/

namespace TinaOS.Pci

open ByteMemory Allocators

variable {cfg : ConfigSpace} {p q : Position} {ps : List Position} {n : ℕ} {m m' : Mem}
  {table : Ptr} {records : ℕ → Ptr}

/-- The memory after entering the function number `i`. -/
def enterMem (m : Mem) (table record : Ptr) (i : ℕ) (vendor device : BitVec 16) : Mem :=
  ByteMemory.store32 (ByteMemory.store32 (ByteMemory.store16 (ByteMemory.store16 m record vendor)
    (record + 2) device) (record + 4) 0) (table + BitVec.ofNat 32 (i * 4)) record

section EnterMem

variable {m : Mem} {table record other : Ptr} {i j : ℕ} {vendor device : BitVec 16}

theorem enterMem_outside {x : Ptr} (hrecord : 8 ≤ (x - record).toNat)
    (hentry : 4 ≤ (x - (table + BitVec.ofNat 32 (i * 4))).toNat) :
    enterMem m table record i vendor device x = m x := by
  have hx := (x - record).isLt
  have h₂ : 2 ≤ (x - (record + 2)).toNat := by
    rw [← BitVec.sub_sub, BitVec.toNat_sub (x - record)]
    simp only [BitVec.reduceToNat]
    omega
  have h₄ : 4 ≤ (x - (record + 4)).toNat := by
    rw [← BitVec.sub_sub, BitVec.toNat_sub (x - record)]
    simp only [BitVec.reduceToNat]
    omega
  rw [enterMem, store32_outside _ hentry, store32_outside _ h₄]
  exact (writeBytes_outside _ h₂).trans (writeBytes_outside _ (by omega))

theorem load32_enterMem_entry :
    load32 (enterMem m table record i vendor device) (table + BitVec.ofNat 32 (i * 4)) = record :=
  load32_store32_same _ _ _

theorem load32_enterMem (h : Apart table 256 record 8) (hji : j < i) (hi : i < 64) :
    load32 (enterMem m table record i vendor device) (table + BitVec.ofNat 32 (j * 4)) =
      load32 m (table + BitVec.ofNat 32 (j * 4)) := by
  have hr : Apart record 8 (table + BitVec.ofNat 32 (j * 4)) 4 := h.symm.part (by omega) (by omega)
  have ht : Apart (table + BitVec.ofNat 32 (i * 4)) 4 (table + BitVec.ofNat 32 (j * 4)) 4 :=
    (apart_parts table (by omega) (by omega) (by omega) (by omega)).symm
  exact load32_congr fun k hk => enterMem_outside (hr.outside hk) (ht.outside hk)

theorem load16_enterMem_record (h : Apart table 256 record 8) (hi : i < 64) :
    load16 (enterMem m table record i vendor device) record = vendor ∧
      load16 (enterMem m table record i vendor device) (record + 2) = device := by
  have hentry : Apart (table + BitVec.ofNat 32 (i * 4)) 4 record 8 :=
    (h.symm.part (by omega) (by omega)).symm
  have hv : Apart (table + BitVec.ofNat 32 (i * 4)) 4 record 2 := hentry.mono le_rfl (by omega)
  have hd : Apart (table + BitVec.ofNat 32 (i * 4)) 4 (record + 2) 2 :=
    hentry.part (j := 2) (by omega) (by omega)
  have h20 : Apart (record + 2) 2 record 2 := by
    simpa using (apart_parts record (i := 0) (j := 2) (n := 2) (k := 2) (by omega) (by omega)
      (by omega) (by omega)).symm
  have h40 : Apart (record + 4) 4 record 2 := by
    simpa using (apart_parts record (i := 0) (j := 4) (n := 2) (k := 4) (by omega) (by omega)
      (by omega) (by omega)).symm
  have h42 : Apart (record + 4) 4 (record + 2) 2 :=
    (apart_parts record (i := 2) (j := 4) (by omega) (by omega) (by omega) (by omega)).symm
  constructor
  · rw [enterMem, store32, load16_writeBytes _ hv, store32, load16_writeBytes _ h40,
      store16, load16_writeBytes _ h20, load16_store16_same]
  · rw [enterMem, store32, load16_writeBytes _ hd, store32, load16_writeBytes _ h42,
      load16_store16_same]

theorem load16_enterMem (ht : Apart table 256 other 8) (hr : Apart record 8 other 8) (hi : i < 64)
    (hj : j + 2 ≤ 8) : load16 (enterMem m table record i vendor device)
      (other + BitVec.ofNat 32 j) = load16 m (other + BitVec.ofNat 32 j) := by
  have hr' : Apart record 8 (other + BitVec.ofNat 32 j) 2 := hr.part (by omega) hj
  have ht' : Apart (table + BitVec.ofNat 32 (i * 4)) 4 (other + BitVec.ofNat 32 j) 2 :=
    ((ht.part (by omega) hj).symm.part (by omega) (by omega)).symm
  exact load16_congr fun k hk => enterMem_outside (hr'.outside hk) (ht'.outside hk)

end EnterMem

/-- The table and the records of the first `n` buses, the latest first. -/
def blocksOf (table : Ptr) (records : ℕ → Ptr) : ℕ → List Block
  | 0 => [⟨table, 256⟩]
  | n + 1 => ⟨records n, 8⟩ :: blocksOf table records n

theorem table_mem (table : Ptr) (records : ℕ → Ptr) (n : ℕ) :
    ⟨table, 256⟩ ∈ blocksOf table records n := by
  induction n with
  | zero => exact List.mem_cons_self
  | succ n ih => exact List.mem_cons_of_mem _ ih

theorem record_mem {bus : ℕ} (h : bus < n) : ⟨records bus, 8⟩ ∈ blocksOf table records n := by
  induction n with
  | zero => omega
  | succ n ih =>
    by_cases hn : bus = n
    · subst hn
      exact List.mem_cons_self
    · exact List.mem_cons_of_mem _ (ih (by omega))

theorem blocksOf_congr {records' : ℕ → Ptr} (h : ∀ bus < n, records' bus = records bus) :
    blocksOf table records' n = blocksOf table records n := by
  induction n with
  | zero => rfl
  | succ n ih =>
    rw [blocksOf, blocksOf, h n (Nat.lt_succ_self n), ih fun bus hb => h bus (by omega)]

structure Separate (table : Ptr) (records : ℕ → Ptr) (n : ℕ) : Prop where
  table_apart : ∀ bus < n, Apart table 256 (records bus) 8
  records_apart : ∀ bus bus', bus < bus' → bus' < n → Apart (records bus) 8 (records bus') 8

theorem separate_of_disjoint
    (h : (blocksOf table records n).Pairwise fun b c => ∀ x, b.Within x → ¬ c.Within x) :
    Separate table records n := by
  induction n with
  | zero => exact ⟨fun bus hb => absurd hb (Nat.not_lt_zero bus), fun bus bus' _ hb =>
      absurd hb (Nat.not_lt_zero bus')⟩
  | succ n ih =>
    obtain ⟨hnew, hold⟩ := List.pairwise_cons.mp h
    obtain ⟨htable, hrecords⟩ := ih hold
    constructor
    · intro bus hb
      by_cases hn : bus = n
      · subst hn
        exact (Block.apart (hnew _ (table_mem table records _)) (by simp) (by simp)).symm
      · exact htable bus (by omega)
    · intro bus bus' hlt hb
      by_cases hn : bus' = n
      · subst hn
        exact (Block.apart (hnew _ (record_mem hlt)) (by simp) (by simp)).symm
      · exact hrecords bus bus' hlt (by omega)

/-- The record holds the ids of the function. -/
def Holds (cfg : ConfigSpace) (m : Mem) (record : Ptr) (p : Position) : Prop :=
  load16 m record = vendorId cfg p ∧ load16 m (record + 2) = deviceId cfg p

/-- The entries point to the records of the buses, and a record describes the function of its bus
that was entered last. -/
structure Recorded (cfg : ConfigSpace) (table : Ptr) (records : ℕ → Ptr) (ps : List Position)
    (m : Mem) : Prop where
  entry : ∀ i, ∀ h : i < ps.length,
    load32 m (table + BitVec.ofNat 32 (i * 4)) = records ps[i].bus
  latest : ∀ bus p, (ps.filter (·.bus = bus)).getLast? = some p → Holds cfg m (records bus) p

private theorem mem_of_latest {bus : ℕ} (h : (ps.filter (·.bus = bus)).getLast? = some p) :
    p ∈ ps ∧ p.bus = bus := by
  simpa using List.mem_of_getLast? h

theorem Recorded.enter (R : Recorded cfg table records ps m) (S : Separate table records n)
    (hps : ∀ q ∈ ps, q.bus ≤ p.bus) (hp : p.bus < n) (hfit : ps.length < 64) :
    Recorded cfg table records (ps ++ [p])
      (enterMem m table (records p.bus) ps.length (vendorId cfg p) (deviceId cfg p)) := by
  constructor
  case entry =>
    intro i hi
    by_cases hlt : i < ps.length
    · rw [load32_enterMem (S.table_apart _ hp) hlt hfit, List.getElem_append_left hlt]
      exact R.entry i hlt
    · obtain rfl : i = ps.length := by
        simp only [List.length_append, List.length_singleton] at hi
        omega
      rw [load32_enterMem_entry, List.getElem_concat_length rfl]
  case latest =>
    intro bus q hq
    by_cases hb : p.bus = bus
    · subst hb
      obtain rfl : p = q := by simpa using hq
      exact load16_enterMem_record (S.table_apart _ hp) hfit
    · have hq' : (ps.filter (·.bus = bus)).getLast? = some q := by simpa [hb] using hq
      obtain ⟨hmem, rfl⟩ := mem_of_latest hq'
      have hlt : q.bus < p.bus := lt_of_le_of_ne (hps q hmem) (Ne.symm hb)
      have hsame : ∀ j, j + 2 ≤ 8 →
          load16 (enterMem m table (records p.bus) ps.length (vendorId cfg p) (deviceId cfg p))
            (records q.bus + BitVec.ofNat 32 j) = load16 m (records q.bus + BitVec.ofNat 32 j) :=
        fun j hj => load16_enterMem (S.table_apart _ (hlt.trans hp))
          (S.records_apart _ _ hlt hp).symm hfit hj
      obtain ⟨hv, hd⟩ := R.latest _ q hq'
      have h₀ := hsame 0 (by omega)
      rw [BitVec.add_zero] at h₀
      exact ⟨h₀.trans hv, (hsame 2 (by omega)).trans hd⟩

/-- What leaves the blocks alone leaves alone what is recorded. -/
theorem Recorded.keeps (R : Recorded cfg table records ps m)
    (hm : ∀ b ∈ blocksOf table records n, ∀ x, b.Within x → m' x = m x)
    (hps : ∀ q ∈ ps, q.bus < n) (hfit : ps.length ≤ 64) : Recorded cfg table records ps m' := by
  constructor
  case entry =>
    intro i hi
    rw [← R.entry i hi]
    exact Block.load32_eq (b := ⟨table, 256⟩) (hm _ (table_mem table records n)) (by simp)
      (by simp only; omega)
  case latest =>
    intro bus q hq
    obtain ⟨hmem, rfl⟩ := mem_of_latest hq
    have hsame : ∀ k, k + 2 ≤ 8 → load16 m' (records q.bus + BitVec.ofNat 32 k) =
        load16 m (records q.bus + BitVec.ofNat 32 k) := fun k hk =>
      Block.load16_eq (b := ⟨records q.bus, 8⟩) (hm _ (record_mem (hps q hmem))) (by simp) hk
    obtain ⟨hv, hd⟩ := R.latest _ q hq
    have h₀ := hsame 0 (by omega)
    rw [BitVec.add_zero] at h₀
    exact ⟨h₀.trans hv, (hsame 2 (by omega)).trans hd⟩

theorem Recorded.congr {records' : ℕ → Ptr} (R : Recorded cfg table records ps m)
    (hps : ∀ q ∈ ps, q.bus < n) (h : ∀ bus < n, records' bus = records bus) :
    Recorded cfg table records' ps m := by
  constructor
  case entry =>
    intro i hi
    rw [h _ (hps _ (List.getElem_mem hi))]
    exact R.entry i hi
  case latest =>
    intro bus q hq
    obtain ⟨hmem, rfl⟩ := mem_of_latest hq
    rw [h _ (hps q hmem)]
    exact R.latest _ q hq

section Scan

variable {α : Type*} {alloc : Allocator α} {limit : ℕ} {Given : List Block → Mem → α → Prop}
  {s : Scan α (BitVec 32)} {mem : Mem} {heap : α} {latched : BitVec 32}

/-- The variables after `n` buses with the functions `ps` entered. -/
structure Listing (Given : List Block → Mem → α → Prop) (cfg : ConfigSpace) (records : ℕ → Ptr)
    (n : ℕ) (ps : List Position) (s : Scan α (BitVec 32)) : Prop where
  given : Given (blocksOf s.devices records n) s.mem s.heap
  deviceCount : s.deviceCount = BitVec.ofNat 32 ps.length
  bus_lt : ∀ p ∈ ps, p.bus < n
  recorded : Recorded cfg s.devices records ps s.mem

theorem Listing.malloc (L : Listing Given cfg records n ps s) (C : Contract alloc limit Given)
    (hl : 8 ≤ limit) (hfit : ps.length ≤ 64) (hr : (s.malloc alloc PCI_DEVICE).1 ≠ 0) :
    Listing Given cfg (Function.update records n (s.malloc alloc PCI_DEVICE).1) (n + 1) ps
      (s.malloc alloc PCI_DEVICE).2 := by
  have hsize : PCI_DEVICE.toNat ≤ limit := hl
  have hcall : alloc PCI_DEVICE s.mem s.heap = ((s.malloc alloc PCI_DEVICE).1,
      (s.malloc alloc PCI_DEVICE).2.mem, (s.malloc alloc PCI_DEVICE).2.heap) := rfl
  have hsame : ∀ bus < n, Function.update records n (s.malloc alloc PCI_DEVICE).1 bus =
      records bus := fun bus hb => Function.update_of_ne (Nat.ne_of_lt hb) _ _
  constructor
  case given =>
    have hgiven := C.serve L.given hsize hcall hr
    rw [blocksOf, Function.update_self, blocksOf_congr hsame]
    exact hgiven
  case deviceCount => exact L.deviceCount
  case bus_lt => exact fun p hp => (L.bus_lt p hp).trans (Nat.lt_succ_self n)
  case recorded =>
    have hkept := L.recorded.keeps (C.keeps L.given hsize hcall) L.bus_lt hfit
    exact hkept.congr L.bus_lt hsame

theorem Listing.enter (L : Listing Given cfg records n ps s) (C : Contract alloc limit Given)
    (hps : ∀ q ∈ ps, q.bus ≤ p.bus) (hp : p.bus < n) (hfit : ps.length < 64) :
    Listing Given cfg records n (ps ++ [p])
      (enter (records p.bus) (vendorId cfg p) (deviceId cfg p) s) := by
  have hmem : (Pci.enter (records p.bus) (vendorId cfg p) (deviceId cfg p) s).mem =
      enterMem s.mem s.devices (records p.bus) ps.length (vendorId cfg p) (deviceId cfg p) := by
    rw [enterMem, BitVec.ofNat_mul, ← L.deviceCount]
    rfl
  have hcount : (Pci.enter (records p.bus) (vendorId cfg p) (deviceId cfg p) s).deviceCount =
      s.deviceCount + 1 := rfl
  have S := separate_of_disjoint (C.disjoint L.given)
  constructor
  case given =>
    apply C.store L.given
    intro x hx
    have hrecord := hx _ (record_mem hp)
    have htable := hx _ (table_mem s.devices records n)
    simp only [Block.Within] at hrecord htable
    rw [hmem]
    apply enterMem_outside (Nat.not_lt.mp hrecord)
    have hlt := (x - s.devices).isLt
    rw [← BitVec.sub_sub, BitVec.toNat_sub (x - s.devices), BitVec.toNat_ofNat]
    omega
  case deviceCount =>
    rw [hcount, L.deviceCount, List.length_append, List.length_singleton, BitVec.ofNat_add]
    rfl
  case bus_lt =>
    intro q hq
    cases List.mem_append.mp hq with
    | inl hq =>
      exact L.bus_lt q hq
    | inr hq =>
      rw [List.mem_singleton.mp hq]
      exact hp
  case recorded =>
    rw [hmem]
    exact L.recorded.enter S hps hp hfit

theorem blocks_malloc_length (alloc : Allocator α) (nbytes : BitVec 32) (s : Scan α (BitVec 32)) :
    (s.malloc alloc nbytes).2.blocks.length =
      if (s.malloc alloc nbytes).1 = 0 then s.blocks.length else s.blocks.length + 1 := by
  have hblocks : (s.malloc alloc nbytes).2.blocks = if (s.malloc alloc nbytes).1 = 0 then s.blocks
      else ⟨(s.malloc alloc nbytes).1.toNat, nbytes.toNat⟩ :: s.blocks := rfl
  rw [hblocks]
  split_ifs <;> rfl

/-- All calls of `malloc` returned a block: one for the table and one for each bus. -/
def AllServed (s : Scan α (BitVec 32)) : Prop := s.blocks.length = 257

/-- If the calls so far succeeded, the table and the records of `n` buses list `ps`. -/
def ListedAfter (Given : List Block → Mem → α → Prop) (cfg : ConfigSpace) (n : ℕ)
    (ps : List Position) (s : Scan α (BitVec 32)) : Prop :=
  s.blocks.length ≤ n + 1 ∧ (s.blocks.length = n + 1 → ps.length ≤ TABLE →
    ∃ records, Listing Given cfg records n ps s)

/-- The same inside the loops over the bus `n`. -/
def ListedWithin (Given : List Block → Mem → α → Prop) (cfg : ConfigSpace) (n : ℕ) (record : Ptr)
    (ps : List Position) (s : Scan α (BitVec 32)) : Prop :=
  s.blocks.length ≤ n + 2 ∧ (s.blocks.length = n + 2 → ps.length ≤ TABLE →
    ∃ records, records n = record ∧ Listing Given cfg records (n + 1) ps s)

theorem listedAfter_zero (C : Contract alloc limit Given) (hl : 256 ≤ limit)
    (hg : Given [] mem heap) : ListedAfter Given cfg 0 [] (tableReady alloc mem heap latched) := by
  have hlen := blocks_malloc_length alloc (32 * PCI_DEVICE) (start mem heap latched)
  have hcall : alloc (32 * PCI_DEVICE) mem heap = ((tableReady alloc mem heap latched).devices,
      (tableReady alloc mem heap latched).mem, (tableReady alloc mem heap latched).heap) := rfl
  constructor
  · exact hlen.trans_le (by split_ifs <;> simp [start])
  · intro hfull _
    have hserved : ((start mem heap latched).malloc alloc (32 * PCI_DEVICE)).1 ≠ 0 := by
      intro hz
      rw [if_pos hz] at hlen
      exact absurd (hfull.symm.trans hlen) (by simp [start])
    have hsize : (32 * PCI_DEVICE).toNat ≤ limit := hl
    refine ⟨fun _ => 0, C.serve hg hsize hcall hserved, rfl, by simp, ?_⟩
    constructor
    case entry => exact fun i hi => absurd hi (Nat.not_lt_zero i)
    case latest => simp

theorem ListedAfter.malloc (L : ListedAfter Given cfg n ps s) (C : Contract alloc limit Given)
    (hl : 256 ≤ limit) :
    ListedWithin Given cfg n (s.malloc alloc PCI_DEVICE).1 ps (s.malloc alloc PCI_DEVICE).2 := by
  obtain ⟨hle, hlist⟩ := L
  have hlen := blocks_malloc_length alloc PCI_DEVICE s
  constructor
  · split_ifs at hlen <;> omega
  · intro hfull hfit
    split_ifs at hlen with hr
    · omega
    · obtain ⟨records, L⟩ := hlist (by omega) hfit
      exact ⟨_, Function.update_self n _ records, L.malloc C (by omega) hfit hr⟩

/-- As long as all calls succeed and the functions fit the table, the scan lists them. -/
theorem scan_listing (C : Contract alloc limit Given) (hl : 256 ≤ limit) (hg : Given [] mem heap)
    (hall : AllServed (scan alloc cfg mem heap latched)) (hfit : (present cfg).length ≤ TABLE) :
    ∃ records, Listing Given cfg records 256 (present cfg) (scan alloc cfg mem heap latched) := by
  have hinv : ListedAfter Given cfg 256 (present cfg) (scan alloc cfg mem heap latched) := by
    apply scan_spec (ListedAfter Given cfg) (ListedWithin Given cfg)
    · exact listedAfter_zero C hl hg
    · exact fun n ps s _ L => L.malloc C hl
    · rintro n record ps s l ⟨hle, hlist⟩
      refine ⟨hle, fun hfull hfit => ?_⟩
      obtain ⟨records, hrecord, L⟩ := hlist hfull hfit
      exact ⟨records, hrecord, L.given, L.deviceCount, L.bus_lt, L.recorded⟩
    · rintro n record ps s p rfl hn - ⟨hle, hlist⟩
      refine ⟨hle, fun hfull hfit => ?_⟩
      rw [List.length_append, List.length_singleton] at hfit
      obtain ⟨records, rfl, L⟩ := hlist hfull (by omega)
      have hps : ∀ q ∈ ps, q.bus ≤ p.bus := fun q hq => Nat.lt_succ_iff.mp (L.bus_lt q hq)
      exact ⟨records, rfl, L.enter C hps (Nat.lt_succ_self _) hfit⟩
    · rintro n record ps s ⟨hle, hlist⟩
      refine ⟨hle, fun hfull hfit => ?_⟩
      obtain ⟨records, -, L⟩ := hlist hfull hfit
      exact ⟨records, L⟩
  exact hinv.2 hall hfit

/-- The table lists the present functions: its length is their number, and every entry points to
a record with the ids of its own function. -/
def Lists (cfg : ConfigSpace) (s : Scan α (BitVec 32)) : Prop :=
  s.deviceCount.toNat = (present cfg).length ∧ ∀ i, ∀ h : i < (present cfg).length,
    Holds cfg s.mem (load32 s.mem (s.devices + BitVec.ofNat 32 i * 4)) (present cfg)[i]

/-- No two present functions of one bus have different ids. -/
def AlikeOnBuses (cfg : ConfigSpace) : Prop :=
  ∀ p ∈ present cfg, ∀ q ∈ present cfg, p.bus = q.bus → ids cfg p = ids cfg q

theorem Holds.ids_eq {record : Ptr} (hp : Holds cfg m record p) (hq : Holds cfg m record q) :
    ids cfg p = ids cfg q := by
  rw [ids, ids, ← hp.1, ← hp.2, ← hq.1, ← hq.2]

theorem Holds.congr {record : Ptr} (hp : Holds cfg m record p) (h : ids cfg p = ids cfg q) :
    Holds cfg m record q := by
  obtain ⟨hv, hd⟩ := Prod.mk.inj h
  exact ⟨hp.1.trans hv, hp.2.trans hd⟩

theorem Listing.entry (L : Listing Given cfg records 256 ps s) {i : ℕ} (hi : i < ps.length) :
    load32 s.mem (s.devices + BitVec.ofNat 32 i * 4) = records ps[i].bus := by
  have h := L.recorded.entry i hi
  rwa [BitVec.ofNat_mul] at h

/-- Two functions of a bus share their record. -/
theorem Listing.alike (L : Listing Given cfg records 256 (present cfg) s) (hl : Lists cfg s) :
    AlikeOnBuses cfg := by
  intro p hp q hq hbus
  obtain ⟨i, hi, rfl⟩ := List.getElem_of_mem hp
  obtain ⟨j, hj, rfl⟩ := List.getElem_of_mem hq
  have hpi := hl.2 i hi
  have hqj := hl.2 j hj
  rw [L.entry hi] at hpi
  rw [L.entry hj, ← hbus] at hqj
  exact hpi.ids_eq hqj

theorem Listing.lists (L : Listing Given cfg records 256 (present cfg) s)
    (hfit : (present cfg).length ≤ TABLE) (ha : AlikeOnBuses cfg) : Lists cfg s := by
  have hTABLE : TABLE = 64 := by decide
  constructor
  · rw [L.deviceCount, BitVec.toNat_ofNat]
    omega
  · intro i hi
    rw [L.entry hi]
    have hp := List.getElem_mem hi
    have hne : (present cfg).filter (·.bus = (present cfg)[i].bus) ≠ [] :=
      List.ne_nil_of_mem (List.mem_filter.mpr ⟨hp, by simp⟩)
    have hlast := List.getLast?_eq_some_getLast hne
    obtain ⟨hq, hbus⟩ := mem_of_latest hlast
    exact (L.recorded.latest _ _ hlast).congr (ha _ hq _ hp hbus)

/-- When all calls of `malloc` succeed and the present functions fit, the table lists them if and
only if no bus has two functions with different ids. -/
theorem lists_iff (C : Contract alloc limit Given) (hl : 256 ≤ limit) (hg : Given [] mem heap)
    (hall : AllServed (scan alloc cfg mem heap latched)) (hfit : (present cfg).length ≤ TABLE) :
    Lists cfg (scan alloc cfg mem heap latched) ↔ AlikeOnBuses cfg := by
  obtain ⟨records, L⟩ := scan_listing C hl hg hall hfit
  exact ⟨L.alike, L.lists hfit⟩

end Scan

/-- The same over the kernel's own `malloc`, from boot, whatever regions `sbrk` gives it. -/
theorem lists_iff_kernelMalloc {fl : Ptr} {answer : Malloc.SbrkLog → BitVec 32 → Ptr}
    {heap : Malloc.Heap Malloc.SbrkLog} {latched : BitVec 32} (ha : Malloc.Honest fl answer)
    (hb : Malloc.Boot fl ⟨heap, []⟩)
    (hall : AllServed (scan (Malloc.kernelMalloc answer) cfg heap.mem heap latched))
    (hfit : (present cfg).length ≤ TABLE) :
    Lists cfg (scan (Malloc.kernelMalloc answer) cfg heap.mem heap latched) ↔
      AlikeOnBuses cfg := by
  have hl : 256 ≤ 2 ^ 31 - 16 := by decide
  obtain ⟨records, L⟩ :=
    scan_listing (Malloc.kernelMalloc_contract ha) hl (Malloc.givenOut_boot hb) hall hfit
  exact ⟨L.alike, L.lists hfit⟩

def bumpScan (cfg : ConfigSpace) : Scan Ptr (BitVec 32) := scan bump cfg (fun _ => 0) 0x100000 0

/-- After `n` records the next block starts at `0x100100 + 8 * n`. -/
def Bumped (n : ℕ) (s : Scan Ptr (BitVec 32)) : Prop :=
  s.heap.toNat = 0x100100 + 8 * n ∧ s.blocks.length = n + 1

theorem Bumped.malloc {s : Scan Ptr (BitVec 32)} (B : Bumped n s) (hn : n < 256) :
    Bumped (n + 1) (s.malloc bump PCI_DEVICE).2 := by
  obtain ⟨htop, hlen⟩ := B
  have hsize : PCI_DEVICE.toNat = 8 := rfl
  have hcall := bump_of_fits s.mem (show s.heap.toNat + PCI_DEVICE.toNat < 2 ^ 32 by omega)
  have hp : (s.malloc bump PCI_DEVICE).1 = s.heap := congrArg Prod.fst hcall
  have hheap : (s.malloc bump PCI_DEVICE).2.heap = s.heap + PCI_DEVICE :=
    congrArg (fun out => out.2.2) hcall
  have hne : (s.malloc bump PCI_DEVICE).1 ≠ 0 := by
    intro h
    have hzero : s.heap.toNat = 0 := congrArg BitVec.toNat (hp.symm.trans h)
    omega
  constructor
  · rw [hheap, BitVec.toNat_add]
    omega
  · rw [blocks_malloc_length, if_neg hne, hlen]

theorem allServed_bumpScan (cfg : ConfigSpace) : AllServed (bumpScan cfg) := by
  have hinv : Bumped 256 (bumpScan cfg) := by
    apply scan_spec (fun n _ s => Bumped n s) (fun n _ _ s => Bumped (n + 1) s)
    · exact ⟨by decide, by decide⟩
    · exact fun n ps s hn B => B.malloc hn
    · exact fun n record ps s l B => B
    · exact fun n record ps s p _ _ _ B => B
    · exact fun n record ps s B => B
  exact hinv.2

theorem lists_iff_hostOnly : Lists hostOnly (bumpScan hostOnly) := by
  have hfit : (present hostOnly).length ≤ TABLE := by
    rw [present_hostOnly]
    decide
  refine (lists_iff (bump_contract 256) le_rfl ⟨by simp, .nil⟩ (allServed_bumpScan hostOnly)
    hfit).mpr fun p hp q hq _ => ?_
  rw [present_hostOnly, List.mem_singleton] at hp hq
  rw [hp, hq]

def hostAndIsa : ConfigSpace := busZero fun slot function =>
  if slot = 0 ∧ function = 0 then 0x12378086
  else if slot = 1 ∧ function = 0 then 0x70008086
  else 0xFFFFFFFF

theorem present_hostAndIsa : present hostAndIsa = [⟨0, 0, 0⟩, ⟨0, 1, 0⟩] :=
  (present_busZero _).trans (by decide +kernel)

/-- Two bridges on bus 0 are not listed, although they fit and every call of `malloc` succeeds. -/
theorem not_lists_hostAndIsa : (present hostAndIsa).length ≤ TABLE ∧
    Contract bump 256 BelowTop ∧ AllServed (bumpScan hostAndIsa) ∧
    ¬ Lists hostAndIsa (bumpScan hostAndIsa) := by
  have hfit : (present hostAndIsa).length ≤ TABLE := by
    rw [present_hostAndIsa]
    decide
  have hall := allServed_bumpScan hostAndIsa
  refine ⟨hfit, bump_contract 256, hall, fun hl => ?_⟩
  obtain ⟨records, L⟩ := scan_listing (bump_contract 256) le_rfl ⟨by simp, .nil⟩ hall hfit
  have hids := L.alike hl ⟨0, 0, 0⟩ (by simp [present_hostAndIsa]) ⟨0, 1, 0⟩
    (by simp [present_hostAndIsa]) rfl
  exact absurd hids (by decide)

end TinaOS.Pci
