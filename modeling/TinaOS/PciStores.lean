import TinaOS.PciScan
import Mathlib.Tactic.ByContra
import Mathlib.Tactic.Tauto

/-!
# Where the scan of the PCI buses stores

`malloc` answers by a sequence, and may change any memory when it is called. The scan checks
neither an answer nor the size of its table, which has room for 64 pointers.
-/

namespace TinaOS.Pci

open ByteMemory Arenas Allocators

/-- The bytes asked for by the `k`-th call of `malloc`: first the table, then the records. -/
def requested : ℕ → ℕ
  | 0 => (32 * PCI_DEVICE).toNat
  | _ + 1 => PCI_DEVICE.toNat

/-- A `malloc` whose `k`-th call answers `outcome k` and changes memory by `disturb k`. -/
def answering (outcome : ℕ → Ptr) (disturb : ℕ → Mem → Mem) : Allocator ℕ :=
  fun _ m k => (outcome k, disturb k m, k + 1)

def recordOf (outcome : ℕ → Ptr) (bus : ℕ) : Ptr := outcome (bus + 1)

variable {outcome : ℕ → Ptr} {disturb : ℕ → Mem → Mem} {cfg : ConfigSpace} {n : ℕ} {p : Position}
  {ps : List Position}

/-- What the `i`-th entered function stores: its record, then the entry of the table. -/
def storesAt (outcome : ℕ → Ptr) (i : ℕ) (p : Position) : List Extent :=
  [⟨(recordOf outcome p.bus).toNat, 2⟩, ⟨(recordOf outcome p.bus + 2).toNat, 2⟩,
    ⟨(recordOf outcome p.bus + 4).toNat, 4⟩, ⟨(outcome 0 + BitVec.ofNat 32 i * 4).toNat, 4⟩]

/-- The blocks that the first calls of `malloc` returned, the latest first. -/
def granted (outcome : ℕ → Ptr) : ℕ → List Extent
  | 0 => []
  | k + 1 => if outcome k = 0 then granted outcome k
      else ⟨(outcome k).toNat, requested k⟩ :: granted outcome k

theorem mem_granted {e : Extent} : e ∈ granted outcome n ↔
    ∃ k < n, outcome k ≠ 0 ∧ e = ⟨(outcome k).toNat, requested k⟩ := by
  induction n with
  | zero => simp [granted]
  | succ n ih =>
    by_cases h : outcome n = 0
    · rw [granted, if_pos h, ih]
      refine exists_congr fun k => and_congr_left fun hk => ?_
      have hne : k ≠ n := fun hkn => hk.1 (hkn ▸ h)
      omega
    · rw [granted, if_neg h, List.mem_cons, ih, Nat.exists_lt_succ_right]
      exact or_comm.trans (or_congr_right (and_iff_right h).symm)

private theorem exists_getElem_concat {β : Type*} {Q : ℕ → β → Prop} (l : List β) (a : β) :
    (∃ i, ∃ h : i < (l ++ [a]).length, Q i (l ++ [a])[i]) ↔
      (∃ i, ∃ h : i < l.length, Q i l[i]) ∨ Q l.length a := by
  constructor
  · rintro ⟨i, h, hQ⟩
    by_cases hi : i < l.length
    · rw [List.getElem_append_left hi] at hQ
      exact .inl ⟨i, hi, hQ⟩
    · obtain rfl : i = l.length := by
        simp only [List.length_append, List.length_singleton] at h
        omega
      rw [List.getElem_concat_length rfl] at hQ
      exact .inr hQ
  · rintro (⟨i, h, hQ⟩ | hQ)
    · refine ⟨i, by simp only [List.length_append]; omega, ?_⟩
      rwa [List.getElem_append_left h]
    · refine ⟨l.length, by simp, ?_⟩
      rwa [List.getElem_concat_length rfl]

/-- The variables after `n` buses with the functions `ps` entered. -/
structure Progress (outcome : ℕ → Ptr) (n : ℕ) (ps : List Position)
    (s : Scan ℕ (BitVec 32)) : Prop where
  heap : s.heap = n + 1
  devices : s.devices = outcome 0
  deviceCount : s.deviceCount = BitVec.ofNat 32 ps.length
  stores : ∀ e, e ∈ s.stores ↔ ∃ i, ∃ h : i < ps.length, e ∈ storesAt outcome i ps[i]
  indices : ∀ k, k ∈ s.indices ↔ ∃ i < ps.length, k = BitVec.ofNat 32 i
  blocks : s.blocks = granted outcome (n + 1)

variable {s : Scan ℕ (BitVec 32)} {mem : Mem} {latched : BitVec 32}

theorem blocks_malloc (nbytes : BitVec 32) (s : Scan ℕ (BitVec 32)) :
    (s.malloc (answering outcome disturb) nbytes).2.blocks =
      if outcome s.heap = 0 then s.blocks
      else ⟨(outcome s.heap).toNat, nbytes.toNat⟩ :: s.blocks := rfl

theorem Progress.start :
    Progress outcome 0 [] (tableReady (answering outcome disturb) mem 0 latched) := by
  constructor
  case heap => rfl
  case devices => rfl
  case deviceCount => rfl
  case stores => simp [tableReady, Pci.start, Scan.malloc, answering]
  case indices => simp [tableReady, Pci.start, Scan.malloc, answering]
  case blocks => rfl

theorem Progress.malloc (P : Progress outcome n ps s) :
    Progress outcome (n + 1) ps (s.malloc (answering outcome disturb) PCI_DEVICE).2 := by
  constructor
  case heap => exact congrArg (· + 1) P.heap
  case devices => exact P.devices
  case deviceCount => exact P.deviceCount
  case stores => exact P.stores
  case indices => exact P.indices
  case blocks =>
    rw [blocks_malloc, P.heap, P.blocks]
    rfl

theorem Progress.enter (P : Progress outcome n ps s) (p : Position) (vendor device : BitVec 16) :
    Progress outcome n (ps ++ [p]) (enter (recordOf outcome p.bus) vendor device s) := by
  constructor
  case heap => exact P.heap
  case devices => exact P.devices
  case deviceCount =>
    have hcount : (Pci.enter (recordOf outcome p.bus) vendor device s).deviceCount =
        s.deviceCount + 1 := rfl
    rw [hcount, P.deviceCount, List.length_append, List.length_singleton, BitVec.ofNat_add]
    rfl
  case stores =>
    intro e
    have hstores : (Pci.enter (recordOf outcome p.bus) vendor device s).stores =
        ⟨(s.devices + s.deviceCount * 4).toNat, 4⟩ ::
          ⟨(recordOf outcome p.bus + 4).toNat, 4⟩ :: ⟨(recordOf outcome p.bus + 2).toNat, 2⟩ ::
            ⟨(recordOf outcome p.bus).toNat, 2⟩ :: s.stores := rfl
    rw [hstores, exists_getElem_concat (Q := fun i p => e ∈ storesAt outcome i p), ← P.stores,
      P.devices, P.deviceCount]
    simp only [storesAt, List.mem_cons, List.not_mem_nil, or_false]
    tauto
  case indices =>
    intro k
    have hindices : (Pci.enter (recordOf outcome p.bus) vendor device s).indices =
        s.deviceCount :: s.indices := rfl
    rw [hindices, List.mem_cons, P.indices, P.deviceCount, List.length_append,
      List.length_singleton, Nat.exists_lt_succ_right, or_comm]
  case blocks => exact P.blocks

theorem scan_progress (cfg : ConfigSpace) (outcome : ℕ → Ptr) (disturb : ℕ → Mem → Mem) (mem : Mem)
    (latched : BitVec 32) :
    Progress outcome 256 (present cfg) (scan (answering outcome disturb) cfg mem 0 latched) := by
  apply scan_spec (fun n ps s => Progress outcome n ps s)
    (fun n record ps s => record = recordOf outcome n ∧ Progress outcome (n + 1) ps s)
  · exact .start
  · intro n ps s _ P
    have hrecord : (s.malloc (answering outcome disturb) PCI_DEVICE).1 = outcome s.heap := rfl
    exact ⟨by rw [hrecord, P.heap, recordOf], P.malloc⟩
  · rintro n record ps s l ⟨hrecord, P⟩
    exact ⟨hrecord, P.heap, P.devices, P.deviceCount, P.stores, P.indices, P.blocks⟩
  · rintro n _ ps s p rfl - - ⟨rfl, P⟩
    exact ⟨rfl, P.enter p _ _⟩
  · exact fun n record ps s h => h.2

/-- Every store lies in a block that `malloc` returned, and every index is one of the table. -/
def Contained {α δ : Type*} (s : Scan α δ) : Prop :=
  (∀ e ∈ s.stores, ∃ b ∈ s.blocks, b.lo ≤ e.lo ∧ e.lo + e.len ≤ b.lo + b.len) ∧
    ∀ i ∈ s.indices, i.toNat < TABLE

/-- The blocks that `malloc` returns end within the address space. -/
def Whole (outcome : ℕ → Ptr) : Prop :=
  ∀ k ≤ 256, outcome k ≠ 0 → (outcome k).toNat + requested k ≤ 2 ^ 32

theorem Progress.zero_notMem (P : Progress outcome n ps s) {b : Extent} (hb : b ∈ s.blocks) :
    0 < b.lo := by
  rw [P.blocks, mem_granted] at hb
  obtain ⟨k, -, hk, rfl⟩ := hb
  exact Nat.pos_of_ne_zero fun h => hk (BitVec.eq_of_toNat_eq h)

theorem Progress.ne_zero (P : Progress outcome n ps s) (hc : Contained s) {a : Ptr} {len : ℕ}
    (he : ⟨a.toNat, len⟩ ∈ s.stores) : a ≠ 0 := by
  rintro rfl
  obtain ⟨b, hb, hlo, -⟩ := hc.1 _ he
  exact absurd (P.zero_notMem hb) (by simpa using hlo)

theorem Progress.mem_stores (P : Progress outcome n ps s) {i : ℕ} (hi : i < ps.length) {e : Extent}
    (he : e ∈ storesAt outcome i ps[i]) : e ∈ s.stores := (P.stores e).mpr ⟨i, hi, he⟩

theorem Progress.of_contained (P : Progress outcome n ps s) (hc : Contained s) :
    ps = [] ∨ outcome 0 ≠ 0 ∧ ps.length ≤ TABLE ∧ ∀ p ∈ ps, recordOf outcome p.bus ≠ 0 := by
  by_cases hps : ps = []
  · exact .inl hps
  · have hpos : 0 < ps.length := List.length_pos_iff.mpr hps
    refine .inr ⟨?_, ?_, fun p hp => ?_⟩
    · have hentry : ⟨(outcome 0 + BitVec.ofNat 32 0 * 4).toNat, 4⟩ ∈ s.stores :=
        P.mem_stores hpos (by simp [storesAt])
      simpa using P.ne_zero hc hentry
    · by_contra hlt
      have hindex := hc.2 (BitVec.ofNat 32 TABLE) ((P.indices _).mpr ⟨TABLE, by omega, rfl⟩)
      exact absurd hindex (by decide)
    · obtain ⟨i, hi, rfl⟩ := List.getElem_of_mem hp
      have hrecord : ⟨(recordOf outcome ps[i].bus).toNat, 2⟩ ∈ s.stores :=
        P.mem_stores hi (by simp [storesAt])
      exact P.ne_zero hc hrecord

/-- The `i`-th entered function stores into its record and into the table. -/
theorem inside_of_mem_storesAt {i : ℕ} {e : Extent} (he : e ∈ storesAt outcome i p) (hi : i < TABLE)
    (hrecord : (recordOf outcome p.bus).toNat + 8 ≤ 2 ^ 32)
    (htable : (outcome 0).toNat + 256 ≤ 2 ^ 32) :
    ((recordOf outcome p.bus).toNat ≤ e.lo ∧ e.lo + e.len ≤ (recordOf outcome p.bus).toNat + 8) ∨
      ((outcome 0).toNat ≤ e.lo ∧ e.lo + e.len ≤ (outcome 0).toNat + 256) := by
  have hTABLE : TABLE = 64 := by decide
  simp only [storesAt, List.mem_cons, List.not_mem_nil, or_false] at he
  rcases he with rfl | rfl | rfl | rfl
  · exact .inl ⟨by simp only; omega, by simp only; omega⟩
  · simp only [BitVec.toNat_add, BitVec.reduceToNat]
    omega
  · simp only [BitVec.toNat_add, BitVec.reduceToNat]
    omega
  · simp only [BitVec.toNat_add, BitVec.toNat_mul, BitVec.toNat_ofNat, BitVec.reduceToNat]
    omega

theorem Progress.contained (P : Progress outcome 256 ps s) (hw : Whole outcome)
    (hbus : ∀ p ∈ ps, p.bus < 256) (htable : outcome 0 ≠ 0) (hfit : ps.length ≤ TABLE)
    (hrecord : ∀ p ∈ ps, recordOf outcome p.bus ≠ 0) : Contained s := by
  have hblock : ∀ k ≤ 256, outcome k ≠ 0 → ⟨(outcome k).toNat, requested k⟩ ∈ s.blocks :=
    fun k hk h => P.blocks ▸ mem_granted.mpr ⟨k, by omega, h, rfl⟩
  constructor
  · intro e he
    obtain ⟨i, hi, he⟩ := (P.stores e).mp he
    have hb := hbus _ (List.getElem_mem hi)
    have hr := hrecord _ (List.getElem_mem hi)
    rcases inside_of_mem_storesAt he (by omega) (hw _ (by omega) hr) (hw 0 (by omega) htable) with
      hin | hin
    · exact ⟨_, hblock (ps[i].bus + 1) (by omega) hr, hin⟩
    · exact ⟨_, hblock 0 (by omega) htable, hin⟩
  · intro k hk
    obtain ⟨i, hi, rfl⟩ := (P.indices k).mp hk
    have hTABLE : TABLE = 64 := by decide
    rw [BitVec.toNat_ofNat]
    omega

/-- The scan stores inside blocks and indexes the table only when no function is present, or
all calls of `malloc` whose block it uses succeed and the present functions fit the table. -/
theorem contained_iff (cfg : ConfigSpace) (hw : Whole outcome) (disturb : ℕ → Mem → Mem) (mem : Mem)
    (latched : BitVec 32) : Contained (scan (answering outcome disturb) cfg mem 0 latched) ↔
      present cfg = [] ∨ outcome 0 ≠ 0 ∧ (present cfg).length ≤ TABLE ∧
        ∀ p ∈ present cfg, recordOf outcome p.bus ≠ 0 := by
  have P := scan_progress cfg outcome disturb mem latched
  constructor
  · exact P.of_contained
  · rintro (hnone | ⟨htable, hfit, hrecord⟩)
    · constructor
      · intro e he
        obtain ⟨i, hi, -⟩ := (P.stores e).mp he
        simp [hnone] at hi
      · intro k hk
        obtain ⟨i, hi, -⟩ := (P.indices k).mp hk
        simp [hnone] at hi
    · exact P.contained hw (fun p hp => (mem_present.mp hp).1.1) htable hfit hrecord

def spaced (k : ℕ) : Ptr := BitVec.ofNat 32 (0x100000 + 0x200 * k)

theorem spaced_toNat {k : ℕ} (hk : k ≤ 256) : (spaced k).toNat = 0x100000 + 0x200 * k := by
  rw [spaced, BitVec.toNat_ofNat]
  omega

theorem requested_le (k : ℕ) : 0 < requested k ∧ requested k ≤ 256 := by
  cases k with
  | zero => decide
  | succ k => exact show 0 < PCI_DEVICE.toNat ∧ PCI_DEVICE.toNat ≤ 256 by decide

theorem whole_spaced : Whole spaced := by
  intro k hk _
  have h := requested_le k
  rw [spaced_toNat hk]
  omega

theorem spaced_ne_zero {k : ℕ} (hk : k ≤ 256) : spaced k ≠ 0 := by
  intro h
  have h0 := congrArg BitVec.toNat h
  rw [spaced_toNat hk] at h0
  simp at h0

theorem contained_iff_hostOnly :
    Contained (scan (answering spaced fun _ m => m) hostOnly (fun _ => 0) 0 0) := by
  refine (contained_iff hostOnly whole_spaced (fun _ m => m) (fun _ => 0) 0).mpr (.inr ?_)
  rw [present_hostOnly]
  refine ⟨by decide, by decide, ?_⟩
  simp only [List.mem_singleton, forall_eq]
  decide

/-- With 256 functions on bus 0 the scan leaves its table although every call of `malloc`
succeeds. -/
theorem not_contained_fullBus : (∀ k ≤ 256, spaced k ≠ 0) ∧ Whole spaced ∧
    ¬ Contained (scan (answering spaced fun _ m => m) fullBus (fun _ => 0) 0 0) := by
  refine ⟨fun k hk => spaced_ne_zero hk, whole_spaced, fun hc => ?_⟩
  have hTABLE : TABLE = 64 := by decide
  have hlen : (present fullBus).length = 256 := by rw [present_fullBus, length_onBus]
  rcases (scan_progress fullBus spaced (fun _ m => m) (fun _ => 0) 0).of_contained hc with
    hnone | ⟨-, hfit, -⟩
  · simp [hnone] at hlen
  · omega

end TinaOS.Pci
