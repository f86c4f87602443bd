import TinaOS.Library.BoundedLoop
import TinaOS.Pci
import Mathlib.Data.List.Flatten

/-!
# Scanning the PCI buses

The scan enters the present functions one after the other, in the order of buses, slots and
functions. The rules at the end reduce an invariant of the whole scan to a call of `malloc` for
a bus and to entering one present function.
-/

namespace TinaOS.Pci

open ByteMemory Arenas Allocators

structure Position where
  bus : ℕ
  slot : ℕ
  function : ℕ
  deriving DecidableEq, Repr

def onSlot (bus slot : ℕ) : List Position :=
  (List.range 8).flatMap fun function => [⟨bus, slot, function⟩]

def onBus (bus : ℕ) : List Position := (List.range 32).flatMap (onSlot bus)

def onBuses (n : ℕ) : List Position := (List.range n).flatMap onBus

variable {cfg : ConfigSpace} {p q : Position} {ps : List Position} {n : ℕ}

theorem mem_onSlot {bus slot : ℕ} :
    p ∈ onSlot bus slot ↔ p.bus = bus ∧ p.slot = slot ∧ p.function < 8 := by
  cases p
  simp [onSlot, eq_comm, and_left_comm]

theorem mem_onBus {bus : ℕ} : p ∈ onBus bus ↔ p.bus = bus ∧ p.slot < 32 ∧ p.function < 8 := by
  simp only [onBus, List.mem_flatMap, List.mem_range, mem_onSlot]
  constructor
  · rintro ⟨slot, hslot, hbus, rfl, hf⟩
    exact ⟨hbus, hslot, hf⟩
  · rintro ⟨hbus, hslot, hf⟩
    exact ⟨_, hslot, hbus, rfl, hf⟩

theorem mem_onBuses : p ∈ onBuses n ↔ p.bus < n ∧ p.slot < 32 ∧ p.function < 8 := by
  simp only [onBuses, List.mem_flatMap, List.mem_range, mem_onBus]
  constructor
  · rintro ⟨bus, hbus, rfl, hp⟩
    exact ⟨hbus, hp⟩
  · rintro ⟨hbus, hp⟩
    exact ⟨_, hbus, rfl, hp⟩

theorem onBuses_succ (n : ℕ) : onBuses (n + 1) = onBuses n ++ onBus n := by
  simp [onBuses, List.range_succ]

/-- The order of buses, then slots, then functions. -/
def Before (p q : Position) : Prop :=
  p.bus < q.bus ∨ p.bus = q.bus ∧ (p.slot < q.slot ∨ p.slot = q.slot ∧ p.function < q.function)

theorem onSlot_sorted (bus slot : ℕ) : (onSlot bus slot).Pairwise Before := by
  rw [onSlot, ← List.map_eq_flatMap, List.pairwise_map]
  exact List.pairwise_lt_range.imp fun h => .inr ⟨rfl, .inr ⟨rfl, h⟩⟩

theorem onBus_sorted (bus : ℕ) : (onBus bus).Pairwise Before := by
  rw [onBus, List.pairwise_flatMap]
  refine ⟨fun slot _ => onSlot_sorted bus slot, List.pairwise_lt_range.imp fun h p hp q hq => ?_⟩
  obtain ⟨hb, hs, -⟩ := mem_onSlot.mp hp
  obtain ⟨hb', hs', -⟩ := mem_onSlot.mp hq
  exact .inr ⟨hb.trans hb'.symm, .inl (by omega)⟩

theorem onBuses_sorted (n : ℕ) : (onBuses n).Pairwise Before := by
  rw [onBuses, List.pairwise_flatMap]
  refine ⟨fun bus _ => onBus_sorted bus, List.pairwise_lt_range.imp fun h p hp q hq => ?_⟩
  obtain ⟨hb, -⟩ := mem_onBus.mp hp
  obtain ⟨hb', -⟩ := mem_onBus.mp hq
  exact .inl (by omega)

/-- The configuration word that holds both ids. -/
def idWord (cfg : ConfigSpace) (p : Position) : BitVec 32 :=
  cfg (BitVec.ofNat 8 p.bus) (BitVec.ofNat 5 p.slot) (BitVec.ofNat 3 p.function) 0

def vendorId (cfg : ConfigSpace) (p : Position) : BitVec 16 := (idWord cfg p).extractLsb' 0 16

def deviceId (cfg : ConfigSpace) (p : Position) : BitVec 16 := (idWord cfg p).extractLsb' 16 16

def ids (cfg : ConfigSpace) (p : Position) : BitVec 16 × BitVec 16 :=
  (vendorId cfg p, deviceId cfg p)

def Present (cfg : ConfigSpace) (p : Position) : Prop :=
  vendorId cfg p ≠ 0xFFFF ∧ deviceId cfg p ≠ 0xFFFF

instance : DecidablePred (Present cfg) := fun _ => inferInstanceAs (Decidable (_ ∧ _))

def found (cfg : ConfigSpace) (ps : List Position) : List Position := ps.filter (Present cfg ·)

/-- The present functions of all buses, in order. -/
def present (cfg : ConfigSpace) : List Position := found cfg (onBuses 256)

theorem mem_present :
    p ∈ present cfg ↔ (p.bus < 256 ∧ p.slot < 32 ∧ p.function < 8) ∧ Present cfg p := by
  simp [present, found, mem_onBuses]

theorem present_sorted (cfg : ConfigSpace) : (present cfg).Pairwise Before := by
  rw [present, found]
  exact (onBuses_sorted 256).filter _

variable {α : Type*}

theorem pciConfigReadWord_position (cfg : ConfigSpace) (hs : p.slot < 32) (hf : p.function < 8)
    (offset : BitVec 8) (latched : BitVec 32) :
    (pciConfigReadWord (hostBridge cfg) (BitVec.ofNat 8 p.bus) (BitVec.ofNat 8 p.slot)
      (BitVec.ofNat 8 p.function) offset latched).1 =
      (cfg (BitVec.ofNat 8 p.bus) (BitVec.ofNat 5 p.slot) (BitVec.ofNat 3 p.function)
          (offset.extractLsb' 2 6) >>>
        ((offset.setWidth 32 &&& 2) * 8 : BitVec 32)).setWidth 16 := by
  have hs' : (BitVec.ofNat 8 p.slot).toNat < 2 ^ 5 := by
    rw [BitVec.toNat_ofNat]
    omega
  have hf' : (BitVec.ofNat 8 p.function).toNat < 2 ^ 3 := by
    rw [BitVec.toNat_ofNat]
    omega
  rw [pciConfigReadWord_hostBridge cfg hs' hf', BitVec.setWidth_ofNat_of_le (by decide),
    BitVec.setWidth_ofNat_of_le (by decide), setWidth_and_mask]

theorem pciGetVendor_position (cfg : ConfigSpace) (hs : p.slot < 32) (hf : p.function < 8)
    (latched : BitVec 32) : (pciGetVendor (hostBridge cfg) (BitVec.ofNat 8 p.bus)
      (BitVec.ofNat 8 p.slot) (BitVec.ofNat 8 p.function) latched).1 = vendorId cfg p := by
  rw [pciGetVendor, pciConfigReadWord_position cfg hs hf]
  ext i hi
  simp [vendorId, idWord]

theorem pciGetDevice_position (cfg : ConfigSpace) (hs : p.slot < 32) (hf : p.function < 8)
    (latched : BitVec 32) : (pciGetDevice (hostBridge cfg) (BitVec.ofNat 16 p.bus)
      (BitVec.ofNat 16 p.slot) (BitVec.ofNat 16 p.function) latched).1 = deviceId cfg p := by
  rw [pciGetDevice, pciCheckDevice, BitVec.setWidth_ofNat_of_le (by decide),
    BitVec.setWidth_ofNat_of_le (by decide), BitVec.setWidth_ofNat_of_le (by decide),
    pciConfigReadWord_position cfg hs hf]
  ext i hi
  simp [deviceId, idWord]

def enter {δ : Type*} (record : Ptr) (vendor device : BitVec 16) (s : Scan α δ) : Scan α δ :=
  registerPciDevice record
    (((s.store16 record vendor).store16 (record + 2) device).store32 (record + 4) 0)

def latch {δ : Type*} (s : Scan α δ) (latched : δ) : Scan α δ := { s with ports := latched }

/-- What the scan does at one position, up to the address it leaves latched. -/
theorem scanFunction_eq (cfg : ConfigSpace) (hs : p.slot < 32) (hf : p.function < 8)
    (record : Ptr) (s : Scan α (BitVec 32)) :
    ∃ latched, scanFunction (hostBridge cfg) record (BitVec.ofNat 32 p.bus)
      (BitVec.ofNat 32 p.slot) (BitVec.ofNat 32 p.function) s =
      latch (if Present cfg p then enter record (vendorId cfg p) (deviceId cfg p) s else s)
        latched := by
  have hv := pciGetVendor_position cfg hs hf s.ports
  have hd := pciGetDevice_position cfg hs hf (pciGetVendor (hostBridge cfg)
    (BitVec.ofNat 8 p.bus) (BitVec.ofNat 8 p.slot) (BitVec.ofNat 8 p.function) s.ports).2
  have h8 : ∀ k, (BitVec.ofNat 32 k).setWidth 8 = BitVec.ofNat 8 k :=
    fun k => BitVec.setWidth_ofNat_of_le (by decide) k
  have h16 : ∀ k, (BitVec.ofNat 32 k).setWidth 16 = BitVec.ofNat 16 k :=
    fun k => BitVec.setWidth_ofNat_of_le (by decide) k
  simp only [scanFunction, h8, h16, hv, hd]
  by_cases h₁ : vendorId cfg p = 0xFFFF
  · exact ⟨_, by rw [if_pos h₁, if_neg fun h => h.1 h₁]; rfl⟩
  · by_cases h₂ : deviceId cfg p = 0xFFFF
    · exact ⟨_, by rw [if_neg h₁, if_pos h₂, if_neg fun h => h.2 h₂]; rfl⟩
    · exact ⟨_, by rw [if_neg h₁, if_neg h₂, if_pos ⟨h₁, h₂⟩]; rfl⟩

theorem found_append (ps qs : List Position) :
    found cfg (ps ++ qs) = found cfg ps ++ found cfg qs := List.filter_append ps qs

theorem found_singleton (p : Position) : found cfg [p] = if Present cfg p then [p] else [] := by
  simp [found, List.filter_singleton]

/-- What entering a present function preserves, the two loops over a bus preserve. -/
theorem scanSlots_spec (I : List Position → Scan α (BitVec 32) → Prop) {bus : ℕ} {record : Ptr}
    (hlatch : ∀ ps s latched, I ps s → I ps (latch s latched))
    (henter : ∀ ps s p, p.bus = bus → Present cfg p → I ps s →
      I (ps ++ [p]) (enter record (vendorId cfg p) (deviceId cfg p) s))
    {s : Scan α (BitVec 32)} (hs : I ps s) :
    I (ps ++ found cfg (onBus bus)) ((List.range 32).foldl (fun s slot =>
      scanSlot (hostBridge cfg) record (BitVec.ofNat 32 bus) (BitVec.ofNat 32 slot) s) s) := by
  have hstep : ∀ slot < 32, ∀ function < 8, ∀ done s, I (ps ++ found cfg done) s →
      I (ps ++ found cfg (done ++ [⟨bus, slot, function⟩])) (scanFunction (hostBridge cfg) record
        (BitVec.ofNat 32 bus) (BitVec.ofNat 32 slot) (BitVec.ofNat 32 function) s) := by
    intro slot hslot function hfunction done s hI
    obtain ⟨latched, heq⟩ := scanFunction_eq (p := ⟨bus, slot, function⟩) cfg hslot hfunction
      record s
    rw [heq, found_append, ← List.append_assoc]
    apply hlatch
    by_cases hp : Present cfg ⟨bus, slot, function⟩
    · rw [if_pos hp, found_singleton, if_pos hp]
      exact henter _ s _ rfl hp hI
    · rw [if_neg hp, found_singleton, if_neg hp, List.append_nil]
      exact hI
  have hnil : I (ps ++ found cfg []) s := by simpa [found] using hs
  have hslots := BoundedLoop.foldl_spec (fun done s => I (ps ++ found cfg done) s) (onSlot bus)
    (f := fun s slot =>
      scanSlot (hostBridge cfg) record (BitVec.ofNat 32 bus) (BitVec.ofNat 32 slot) s)
    (l := List.range 32) (fun slot hslot done s hI => BoundedLoop.foldl_spec _ _
      (fun function hf => hstep slot (List.mem_range.mp hslot) function (List.mem_range.mp hf)) hI)
    hnil
  rwa [List.nil_append] at hslots

section Whole

variable {alloc : Allocator α} {mem : Mem} {heap : α} {latched : BitVec 32}

/-- The pointers that fit the table. -/
def TABLE : ℕ := (32 * PCI_DEVICE).toNat / 4

/-- The variables before the scan; both static ones are zero. -/
def start (mem : Mem) (heap : α) (latched : BitVec 32) : Scan α (BitVec 32) where
  mem := mem
  heap := heap
  ports := latched
  devices := 0
  deviceCount := 0
  stores := []
  indices := []
  blocks := []

def scan (alloc : Allocator α) (cfg : ConfigSpace) (mem : Mem) (heap : α) (latched : BitVec 32) :
    Scan α (BitVec 32) :=
  initializePciDevices alloc (hostBridge cfg) (start mem heap latched)

/-- The variables before the loop over the buses. -/
def tableReady (alloc : Allocator α) (mem : Mem) (heap : α) (latched : BitVec 32) :
    Scan α (BitVec 32) :=
  let (devices, s) := (start mem heap latched).malloc alloc (32 * PCI_DEVICE)
  { s with devices := devices }

/-- An invariant `I n` of the loop over the buses, with `n` buses done, and an invariant `J n` of
the loops over the bus `n`, which has a record. -/
theorem scan_spec (I : ℕ → List Position → Scan α (BitVec 32) → Prop)
    (J : ℕ → Ptr → List Position → Scan α (BitVec 32) → Prop)
    (hs : I 0 [] (tableReady alloc mem heap latched))
    (hmalloc : ∀ n ps s, n < 256 → I n ps s →
      J n (s.malloc alloc PCI_DEVICE).1 ps (s.malloc alloc PCI_DEVICE).2)
    (hlatch : ∀ n record ps s l, J n record ps s → J n record ps (latch s l))
    (henter : ∀ n record ps s p, p.bus = n → n < 256 → Present cfg p → J n record ps s →
      J n record (ps ++ [p]) (enter record (vendorId cfg p) (deviceId cfg p) s))
    (hdone : ∀ n record ps s, J n record ps s → I (n + 1) ps s) :
    I 256 (present cfg) (scan alloc cfg mem heap latched) := by
  have hbuses : ∀ n ≤ 256, I n (found cfg (onBuses n)) ((List.range n).foldl (fun s bus =>
      scanBus alloc (hostBridge cfg) (BitVec.ofNat 32 bus) s)
      (tableReady alloc mem heap latched)) := by
    intro n hn
    induction n with
    | zero => exact hs
    | succ n ih =>
      have hI := ih (by omega)
      rw [onBuses_succ, found_append, List.range_succ, List.foldl_append]
      simp only [List.foldl_cons, List.foldl_nil]
      generalize List.foldl _ _ _ = s at *
      have hbus : scanBus alloc (hostBridge cfg) (BitVec.ofNat 32 n) s =
          (List.range 32).foldl (fun s' slot => scanSlot (hostBridge cfg)
            (s.malloc alloc PCI_DEVICE).1 (BitVec.ofNat 32 n) (BitVec.ofNat 32 slot) s')
            (s.malloc alloc PCI_DEVICE).2 := rfl
      rw [hbus]
      apply hdone n
      exact scanSlots_spec (J n _) (fun _ _ l => hlatch n _ _ _ l)
        (fun _ _ p hp => henter n _ _ _ p hp (by omega)) (hmalloc n _ _ (by omega) hI)
  exact hbuses 256 (Nat.le_refl _)

end Whole

/-- With nothing present behind bus 0 the scan finds what is on bus 0. -/
theorem present_of_busZero (h : ∀ p, 0 < p.bus → p.bus < 256 → ¬ Present cfg p) :
    present cfg = found cfg (onBus 0) := by
  have hbuses : ∀ n ≤ 255, found cfg (onBuses (n + 1)) = found cfg (onBus 0) := by
    intro n hn
    induction n with
    | zero => rw [onBuses_succ, show onBuses 0 = [] from rfl, List.nil_append]
    | succ n ih =>
      have hnone : found cfg (onBus (n + 1)) = [] := by
        rw [found, List.filter_eq_nil_iff]
        intro p hp
        obtain ⟨hbus, -⟩ := mem_onBus.mp hp
        simpa using h p (by omega) (by omega)
      rw [onBuses_succ, found_append, ih (by omega), hnone, List.append_nil]
  exact hbuses 255 (Nat.le_refl _)

/-- A space that answers on bus 0 only. -/
def busZero (word : BitVec 5 → BitVec 3 → BitVec 32) : ConfigSpace := fun bus slot function _ =>
  if bus = 0 then word slot function else 0xFFFFFFFF

theorem present_busZero (word : BitVec 5 → BitVec 3 → BitVec 32) :
    present (busZero word) = found (busZero word) (onBus 0) := by
  apply present_of_busZero
  intro p hpos hlt hp
  have hne : BitVec.ofNat 8 p.bus ≠ 0 := by
    intro h
    have h0 := congrArg BitVec.toNat h
    rw [BitVec.toNat_ofNat] at h0
    simp at h0
    omega
  apply hp.1
  rw [vendorId, idWord, busZero, if_neg hne]
  decide

def hostOnly : ConfigSpace := busZero fun slot function =>
  if slot = 0 ∧ function = 0 then 0x12378086 else 0xFFFFFFFF

theorem present_hostOnly : present hostOnly = [⟨0, 0, 0⟩] :=
  (present_busZero _).trans (by decide +kernel)

/-- Every function of bus 0 present, as with devices that ignore the function number. -/
def fullBus : ConfigSpace := busZero fun _ _ => 0x100E8086

theorem present_fullBus : present fullBus = onBus 0 := by
  rw [fullBus, present_busZero, found, List.filter_eq_self]
  intro p hp
  obtain ⟨hbus, -⟩ := mem_onBus.mp hp
  have hword : idWord fullBus p = 0x100E8086 := by
    rw [idWord, hbus]
    rfl
  rw [decide_eq_true_eq, Present, vendorId, deviceId, ← fullBus, hword]
  decide

theorem length_onBus (bus : ℕ) : (onBus bus).length = 256 := by
  simp [onBus, onSlot, List.length_flatMap]

end TinaOS.Pci
