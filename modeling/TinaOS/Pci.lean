import TinaOS.Library.Allocator
import TinaOS.Library.Arena
import Mathlib.Tactic.IntervalCases

/-!
# The PCI driver of `drivers/pci.c`

Configuration words are read through the two ports of mechanism #1, and a scan of all
buses fills a table of pointers to records. `malloc` and the ports are parameters with
states of their own types. The scan records its stores, the indices of the table that it
used and the blocks that it got.
-/

namespace TinaOS.Pci

open ByteMemory Arenas Allocators

/-- The port instructions of `sys/system.c`, answered by a device with state `δ`. -/
structure Ports (δ : Type*) where
  inl : BitVec 16 → δ → BitVec 32 × δ
  outl : BitVec 16 → BitVec 32 → δ → δ

variable {α δ : Type*}

def pciConfigReadWord (P : Ports δ) (bus slot func offset : BitVec 8) (d : δ) : BitVec 16 × δ :=
  let lbus : BitVec 32 := bus.setWidth 32
  let lslot : BitVec 32 := slot.setWidth 32
  let lfunc : BitVec 32 := func.setWidth 32
  let address := lbus <<< 16 ||| lslot <<< 11 ||| lfunc <<< 8 |||
    (offset.setWidth 32 &&& 0xfc) ||| 0x80000000
  let d := P.outl 0xCF8 address d
  let (rv, d) := P.inl 0xCFC d
  ((rv >>> ((offset.setWidth 32 &&& 2) * 8 : BitVec 32) &&& 0xffff).setWidth 16, d)

def pciGetVendor (P : Ports δ) (bus slot function : BitVec 8) (d : δ) : BitVec 16 × δ :=
  pciConfigReadWord P bus slot function 0 d

def pciCheckDevice (P : Ports δ) (bus slot function : BitVec 16) (d : δ) : BitVec 16 × δ :=
  pciConfigReadWord P (bus.setWidth 8) (slot.setWidth 8) (function.setWidth 8) 2 d

def pciGetDevice (P : Ports δ) (bus device function : BitVec 16) (d : δ) : BitVec 16 × δ :=
  pciCheckDevice P bus device function d

/-- The size of a `pci_device`: `vendor` at 0, `device` at 2 and `driver` at 4. -/
def PCI_DEVICE : BitVec 32 := 8

/-- The variables of the scan, and what it stored, indexed and was given, the latest first. -/
structure Scan (α δ : Type*) where
  mem : Mem
  heap : α
  ports : δ
  devices : Ptr
  deviceCount : BitVec 32
  stores : List Extent
  indices : List (BitVec 32)
  blocks : List Extent

def Scan.store16 (s : Scan α δ) (a : Ptr) (v : BitVec 16) : Scan α δ :=
  { s with mem := ByteMemory.store16 s.mem a v, stores := ⟨a.toNat, 2⟩ :: s.stores }

def Scan.store32 (s : Scan α δ) (a : Ptr) (v : BitVec 32) : Scan α δ :=
  { s with mem := ByteMemory.store32 s.mem a v, stores := ⟨a.toNat, 4⟩ :: s.stores }

/-- A call of `malloc`; the answer 0 is a refusal. -/
def Scan.malloc (alloc : Allocator α) (nbytes : BitVec 32) (s : Scan α δ) : Ptr × Scan α δ :=
  let (p, m, h) := alloc nbytes s.mem s.heap
  (p, { s with
    mem := m
    heap := h
    blocks := if p = 0 then s.blocks else ⟨p.toNat, nbytes.toNat⟩ :: s.blocks })

def registerPciDevice (device : Ptr) (s : Scan α δ) : Scan α δ :=
  let s := { s with indices := s.deviceCount :: s.indices }
  let s := s.store32 (s.devices + s.deviceCount * 4) device
  { s with deviceCount := s.deviceCount + 1 }

/-- The body of the loop over the functions of a slot. -/
def scanFunction (P : Ports δ) (pcidevice : Ptr) (bus slot function : BitVec 32)
    (s : Scan α δ) : Scan α δ :=
  let (vendor, d) :=
    pciGetVendor P (bus.setWidth 8) (slot.setWidth 8) (function.setWidth 8) s.ports
  let s := { s with ports := d }
  if vendor = 0xFFFF then s
  else
    let (device, d) :=
      pciGetDevice P (bus.setWidth 16) (slot.setWidth 16) (function.setWidth 16) s.ports
    let s := { s with ports := d }
    if device = 0xFFFF then s
    else
      let s := s.store16 pcidevice vendor
      let s := s.store16 (pcidevice + 2) device
      let s := s.store32 (pcidevice + 4) 0
      registerPciDevice pcidevice s

/-- The body of the loop over the slots of a bus. -/
def scanSlot (P : Ports δ) (pcidevice : Ptr) (bus slot : BitVec 32) (s : Scan α δ) : Scan α δ :=
  (List.range 8).foldl (fun s function =>
    scanFunction P pcidevice bus slot (BitVec.ofNat 32 function) s) s

/-- The body of the loop over the buses, with one record for the whole bus. -/
def scanBus (alloc : Allocator α) (P : Ports δ) (bus : BitVec 32) (s : Scan α δ) : Scan α δ :=
  let (pcidevice, s) := s.malloc alloc PCI_DEVICE
  (List.range 32).foldl (fun s slot => scanSlot P pcidevice bus (BitVec.ofNat 32 slot) s) s

def initializePciDevices (alloc : Allocator α) (P : Ports δ) (s : Scan α δ) : Scan α δ :=
  let (devices, s) := s.malloc alloc (32 * PCI_DEVICE)
  (List.range 256).foldl (fun s bus => scanBus alloc P (BitVec.ofNat 32 bus) s)
    { s with devices := devices }

abbrev ConfigSpace := BitVec 8 → BitVec 5 → BitVec 3 → BitVec 6 → BitVec 32

/-- The bridge of mechanism #1, whose state is the address latched last. Nothing else is
behind the two ports. -/
def hostBridge (cfg : ConfigSpace) : Ports (BitVec 32) where
  inl port latched :=
    if port = 0xCFC ∧ latched.getLsbD 31 then
      (cfg (latched.extractLsb' 16 8) (latched.extractLsb' 11 5) (latched.extractLsb' 8 3)
        (latched.extractLsb' 2 6), latched)
    else (0xFFFFFFFF, latched)
  outl port v latched := if port = 0xCF8 then v else latched

variable {bus slot func offset : BitVec 8}

/-- The address that `pci_config_read_word` latches. -/
def configAddress (bus slot func offset : BitVec 8) : BitVec 32 :=
  bus.setWidth 32 <<< 16 ||| slot.setWidth 32 <<< 11 ||| func.setWidth 32 <<< 8 |||
    (offset.setWidth 32 &&& 0xfc) ||| 0x80000000

private theorem getElem_of_toNat_lt {w n i : ℕ} {x : BitVec w} (h : x.toNat < 2 ^ n) (hn : n ≤ i)
    (hi : i < w) : x[i] = false := by
  rw [← BitVec.getLsbD_eq_getElem]
  exact Nat.testBit_lt_two_pow (h.trans_le (Nat.pow_le_pow_right (by decide) hn))

theorem busField_configAddress (hs : slot.toNat < 2 ^ 5) :
    (configAddress bus slot func offset).extractLsb' 16 8 = bus := by
  have h5 : slot[5] = false := getElem_of_toNat_lt hs (by decide) _
  have h6 : slot[6] = false := getElem_of_toNat_lt hs (by decide) _
  have h7 : slot[7] = false := getElem_of_toNat_lt hs (by decide) _
  ext i hi
  interval_cases i <;> simp [configAddress, h5, h6, h7]

theorem slotField_configAddress (hf : func.toNat < 2 ^ 3) :
    (configAddress bus slot func offset).extractLsb' 11 5 = slot.setWidth 5 := by
  have h : ∀ i (hi : i < 8), 3 ≤ i → func[i] = false :=
    fun i hi hn => getElem_of_toNat_lt hf hn hi
  have h3 : func[3] = false := h 3 _ (by decide)
  have h4 : func[4] = false := h 4 _ (by decide)
  have h5 : func[5] = false := h 5 _ (by decide)
  have h6 : func[6] = false := h 6 _ (by decide)
  have h7 : func[7] = false := h 7 _ (by decide)
  ext i hi
  interval_cases i <;> simp [configAddress, h3, h4, h5, h6, h7]

theorem functionField_configAddress :
    (configAddress bus slot func offset).extractLsb' 8 3 = func.setWidth 3 := by
  ext i hi
  interval_cases i <;> simp [configAddress]

theorem registerField_configAddress :
    (configAddress bus slot func offset).extractLsb' 2 6 = offset.extractLsb' 2 6 := by
  ext i hi
  interval_cases i <;> simp [configAddress]

theorem enableBit_configAddress : (configAddress bus slot func offset).getLsbD 31 = true := by
  simp [configAddress]

theorem setWidth_and_mask (x : BitVec 32) : (x &&& 0xffff).setWidth 16 = x.setWidth 16 := by
  have hmask : (0xffff : BitVec 32).setWidth 16 = BitVec.allOnes 16 := rfl
  rw [BitVec.setWidth_and, hmask, BitVec.and_allOnes]

/-- The driver reads from the word that its arguments name. -/
theorem pciConfigReadWord_hostBridge (cfg : ConfigSpace) (hs : slot.toNat < 2 ^ 5)
    (hf : func.toNat < 2 ^ 3) (latched : BitVec 32) :
    pciConfigReadWord (hostBridge cfg) bus slot func offset latched =
      ((cfg bus (slot.setWidth 5) (func.setWidth 3) (offset.extractLsb' 2 6) >>>
          ((offset.setWidth 32 &&& 2) * 8 : BitVec 32) &&& 0xffff).setWidth 16,
        configAddress bus slot func offset) := by
  have houtl : (hostBridge cfg).outl 0xCF8 (configAddress bus slot func offset) latched =
      configAddress bus slot func offset := rfl
  have hinl : (hostBridge cfg).inl 0xCFC (configAddress bus slot func offset) =
      (cfg bus (slot.setWidth 5) (func.setWidth 3) (offset.extractLsb' 2 6),
        configAddress bus slot func offset) := by
    simp only [hostBridge, enableBit_configAddress, busField_configAddress hs,
      slotField_configAddress hf, functionField_configAddress, registerField_configAddress,
      and_self, if_true]
  simp only [pciConfigReadWord, ← configAddress.eq_def, houtl, hinl]

end TinaOS.Pci
