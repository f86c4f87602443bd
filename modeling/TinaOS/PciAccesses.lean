import TinaOS.PciScan

/-!
# The port accesses of the scan

The scan over ports that keep a record. Dropping the record gives the scan over the bare ports, for
any device; behind the host bridge the record is known in full: the word of each position is looked
up in order, and once more where a vendor answers. Nothing else is read or written.
-/

namespace TinaOS.Pci

open ByteMemory Arenas Allocators

/-- An access of a port, with the word that was written. -/
inductive Access where
  | inl (port : BitVec 16)
  | outl (port : BitVec 16) (data : BitVec 32)
  deriving DecidableEq, Repr

variable {α δ : Type*}

/-- The same ports with a record of all accesses, the latest first. -/
def recorded (P : Ports δ) : Ports (δ × List Access) where
  inl port s := ((P.inl port s.1).1, (P.inl port s.1).2, .inl port :: s.2)
  outl port v s := (P.outl port v s.1, .outl port v :: s.2)

/-- The variables of the scan without the record. -/
def forget (s : Scan α (δ × List Access)) : Scan α δ := { s with ports := s.ports.1 }

/-- The variables of the scan with an empty record. -/
def recording (s : Scan α δ) : Scan α (δ × List Access) := { s with ports := (s.ports, []) }

/-- The accesses of one look-up, in order. -/
def lookUp (bus slot func offset : BitVec 8) : List Access :=
  [.outl 0xCF8 (configAddress bus slot func offset), .inl 0xCFC]

/-- The accesses at one position: the device is asked for only where a vendor answers. -/
def accessesAt (vendor : BitVec 16) (bus slot func : BitVec 8) : List Access :=
  lookUp bus slot func 0 ++ if vendor = 0xFFFF then [] else lookUp bus slot func 2

/-- The scan at one position, by what was read. -/
def visit (record : Ptr) (vendor device : BitVec 16 × δ) (s : Scan α δ) : Scan α δ :=
  if vendor.1 = 0xFFFF then latch s vendor.2
  else if device.1 = 0xFFFF then latch s device.2
  else enter record vendor.1 device.1 (latch s device.2)

theorem scanFunction_visit (P : Ports δ) (record : Ptr) (bus slot function : BitVec 32)
    (s : Scan α δ) : scanFunction P record bus slot function s =
      let vendor := pciConfigReadWord P (bus.setWidth 8) (slot.setWidth 8) (function.setWidth 8) 0
        s.ports
      let device := pciConfigReadWord P (bus.setWidth 8) (slot.setWidth 8) (function.setWidth 8) 2
        vendor.2
      visit record vendor device s := by
  have hwidth : ∀ x : BitVec 32, (x.setWidth 16).setWidth 8 = x.setWidth 8 := fun x =>
    BitVec.setWidth_setWidth_of_le x (by decide)
  simp only [scanFunction, pciGetVendor, pciGetDevice, pciCheckDevice, hwidth]
  rfl

theorem forget_visit (record : Ptr) (vendor device : BitVec 16 × δ) (log log' : List Access)
    (s : Scan α (δ × List Access)) :
    forget (visit record (vendor.1, vendor.2, log) (device.1, device.2, log') s) =
      visit record vendor device (forget s) ∧
    (visit record (vendor.1, vendor.2, log) (device.1, device.2, log') s).ports.2 =
      if vendor.1 = 0xFFFF then log else log' := by
  by_cases hv : vendor.1 = 0xFFFF
  · simp only [visit, hv, if_true]
    exact ⟨rfl, rfl⟩
  · by_cases hd : device.1 = 0xFFFF
    · simp only [visit, hv, hd, if_true, if_false]
      exact ⟨rfl, rfl⟩
    · simp only [visit, hv, hd, if_false]
      exact ⟨rfl, rfl⟩

theorem scanFunction_recorded (P : Ports δ) (record : Ptr) (bus slot function : BitVec 32)
    (s : Scan α (δ × List Access)) :
    forget (scanFunction (recorded P) record bus slot function s) =
      scanFunction P record bus slot function (forget s) ∧
    (scanFunction (recorded P) record bus slot function s).ports.2 =
      (accessesAt (pciGetVendor P (bus.setWidth 8) (slot.setWidth 8) (function.setWidth 8)
        s.ports.1).1 (bus.setWidth 8) (slot.setWidth 8) (function.setWidth 8)).reverse ++
        s.ports.2 := by
  rw [scanFunction_visit, scanFunction_visit, pciGetVendor]
  generalize bus.setWidth 8 = b
  generalize slot.setWidth 8 = sl
  generalize function.setWidth 8 = f
  obtain ⟨hforget, hlog⟩ := forget_visit record (pciConfigReadWord P b sl f 0 s.ports.1)
    (pciConfigReadWord P b sl f 2 (pciConfigReadWord P b sl f 0 s.ports.1).2)
    ((lookUp b sl f 0).reverse ++ s.ports.2)
    ((lookUp b sl f 2).reverse ++ ((lookUp b sl f 0).reverse ++ s.ports.2)) s
  refine ⟨hforget, hlog.trans ?_⟩
  rw [accessesAt]
  split_ifs with hv
  · rw [List.append_nil]
  · rw [List.reverse_append, List.append_assoc]

theorem forget_foldl {β : Type*} {f : Scan α (δ × List Access) → β → Scan α (δ × List Access)}
    {g : Scan α δ → β → Scan α δ} (h : ∀ s b, forget (f s b) = g (forget s) b) (l : List β)
    (s : Scan α (δ × List Access)) : forget (l.foldl f s) = l.foldl g (forget s) :=
  (List.foldl_hom forget fun s b => (h s b).symm).symm

theorem forget_scanSlot (P : Ports δ) (record : Ptr) (bus slot : BitVec 32)
    (s : Scan α (δ × List Access)) :
    forget (scanSlot (recorded P) record bus slot s) = scanSlot P record bus slot (forget s) :=
  forget_foldl (fun s function =>
    (scanFunction_recorded P record bus slot (BitVec.ofNat 32 function) s).1) (List.range 8) s

theorem scanBus_eq (alloc : Allocator α) (P : Ports δ) (bus : BitVec 32) (s : Scan α δ) :
    scanBus alloc P bus s = (List.range 32).foldl (fun s' slot =>
      scanSlot P (s.malloc alloc PCI_DEVICE).1 bus (BitVec.ofNat 32 slot) s')
      (s.malloc alloc PCI_DEVICE).2 := rfl

theorem forget_scanBus (alloc : Allocator α) (P : Ports δ) (bus : BitVec 32)
    (s : Scan α (δ × List Access)) :
    forget (scanBus alloc (recorded P) bus s) = scanBus alloc P bus (forget s) := by
  rw [scanBus_eq, scanBus_eq]
  exact forget_foldl (fun s' slot => forget_scanSlot P _ bus (BitVec.ofNat 32 slot) s') _ _

/-- The variables with a table. -/
def tabled (alloc : Allocator α) (s : Scan α δ) : Scan α δ :=
  { (s.malloc alloc (32 * PCI_DEVICE)).2 with devices := (s.malloc alloc (32 * PCI_DEVICE)).1 }

theorem initializePciDevices_eq (alloc : Allocator α) (P : Ports δ) (s : Scan α δ) :
    initializePciDevices alloc P s =
      (List.range 256).foldl (fun s bus => scanBus alloc P (BitVec.ofNat 32 bus) s)
        (tabled alloc s) := rfl

theorem forget_initializePciDevices (alloc : Allocator α) (P : Ports δ)
    (s : Scan α (δ × List Access)) :
    forget (initializePciDevices alloc (recorded P) s) = initializePciDevices alloc P (forget s) := by
  rw [initializePciDevices_eq, initializePciDevices_eq]
  exact forget_foldl (fun s bus => forget_scanBus alloc P (BitVec.ofNat 32 bus) s) _ _

variable {cfg : ConfigSpace} {p : Position}

/-- The accesses for one position of a configuration space. -/
def accesses (cfg : ConfigSpace) (p : Position) : List Access :=
  accessesAt (vendorId cfg p) (BitVec.ofNat 8 p.bus) (BitVec.ofNat 8 p.slot)
    (BitVec.ofNat 8 p.function)

/-- So far the record holds the accesses of the positions `done`, the latest first. -/
def Noted (cfg : ConfigSpace) (done : List Position) (s : Scan α (BitVec 32 × List Access)) : Prop :=
  s.ports.2 = (done.flatMap (accesses cfg)).reverse

theorem Noted.scanFunction {done : List Position} {s : Scan α (BitVec 32 × List Access)}
    (h : Noted cfg done s) (hs : p.slot < 32) (hf : p.function < 8) (record : Ptr) :
    Noted cfg (done ++ [p]) (scanFunction (recorded (hostBridge cfg)) record (BitVec.ofNat 32 p.bus)
      (BitVec.ofNat 32 p.slot) (BitVec.ofNat 32 p.function) s) := by
  have h8 : ∀ k, (BitVec.ofNat 32 k).setWidth 8 = BitVec.ofNat 8 k :=
    fun k => BitVec.setWidth_ofNat_of_le (by decide) k
  have hlog := (scanFunction_recorded (hostBridge cfg) record (BitVec.ofNat 32 p.bus)
    (BitVec.ofNat 32 p.slot) (BitVec.ofNat 32 p.function) s).2
  simp only [h8] at hlog
  rw [pciGetVendor_position cfg hs hf] at hlog
  rw [Noted, hlog, h, List.flatMap_append, List.flatMap_singleton, List.reverse_append]
  rfl

theorem Noted.scanSlot {done : List Position} {s : Scan α (BitVec 32 × List Access)}
    (h : Noted cfg done s) (record : Ptr) (bus : ℕ) {slot : ℕ} (hs : slot < 32) :
    Noted cfg (done ++ onSlot bus slot) (scanSlot (recorded (hostBridge cfg)) record
      (BitVec.ofNat 32 bus) (BitVec.ofNat 32 slot) s) :=
  BoundedLoop.foldl_spec (Noted cfg) _ (fun function hf _ _ h =>
    h.scanFunction (p := ⟨bus, slot, function⟩) hs (List.mem_range.mp hf) record) h

theorem Noted.scanBus {done : List Position} {s : Scan α (BitVec 32 × List Access)}
    (h : Noted cfg done s) (alloc : Allocator α) (bus : ℕ) :
    Noted cfg (done ++ onBus bus)
      (scanBus alloc (recorded (hostBridge cfg)) (BitVec.ofNat 32 bus) s) := by
  rw [scanBus_eq]
  exact BoundedLoop.foldl_spec (Noted cfg) (onSlot bus) (fun slot hs _ _ h =>
    h.scanSlot _ bus (List.mem_range.mp hs)) h

/-- The scan over recorded ports is the plain scan, and its accesses are those of all positions in
order: no port but the two of the bridge is ever touched, and no configuration word is written. -/
theorem scan_accesses (alloc : Allocator α) (cfg : ConfigSpace) (mem : Mem) (heap : α)
    (latched : BitVec 32) :
    forget (initializePciDevices alloc (recorded (hostBridge cfg))
      (recording (start mem heap latched))) = scan alloc cfg mem heap latched ∧
    (initializePciDevices alloc (recorded (hostBridge cfg))
      (recording (start mem heap latched))).ports.2.reverse =
        (onBuses 256).flatMap (accesses cfg) := by
  refine ⟨forget_initializePciDevices alloc (hostBridge cfg) _, ?_⟩
  have hnone : Noted cfg [] (tabled alloc (recording (start mem heap latched))) := rfl
  have hall := BoundedLoop.foldl_spec (Noted cfg) onBus (l := List.range 256)
    (fun bus _ _ _ h => h.scanBus alloc bus) hnone
  rw [List.nil_append, ← onBuses, ← initializePciDevices_eq, Noted] at hall
  rw [hall, List.reverse_reverse]

end TinaOS.Pci
