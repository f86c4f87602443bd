import TinaOS.BootScreen
import TinaOS.DriveTable
import TinaOS.PciTable
import TinaOS.SbrkFailure

/-!
# The drive of the last loop

The loop in which the kernel ends asks for its main drive again and again. No drive is ever
registered and `drives` is never set, so the answer is the word at address 0. Address 0 is also
where `malloc` over `sbrk.c` puts every block, and where the driver puts what a drive tells about
itself; the word is whatever came there last.
-/

namespace TinaOS.Boot

open ByteMemory Allocators Malloc LinkedRing
open Ata (Bus Slot Drives Drive Driver identifier ATA_ERR sectorByte)
open Pci (ConfigSpace Position Scan hostBridge)
open Sbrk (Layout imageBase)

/-- `malloc` over `sbrk` with the layout of the image. -/
def sbrkMalloc (L : Layout) : Allocator (Heap Ptr) := fun nbytes m h =>
  match malloc (Sbrk.sbrk L) enough nbytes { h with mem := m } with
  | none => (0, m, h)
  | some (r, h') => (r, h'.mem, h')

/-- The same allocator with a record of its answers, the latest first. -/
def answered {α : Type*} (alloc : Allocator α) : Allocator (α × List Ptr) := fun nbytes m a =>
  let (r, m, h) := alloc nbytes m a.1
  (r, m, h, r :: a.2)

/-- After `k` small requests, all refused: only `freelist`, of size zero, is on the free list, and
`g_heap` has moved by one region a request. -/
structure Starved (L : Layout) (fl : Ptr) (k : ℕ) (m : Mem) (a : Heap Ptr × List Ptr) : Prop where
  freep_eq : a.1.freep = fl
  link_eq : link m fl = fl
  size_eq : size m fl = 0
  start_eq : (L.start a.1.sbrk).toNat = L.stackTop.toNat + 8192 * k
  answers_eq : a.2 = List.replicate k 0

variable {L : Layout} {fl : Ptr} {k n : ℕ} {m m' : Mem} {a : Heap Ptr × List Ptr}
  {nbytes : BitVec 32}

theorem Starved.congr (S : Starved L fl k m a)
    (hm : ∀ i < 8, m' (fl + BitVec.ofNat 32 i) = m (fl + BitVec.ofNat 32 i)) :
    Starved L fl k m' a := by
  refine ⟨S.freep_eq, ?_, ?_, S.start_eq, S.answers_eq⟩
  · exact (load32_congr fun i hi => hm i (by omega)).trans S.link_eq
  · refine (load32_congr fun i hi => ?_).trans S.size_eq
    have hoff := hm (4 + i) (by omega)
    rwa [← offset_offset] at hoff

/-- A small request is refused, and memory stays as it is. -/
theorem Starved.refuses (S : Starved L fl k m a) (hn : nbytes.toNat ≤ 4096)
    (hk : L.stackTop.toNat + 8192 * (k + 1) < 2 ^ 32) :
    ∃ a', answered (sbrkMalloc L) nbytes m a = (0, m, a') ∧ Starved L fl (k + 1) m a' := by
  obtain ⟨h, answers⟩ := a
  obtain ⟨hfreep, hlink, hsize, hstart, hanswers⟩ := S
  simp only at hfreep hstart hanswers
  have hring : IsRing (link m) [h.freep] := by
    rw [hfreep]
    exact isRing_cons.mpr ⟨by simp, by simp [hlink]⟩
  have hnone : [h.freep].find? (fits m (units nbytes)) = none := by
    have hpos := units_pos nbytes
    have hfit : fits m (units nbytes) h.freep = false := by
      rw [fits, hfreep, hlink, hsize]
      exact decide_eq_false (Nat.not_le.mpr hpos)
    simp [hfit]
  have hbytes : (growth (units nbytes) * 8).toNat = 8192 := by
    have hunits : (units nbytes).toNat = (nbytes.toNat + 7) / 8 + 1 := units_toNat (by omega)
    rw [(growth_bytes (by omega)).1, growth_toNat]
    omega
  have hnew : (L.start h.sbrk + growth (units nbytes) * 8).toNat =
      L.stackTop.toNat + 8192 * (k + 1) := by
    rw [BitVec.toNat_add, hstart, hbytes]
    omega
  have hfull : L.stackBottom ≤ L.start h.sbrk + growth (units nbytes) * 8 := by
    have hstack := L.stack_eq
    rw [BitVec.le_def, hnew]
    omega
  have hmalloc := malloc_full (h := { h with mem := m }) (n := enough - 1) hring (Nat.zero_le _)
    hnone (Sbrk.sbrk_full hfull)
  rw [if_pos rfl] at hmalloc
  refine ⟨({ h with mem := m, sbrk := L.start h.sbrk + growth (units nbytes) * 8 }, 0 :: answers),
    ?_, ?_⟩
  · have hcall : malloc (Sbrk.sbrk L) enough nbytes { h with mem := m } = _ := hmalloc
    simp only [answered, sbrkMalloc, hcall]
  · refine ⟨hfreep, hlink, hsize, ?_, ?_⟩
    · rw [Sbrk.start_of_le hfull, hnew]
    · rw [hanswers, List.replicate_succ]

variable {cfg : ConfigSpace} {p : Position} {ps : List Position} {before : BitVec 32}
  {s : Scan (Heap Ptr × List Ptr) (BitVec 32)}

/-- The word at address 0 after functions have been entered with table and records at 0: each entry
of the table but the first leaves the ids alone. -/
def idsAtZero (cfg : ConfigSpace) (before : BitVec 32) (ps : List Position) : BitVec 32 :=
  match ps.getLast? with
  | none => before
  | some p => if ps.length = 1 then 0 else Pci.idWord cfg p

theorem idsAtZero_concat (ps : List Position) (p : Position) :
    idsAtZero cfg before (ps ++ [p]) = if ps = [] then 0 else Pci.idWord cfg p := by
  rw [idsAtZero, List.getLast?_concat, List.length_append, List.length_singleton]
  cases ps with
  | nil => rfl
  | cons q ps => simp

theorem load32_enterMem_zero {i : ℕ} (hi : i < 2 ^ 16) (vendor device : BitVec 16) (m : Mem) :
    load32 (Pci.enterMem m 0 0 i vendor device) 0 = if i = 0 then 0 else device ++ vendor := by
  by_cases h0 : i = 0
  · subst h0
    rw [if_pos rfl]
    exact load32_store32_same _ _ _
  · have hplace : (0 : Ptr) + BitVec.ofNat 32 (i * 4) = BitVec.ofNat 32 (i * 4) := BitVec.zero_add _
    have hentry : Apart ((0 : Ptr) + BitVec.ofNat 32 (i * 4)) 4 (0 + BitVec.ofNat 32 0) 4 :=
      (apart_parts 0 (by omega) (by omega) (by omega) (by omega)).symm
    have hdriver : Apart ((0 : Ptr) + BitVec.ofNat 32 4) 4 (0 + BitVec.ofNat 32 0) 4 :=
      (apart_parts 0 (by omega) (by omega) (by omega) (by omega)).symm
    have hdevice : Apart ((0 : Ptr) + BitVec.ofNat 32 2) 2 (0 + BitVec.ofNat 32 0) 2 :=
      (apart_parts 0 (by omega) (by omega) (by omega) (by omega)).symm
    rw [add_offset_zero] at hentry hdriver hdevice
    have hvendor : load16 (store16 (store16 m 0 vendor) (0 + 2) device) 0 = vendor :=
      (load16_writeBytes _ hdevice).trans (load16_store16_same _ _ _)
    rw [if_neg h0, Pci.enterMem, load32_store32_apart _ hentry]
    refine (load32_store32_apart _ hdriver).trans ?_
    rw [load32_eq_append, hvendor]
    exact congrArg (· ++ vendor) (load16_store16_same _ _ _)

/-- The scan has entered `ps`, and `k` requests were refused. -/
structure AtZero (L : Layout) (fl : Ptr) (cfg : ConfigSpace) (before : BitVec 32) (k : ℕ)
    (ps : List Position) (s : Scan (Heap Ptr × List Ptr) (BitVec 32)) : Prop where
  devices : s.devices = 0
  count : s.deviceCount = BitVec.ofNat 32 ps.length
  starved : Starved L fl k s.mem s.heap
  word : load32 s.mem 0 = idsAtZero cfg before ps

theorem AtZero.enter (Z : AtZero L fl cfg before k ps s)
    (hfl : imageBase ≤ fl.toNat ∧ fl.toNat + 8 ≤ 2 ^ 32) (hlen : ps.length < 2 ^ 16) :
    AtZero L fl cfg before k (ps ++ [p])
      (Pci.enter 0 (Pci.vendorId cfg p) (Pci.deviceId cfg p) s) := by
  have hplace : s.devices + s.deviceCount * 4 = 0 + BitVec.ofNat 32 (ps.length * 4) := by
    rw [Z.devices, Z.count, BitVec.ofNat_mul]
    rfl
  have hmem : (Pci.enter 0 (Pci.vendorId cfg p) (Pci.deviceId cfg p) s).mem =
      Pci.enterMem s.mem 0 0 ps.length (Pci.vendorId cfg p) (Pci.deviceId cfg p) := by
    rw [Pci.enterMem, ← hplace]
    rfl
  constructor
  case devices => exact Z.devices
  case count =>
    have hcount : (Pci.enter 0 (Pci.vendorId cfg p) (Pci.deviceId cfg p) s).deviceCount =
        s.deviceCount + 1 := rfl
    rw [hcount, Z.count, List.length_append, BitVec.ofNat_add]
    rfl
  case starved =>
    rw [hmem]
    have hbase : imageBase = 67108864 := rfl
    have hheader : ∀ i < 8, (fl + BitVec.ofNat 32 i).toNat = fl.toNat + i := by
      intro i hi
      rw [BitVec.toNat_add, BitVec.toNat_ofNat]
      omega
    have hzero : (0 : Ptr).toNat = 0 := rfl
    refine Z.starved.congr fun i hi => Pci.enterMem_outside ?_ ?_
    · rw [BitVec.toNat_sub, hheader i hi, hzero]
      omega
    · rw [BitVec.toNat_sub, hheader i hi, BitVec.toNat_add, BitVec.toNat_ofNat, hzero]
      omega
  case word =>
    rw [hmem, load32_enterMem_zero hlen, idsAtZero_concat]
    have hids : Pci.deviceId cfg p ++ Pci.vendorId cfg p = Pci.idWord cfg p := append_halves _
    rw [hids]
    simp only [List.length_eq_zero_iff]

theorem AtZero.malloc (Z : AtZero L fl cfg before k ps s) (nbytes : BitVec 32)
    (hn : nbytes.toNat ≤ 4096) (hk : L.stackTop.toNat + 8192 * (k + 1) < 2 ^ 32) :
    (s.malloc (answered (sbrkMalloc L)) nbytes).1 = 0 ∧
      AtZero L fl cfg before (k + 1) ps (s.malloc (answered (sbrkMalloc L)) nbytes).2 := by
  obtain ⟨a', hcall, S⟩ := Z.starved.refuses hn hk
  have hmalloc : s.malloc (answered (sbrkMalloc L)) nbytes = (0, { s with heap := a' }) := by
    simp only [Scan.malloc, hcall, if_true]
  rw [hmalloc]
  exact ⟨rfl, Z.devices, Z.count, S, Z.word⟩

theorem length_present_le (cfg : ConfigSpace) : (Pci.present cfg).length ≤ 2 ^ 16 := by
  have hfilter : (Pci.present cfg).length ≤ (Pci.onBuses 256).length := List.length_filter_le _ _
  have hbuses : ∀ n, (Pci.onBuses n).length = n * 256 := by
    intro n
    induction n with
    | zero => rfl
    | succ n ih => rw [Pci.onBuses_succ, List.length_append, ih, Pci.length_onBus, Nat.succ_mul]
  rwa [hbuses 256] at hfilter

/-- With all requests refused the scan leaves the word of `idsAtZero`. -/
theorem atZero_scan (hfl : imageBase ≤ fl.toNat ∧ fl.toNat + 8 ≤ 2 ^ 32)
    (hL : L.stackTop.toNat + 8192 * 257 < 2 ^ 32) (cfg : ConfigSpace) (latched : BitVec 32)
    (S : Starved L fl 0 m a) :
    AtZero L fl cfg (load32 m 0) 257 (Pci.present cfg)
      (Pci.scan (answered (sbrkMalloc L)) cfg m a latched) := by
  have hroom : ∀ n < 256, L.stackTop.toNat + 8192 * (n + 1 + 1) < 2 ^ 32 := by
    intro n hn
    have hle : 8192 * (n + 1 + 1) ≤ 8192 * 257 := Nat.mul_le_mul_left _ (by omega)
    exact Nat.lt_of_le_of_lt (Nat.add_le_add_left hle _) hL
  have hstart : AtZero L fl cfg (load32 m 0) 0 [] (Pci.start m a latched) := ⟨rfl, rfl, S, rfl⟩
  have hready : AtZero L fl cfg (load32 m 0) 1 [] (Pci.tableReady (answered (sbrkMalloc L)) m a latched) := by
    obtain ⟨htable, Z⟩ := hstart.malloc (32 * Pci.PCI_DEVICE) (by decide) (by omega)
    rw [Pci.tableReady]
    generalize (Pci.start m a latched).malloc (answered (sbrkMalloc L)) (32 * Pci.PCI_DEVICE) = out at *
    exact ⟨htable, Z.count, Z.starved, Z.word⟩
  have hscan : (Pci.present cfg).length ≤ 2 ^ 16 → AtZero L fl cfg (load32 m 0) (256 + 1)
      (Pci.present cfg) (Pci.scan (answered (sbrkMalloc L)) cfg m a latched) := by
    refine Pci.scan_spec
      (fun n ps s => ps.length ≤ 2 ^ 16 → AtZero L fl cfg (load32 m 0) (n + 1) ps s)
      (fun n record ps s => ps.length ≤ 2 ^ 16 →
        record = 0 ∧ AtZero L fl cfg (load32 m 0) (n + 2) ps s) (fun _ => hready) ?_ ?_ ?_ ?_
    · intro n ps s hn hI hlen
      exact (hI hlen).malloc _ (by decide) (hroom n hn)
    · intro n record ps s latched hJ hlen
      obtain ⟨hrecord, Z⟩ := hJ hlen
      exact ⟨hrecord, Z.devices, Z.count, Z.starved, Z.word⟩
    · intro n record ps s p _ _ _ hJ hlen
      rw [List.length_append, List.length_singleton] at hlen
      obtain ⟨rfl, Z⟩ := hJ (by omega)
      exact ⟨rfl, Z.enter hfl (by omega)⟩
    · exact fun n record ps s hJ hlen => (hJ hlen).2
  exact hscan (length_present_le cfg)

variable {present : Drives} {b : Bus} {slot : Slot} {fuel : ℕ} {lines : Bus → Ata.Line} {l : Ata.Line}

theorem identifier_inw (b : Bus) (d : Bus → Ata.Line) :
    (identifier present).inw (b.base + Ata.ATA_DATA) d =
      ((Ata.Line.inw Ata.ATA_DATA (d b)).1,
        Function.update d b (Ata.Line.inw Ata.ATA_DATA (d b)).2) := by
  have hdata : Ata.ATA_DATA < 8 := by decide
  simp only [identifier, Ata.decode_base b hdata]

theorem readWords_identifier (present : Drives) (b : Bus) (lines : Bus → Ata.Line) (m : Mem)
    (buffer : Ptr) (hn : n ≤ 256) :
    Ata.readWords (identifier present) b.base buffer n
        (m, Function.update lines b { l with pos := 0 }) =
      (writeBytes m buffer (2 * n) (sectorByte l.words),
        Function.update lines b { l with pos := n }) := by
  induction n with
  | zero => rfl
  | succ n ih =>
    have hword : Ata.Line.inw Ata.ATA_DATA { l with pos := n } =
        (l.words n, { l with pos := n + 1 }) := if_pos ⟨rfl, hn⟩
    rw [Ata.readWords_succ (ih (by omega)), identifier_inw, Function.update_self,
      Function.update_idem, hword, Ata.store16_writeBytes m buffer l.words (by omega)]

/-- The drive of a position, unless its first status has `ERR` set. -/
def answering (o : Option Drive) : Option Drive :=
  o.filter fun drive => drive.busy.headD drive.ready &&& ATA_ERR = 0

/-- Memory after the identification of a position. -/
def imaged (m : Mem) (o : Option Drive) : Mem :=
  match answering o with
  | none => m
  | some drive => writeBytes m 0 512 (sectorByte drive.words)

theorem identifyDrive_imaged
    (hf : ∀ drive, present b slot = some drive → drive.busy.length < fuel) (m : Mem)
    (lines : Bus → Ata.Line) : ∃ lines',
      Ata.identifyDrive (identifier present) fuel b.code slot.code (m, lines) =
        some (0, imaged m (present b slot), lines') := by
  cases h : present b slot with
  | none => exact Ata.identifyDrive_absent h fuel m lines
  | some drive =>
    have hbusy := hf drive h
    simp only [Ata.identifyDrive, Ata.base_eq, Ata.issueIdentify_eq, Ata.inb_identify, h,
      Ata.answering, inb_headD, first_ne_zero, ne_eq, not_false_eq_true, if_true]
    by_cases herr : drive.busy.headD drive.ready &&& ATA_ERR = 0
    · have hlen : (drive.busy.drop 1).length < fuel := by
        rw [List.length_drop]
        omega
      obtain ⟨rest, hwait, hle⟩ := Ata.run_waitBusy present b lines
        (l := ⟨slot.select, drive.busy.drop 1, drive.ready, drive.words, 0⟩) drive.err_clear hlen
      obtain ⟨rest', hread, -⟩ := Ata.run_readStatus present b lines
        (l := ⟨slot.select, rest, drive.ready, drive.words, 0⟩) drive.drq_set
        (Nat.lt_of_le_of_lt hle hlen)
      have hwords := readWords_identifier present b lines
        (l := ⟨slot.select, rest', drive.ready, drive.words, 0⟩) m 0 (Nat.le_refl 256)
      have himaged : imaged m (some drive) = writeBytes m 0 512 (sectorByte drive.words) := by
        rw [imaged, answering, Option.filter_some, if_pos (decide_eq_true herr)]
      have hbuffer : Ata.ataBuffer = 0 := rfl
      simp only [herr, not_true_eq_false, if_false, hwait, hread, hbuffer, hwords, himaged]
      exact ⟨_, rfl⟩
    · have himaged : imaged m (some drive) = m := by
        rw [imaged, answering, Option.filter_some, if_neg (by simpa using herr)]
      simp only [herr, not_false_eq_true, if_true, himaged]
      exact ⟨_, rfl⟩

theorem load32_imaged (m : Mem) (o : Option Drive) : load32 (imaged m o) 0 =
    match answering o with
    | none => load32 m 0
    | some drive => drive.words 1 ++ drive.words 0 := by
  rw [imaged]
  cases answering o with
  | none => rfl
  | some drive => exact Ata.load32_image m drive.words (by decide)

/-- Of the drives that answer, the last in probe order. -/
def lastAnswer (present : Drives) : List (Bus × Slot) → Option Drive
  | [] => none
  | (b, slot) :: ps => (lastAnswer present ps).or (answering (present b slot))

theorem load32_foldl_imaged (present : Drives) (ps : List (Bus × Slot)) (m : Mem) :
    load32 (ps.foldl (fun m (b, slot) => imaged m (present b slot)) m) 0 =
      match lastAnswer present ps with
      | none => load32 m 0
      | some drive => drive.words 1 ++ drive.words 0 := by
  induction ps generalizing m with
  | nil => rfl
  | cons p ps ih =>
    obtain ⟨b, slot⟩ := p
    rw [List.foldl_cons, ih, lastAnswer, load32_imaged]
    cases lastAnswer present ps with
    | none => rfl
    | some drive => rfl

theorem probe_imaged {α : Type} (alloc : Allocator α) (ataRead : Ptr) (io : BitVec 16)
    (hf : ∀ drive, present b slot = some drive → drive.busy.length < fuel)
    (s : Driver α (Bus → Ata.Line)) : ∃ s',
      Ata.probe alloc (identifier present) ataRead fuel b.code slot.code io s = some s' ∧
        s'.mem = imaged s.mem (present b slot) := by
  obtain ⟨lines', heq⟩ := identifyDrive_imaged hf s.mem s.ports
  rw [Ata.probe_eq, heq]
  exact ⟨_, rfl, rfl⟩

/-- The driver leaves the images of the drives that answer, one over the other. -/
theorem initiliazeAtaDriver_imaged {α : Type} (alloc : Allocator α) (ataRead : Ptr)
    (hf : ∀ b slot drive, present b slot = some drive → drive.busy.length < fuel)
    (s : Driver α (Bus → Ata.Line)) : ∃ s',
      Ata.initiliazeAtaDriver alloc (identifier present) ataRead fuel s = some s' ∧
        s'.mem = Ata.positions.foldl (fun m (b, slot) => imaged m (present b slot)) s.mem := by
  obtain ⟨s₁, h₁, hm₁⟩ := probe_imaged alloc ataRead Ata.PRIMARY_IO (hf .primary .master) s
  obtain ⟨s₂, h₂, hm₂⟩ := probe_imaged alloc ataRead Ata.PRIMARY_IO (hf .primary .slave) s₁
  obtain ⟨s₃, h₃, hm₃⟩ := probe_imaged alloc ataRead Ata.SECONDARY_IO (hf .secondary .master) s₂
  obtain ⟨s₄, h₄, hm₄⟩ := probe_imaged alloc ataRead Ata.SECONDARY_IO (hf .secondary .slave) s₃
  simp only [Bus.code, Slot.code] at h₁ h₂ h₃ h₄
  refine ⟨s₄, ?_, by rw [hm₄, hm₃, hm₂, hm₁]; rfl⟩
  simp only [Ata.initiliazeAtaDriver, h₁, h₂, h₃, h₄, Option.bind_eq_bind, Option.bind_some]

/-- The variables as the image has them: `freelist` alone is not zero. -/
structure AtBoot {δ ε : Type} (fl : Ptr) (s : Machine (Heap Ptr × List Ptr) δ ε) : Prop where
  drives : s.driver.drives = 0
  driveCount : s.driver.driveCount = 0
  devices : s.devices = 0
  deviceCount : s.deviceCount = 0
  initial : Initial fl 0 { s.driver.heap.1 with mem := s.driver.mem }
  answers : s.driver.heap.2 = []
  base_le : imageBase ≤ fl.toNat

theorem AtBoot.starved {δ ε : Type} {s : Machine (Heap Ptr × List Ptr) δ ε} (B : AtBoot fl s) (L : Layout) :
    Starved L fl 0 s.driver.mem s.driver.heap := by
  obtain ⟨-, hlink, hsize, hfreep, hsbrk⟩ := B.initial
  have hstart : L.start s.driver.heap.1.sbrk = L.stackTop := if_pos hsbrk
  exact ⟨hfreep, hlink, hsize, by rw [hstart]; rfl, B.answers⟩

/-- The word at address 0 after the start. -/
def mainWord (present : Drives) (cfg : ConfigSpace) (before : BitVec 32) : BitVec 32 :=
  match lastAnswer present Ata.positions with
  | none => idsAtZero cfg before (Pci.present cfg)
  | some drive => drive.words 1 ++ drive.words 0

theorem scan_initializePciDevices {K : Platform (Heap Ptr × List Ptr) (Bus → Ata.Line) (BitVec 32)}
    {s : Machine (Heap Ptr × List Ptr) (Bus → Ata.Line) (BitVec 32)} (B : AtBoot fl s)
    (hK : K.config = hostBridge cfg) (ha : K.alloc = answered (sbrkMalloc L)) :
    Pci.initializePciDevices K.alloc K.config
      { mem := s.driver.mem, heap := s.driver.heap, ports := s.config, devices := s.devices,
        deviceCount := s.deviceCount, stores := [], indices := [], blocks := [] } =
      Pci.scan (answered (sbrkMalloc L)) cfg s.driver.mem s.driver.heap s.config := by
  rw [hK, ha, B.devices, B.deviceCount]
  rfl

/-- The platform over `malloc` and `sbrk`, with these drives and functions. -/
def Platform.booted (K : Platform (Heap Ptr × List Ptr) (Bus → Ata.Line) (BitVec 32)) (L : Layout)
    (present : Drives) (cfg : ConfigSpace) : Platform (Heap Ptr × List Ptr) (Bus → Ata.Line) (BitVec 32) :=
  { K with
    alloc := answered (sbrkMalloc L)
    disks := identifier present
    config := hostBridge cfg }

/-- From boot the kernel comes to its last loop with all of its 257 requests for memory refused. The
word that it takes there for its main drive is the first of the last drive that answers; if none does,
the ids of the last PCI function, or 0 if there is only one, or without any what stood at address 0. -/
theorem main_drive (K : Platform (Heap Ptr × List Ptr) (Bus → Ata.Line) (BitVec 32)) (L : Layout)
    (hL : L.stackTop.toNat + 8192 * 257 < 2 ^ 32) (present : Drives) (cfg : ConfigSpace)
    (s : Machine (Heap Ptr × List Ptr) (Bus → Ata.Line) (BitVec 32)) (B : AtBoot fl s) :
    ∃ patience, ∀ fuel > patience, ∃ s',
      kernelStart (K.booted L present cfg) fuel s = some s' ∧
      s'.driver.heap.2 = List.replicate 257 0 ∧ s'.driver.driveCount = 0 ∧ s'.devices = 0 ∧
      s'.deviceCount = BitVec.ofNat 32 (Pci.present cfg).length ∧
      (L.start s'.driver.heap.1.sbrk).toNat = L.stackTop.toNat + 8192 * 257 ∧
      Ata.getMainDrive s'.driver = mainWord present cfg (load32 s.driver.mem 0) := by
  obtain ⟨patience, hp⟩ := Ata.exists_patience present
  refine ⟨patience, fun fuel hfuel => ?_⟩
  obtain ⟨n, rfl⟩ : ∃ n, fuel = n + 1 := ⟨fuel - 1, by omega⟩
  have hf : ∀ b slot drive, present b slot = some drive → drive.busy.length < n + 1 :=
    fun b slot drive h => Nat.lt_trans (hp b slot drive h) hfuel
  have Z := atZero_scan ⟨B.base_le, B.initial.placed.2⟩ hL cfg s.config (B.starved L)
  have hconfig : (K.booted L present cfg).config = hostBridge cfg := rfl
  have hdisks : (K.booted L present cfg).disks = identifier present := rfl
  have halloc : (K.booted L present cfg).alloc = answered (sbrkMalloc L) := rfl
  generalize K.booted L present cfg = K' at *
  have hscan := scan_initializePciDevices B hconfig halloc
  obtain ⟨driver, hdriver, hmem⟩ := initiliazeAtaDriver_imaged K'.alloc K'.ataRead hf
    (initializePciDevices K' s).driver
  obtain ⟨hdrives, hcount, hheap⟩ := Ata.initiliazeAtaDriver_keeps hdriver
  have hstart := kernelStart_eq K' n s
  rw [hdisks, hdriver, Option.map_some] at hstart
  have hword : Ata.getMainDrive driver = load32 driver.mem 0 := by
    rw [Ata.getMainDrive, Ata.getDrives, hdrives]
    exact congrArg (load32 driver.mem) B.drives
  refine ⟨_, hstart, ?_, hcount.trans B.driveCount, ?_, ?_, ?_, ?_⟩
  · rw [hheap]
    simp only [initializePciDevices, hscan]
    exact Z.starved.answers_eq
  · simp only [initializePciDevices, hscan]
    exact Z.devices
  · simp only [initializePciDevices, hscan]
    exact Z.count
  · rw [hheap]
    simp only [initializePciDevices, hscan]
    exact Z.starved.start_eq
  · have hpci : (initializePciDevices K' s).driver.mem =
        (Pci.scan (answered (sbrkMalloc L)) cfg s.driver.mem s.driver.heap s.config).mem := by
      rw [← hscan]
      rfl
    rw [hword, hmem, load32_foldl_imaged, hpci, Z.word, mainWord]

/-- A platform with one drive and one PCI function, over the image of `smallLayout`. -/
def smallPlatform : Platform (Heap Ptr × List Ptr) (Bus → Ata.Line) (BitVec 32) where
  above := 0
  frame := []
  alloc := answered (sbrkMalloc Sbrk.smallLayout)
  disks := identifier Ata.onlyMaster
  config := hostBridge Pci.hostOnly
  ataRead := 0x04000000
  red := Vga.Palette.red.code
  green := Vga.Palette.green.code

def smallMachine : Machine (Heap Ptr × List Ptr) (Bus → Ata.Line) (BitVec 32) where
  driver :=
    { mem := Sbrk.bootKernel.heap.mem
      heap := (Sbrk.bootKernel.heap, [])
      ports := Ata.bootDriver.ports
      drives := 0
      driveCount := 0 }
  config := 0
  devices := 0
  deviceCount := 0
  terminal := Vga.zeroTerminal

theorem atBoot_smallMachine : AtBoot 0x0401A000 smallMachine :=
  ⟨rfl, rfl, rfl, rfl, Sbrk.boot_bootKernel.initial, rfl, by decide⟩

theorem main_drive_smallMachine : ∃ patience, ∀ fuel > patience, ∃ s',
    kernelStart (smallPlatform.booted Sbrk.smallLayout Ata.onlyMaster Pci.hostOnly) fuel
      smallMachine = some s' ∧ s'.driver.heap.2 = List.replicate 257 0 ∧
      Ata.getMainDrive s'.driver = 0x41414141 := by
  obtain ⟨patience, h⟩ := main_drive smallPlatform Sbrk.smallLayout (by decide) Ata.onlyMaster
    Pci.hostOnly smallMachine atBoot_smallMachine
  refine ⟨patience, fun fuel hfuel => ?_⟩
  obtain ⟨s', hstart, hanswers, -, -, -, -, hword⟩ := h fuel hfuel
  exact ⟨s', hstart, hanswers, hword⟩

end TinaOS.Boot
