import TinaOS.BootMessages

/-!
# The screen after the start

The output of the drivers changes nothing but the terminal, where it leaves a log of short lines.
How many there are depends on the drives: every status read that waits for `DRQ` prints one.
-/

namespace TinaOS.Boot

open ByteMemory Allocators Stdio Vga
open Strings (ascii CString)
open Ata (Driver PRIMARY_BUS SECONDARY_BUS MASTER_DRIVE SLAVE_DRIVE PRIMARY_IO SECONDARY_IO ATA_STATUS
  ATA_ERR ATA_DRQ NO_DRIVE ataBuffer)

variable {α δ ε : Type} {K : Platform α δ ε} {n : ℕ} {t : Terminal} {bus slot : BitVec 8}

/-- The lines that `identify_drive` prints, on a terminal with the given colour. -/
def identifyLines (P : Ata.Ports δ) (fuel : ℕ) (bus drive : BitVec 8) (color : BitVec 8) (d : δ) :
    List Vga.Line :=
  let io := if bus = PRIMARY_BUS then PRIMARY_IO else SECONDARY_IO
  let d := Ata.issueIdentify P bus drive io d
  let (status, d) := P.inb (io + ATA_STATUS) d
  if status = 0 then []
  else if status &&& ATA_ERR ≠ 0 then [onWhite .cyan (noDriveText bus)]
  else match BoundedLoop.run (Ata.waitBusy P io) fuel d with
    | none => []
    | some d => ⟨color, operationText identifyDriveText pollingBsy⟩ ::
        (List.replicate (BoundedLoop.rounds (Ata.readStatus P io) fuel d)
          ⟨color, operationText identifyDriveText pollingDrq⟩ ++ [onWhite .green (onlineText bus)])

theorem iterate_putLine (t : Terminal) (cs : List (BitVec 8)) (k : ℕ) :
    (fun t : Terminal => putLine t ⟨t.terminalColor, cs⟩)^[k] t =
      putLines t (List.replicate k ⟨t.terminalColor, cs⟩) := by
  induction k generalizing t with
  | zero => rfl
  | succ k ih =>
    rw [Function.iterate_succ_apply, ih, List.replicate_succ, putLines_cons, terminalColor_putLine]

theorem run_readStatus (K : Platform α δ ε) (n : ℕ) (io : BitVec 16) (fuel : ℕ) (d : δ)
    (t : Terminal) : BoundedLoop.run (readStatus K (n + 1) io) fuel (d, t) =
      (BoundedLoop.run (Ata.readStatus K.disks io) fuel d).map fun d' => some (d', putLines t
        (List.replicate (BoundedLoop.rounds (Ata.readStatus K.disks io) fuel d)
          ⟨t.terminalColor, operationText identifyDriveText pollingDrq⟩)) := by
  refine (BoundedLoop.run_noting (Ata.readStatus K.disks io) (readStatus K (n + 1) io)
    (fun t => putLine t ⟨t.terminalColor, operationText identifyDriveText pollingDrq⟩)
    (fun d t => some (d, t)) ?_ ?_ fuel d t).trans ?_
  · intro d d' t h
    simp only [Ata.readStatus] at h
    split_ifs at h with hdrq
    obtain rfl := Sum.inl.inj h
    simp only [readStatus, writeCurrentOperation_eq, hdrq, if_true]
  · intro d d' t h
    simp only [Ata.readStatus] at h
    split_ifs at h with hdrq
    obtain rfl := Sum.inr.inj h
    simp only [readStatus, writeCurrentOperation_eq, hdrq, if_false]
  · simp only [iterate_putLine]

/-- With its output `identify_drive` does what it does without, and prints its lines. -/
theorem identifyDrive_eq (K : Platform α δ ε) (n : ℕ) (bus drive : BitVec 8) (m : Mem) (d : δ)
    (t : Terminal) : identifyDrive K (n + 1) bus drive (m, d, t) =
      (Ata.identifyDrive K.disks (n + 1) bus drive (m, d)).map fun out => (out.1, out.2.1, out.2.2,
        putLines t (identifyLines K.disks (n + 1) bus drive t.terminalColor d)) := by
  simp only [identifyDrive, Ata.identifyDrive, identifyLines]
  generalize (if bus = PRIMARY_BUS then PRIMARY_IO else SECONDARY_IO) = io
  cases hstatus : K.disks.inb (io + ATA_STATUS) (Ata.issueIdentify K.disks bus drive io d) with
  | mk status d =>
    simp only [hstatus]
    by_cases hzero : status = 0
    · simp only [hzero, ne_eq, not_true_eq_false, if_true, if_false]
      rfl
    · by_cases herr : status &&& ATA_ERR = 0
      · simp only [ne_eq, hzero, not_false_eq_true, if_true, herr, not_true_eq_false, if_false]
        cases hwait : BoundedLoop.run (Ata.waitBusy K.disks io) (n + 1) d with
        | none => simp [writeCurrentOperation_eq]
        | some d' =>
          cases hread : BoundedLoop.run (Ata.readStatus K.disks io) (n + 1) d' with
          | none => simp [writeCurrentOperation_eq, run_readStatus, hread]
          | some d'' =>
            simp [writeCurrentOperation_eq, run_readStatus, hread, cprintf_busIsOnline, putLines]
      · simp only [ne_eq, hzero, not_false_eq_true, if_true, herr, if_false]
        simp [cprintf_noDriveFound, putLines]

/-- One position with its output, which ends with the answer of `identify_drive`. -/
theorem probe_eq (K : Platform α δ ε) (n : ℕ) (bus slot : BitVec 8) (io : BitVec 16) (str : CString)
    (s : Machine α δ ε) : probe K (n + 1) bus slot io str s =
      (Ata.probe K.alloc K.disks K.ataRead (n + 1) bus slot io s.driver).map fun driver =>
        { s with
          driver := driver
          terminal := putLines s.terminal (identifyLines K.disks (n + 1) bus slot
            s.terminal.terminalColor s.driver.ports) } := by
  rw [Ata.probe_eq, probe, getDriveName, identifyDrive_eq]
  cases h : Ata.identifyDrive K.disks (n + 1) bus slot (s.driver.mem, s.driver.ports) with
  | none => rfl
  | some out =>
    obtain ⟨found, m, d⟩ := out
    obtain rfl := Ata.identifyDrive_found h
    rfl

/-- The lines of one position after the other. -/
def driverLines (K : Platform α δ ε) (fuel : ℕ) (color : BitVec 8) :
    List (BitVec 8 × BitVec 8 × BitVec 16) → Driver α δ → List Vga.Line
  | [], _ => []
  | (bus, slot, io) :: rest, s => identifyLines K.disks fuel bus slot color s.ports ++
      match Ata.probe K.alloc K.disks K.ataRead fuel bus slot io s with
      | none => []
      | some s => driverLines K fuel color rest s

def fourPositions : List (BitVec 8 × BitVec 8 × BitVec 16) :=
  [(PRIMARY_BUS, MASTER_DRIVE, PRIMARY_IO), (PRIMARY_BUS, SLAVE_DRIVE, PRIMARY_IO),
    (SECONDARY_BUS, MASTER_DRIVE, SECONDARY_IO), (SECONDARY_BUS, SLAVE_DRIVE, SECONDARY_IO)]

theorem initiliazeAtaDriver_eq (K : Platform α δ ε) (n : ℕ) (s : Machine α δ ε) :
    initiliazeAtaDriver K (n + 1) s =
      (Ata.initiliazeAtaDriver K.alloc K.disks K.ataRead (n + 1) s.driver).map fun driver =>
        { s with
          driver := driver
          terminal := putLines s.terminal (driverLines K (n + 1) s.terminal.terminalColor
            fourPositions s.driver) } := by
  simp only [initiliazeAtaDriver, Ata.initiliazeAtaDriver, probe_eq, fourPositions, driverLines,
    Option.bind_eq_bind]
  cases h₁ : Ata.probe K.alloc K.disks K.ataRead (n + 1) PRIMARY_BUS MASTER_DRIVE PRIMARY_IO
      s.driver with
  | none => rfl
  | some s₁ =>
    simp only [Option.map_some, Option.bind_some]
    cases h₂ : Ata.probe K.alloc K.disks K.ataRead (n + 1) PRIMARY_BUS SLAVE_DRIVE PRIMARY_IO
        s₁ with
    | none => rfl
    | some s₂ =>
      simp only [Option.map_some, Option.bind_some]
      cases h₃ : Ata.probe K.alloc K.disks K.ataRead (n + 1) SECONDARY_BUS MASTER_DRIVE
          SECONDARY_IO s₂ with
      | none => rfl
      | some s₃ =>
        simp only [Option.map_some, Option.bind_some]
        cases h₄ : Ata.probe K.alloc K.disks K.ataRead (n + 1) SECONDARY_BUS SLAVE_DRIVE
            SECONDARY_IO s₃ with
        | none => rfl
        | some s₄ =>
          simp only [Option.map_some, terminalColor_putLines, putLines_append, List.append_nil]

theorem initializePciDevices_terminal (K : Platform α δ ε) (s : Machine α δ ε) (t : Terminal) :
    initializePciDevices K { s with terminal := t } =
      { initializePciDevices K s with terminal := t } := rfl

theorem initializeDrivers_eq (K : Platform α δ ε) (n : ℕ) (s : Machine α δ ε) :
    initializeDrivers K (n + 1) s =
      (Ata.initiliazeAtaDriver K.alloc K.disks K.ataRead (n + 1)
        (initializePciDevices K s).driver).map fun driver =>
          { initializePciDevices K s with
            driver := driver
            terminal := putLines s.terminal
              (⟨s.terminal.terminalColor, operationText initiliazeDrivers initializingAll⟩ ::
                driverLines K (n + 1) s.terminal.terminalColor fourPositions
                  (initializePciDevices K s).driver) } := by
  rw [initializeDrivers, writeCurrentOperation_eq, Option.bind_eq_bind, Option.bind_some,
    initializePciDevices_terminal, initiliazeAtaDriver_eq]
  simp only [terminalColor_putLine, putLines_cons]

/-- The colour after `make_vga_terminal`. -/
def startColor : BitVec 8 := vgaColorEntry Palette.black.code Palette.white.code

/-- All lines of the start, when the driver starts from `s`. -/
def startLines (K : Platform α δ ε) (fuel : ℕ) (s : Driver α δ) : List Vga.Line :=
  onWhite .green kernelTitle.chars ::
    ⟨startColor, operationText initiliazeDrivers initializingAll⟩ ::
      driverLines K fuel startColor fourPositions s

/-- The kernel starts as it does without output, and its terminal holds the lines. -/
theorem kernelStart_eq (K : Platform α δ ε) (n : ℕ) (s : Machine α δ ε) :
    kernelStart K (n + 1) s =
      (Ata.initiliazeAtaDriver K.alloc K.disks K.ataRead (n + 1)
        (initializePciDevices K s).driver).map fun driver =>
          { initializePciDevices K s with
            driver := driver
            terminal := putLines (makeVgaTerminal s.terminal)
              (startLines K (n + 1) (initializePciDevices K s).driver) } := by
  rw [kernelStart, writePassString_kernelTitle, Option.bind_eq_bind, Option.bind_some,
    initializeDrivers_eq, initializePciDevices_terminal]
  generalize ht : makeVgaTerminal s.terminal = t
  have hcolor : t.terminalColor = startColor := by rw [← ht]; rfl
  simp only [terminalColor_putLine, hcolor, startLines, putLines_cons]

variable {P : Ata.Ports δ} {fuel : ℕ} {color : BitVec 8} {d : δ}

theorem short_noDrive (bus : BitVec 8) : (onWhite .cyan (noDriveText bus)).Short := by
  by_cases hbus : bus = PRIMARY_BUS
  · rw [noDriveText, busText, if_pos hbus]
    exact ⟨by decide, by decide⟩
  · rw [noDriveText, busText, if_neg hbus]
    exact ⟨by decide, by decide⟩

theorem short_online (bus : BitVec 8) : (onWhite .green (onlineText bus)).Short := by
  by_cases hbus : bus = PRIMARY_BUS
  · rw [onlineText, busTitle, if_pos hbus]
    exact ⟨by decide, by decide⟩
  · rw [onlineText, busTitle, if_neg hbus]
    exact ⟨by decide, by decide⟩

theorem short_pollingBsy (color : BitVec 8) :
    (Vga.Line.mk color (operationText identifyDriveText pollingBsy)).Short := by
  have hlen : (operationText identifyDriveText pollingBsy).length < WIDTH.toNat := by decide
  have hline : ascii '\n' ∉ operationText identifyDriveText pollingBsy := by decide
  exact ⟨hlen, hline⟩

theorem short_pollingDrq (color : BitVec 8) :
    (Vga.Line.mk color (operationText identifyDriveText pollingDrq)).Short := by
  have hlen : (operationText identifyDriveText pollingDrq).length < WIDTH.toNat := by decide
  have hline : ascii '\n' ∉ operationText identifyDriveText pollingDrq := by decide
  exact ⟨hlen, hline⟩

/-- The lines of a drive that waits for `DRQ` with the given number of status reads. -/
def pollingLines (color : BitVec 8) (bus : BitVec 8) (polls : ℕ) : List Vga.Line :=
  ⟨color, operationText identifyDriveText pollingBsy⟩ ::
    (List.replicate polls ⟨color, operationText identifyDriveText pollingDrq⟩ ++
      [onWhite .green (onlineText bus)])

theorem short_pollingLines {polls : ℕ} : ∀ l ∈ pollingLines color bus polls, l.Short := by
  intro l hl
  rcases List.mem_cons.mp hl with rfl | hl
  · exact short_pollingBsy color
  · rcases List.mem_append.mp hl with hl | hl
    · rw [(List.mem_replicate.mp hl).2]
      exact short_pollingDrq color
    · rw [List.mem_singleton.mp hl]
      exact short_online bus

theorem short_identifyLines : ∀ l ∈ identifyLines P fuel bus slot color d, l.Short := by
  simp only [identifyLines]
  generalize (if bus = PRIMARY_BUS then PRIMARY_IO else SECONDARY_IO) = io
  intro l hl
  split_ifs at hl
  · cases hl
  · rw [List.mem_singleton.mp hl]
    exact short_noDrive bus
  · split at hl
    · cases hl
    · exact short_pollingLines l hl

theorem short_driverLines {ps : List (BitVec 8 × BitVec 8 × BitVec 16)} {s : Driver α δ} :
    ∀ l ∈ driverLines K fuel color ps s, l.Short := by
  induction ps generalizing s with
  | nil => exact List.forall_mem_nil _
  | cons p ps ih =>
    obtain ⟨bus, slot, io⟩ := p
    intro l hl
    rcases List.mem_append.mp hl with hl | hl
    · exact short_identifyLines l hl
    · split at hl
      · cases hl
      · exact ih l hl

theorem short_startLines {s : Driver α δ} : ∀ l ∈ startLines K fuel s, l.Short := by
  intro l hl
  rcases List.mem_cons.mp hl with rfl | hl
  · exact ⟨by decide, by decide⟩
  · rcases List.mem_cons.mp hl with rfl | hl
    · exact ⟨by decide, by decide⟩
    · exact short_driverLines l hl

open Ata (Bus Slot Drives Drive identifier)

variable {present : Drives} {b : Bus} {l : Ata.Line} {lines : Bus → Ata.Line}

/-- A loop that reads the status until a test holds takes the statuses up to the first that meets
it, one a round. -/
theorem run_statuses (body : (Bus → Ata.Line) → (Bus → Ata.Line) ⊕ (Bus → Ata.Line)) (b : Bus)
    (lines : Bus → Ata.Line) (stop : BitVec 8 → Bool) (hbody : ∀ l, body (Function.update lines b l) =
      if stop (Ata.Line.inb ATA_STATUS l).1 then
        .inr (Function.update lines b (Ata.Line.inb ATA_STATUS l).2)
      else .inl (Function.update lines b (Ata.Line.inb ATA_STATUS l).2))
    (hlast : stop l.status) {fuel : ℕ} (hf : l.statuses.length < fuel) :
    BoundedLoop.run body fuel (Function.update lines b l) = some (Function.update lines b
        { l with statuses := (l.statuses.dropWhile fun status => !stop status).drop 1 }) ∧
      BoundedLoop.rounds body fuel (Function.update lines b l) =
        (l.statuses.takeWhile fun status => !stop status).length + 1 := by
  obtain ⟨fuel, rfl⟩ : ∃ f, fuel = f + 1 := ⟨fuel - 1, by omega⟩
  induction hs : l.statuses generalizing l fuel with
  | nil =>
    have hinb : Ata.Line.inb ATA_STATUS l = (l.status, l) := by
      rw [Ata.Line.inb, if_pos rfl, hs]
    have hstep := hbody l
    rw [hinb, if_pos hlast] at hstep
    refine ⟨?_, BoundedLoop.rounds_of_inr hstep fuel⟩
    rw [BoundedLoop.run_of_inr hstep, List.dropWhile_nil, List.drop_nil, ← hs]
  | cons status rest ih =>
    have hinb : Ata.Line.inb ATA_STATUS l = (status, { l with statuses := rest }) := by
      rw [Ata.Line.inb, if_pos rfl, hs]
    have hstep := hbody l
    rw [hinb] at hstep
    by_cases hstop : stop status
    · rw [if_pos hstop] at hstep
      rw [BoundedLoop.run_of_inr hstep, BoundedLoop.rounds_of_inr hstep]
      simp [hstop]
    · rw [if_neg hstop] at hstep
      rw [hs, List.length_cons] at hf
      obtain ⟨fuel, rfl⟩ : ∃ f, fuel = f + 1 := ⟨fuel - 1, by omega⟩
      obtain ⟨hrun, hrounds⟩ := ih (l := { l with statuses := rest }) hlast fuel
        (by simp only; omega) rfl
      rw [BoundedLoop.run_of_inl hstep, BoundedLoop.rounds_of_inl hstep, hrun, hrounds]
      simp [hstop]

/-- The status reads of the loop that waits for `DRQ`, when the drive answers: one read came
before the loops, and one ended the first of them. -/
def drqPolls (drive : Drive) : ℕ :=
  ((((drive.busy.drop 1).dropWhile fun status => status &&& ATA_ERR ≠ 0).drop 1).takeWhile
    fun status => status &&& ATA_DRQ = 0).length + 1

/-- What `identify_drive` prints for a position. -/
def positionLines (b : Bus) : Option Drive → List Vga.Line
  | none => []
  | some drive =>
    if drive.busy.headD drive.ready &&& ATA_ERR ≠ 0 then [onWhite .cyan (noDriveText b.code)]
    else pollingLines startColor b.code (drqPolls drive)

/-- All that the kernel prints before its last loop. -/
def transcript (present : Drives) : List Vga.Line :=
  onWhite .green kernelTitle.chars ::
    ⟨startColor, operationText initiliazeDrivers initializingAll⟩ ::
      Ata.positions.flatMap fun (b, slot) => positionLines b (present b slot)

theorem identifyLines_absent {slot : Slot} (h : present b slot = none) (fuel : ℕ) :
    identifyLines (identifier present) fuel b.code slot.code startColor lines = [] := by
  simp only [identifyLines, Ata.base_eq, Ata.issueIdentify_eq, Ata.inb_identify, h]
  rfl

theorem inb_headD (l : Ata.Line) : Ata.Line.inb ATA_STATUS l =
    (l.statuses.headD l.status, { l with statuses := l.statuses.drop 1 }) := by
  obtain ⟨select, statuses, status, words, pos⟩ := l
  cases statuses with
  | nil => rfl
  | cons first rest => rfl

theorem first_ne_zero (drive : Drive) : drive.busy.headD drive.ready ≠ 0 := by
  cases h : drive.busy with
  | nil =>
    intro hzero
    rw [List.headD_nil] at hzero
    exact drive.drq_set (by rw [hzero]; rfl)
  | cons first rest =>
    intro hzero
    rw [List.headD_cons] at hzero
    exact drive.busy_set first (by rw [h]; exact List.mem_cons_self) (by rw [hzero]; rfl)

theorem run_waitBusy_statuses (present : Drives) (b : Bus) (lines : Bus → Ata.Line)
    (fuel : ℕ) (hlast : l.status &&& ATA_ERR = 0) (hf : l.statuses.length < fuel) :
    BoundedLoop.run (Ata.waitBusy (identifier present) b.base) fuel (Function.update lines b l) =
      some (Function.update lines b { l with
        statuses := (l.statuses.dropWhile fun status => status &&& ATA_ERR ≠ 0).drop 1 }) := by
  have hmask : (if Ata.ATA_BSY ≠ 0 then 1 else 0 : BitVec 8) = ATA_ERR := by decide
  have hrun := (run_statuses (Ata.waitBusy (identifier present) b.base) b lines
    (fun status => status &&& ATA_ERR = 0) (fun l => by
    simp only [Ata.waitBusy, Ata.inb_identify, hmask, ne_eq, ite_not, decide_eq_true_eq])
    (decide_eq_true hlast) hf).1
  simpa only [decide_not] using hrun

theorem rounds_readStatus_statuses (present : Drives) (b : Bus) (lines : Bus → Ata.Line)
    (fuel : ℕ) (hlast : l.status &&& ATA_DRQ ≠ 0) (hf : l.statuses.length < fuel) :
    BoundedLoop.rounds (Ata.readStatus (identifier present) b.base) fuel
        (Function.update lines b l) =
      (l.statuses.takeWhile fun status => status &&& ATA_DRQ = 0).length + 1 := by
  have hrounds := (run_statuses (Ata.readStatus (identifier present) b.base) b lines
    (fun status => status &&& ATA_DRQ ≠ 0) (fun l => by
    simp only [Ata.readStatus, Ata.inb_identify, ne_eq, decide_eq_true_eq, ite_not])
    (decide_eq_true hlast) hf).2
  simpa only [decide_not, Bool.not_not, ne_eq] using hrounds

theorem identifyLines_present {slot : Slot} {drive : Drive} (h : present b slot = some drive)
    (hf : drive.busy.length < fuel) :
    identifyLines (identifier present) fuel b.code slot.code startColor lines =
      positionLines b (some drive) := by
  have hdrop : ((drive.busy.drop 1).dropWhile fun status => status &&& ATA_ERR ≠ 0).length ≤
      (drive.busy.drop 1).length := (List.dropWhile_sublist _).length_le
  rw [List.length_drop] at hdrop
  have hwait := run_waitBusy_statuses present b lines fuel
    (l := ⟨slot.select, drive.busy.drop 1, drive.ready, drive.words, 0⟩) drive.err_clear (by
      rw [List.length_drop]
      omega)
  have hrounds := rounds_readStatus_statuses present b lines fuel
    (l := ⟨slot.select, ((drive.busy.drop 1).dropWhile fun status => status &&& ATA_ERR ≠ 0).drop 1,
      drive.ready, drive.words, 0⟩) drive.drq_set (by
      rw [List.length_drop]
      omega)
  simp only [identifyLines, Ata.base_eq, Ata.issueIdentify_eq, Ata.inb_identify, h, Ata.answering,
    inb_headD, first_ne_zero, if_false, positionLines, hwait, hrounds, pollingLines, drqPolls]

/-- With the drives given, `identify_drive` prints the lines of their positions. -/
theorem identifyLines_identifier (hf : ∀ b slot drive, present b slot = some drive →
    drive.busy.length < fuel) (b : Bus) (slot : Slot) (lines : Bus → Ata.Line) :
    identifyLines (identifier present) fuel b.code slot.code startColor lines =
      positionLines b (present b slot) := by
  cases h : present b slot with
  | none => exact identifyLines_absent h fuel
  | some drive => exact identifyLines_present h (hf b slot drive h)

theorem driverLines_identifier (K : Platform α (Bus → Ata.Line) ε)
    (hf : ∀ b slot drive, present b slot = some drive → drive.busy.length < fuel)
    (ps : List (Bus × Slot)) (s : Driver α (Bus → Ata.Line)) :
    driverLines { K with disks := identifier present } fuel startColor
        (ps.map fun (b, slot) => (b.code, slot.code, b.base)) s =
      ps.flatMap fun (b, slot) => positionLines b (present b slot) := by
  induction ps generalizing s with
  | nil => rfl
  | cons p ps ih =>
    obtain ⟨b, slot⟩ := p
    obtain ⟨s', hs'⟩ := Ata.identifyDrive_returns (hf b slot) (s.mem, s.ports)
    have hprobe := Ata.probe_eq K.alloc (identifier present) K.ataRead fuel b.code slot.code b.base s
    rw [hs', Option.map_some] at hprobe
    simp only [List.map_cons, driverLines, hprobe, ih, identifyLines_identifier hf,
      List.flatMap_cons]

theorem startLines_identifier (K : Platform α (Bus → Ata.Line) ε)
    (hf : ∀ b slot drive, present b slot = some drive → drive.busy.length < fuel)
    (s : Driver α (Bus → Ata.Line)) :
    startLines { K with disks := identifier present } fuel s = transcript present := by
  have hpositions : fourPositions =
      Ata.positions.map fun (b, slot) => (b.code, slot.code, b.base) := rfl
  rw [startLines, hpositions, driverLines_identifier K hf, transcript]

/-- With its output the kernel starts as its drivers start without: it comes to its last loop exactly
if they return, and with what they leave. The terminal then holds one short line for each message,
below one another from the first row on. -/
theorem kernelStart_prints (K : Platform α δ ε) (n : ℕ) (s : Machine α δ ε) :
    kernelStart K (n + 1) s =
      (Ata.initiliazeAtaDriver K.alloc K.disks K.ataRead (n + 1)
        (initializePciDevices K s).driver).map (fun driver =>
          { initializePciDevices K s with
            driver := driver
            terminal := putLines (makeVgaTerminal s.terminal)
              (startLines K (n + 1) (initializePciDevices K s).driver) }) ∧
    ∀ l ∈ startLines K (n + 1) (initializePciDevices K s).driver, l.Short :=
  ⟨kernelStart_eq K n s, short_startLines⟩

/-- A kernel with output comes to its last loop for any drives; the screen then shows the transcript
for these drives, and the terminal is still on it exactly if that has fewer lines than the
screen. The text buffer is kept apart from the memory of the kernel, into whose image at 64M the
lines from row 414720 on are stored. -/
theorem kernelStart_screen (K : Platform α (Bus → Ata.Line) ε) (present : Drives)
    (s : Machine α (Bus → Ata.Line) ε) (hroom : (transcript present).length * WIDTH.toNat ≤ 2 ^ 31) :
    ∃ patience, ∀ fuel > patience, ∃ s',
      kernelStart { K with disks := identifier present } fuel s = some s' ∧
      (∀ x : BitVec 31, x.toNat < CELLS →
        s'.terminal.buffer x = shown (transcript present) (fun _ => blank) x) ∧
      (OnScreen s'.terminal ↔ (transcript present).length < HEIGHT.toNat) := by
  obtain ⟨patience, hp⟩ := Ata.exists_patience present
  refine ⟨patience, fun fuel hfuel => ?_⟩
  obtain ⟨n, rfl⟩ : ∃ n, fuel = n + 1 := ⟨fuel - 1, by omega⟩
  have hf : ∀ b slot drive, present b slot = some drive → drive.busy.length < n + 1 :=
    fun b slot drive h => Nat.lt_trans (hp b slot drive h) hfuel
  obtain ⟨driver, hdriver, -⟩ := Ata.initiliazeAtaDriver_of_probe K.alloc K.ataRead
    (fun _ _ => True) (fun _ _ => trivial) (fun b slot io s => by
      obtain ⟨out, heq⟩ := Ata.identifyDrive_returns (hf b slot) (s.mem, s.ports)
      rw [Ata.probe_eq, heq]
      exact ⟨_, rfl, trivial⟩)
    (initializePciDevices { K with disks := identifier present } s).driver
  have hstart := kernelStart_eq { K with disks := identifier present } n s
  rw [hdriver, startLines_identifier K hf, Option.map_some] at hstart
  have hshort : ∀ l ∈ transcript present, l.Short := by
    rw [← startLines_identifier K hf (initializePciDevices K s).driver]
    exact short_startLines
  generalize transcript present = ls at hstart hshort hroom ⊢
  exact ⟨_, hstart, fun x hx => screen_putLines s.terminal hshort hroom hx,
    onScreen_putLines_iff s.terminal hshort hroom⟩

/-- One drive, no PCI function, and a bump allocator. -/
def barePlatform : Platform Ptr (Bus → Ata.Line) (BitVec 32) where
  above := 0
  frame := []
  alloc := bump
  disks := identifier Ata.onlyMaster
  config := Pci.hostBridge fun _ _ _ _ => 0xFFFFFFFF
  ataRead := 0x04000000
  red := Palette.red.code
  green := Palette.green.code

def bareMachine : Machine Ptr (Bus → Ata.Line) (BitVec 32) where
  driver := Ata.bootDriver
  config := 0
  devices := 0
  deviceCount := 0
  terminal := zeroTerminal

theorem kernelStart_screen_bareMachine : ∃ patience, ∀ fuel > patience, ∃ s',
    kernelStart { barePlatform with disks := identifier Ata.onlyMaster } fuel bareMachine = some s' ∧
      OnScreen s'.terminal := by
  obtain ⟨patience, h⟩ :=
    kernelStart_screen barePlatform Ata.onlyMaster bareMachine (by decide)
  refine ⟨patience, fun fuel hfuel => ?_⟩
  obtain ⟨s', hstart, -, hscreen⟩ := h fuel hfuel
  exact ⟨s', hstart, hscreen.mpr (by decide)⟩

end TinaOS.Boot
