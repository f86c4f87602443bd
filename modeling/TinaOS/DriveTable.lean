import TinaOS.AtaPolling

/-!
# The table of drives

`drives` and `ata_buffer` are never set, so the table of drives and the answer to IDENTIFY both
lie at address 0. What a run keeps of the table depends on what the drives answer.
-/

namespace TinaOS.Ata

open ByteMemory Sequences

variable {α δ : Type*}

def getDrives (s : Driver α δ) : Ptr := s.drives

def getDrive (index : BitVec 32) (s : Driver α δ) : Ptr := load32 s.mem (s.drives + 4 * index)

def getMainDrive (s : Driver α δ) : Ptr := load32 s.mem (getDrives s)

/-- A call of the driver. Each IDENTIFY may meet another drive. -/
inductive Call where
  | add (drive : Ptr)
  | identify (bus slot : Byte) (status : ℕ → Byte) (data : Sector)

/-- The pointers that a call adds. -/
def Call.added : Call → List Ptr
  | .add drive => [drive]
  | .identify .. => []

inductive Step : Driver α δ → Call → Driver α δ → Prop
  | add (s : Driver α δ) (drive : Ptr) : Step s (.add drive) (addDrive drive s)
  | identify {s : Driver α δ} {bus slot found : Byte} {status : ℕ → Byte} {data : Sector} {fuel : ℕ}
      {m : Mem} {w : Watch} (h : identifyDrive (watched (busIo bus) status data) fuel bus slot
        (s.mem, Watch.start) = some (found, m, w)) :
      Step s (.identify bus slot status data) { s with mem := m }

/-- A run, as its calls with the state after each. -/
def Run : Driver α δ → List (Call × Driver α δ) → Prop
  | _, [] => True
  | s, (c, s') :: run => Step s c s' ∧ Run s' run

/-- The pointers added are the entries of the table, in order. -/
structure InOrder (added : List Ptr) (s : Driver α δ) : Prop where
  entries : ∀ i : ℕ, (i : ℤ) < s.driveCount.toInt →
    added[i]? = some (getDrive (BitVec.ofNat 32 i) s)
  main : 0 < s.driveCount.toInt → added[0]? = some (getMainDrive s)

/-- IDENTIFY leaves the entries of the table as they are. -/
def Leaves (s s' : Driver α δ) : Call → Prop
  | .add _ => True
  | .identify .. => ∀ i : ℕ, (i : ℤ) < s.driveCount.toInt →
      getDrive (BitVec.ofNat 32 i) s' = getDrive (BitVec.ofNat 32 i) s

/-- The table is in order in every state of a run, and no IDENTIFY changes it. -/
def KeepsTable : List Ptr → Driver α δ → List (Call × Driver α δ) → Prop
  | added, s, [] => InOrder added s
  | added, s, (c, s') :: run =>
    InOrder added s ∧ Leaves s s' c ∧ KeepsTable (added ++ c.added) s' run

/-- The word of the image at the place of a table entry. -/
def imageWord (data : Sector) (i : ℕ) : BitVec 32 :=
  let place := (4 * BitVec.ofNat 32 i : BitVec 32).toNat
  data (place / 2 + 1) ++ data (place / 2)

/-- What a call may do to the table. An entry at the place of the new one, round the end of the
address space, is the same pointer; and what a drive answers at the place of an entry is that entry. -/
def Harmless (added : List Ptr) (s : Driver α δ) : Call → Prop
  | .add drive => ∀ i : ℕ, (i : ℤ) < (s.driveCount + 1).toInt →
      (4 * BitVec.ofNat 32 i : BitVec 32) = 4 * s.driveCount → (added ++ [drive])[i]? = some drive
  | .identify _ _ status data => Answers (status 0) → ∀ i : ℕ, (i : ℤ) < s.driveCount.toInt →
      (4 * BitVec.ofNat 32 i : BitVec 32).toNat < 512 → added[i]? = some (imageWord data i)

/-- Every call of a run is harmless. -/
def HarmlessRun : List Ptr → Driver α δ → List (Call × Driver α δ) → Prop
  | _, _, [] => True
  | added, s, (c, s') :: run => Harmless added s c ∧ HarmlessRun (added ++ c.added) s' run

/-- The variables as `ata.h` leaves them, with the number of pointers added. -/
structure Tracks (added : List Ptr) (s : Driver α δ) : Prop where
  drives : s.drives = 0
  count : s.driveCount = BitVec.ofNat 32 added.length

variable {s s' : Driver α δ} {added : List Ptr} {c : Call} {run : List (Call × Driver α δ)} {i : ℕ}
  {drive : Ptr} {data : Sector} {m : Mem}

theorem Step.tracks (h : Step s c s') (T : Tracks added s) : Tracks (added ++ c.added) s' := by
  obtain ⟨hdrives, hcount⟩ := T
  cases h with
  | add drive =>
    refine ⟨hdrives, ?_⟩
    simp only [addDrive, hcount, Call.added, List.length_append, List.length_singleton,
      BitVec.ofNat_add]
    rfl
  | identify h => exact ⟨hdrives, by rw [Call.added, List.append_nil, hcount]⟩

theorem place_apart {i c : BitVec 32} (h : 4 * i ≠ 4 * c) : Apart (4 * c) 4 (4 * i) 4 := by
  have hne : (4 * i).toNat ≠ (4 * c).toNat := fun heq => h (BitVec.eq_of_toNat_eq heq)
  simp only [Apart, BitVec.toNat_sub, BitVec.toNat_mul, BitVec.reduceToNat] at *
  omega

theorem place_eq (h : s.drives = 0) (i : BitVec 32) : s.drives + 4 * i = 4 * i := by
  rw [h]
  exact BitVec.zero_add _

theorem getDrive_eq (h : s.drives = 0) (i : BitVec 32) : getDrive i s = load32 s.mem (4 * i) := by
  rw [getDrive, place_eq h]

theorem getDrive_addDrive (T : Tracks added s) (drive : Ptr) (i : BitVec 32) :
    getDrive i (addDrive drive s) = if 4 * i = 4 * s.driveCount then drive else getDrive i s := by
  have hdrives : (addDrive drive s).drives = 0 := T.drives
  rw [getDrive_eq hdrives, getDrive_eq T.drives, addDrive, place_eq T.drives]
  split_ifs with h
  · rw [h, load32_store32_same]
  · exact load32_store32_apart drive (place_apart h)

theorem getMainDrive_eq (s : Driver α δ) : getMainDrive s = getDrive (BitVec.ofNat 32 0) s := by
  have hfirst : s.drives + 4 * BitVec.ofNat 32 0 = s.drives := BitVec.add_zero s.drives
  rw [getMainDrive, getDrives, getDrive, hfirst]

theorem inOrder_iff : InOrder added s ↔
    ∀ i : ℕ, (i : ℤ) < s.driveCount.toInt → added[i]? = some (getDrive (BitVec.ofNat 32 i) s) := by
  refine ⟨InOrder.entries, fun h => ⟨h, fun hpos => ?_⟩⟩
  rw [getMainDrive_eq]
  exact h 0 hpos

/-- Below the new count there is one index more. -/
theorem lt_of_lt_succ {count : BitVec 32} (hi : (i : ℤ) < (count + 1).toInt)
    (hne : BitVec.ofNat 32 i ≠ count) : (i : ℤ) < count.toInt := by
  have hlt := count.isLt
  have hne' : i ≠ count.toNat := by
    rintro rfl
    rw [BitVec.ofNat_toNat, BitVec.setWidth_eq] at hne
    exact hne rfl
  simp only [BitVec.toInt_eq_toNat_cond, BitVec.toNat_add, BitVec.reduceToNat] at hi ⊢
  split_ifs at hi ⊢
  · omega
  · omega
  · omega
  · omega

theorem inOrder_addDrive_iff (T : Tracks added s) (h : InOrder added s) (drive : Ptr) :
    InOrder (added ++ [drive]) (addDrive drive s) ↔ Harmless added s (.add drive) := by
  rw [inOrder_iff]
  constructor
  · intro h' i hi hplace
    have hentry := h' i hi
    rwa [getDrive_addDrive T, if_pos hplace] at hentry
  · intro hharmless i hi
    rw [getDrive_addDrive T]
    split_ifs with hplace
    · exact hharmless i hi hplace
    · have hold := h.entries i (lt_of_lt_succ hi fun heq => hplace (by rw [heq]))
      have hlen := (List.getElem?_eq_some_iff.mp hold).1
      rw [List.getElem?_append_left hlen]
      exact hold

/-- IDENTIFY writes the image to address 0 if the drive answers, and nothing otherwise. -/
theorem identifyDrive_mem {bus slot found : Byte} {status : ℕ → Byte} {fuel : ℕ} {w : Watch} {m' : Mem}
    (h : identifyDrive (watched (busIo bus) status data) fuel bus slot (m, Watch.start) =
      some (found, m', w)) :
    (Answers (status 0) → m' = writeBytes m 0 512 (sectorByte data)) ∧
      (¬ Answers (status 0) → m' = m) := by
  constructor
  · intro hanswers
    obtain ⟨n₁, n₂, -, -, hr⟩ :=
      (identifyDrive_watched bus slot status data m hanswers).mp ⟨fuel, h⟩
    have hwords := readWords_watched (busIo bus) status data ataBuffer m (n₂ + 1) (Nat.le_refl 256)
    rw [hwords] at hr
    exact (Prod.mk.inj (Prod.mk.inj hr).2).1.symm
  · intro hsilent
    rw [identifyDrive_silent hsilent] at h
    exact (Prod.mk.inj (Prod.mk.inj (Option.some.inj h)).2).1.symm

theorem sectorByte_pair (data : Sector) (n : ℕ) (hn : n % 2 = 0) :
    sectorByte data (n + 1) ++ sectorByte data n = data (n / 2) := by
  have hdiv : (n + 1) / 2 = n / 2 := by omega
  have hmod : (n + 1) % 2 = 1 := by omega
  rw [sectorByte, sectorByte, hdiv, hmod, hn]
  exact append_halves (w := 8) (data (n / 2))

/-- Four aligned bytes of memory after the image was written to address 0. -/
theorem load32_image (m : Mem) (data : Sector) {place : Ptr} (h4 : place.toNat % 4 = 0) :
    load32 (writeBytes m 0 512 (sectorByte data)) place =
      if place.toNat < 512 then data (place.toNat / 2 + 1) ++ data (place.toNat / 2)
      else load32 m place := by
  have hlt := place.isLt
  split_ifs with hin
  · have hbyte : ∀ j < 4, writeBytes m 0 512 (sectorByte data) (place + BitVec.ofNat 32 j) =
        sectorByte data (place.toNat + j) := by
      intro j hj
      have hoff : (place + BitVec.ofNat 32 j - 0).toNat = place.toNat + j := by
        have hsub : place + BitVec.ofNat 32 j - 0 = place + BitVec.ofNat 32 j := BitVec.sub_zero _
        rw [hsub, BitVec.toNat_add, BitVec.toNat_ofNat]
        omega
      rw [writeBytes, hoff]
      exact if_pos (by omega)
    have h0 : writeBytes m 0 512 (sectorByte data) place = sectorByte data place.toNat := by
      simpa using hbyte 0 (by omega)
    have h1 : writeBytes m 0 512 (sectorByte data) (place + 1) = sectorByte data (place.toNat + 1) :=
      hbyte 1 (by omega)
    have h2 : writeBytes m 0 512 (sectorByte data) (place + 2) = sectorByte data (place.toNat + 2) :=
      hbyte 2 (by omega)
    have h3 : writeBytes m 0 512 (sectorByte data) (place + 2 + 1) =
        sectorByte data (place.toNat + 2 + 1) := by
      rw [BitVec.add_assoc]
      exact hbyte 3 (by omega)
    have hhalf : (place.toNat + 2) / 2 = place.toNat / 2 + 1 := by omega
    rw [load32_eq_append, load16, load16, h0, h1, h2, h3, sectorByte_pair data _ (by omega),
      sectorByte_pair data _ (by omega), hhalf]
  · apply load32_writeBytes
    simp only [Apart, BitVec.toNat_sub, BitVec.reduceToNat]
    omega

/-- Entries after IDENTIFY of a drive that answers. -/
theorem getDrive_image (T : Tracks added s) (data : Sector) (i : ℕ) :
    getDrive (BitVec.ofNat 32 i) { s with mem := writeBytes s.mem 0 512 (sectorByte data) } =
      if (4 * BitVec.ofNat 32 i : BitVec 32).toNat < 512 then imageWord data i
      else getDrive (BitVec.ofNat 32 i) s := by
  have h4 : (4 * BitVec.ofNat 32 i : BitVec 32).toNat % 4 = 0 := by
    simp only [BitVec.toNat_mul, BitVec.toNat_ofNat, BitVec.reduceToNat]
    omega
  have hdrives : ({ s with mem := writeBytes s.mem 0 512 (sectorByte data) } : Driver α δ).drives = 0 :=
    T.drives
  rw [getDrive_eq hdrives, getDrive_eq T.drives, load32_image s.mem data h4]
  rfl

/-- With the table in order before, it stays so and is left alone exactly by a harmless call. -/
theorem Step.inOrder_iff (h : Step s c s') (T : Tracks added s) (hord : InOrder added s) :
    Leaves s s' c ∧ InOrder (added ++ c.added) s' ↔ Harmless added s c := by
  cases h with
  | add drive => exact (and_iff_right trivial).trans (inOrder_addDrive_iff T hord drive)
  | @identify bus slot found status data fuel m w h =>
    obtain ⟨hwritten, hsilent⟩ := identifyDrive_mem h
    rw [Call.added, List.append_nil]
    by_cases hanswers : Answers (status 0)
    · rw [hwritten hanswers, Leaves, Harmless, Ata.inOrder_iff]
      simp only [getDrive_image T]
      constructor
      · rintro ⟨-, hord'⟩ - i hi hin
        have hentry := hord' i hi
        rwa [if_pos hin] at hentry
      · intro hharmless
        have hsame : ∀ i : ℕ, (i : ℤ) < s.driveCount.toInt →
            (if (4 * BitVec.ofNat 32 i : BitVec 32).toNat < 512 then imageWord data i
              else getDrive (BitVec.ofNat 32 i) s) = getDrive (BitVec.ofNat 32 i) s := by
          intro i hi
          split_ifs with hin
          · have himage := hharmless hanswers i hi hin
            rw [hord.entries i hi] at himage
            exact (Option.some.inj himage).symm
          · rfl
        exact ⟨hsame, fun i hi => by rw [hsame i hi, hord.entries i hi]⟩
    · rw [hsilent hanswers]
      exact ⟨fun _ habs => absurd habs hanswers, fun _ => ⟨fun _ _ => rfl, hord⟩⟩

theorem KeepsTable.inOrder (h : KeepsTable added s run) : InOrder added s := by
  cases run with
  | nil => exact h
  | cons _ _ => exact h.1

theorem Tracks.keepsTable_iff (T : Tracks added s) (hord : InOrder added s) (hrun : Run s run) :
    KeepsTable added s run ↔ HarmlessRun added s run := by
  induction run generalizing added s with
  | nil => exact iff_of_true hord trivial
  | cons head run ih =>
    obtain ⟨c, s'⟩ := head
    obtain ⟨hstep, hrest⟩ := hrun
    have hiff := hstep.inOrder_iff T hord
    constructor
    · rintro ⟨-, hleaves, hkeeps⟩
      obtain ⟨hord', hharmless⟩ : InOrder (added ++ c.added) s' ∧ Harmless added s c :=
        ⟨hkeeps.inOrder, hiff.mp ⟨hleaves, hkeeps.inOrder⟩⟩
      exact ⟨hharmless, (ih (hstep.tracks T) hord' hrest).mp hkeeps⟩
    · rintro ⟨hharmless, hrun⟩
      obtain ⟨hleaves, hord'⟩ := hiff.mpr hharmless
      exact ⟨hord, hleaves, (ih (hstep.tracks T) hord' hrest).mpr hrun⟩

/-- The globals as `ata.h` leaves them. -/
structure AtStart (s : Driver α δ) : Prop where
  drives : s.drives = 0
  count : s.driveCount = 0

theorem AtStart.tracks (h : AtStart s) : Tracks [] s := ⟨h.drives, h.count⟩

theorem AtStart.inOrder (h : AtStart s) : InOrder [] s := by
  have hzero : s.driveCount.toInt = 0 := by
    rw [h.count]
    rfl
  rw [inOrder_iff]
  intro i hi
  omega

/-- The table keeps the pointers added, in every state of a run, exactly if every call is harmless:
no pointer is stored over another one, which takes `2 ^ 30` drives, and each drive that answers
IDENTIFY answers at the place of a table entry with that entry. -/
theorem keepsTable_iff_harmlessRun (h : AtStart s) (hrun : Run s run) :
    KeepsTable [] s run ↔ HarmlessRun [] s run := h.tracks.keepsTable_iff h.inOrder hrun

/-- The driver at the start, over memory that is all 0. -/
def emptyDriver : Driver Unit Unit := ⟨fun _ => 0, (), (), 0, 0⟩

theorem atStart_emptyDriver : AtStart emptyDriver := ⟨rfl, rfl⟩

theorem harmless_first (drive : Ptr) : Harmless [] emptyDriver (.add drive) := by
  intro i hi _
  have hone : (emptyDriver.driveCount + 1).toInt = 1 := by decide
  obtain rfl : i = 0 := by omega
  rfl

theorem keepsTable_iff_absent : KeepsTable [] emptyDriver
    [(.add 0x300000, addDrive 0x300000 emptyDriver),
      (.identify 0 0 (fun _ => 0) (fun _ => 0x4141), addDrive 0x300000 emptyDriver)] := by
  have hsilent : ¬ Answers 0 := fun h => h.1 rfl
  have hidentify : Step (addDrive 0x300000 emptyDriver)
      (.identify 0 0 (fun _ => 0) (fun _ => 0x4141)) (addDrive 0x300000 emptyDriver) :=
    .identify (identifyDrive_silent hsilent 0)
  have hrun : Run emptyDriver [(.add 0x300000, addDrive 0x300000 emptyDriver),
      (.identify 0 0 (fun _ => 0) (fun _ => 0x4141), addDrive 0x300000 emptyDriver)] :=
    ⟨.add _ _, hidentify, trivial⟩
  exact (keepsTable_iff_harmlessRun atStart_emptyDriver hrun).mpr
    ⟨harmless_first _, fun h => absurd h hsilent, trivial⟩

/-- The answer of a drive is stored over the pointer added before. -/
theorem not_keepsTable : ∃ s', AtStart emptyDriver ∧ Run emptyDriver
      [(.add 0x300000, addDrive 0x300000 emptyDriver),
        (.identify 0 0 (fun _ => 0x58) (fun _ => 0x4141), s')] ∧
    ¬ KeepsTable [] emptyDriver
      [(.add 0x300000, addDrive 0x300000 emptyDriver),
        (.identify 0 0 (fun _ => 0x58) (fun _ => 0x4141), s')] := by
  have hanswers : Answers 0x58 := ⟨by decide, by decide⟩
  obtain ⟨fuel, hcall⟩ := (identifyDrive_watched 0 0 (fun _ => 0x58) (fun _ => 0x4141)
    (addDrive 0x300000 emptyDriver).mem hanswers).mpr
    ⟨1, 2, firstFrom_self (by decide), firstFrom_self (by decide), rfl⟩
  generalize readWords (watched (busIo 0) (fun _ => 0x58) fun _ => 0x4141) (busIo 0) ataBuffer 256
    ((addDrive 0x300000 emptyDriver).mem, ⟨3, []⟩) = out at hcall
  have hrun : Run emptyDriver [(.add 0x300000, addDrive 0x300000 emptyDriver),
      (.identify 0 0 (fun _ => 0x58) (fun _ => 0x4141),
        { addDrive 0x300000 emptyDriver with mem := out.1 })] :=
    ⟨.add _ _, .identify hcall, trivial⟩
  refine ⟨_, atStart_emptyDriver, hrun, fun hkeeps => ?_⟩
  have hharmless := (atStart_emptyDriver.tracks.keepsTable_iff atStart_emptyDriver.inOrder hrun).mp
    hkeeps
  have hentry := hharmless.2.1 hanswers 0 (by decide) (by decide)
  revert hentry
  decide

end TinaOS.Ata
