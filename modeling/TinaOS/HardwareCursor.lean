import TinaOS.ScreenContents

/-!
# The cursor of the CRT controller

The controller has an index port and a data port; a byte sent to the data port goes to the
register that the index names. `put_terminal_char` reports the cursor before it moves it, so
the controller is one character behind.
-/

namespace TinaOS.Vga

open Strings

/-- A CRT controller: the register that the data port stands for, and the registers. -/
structure Crt where
  index : Byte
  registers : Byte → Byte

def INDEX_PORT : BitVec 16 := 0x3D4

def DATA_PORT : BitVec 16 := 0x3D5

def LOCATION_HIGH : Byte := 0x0E

def LOCATION_LOW : Byte := 0x0F

/-- What a byte sent to a port does to the controller. -/
def Crt.outb (d : Crt) (port : BitVec 16) (value : Byte) : Crt :=
  if port = INDEX_PORT then { d with index := value }
  else if port = DATA_PORT then { d with registers := Function.update d.registers d.index value }
  else d

/-- The controller after the port writes of a terminal, the latest of which comes first. -/
def Crt.after (d : Crt) (ports : List (BitVec 16 × Byte)) : Crt :=
  ports.foldr (fun w d => d.outb w.1 w.2) d

/-- The cursor location. -/
def Crt.location (d : Crt) : BitVec 16 := d.registers LOCATION_HIGH ++ d.registers LOCATION_LOW

/-- The controller shows the place where the next character will appear. -/
def Tracks (d : Crt) (t : Terminal) : Prop :=
  (d.after t.ports).location = (t.terminalRow * WIDTH + t.terminalColumn).setWidth 16

variable {t : Terminal} {c : Byte} {cs : List Byte}

theorem bytes_append (x : BitVec 16) :
    ((x >>> 8 &&& 0xFF).setWidth 8 : Byte) ++ ((x &&& 0xFF).setWidth 8 : Byte) = x := by
  have hmask : (0xFF : BitVec 16).setWidth 8 = BitVec.allOnes 8 := rfl
  rw [setWidth_and_mask hmask, setWidth_and_mask hmask]
  ext i hi
  rw [BitVec.getElem_append, ← BitVec.getLsbD_eq_getElem hi]
  by_cases hlow : i < 8
  · simp [hlow]
  · have hindex : 8 + (i - 8) = i := by omega
    simp [hlow, hindex]

/-- The two bytes of a position arrive in the two location registers. -/
theorem location_updateCursorPosition (d : Crt) (t : Terminal) (x y : BitVec 32) :
    (d.after (updateCursorPosition t x y).ports).location = (y * WIDTH + x).setWidth 16 := by
  have hports : DATA_PORT ≠ INDEX_PORT := by decide
  have hlow : LOCATION_LOW ≠ LOCATION_HIGH := by decide
  change Crt.location (Crt.outb (Crt.outb (Crt.outb (Crt.outb (d.after t.ports) INDEX_PORT
    LOCATION_LOW) DATA_PORT _) INDEX_PORT LOCATION_HIGH) DATA_PORT _) = _
  simp only [Crt.outb, hports, if_true, if_false, Crt.location, Function.update_self,
    Function.update_of_ne hlow]
  exact bytes_append _

/-- The controller shows where the character has just been put. -/
theorem location_putTerminalChar (d : Crt) (t : Terminal) (c : Byte) :
    (d.after (putTerminalChar t c).ports).location = t.cursor.setWidth 16 := by
  rw [putTerminalChar_eq]
  exact location_updateCursorPosition d t t.terminalColumn t.terminalRow

theorem column_putChars_lt (h : t.terminalColumn < WIDTH) (cs : List Byte) :
    (putChars t cs).terminalColumn < WIDTH := by
  induction cs generalizing t with
  | nil => exact h
  | cons c cs ih =>
    apply ih
    rw [terminalColumn_putTerminalChar]
    exact columnAfter_lt h c

/-- Every character moves the cursor, also when only the low 16 bits of it count. -/
theorem cursor_putTerminalChar_ne (h : t.terminalColumn < WIDTH) (c : Byte) :
    (putTerminalChar t c).cursor.setWidth 16 ≠ t.cursor.setWidth 16 := by
  have hcol : t.terminalColumn.toNat < 80 := h
  have hnext := toNat_add_one h
  have hwidth : WIDTH.toNat = 80 := rfl
  have hheight : HEIGHT.toNat = 40 := rfl
  have hone : (1 : BitVec 32).toNat = 1 := rfl
  have hzero : (0 : BitVec 32).toNat = 0 := rfl
  rw [Terminal.cursor, terminalRow_putTerminalChar, terminalColumn_putTerminalChar, rowAfter,
    columnAfter, Terminal.cursor]
  intro heq
  have hnat := congrArg BitVec.toNat heq
  simp only [BitVec.toNat_setWidth, BitVec.toNat_add, BitVec.toNat_mul, hwidth] at hnat
  split_ifs at hnat with hn hw hl
  · rw [BitVec.toNat_add, hone, hzero] at hnat
    omega
  · rw [← BitVec.toNat_inj, BitVec.toNat_add, hone, hheight] at hl
    rw [← BitVec.toNat_inj, hnext, hwidth] at hw
    rw [hzero] at hnat
    omega
  · rw [← BitVec.toNat_inj, hnext, hwidth] at hw
    rw [BitVec.toNat_add, hone, hzero] at hnat
    omega
  · rw [hnext] at hnat
    omega

theorem not_tracks_putTerminalChar (d : Crt) (h : t.terminalColumn < WIDTH) (c : Byte) :
    ¬ Tracks d (putTerminalChar t c) := by
  rw [Tracks, location_putTerminalChar]
  exact fun heq => cursor_putTerminalChar_ne h c heq.symm

/-- After no call does the controller show where the next character will appear; so it does
after every call of a sequence exactly if there is none. -/
theorem tracks_iff (d : Crt) (t : Terminal) (cs : List Byte) :
    (∀ pre c, ¬ Tracks d (putChars (makeVgaTerminal t) (pre ++ [c]))) ∧
    ((∀ pre c, pre ++ [c] <+: cs → Tracks d (putChars (makeVgaTerminal t) (pre ++ [c]))) ↔
      cs = []) := by
  have hnot : ∀ pre c, ¬ Tracks d (putChars (makeVgaTerminal t) (pre ++ [c])) := by
    intro pre c
    have hstart : (makeVgaTerminal t).terminalColumn < WIDTH := by
      change (0 : BitVec 32) < WIDTH
      decide
    rw [putChars_append]
    exact not_tracks_putTerminalChar d (column_putChars_lt hstart pre) c
  refine ⟨hnot, ?_, ?_⟩
  · intro h
    cases cs with
    | nil => rfl
    | cons c cs => exact absurd (h [] c (List.prefix_append [c] cs)) (hnot [] c)
  · rintro rfl pre c hpre
    simp at hpre

/-- After one character the controller still shows the first cell. -/
theorem not_tracks_letterA :
    ¬ ∀ pre c, pre ++ [c] <+: [ascii 'a'] →
      Tracks ⟨0, fun _ => 0⟩ (putChars (makeVgaTerminal zeroTerminal) (pre ++ [c])) := by
  intro h
  have hstart : (makeVgaTerminal zeroTerminal).terminalColumn < WIDTH := by
    change (0 : BitVec 32) < WIDTH
    decide
  have htracks := h [] (ascii 'a') (List.prefix_refl _)
  rw [putChars_append] at htracks
  exact not_tracks_putTerminalChar _ (column_putChars_lt hstart []) (ascii 'a') htracks

end TinaOS.Vga
