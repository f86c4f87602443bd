import TinaOS.Strings
import Mathlib.Data.List.Induction
import Mathlib.Logic.Function.Basic
import Mathlib.Tactic.SplitIfs

/-!
# The terminal of `display/vga.c`

Characters go to the cell at the cursor and move it on. A printed character wraps at the
end of a row and at the end of the screen; a newline goes to the next row without the
second wrap. The screen is kept inside its cells exactly as long as no newline is put in
the last row.
-/

namespace TinaOS.Vga

open Strings

def WIDTH : BitVec 32 := 80

def HEIGHT : BitVec 32 := 40

/-- `NEW_LINE_AT_END`, which no code changes. -/
def NEW_LINE_AT_END : Bool := true

inductive Palette where
  | black | blue | green | cyan | red | magenta | brown | lgrey
  | dgrey | lblue | lgreen | lcyan | lred | lmagenta | lbrown | white
  deriving DecidableEq, Repr

def Palette.code (c : Palette) : Byte := BitVec.ofNat 8 c.ctorIdx

/-- `vga_color_entry`; the colours may be any byte that a caller passes for one. -/
def vgaColorEntry (fgColor bgColor : Byte) : Byte := fgColor ||| bgColor <<< 4

def vgaEntry (c color : Byte) : BitVec 16 := c.setWidth 16 ||| color.setWidth 16 <<< 8

/-- The variables of `vga.h` and the port writes. `buffer[i]` is the halfword `2 * i` bytes
above `0xB8000`, so an index counts modulo `2 ^ 31`. `stores` keeps the indices that
`put_terminal_entry_at` has used since `make_vga_terminal`, and `put` the characters given to
`put_terminal_char`, each the latest first; no code reads them. -/
structure Terminal where
  terminalRow : BitVec 32
  terminalColumn : BitVec 32
  terminalColor : Byte
  buffer : BitVec 31 → BitVec 16
  ports : List (BitVec 16 × Byte)
  stores : List (BitVec 32)
  put : List Byte

/-- The cell that an index of `buffer` names. -/
def cell (idx : BitVec 32) : BitVec 31 := idx.setWidth 31

/-- `buffer[idx] = entry` -/
def setCell (buffer : BitVec 31 → BitVec 16) (idx : BitVec 32) (entry : BitVec 16) :
    BitVec 31 → BitVec 16 := Function.update buffer (cell idx) entry

/-- The two loops of `make_vga_terminal`. -/
def clear (buffer : BitVec 31 → BitVec 16) (color : Byte) : BitVec 31 → BitVec 16 :=
  (List.range HEIGHT.toNat).foldl (fun buffer y =>
    (List.range WIDTH.toNat).foldl (fun buffer x =>
      setCell buffer (BitVec.ofNat 32 y * WIDTH + BitVec.ofNat 32 x) (vgaEntry (ascii ' ') color))
      buffer) buffer

def makeVgaTerminal (t : Terminal) : Terminal :=
  let color := vgaColorEntry Palette.black.code Palette.white.code
  { t with
    terminalRow := 0
    terminalColumn := 0
    terminalColor := color
    buffer := clear t.buffer color
    stores := [] }

def outb (t : Terminal) (port : BitVec 16) (value : Byte) : Terminal :=
  { t with ports := (port, value) :: t.ports }

def updateCursorPosition (t : Terminal) (x y : BitVec 32) : Terminal :=
  let position : BitVec 16 := (y * WIDTH + x).setWidth 16
  let t := outb t 0x3D4 0x0F
  let t := outb t 0x3D5 ((position &&& 0xFF).setWidth 8)
  let t := outb t 0x3D4 0x0E
  outb t 0x3D5 ((position >>> 8 &&& 0xFF).setWidth 8)

def putTerminalEntryAt (t : Terminal) (c color : Byte) (x y : BitVec 32) : Terminal :=
  let idx := y * WIDTH + x
  { t with buffer := setCell t.buffer idx (vgaEntry c color), stores := idx :: t.stores }

def putTerminalChar (t : Terminal) (c : Byte) : Terminal :=
  let t := { t with put := c :: t.put }
  let t := updateCursorPosition t t.terminalColumn t.terminalRow
  if c = ascii '\n' then
    { t with terminalRow := t.terminalRow + 1, terminalColumn := 0 }
  else
    let t := putTerminalEntryAt t c t.terminalColor t.terminalColumn t.terminalRow
    let t := { t with terminalColumn := t.terminalColumn + 1 }
    if t.terminalColumn = WIDTH then
      let t := { t with terminalColumn := 0, terminalRow := t.terminalRow + 1 }
      if t.terminalRow = HEIGHT then { t with terminalRow := 0 } else t
    else t

def putChars (t : Terminal) (cs : List Byte) : Terminal := cs.foldl putTerminalChar t

def writeToTerminal (t : Terminal) (data : ℕ → Byte) (size : ℕ) : Terminal :=
  let t := (List.range size).foldl (fun t idx => putTerminalChar t (data idx)) t
  if NEW_LINE_AT_END then putTerminalChar t (ascii '\n') else t

def writeStringToTerminal (fuel : ℕ) (t : Terminal) (data : ℕ → Byte) : Option Terminal :=
  (strlen fuel data).map (writeToTerminal t data)

private theorem foldl_of_mem {α β : Type*} {f : β → α → β} {P : β → Prop} {l : List α} {a : α}
    (ha : a ∈ l) (hit : ∀ b, P (f b a)) (keep : ∀ b x, P b → P (f b x)) (b : β) :
    P (l.foldl f b) := by
  induction l generalizing b with
  | nil => simp at ha
  | cons x l ih =>
    rcases List.mem_cons.mp ha with rfl | ha
    · exact List.foldlRecOn l f (hit b) fun b hb x _ => keep b x hb
    · exact ih ha _

theorem setCell_same (b : BitVec 31 → BitVec 16) (idx : BitVec 32) (e : BitVec 16) :
    setCell b idx e (cell idx) = e := Function.update_self _ _ _

theorem setCell_keeps {b : BitVec 31 → BitVec 16} {idx idx' : BitVec 32} {e : BitVec 16}
    (h : b (cell idx) = e) : setCell b idx' e (cell idx) = e := by
  by_cases heq : cell idx = cell idx'
  · rw [heq, setCell_same]
  · rw [setCell, Function.update_of_ne heq, h]

/-- `make_vga_terminal` puts a space into every cell of the screen. -/
theorem buffer_makeVgaTerminal (t : Terminal) {idx : BitVec 32} (h : idx < WIDTH * HEIGHT) :
    (makeVgaTerminal t).buffer (cell idx) =
      vgaEntry (ascii ' ') (vgaColorEntry Palette.black.code Palette.white.code) := by
  have hlt : idx.toNat < 3200 := h
  have hy : idx.toNat / 80 ∈ List.range HEIGHT.toNat :=
    List.mem_range.mpr (show idx.toNat / 80 < 40 by omega)
  have hx : idx.toNat % 80 ∈ List.range WIDTH.toNat :=
    List.mem_range.mpr (show idx.toNat % 80 < 80 by omega)
  have hidx : BitVec.ofNat 32 (idx.toNat / 80) * WIDTH + BitVec.ofNat 32 (idx.toNat % 80) = idx := by
    simp only [← BitVec.toNat_inj, WIDTH, BitVec.toNat_add, BitVec.toNat_mul, BitVec.toNat_ofNat,
      BitVec.reduceToNat]
    omega
  simp only [makeVgaTerminal, clear]
  generalize vgaEntry (ascii ' ') _ = e
  let P := fun b : BitVec 31 → BitVec 16 => b (cell idx) = e
  refine foldl_of_mem (P := P) hy (fun b => ?_) (fun b y hb => ?_) _
  · refine foldl_of_mem (P := P) hx (fun b => ?_) (fun b x hb => setCell_keeps hb) _
    rw [hidx]
    exact setCell_same b idx e
  · exact List.foldlRecOn (motive := P) _ _ hb fun b hb x _ => setCell_keeps hb

theorem setWidth_and_mask {w v : ℕ} {mask : BitVec w} (hm : mask.setWidth v = BitVec.allOnes v)
    (x : BitVec w) : (x &&& mask).setWidth v = x.setWidth v := by
  rw [BitVec.setWidth_and, hm, BitVec.and_allOnes]

variable {t : Terminal} {c : Byte} {cs : List Byte}

def Terminal.cursor (t : Terminal) : BitVec 32 := t.terminalRow * WIDTH + t.terminalColumn

def rowAfter (t : Terminal) (c : Byte) : BitVec 32 :=
  if c = ascii '\n' then t.terminalRow + 1
  else if t.terminalColumn + 1 = WIDTH then
    if t.terminalRow + 1 = HEIGHT then 0 else t.terminalRow + 1
  else t.terminalRow

def columnAfter (t : Terminal) (c : Byte) : BitVec 32 :=
  if c = ascii '\n' then 0
  else if t.terminalColumn + 1 = WIDTH then 0 else t.terminalColumn + 1

/-- All that `put_terminal_char` does, field by field. -/
theorem putTerminalChar_eq (t : Terminal) (c : Byte) :
    putTerminalChar t c =
      { terminalRow := rowAfter t c
        terminalColumn := columnAfter t c
        terminalColor := t.terminalColor
        buffer := if c = ascii '\n' then t.buffer
          else setCell t.buffer t.cursor (vgaEntry c t.terminalColor)
        ports := (updateCursorPosition t t.terminalColumn t.terminalRow).ports
        stores := if c = ascii '\n' then t.stores else t.cursor :: t.stores
        put := c :: t.put } := by
  by_cases hn : c = ascii '\n'
  · simp only [putTerminalChar, rowAfter, columnAfter, hn, if_true]
    rfl
  · by_cases hw : t.terminalColumn + 1 = WIDTH
    · by_cases hl : t.terminalRow + 1 = HEIGHT
      · simp only [putTerminalChar, rowAfter, columnAfter, putTerminalEntryAt, updateCursorPosition,
          outb, hn, hw, hl, if_true, if_false]
        rfl
      · simp only [putTerminalChar, rowAfter, columnAfter, putTerminalEntryAt, updateCursorPosition,
          outb, hn, hw, hl, if_true, if_false]
        rfl
    · simp only [putTerminalChar, rowAfter, columnAfter, putTerminalEntryAt, updateCursorPosition,
        outb, hn, hw, if_false]
      rfl

@[simp] theorem terminalRow_putTerminalChar (t : Terminal) (c : Byte) :
    (putTerminalChar t c).terminalRow = rowAfter t c := by rw [putTerminalChar_eq]

@[simp] theorem terminalColumn_putTerminalChar (t : Terminal) (c : Byte) :
    (putTerminalChar t c).terminalColumn = columnAfter t c := by rw [putTerminalChar_eq]

@[simp] theorem stores_putTerminalChar (t : Terminal) (c : Byte) :
    (putTerminalChar t c).stores = if c = ascii '\n' then t.stores else t.cursor :: t.stores := by
  rw [putTerminalChar_eq]

@[simp] theorem terminalColor_putTerminalChar (t : Terminal) (c : Byte) :
    (putTerminalChar t c).terminalColor = t.terminalColor := by rw [putTerminalChar_eq]

@[simp] theorem put_putTerminalChar (t : Terminal) (c : Byte) :
    (putTerminalChar t c).put = c :: t.put := by rw [putTerminalChar_eq]

theorem putChars_cons (t : Terminal) (c : Byte) (cs : List Byte) :
    putChars t (c :: cs) = putChars (putTerminalChar t c) cs := rfl

theorem putChars_putChars (t : Terminal) (cs cs' : List Byte) :
    putChars (putChars t cs) cs' = putChars t (cs ++ cs') := (List.foldl_append ..).symm

theorem put_putChars (t : Terminal) (cs : List Byte) :
    (putChars t cs).put = cs.reverse ++ t.put := by
  induction cs generalizing t with
  | nil => rfl
  | cons c cs ih =>
    rw [putChars_cons, ih, put_putTerminalChar, List.reverse_cons, List.append_assoc]
    rfl

theorem terminalColor_putChars (t : Terminal) (cs : List Byte) :
    (putChars t cs).terminalColor = t.terminalColor := by
  induction cs generalizing t with
  | nil => rfl
  | cons c cs ih => rw [putChars_cons, ih, terminalColor_putTerminalChar]

theorem putChars_append (t : Terminal) (cs : List Byte) (c : Byte) :
    putChars t (cs ++ [c]) = putTerminalChar (putChars t cs) c := by
  simp [putChars]

theorem map_of_spells {data : ℕ → Byte} (h : Spells data cs) :
    (List.range cs.length).map data = cs := by
  apply List.ext_getElem
  · simp
  · intro i hi hi'
    rw [List.getElem_map, List.getElem_range, h i (Nat.le_of_lt hi'), List.getD_eq_getElem?_getD,
      List.getElem?_eq_getElem hi', Option.getD_some]

/-- A string is put character by character, and then the newline. -/
theorem writeToTerminal_spells {data : ℕ → Byte} (h : Spells data cs) (t : Terminal) :
    writeToTerminal t data cs.length = putChars t (cs ++ [ascii '\n']) := by
  have hput : (List.range cs.length).foldl (fun t idx => putTerminalChar t (data idx)) t =
      putChars t cs := by
    rw [putChars, ← congrArg (List.foldl putTerminalChar t) (map_of_spells h), List.foldl_map]
  rw [writeToTerminal, hput, putChars_append]
  rfl

theorem writeStringToTerminal_bytes (s : CString) {fuel : ℕ} (hf : s.chars.length < fuel)
    (t : Terminal) : writeStringToTerminal fuel t s.bytes =
      some (putChars t (s.chars ++ [ascii '\n'])) := by
  rw [writeStringToTerminal, s.strlen_bytes hf, Option.map_some, writeToTerminal_spells s.spells]

theorem toNat_add_one {x n : BitVec 32} (h : x < n) : (x + 1).toNat = x.toNat + 1 := by
  have hlt : x.toNat < n.toNat := h
  have hn := n.isLt
  rw [BitVec.toNat_add]
  exact Nat.mod_eq_of_lt (show x.toNat + 1 < 2 ^ 32 by omega)

theorem add_one_lt {x n : BitVec 32} (h : x < n) (hne : x + 1 ≠ n) : x + 1 < n := by
  have hlt : x.toNat < n.toNat := h
  rw [ne_eq, ← BitVec.toNat_inj, toNat_add_one h] at hne
  rw [BitVec.lt_def, toNat_add_one h]
  omega

theorem columnAfter_lt (h : t.terminalColumn < WIDTH) (c : Byte) : columnAfter t c < WIDTH := by
  rw [columnAfter]
  split_ifs with hn hw
  · decide
  · decide
  · exact add_one_lt h hw

/-- Only a newline in the last row takes the cursor off the screen. -/
theorem rowAfter_lt (h : t.terminalRow < HEIGHT)
    (hc : ¬ (c = ascii '\n' ∧ t.terminalRow = HEIGHT - 1)) : rowAfter t c < HEIGHT := by
  rw [rowAfter]
  split_ifs with hn hw hl
  · apply add_one_lt h
    intro heq
    exact hc ⟨hn, by rw [← heq, BitVec.add_sub_cancel]⟩
  · decide
  · exact add_one_lt h hl
  · exact h

/-- The cursor is on the screen, and so is every cell written. -/
structure OnScreen (t : Terminal) : Prop where
  row_lt : t.terminalRow < HEIGHT
  column_lt : t.terminalColumn < WIDTH
  stores_lt : ∀ idx ∈ t.stores, idx < WIDTH * HEIGHT

theorem onScreen_makeVgaTerminal (t : Terminal) : OnScreen (makeVgaTerminal t) := by
  constructor
  case row_lt => exact show (0 : BitVec 32) < HEIGHT by decide
  case column_lt => exact show (0 : BitVec 32) < WIDTH by decide
  case stores_lt => simp [makeVgaTerminal]

theorem OnScreen.cursor_lt (h : OnScreen t) : t.cursor < WIDTH * HEIGHT := by
  obtain ⟨hr, hc, -⟩ := h
  simp only [Terminal.cursor, WIDTH, HEIGHT, BitVec.lt_def, BitVec.toNat_add, BitVec.toNat_mul,
    BitVec.reduceToNat] at *
  simp (disch := omega) only [Nat.mod_eq_of_lt]
  omega

/-- Every character but a newline in the last row keeps the terminal on the screen. -/
theorem OnScreen.putTerminalChar (h : OnScreen t)
    (hc : ¬ (c = ascii '\n' ∧ t.terminalRow = HEIGHT - 1)) : OnScreen (putTerminalChar t c) := by
  have hcursor := h.cursor_lt
  constructor
  case row_lt =>
    rw [terminalRow_putTerminalChar]
    exact rowAfter_lt h.row_lt hc
  case column_lt =>
    rw [terminalColumn_putTerminalChar]
    exact columnAfter_lt h.column_lt c
  case stores_lt =>
    rw [stores_putTerminalChar]
    split_ifs
    · exact h.stores_lt
    · exact List.forall_mem_cons.mpr ⟨hcursor, h.stores_lt⟩

theorem not_onScreen_newline (h : t.terminalRow = HEIGHT - 1) :
    ¬ OnScreen (putTerminalChar t (ascii '\n')) := by
  intro hs
  have hrow := hs.row_lt
  rw [terminalRow_putTerminalChar, rowAfter, if_pos rfl, h] at hrow
  exact absurd hrow (by decide)

/-- The terminal stays on the screen through a sequence of characters exactly if no newline
is put in the last row. -/
theorem onScreen_putChars_iff (t : Terminal) (cs : List Byte) :
    (∀ pre, pre <+: cs → OnScreen (putChars (makeVgaTerminal t) pre)) ↔
      ∀ pre, pre ++ [ascii '\n'] <+: cs →
        (putChars (makeVgaTerminal t) pre).terminalRow ≠ HEIGHT - 1 := by
  constructor
  · intro h pre hpre hrow
    have hs := h _ hpre
    rw [putChars_append] at hs
    exact not_onScreen_newline hrow hs
  · intro h pre
    induction pre using List.reverseRecOn with
    | nil => exact fun _ => onScreen_makeVgaTerminal t
    | append_singleton pre c ih =>
      intro hpre
      rw [putChars_append]
      apply (ih ((List.prefix_append pre [c]).trans hpre)).putTerminalChar
      rintro ⟨rfl, hrow⟩
      exact h pre hpre hrow

def zeroTerminal : Terminal where
  terminalRow := 0
  terminalColumn := 0
  terminalColor := 0
  buffer := fun _ => 0
  ports := []
  stores := []
  put := []

theorem not_onScreen_newlines :
    ¬ ∀ pre, pre <+: List.replicate 40 (ascii '\n') →
      OnScreen (putChars (makeVgaTerminal zeroTerminal) pre) := by
  intro h
  have hrow := (h _ (List.prefix_refl _)).row_lt
  exact absurd hrow (by decide)

end TinaOS.Vga
