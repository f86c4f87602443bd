import TinaOS.Library.WriteLog
import TinaOS.Vga

/-!
# What a sequence of characters leaves on the screen

The buffer after a sequence of characters is the buffer before it with a log of writes
applied, one write for each character that is no newline. Row and column wrap by tests for
equality; on the screen this counts the cells around `WIDTH * HEIGHT`.
-/

namespace TinaOS.Vga

open Strings

variable {t : Terminal} {c : Byte} {cs : List Byte}

/-- The cells that a sequence of characters writes, each with its entry. -/
def entries (t : Terminal) : List Byte → List (BitVec 31 × BitVec 16)
  | [] => []
  | c :: cs =>
    if c = ascii '\n' then entries (putTerminalChar t c) cs
    else (cell t.cursor, vgaEntry c t.terminalColor) :: entries (putTerminalChar t c) cs

theorem entries_newline (t : Terminal) (cs : List Byte) :
    entries t (ascii '\n' :: cs) = entries (putTerminalChar t (ascii '\n')) cs := if_pos rfl

theorem entries_char (hc : c ≠ ascii '\n') (t : Terminal) (cs : List Byte) : entries t (c :: cs) =
    (cell t.cursor, vgaEntry c t.terminalColor) :: entries (putTerminalChar t c) cs := if_neg hc

theorem buffer_putChars (t : Terminal) (cs : List Byte) :
    (putChars t cs).buffer = WriteLog.apply t.buffer (entries t cs) := by
  induction cs generalizing t with
  | nil => rfl
  | cons c cs ih =>
    rw [putChars_cons, ih]
    by_cases hc : c = ascii '\n'
    · subst hc
      rw [entries_newline, putTerminalChar_eq]
      rfl
    · have hbuffer : (putTerminalChar t c).buffer =
          setCell t.buffer t.cursor (vgaEntry c t.terminalColor) := by
        rw [putTerminalChar_eq]
        exact if_neg hc
      rw [entries_char hc, WriteLog.apply_cons, hbuffer]
      rfl

/-- Every write is a store of `put_terminal_entry_at`. -/
theorem stores_putChars (t : Terminal) (cs : List Byte) :
    ∃ idxs, (putChars t cs).stores = idxs ++ t.stores ∧
      idxs.map cell = ((entries t cs).map Prod.fst).reverse := by
  induction cs generalizing t with
  | nil => exact ⟨[], rfl, rfl⟩
  | cons c cs ih =>
    obtain ⟨idxs, hstores, hmap⟩ := ih (putTerminalChar t c)
    rw [putChars_cons, hstores, stores_putTerminalChar]
    by_cases hc : c = ascii '\n'
    · subst hc
      exact ⟨idxs, by rw [if_pos rfl], by rw [entries_newline, hmap]⟩
    · refine ⟨idxs ++ [t.cursor], by rw [if_neg hc, List.append_assoc]; rfl, ?_⟩
      rw [entries_char hc, List.map_append, hmap, List.map_cons (f := Prod.fst), List.reverse_cons]
      rfl

/-- The cells of the screen. -/
def CELLS : ℕ := WIDTH.toNat * HEIGHT.toNat

/-- The place of the cursor, counted along the rows. -/
def position (t : Terminal) : ℕ := t.terminalRow.toNat * WIDTH.toNat + t.terminalColumn.toNat

structure InRange (t : Terminal) : Prop where
  row_lt : t.terminalRow < HEIGHT
  column_lt : t.terminalColumn < WIDTH

theorem InRange.position_lt (h : InRange t) : position t < CELLS := by
  have hrow : t.terminalRow.toNat < 40 := h.row_lt
  have hcol : t.terminalColumn.toNat < 80 := h.column_lt
  have hwidth : WIDTH.toNat = 80 := rfl
  have hcells : CELLS = 3200 := rfl
  rw [position, hwidth, hcells]
  omega

theorem InRange.cell_cursor (h : InRange t) : cell t.cursor = BitVec.ofNat 31 (position t) := by
  have hrow : t.terminalRow.toNat < 40 := h.row_lt
  have hcol : t.terminalColumn.toNat < 80 := h.column_lt
  apply BitVec.eq_of_toNat_eq
  simp only [cell, Terminal.cursor, position, WIDTH, BitVec.toNat_setWidth, BitVec.toNat_add,
    BitVec.toNat_mul, BitVec.toNat_ofNat, BitVec.reduceToNat]
  omega

theorem InRange.columnAfter_toNat (h : InRange t) (hc : c ≠ ascii '\n') :
    (columnAfter t c).toNat =
      if t.terminalColumn.toNat + 1 = 80 then 0 else t.terminalColumn.toNat + 1 := by
  have hnext := toNat_add_one h.column_lt
  have hend : t.terminalColumn + 1 = WIDTH ↔ t.terminalColumn.toNat + 1 = 80 := by
    rw [← BitVec.toNat_inj, hnext]
    rfl
  simp only [columnAfter, hc, if_false, hend]
  split_ifs
  · rfl
  · exact hnext

theorem InRange.rowAfter_toNat (h : InRange t) (hc : c ≠ ascii '\n') :
    (rowAfter t c).toNat =
      if t.terminalColumn.toNat + 1 = 80 then
        if t.terminalRow.toNat + 1 = 40 then 0 else t.terminalRow.toNat + 1
      else t.terminalRow.toNat := by
  have hnext := toNat_add_one h.row_lt
  have hend : t.terminalColumn + 1 = WIDTH ↔ t.terminalColumn.toNat + 1 = 80 := by
    rw [← BitVec.toNat_inj, toNat_add_one h.column_lt]
    rfl
  have hlast : t.terminalRow + 1 = HEIGHT ↔ t.terminalRow.toNat + 1 = 40 := by
    rw [← BitVec.toNat_inj, hnext]
    rfl
  simp only [rowAfter, hc, if_false, hend, hlast]
  split_ifs
  · rfl
  · exact hnext
  · rfl

/-- A printed character takes the cursor one place further around the screen. -/
theorem InRange.putTerminalChar (h : InRange t) (hc : c ≠ ascii '\n') :
    InRange (putTerminalChar t c) ∧ position (putTerminalChar t c) = (position t + 1) % CELLS := by
  have hwidth : WIDTH.toNat = 80 := rfl
  have hcells : CELLS = 3200 := rfl
  have hrow : t.terminalRow.toNat < 40 := h.row_lt
  have hcol : t.terminalColumn.toNat < 80 := h.column_lt
  refine ⟨⟨?_, ?_⟩, ?_⟩
  · rw [terminalRow_putTerminalChar]
    exact rowAfter_lt h.row_lt fun hlast => hc hlast.1
  · rw [terminalColumn_putTerminalChar]
    exact columnAfter_lt h.column_lt c
  · rw [position, position, hwidth, hcells, terminalRow_putTerminalChar,
      terminalColumn_putTerminalChar, h.rowAfter_toNat hc, h.columnAfter_toNat hc]
    split_ifs <;> omega

/-- The writes of a sequence without a newline go around the screen from the cursor on. -/
theorem InRange.entries_eq (h : InRange t) (hcs : ascii '\n' ∉ cs) :
    entries t cs = cs.mapIdx fun i c =>
      (BitVec.ofNat 31 ((position t + i) % CELLS), vgaEntry c t.terminalColor) := by
  induction cs generalizing t with
  | nil => rfl
  | cons c cs ih =>
    rw [List.mem_cons, not_or] at hcs
    obtain ⟨hin, hpos⟩ := h.putTerminalChar (Ne.symm hcs.1)
    rw [entries_char (Ne.symm hcs.1), ih hin hcs.2, List.mapIdx_cons, h.cell_cursor, hpos,
      terminalColor_putTerminalChar]
    have hstep : ∀ i, ((position t + 1) % CELLS + i) % CELLS = (position t + (i + 1)) % CELLS := by
      intro i
      rw [Nat.mod_add_mod, Nat.add_assoc, Nat.add_comm 1 i]
    simp only [hstep, Nat.add_zero, Nat.mod_eq_of_lt h.position_lt]

theorem InRange.putChars (h : InRange t) (hcs : ascii '\n' ∉ cs) :
    InRange (putChars t cs) ∧ position (putChars t cs) = (position t + cs.length) % CELLS := by
  induction cs generalizing t with
  | nil => exact ⟨h, (Nat.mod_eq_of_lt h.position_lt).symm⟩
  | cons c cs ih =>
    rw [List.mem_cons, not_or] at hcs
    obtain ⟨hin, hpos⟩ := h.putTerminalChar (Ne.symm hcs.1)
    obtain ⟨hin', hpos'⟩ := ih hin hcs.2
    refine ⟨hin', ?_⟩
    rw [putChars_cons, hpos', hpos, Nat.mod_add_mod, List.length_cons, Nat.add_assoc,
      Nat.add_comm 1]

theorem toNat_ofNat_cells (n : ℕ) : (BitVec.ofNat 31 (n % CELLS)).toNat = n % CELLS := by
  have hcells : CELLS = 3200 := rfl
  rw [hcells, BitVec.toNat_ofNat]
  omega

/-- Characters without a newline go around the screen: the cursor moves by their number, every
cell holds the last character put there in the colour of the terminal, and all others are as they
were. -/
theorem putChars_wraps (hrow : t.terminalRow < HEIGHT) (hcol : t.terminalColumn < WIDTH)
    (hcs : ascii '\n' ∉ cs) :
    (putChars t cs).terminalRow < HEIGHT ∧ (putChars t cs).terminalColumn < WIDTH ∧
    position (putChars t cs) = (position t + cs.length) % CELLS ∧
    (∀ i (hi : i < cs.length),
      (∀ j < cs.length, i < j → (position t + j) % CELLS ≠ (position t + i) % CELLS) →
      (putChars t cs).buffer (BitVec.ofNat 31 ((position t + i) % CELLS)) =
        vgaEntry cs[i] t.terminalColor) ∧
    ∀ x : BitVec 31, (∀ i < cs.length, (position t + i) % CELLS ≠ x.toNat) →
      (putChars t cs).buffer x = t.buffer x := by
  have h : InRange t := ⟨hrow, hcol⟩
  obtain ⟨⟨hrow', hcol'⟩, hpos⟩ := h.putChars hcs
  refine ⟨hrow', hcol', hpos, ?_, ?_⟩
  · intro i hi hlast
    rw [buffer_putChars, h.entries_eq hcs]
    generalize hlog : (cs.mapIdx fun i c =>
      (BitVec.ofNat 31 ((position t + i) % CELLS), vgaEntry c t.terminalColor)) = log
    have hlen : log.length = cs.length := by rw [← hlog, List.length_mapIdx]
    have hget : ∀ j (hj : j < cs.length), log[j] =
        (BitVec.ofNat 31 ((position t + j) % CELLS), vgaEntry cs[j] t.terminalColor) := by
      intro j hj
      simp only [← hlog, List.getElem_mapIdx]
    have hwrite := WriteLog.apply_getElem (f := t.buffer) (hlen ▸ hi : i < log.length) (by
      intro j hj hij
      rw [hget i hi, hget j (hlen ▸ hj)]
      intro heq
      have hnat := congrArg BitVec.toNat heq
      rw [toNat_ofNat_cells, toNat_ofNat_cells] at hnat
      exact hlast j (hlen ▸ hj) hij hnat)
    rwa [hget i hi] at hwrite
  · intro x hx
    rw [buffer_putChars, h.entries_eq hcs]
    apply WriteLog.apply_of_notMem
    intro hmem
    obtain ⟨w, hw, heq⟩ := List.mem_map.mp hmem
    obtain ⟨i, hi, rfl⟩ := List.mem_mapIdx.mp hw
    apply hx i hi
    rw [← heq, toNat_ofNat_cells]

/-- The cursor in the last cell of the screen. -/
def lastCell : Terminal := { zeroTerminal with terminalRow := 39, terminalColumn := 79 }

theorem putChars_wraps_lastCell :
    position (putChars lastCell [ascii 'a', ascii 'b']) = 1 ∧
      (putChars lastCell [ascii 'a', ascii 'b']).buffer 3199 = vgaEntry (ascii 'a') 0 ∧
      (putChars lastCell [ascii 'a', ascii 'b']).buffer 0 = vgaEntry (ascii 'b') 0 := by
  have hcs : ascii '\n' ∉ [ascii 'a', ascii 'b'] := by decide
  have hrow : lastCell.terminalRow < HEIGHT := by decide
  have hcol : lastCell.terminalColumn < WIDTH := by decide
  obtain ⟨-, -, hpos, hcells, -⟩ := putChars_wraps hrow hcol hcs
  have hfirst := hcells 0 (by decide) fun j hj hij => by
    obtain rfl : j = 1 := by simp at hj; omega
    decide
  have hsecond := hcells 1 (by decide) fun j hj hij => by
    simp at hj
    omega
  exact ⟨hpos, hfirst, hsecond⟩

end TinaOS.Vga
