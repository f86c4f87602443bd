import TinaOS.ScreenContents

/-!
# Lines of text on the terminal

All messages of the kernel are lines shorter than a row. Such lines go one below the other, each
in its own row, and nothing ever scrolls: the first lines stay, and what does not fit is stored
behind the screen.
-/

namespace TinaOS.Vga

open Strings

/-- A line with the attribute of its characters. -/
structure Line where
  color : Byte
  text : List Byte

/-- The line is put in its colour, with a newline, and the colour is put back. -/
def putLine (t : Terminal) (l : Line) : Terminal :=
  { putChars { t with terminalColor := l.color } (l.text ++ [ascii '\n']) with
    terminalColor := t.terminalColor }

def putLines (t : Terminal) (ls : List Line) : Terminal := ls.foldl putLine t

/-- The line leaves the last column of its row free. -/
structure Line.Short (l : Line) : Prop where
  length_lt : l.text.length < WIDTH.toNat
  inLine : ascii '\n' ∉ l.text

/-- Line `r` in row `r`, and everything else as in `before`. -/
def shown (ls : List Line) (before : BitVec 31 → BitVec 16) (x : BitVec 31) : BitVec 16 :=
  match ls[x.toNat / WIDTH.toNat]? with
  | none => before x
  | some l => match l.text[x.toNat % WIDTH.toNat]? with
    | none => before x
    | some c => vgaEntry c l.color

variable {t : Terminal} {c : Byte} {cs : List Byte} {l : Line} {ls : List Line}

theorem putLines_cons (t : Terminal) (l : Line) (ls : List Line) :
    putLines t (l :: ls) = putLines (putLine t l) ls := rfl

theorem putLines_append (t : Terminal) (ls ls' : List Line) :
    putLines t (ls ++ ls') = putLines (putLines t ls) ls' := List.foldl_append

theorem putLines_concat (t : Terminal) (ls : List Line) (l : Line) :
    putLines t (ls ++ [l]) = putLine (putLines t ls) l := putLines_append t ls [l]

@[simp] theorem terminalColor_putLine (t : Terminal) (l : Line) :
    (putLine t l).terminalColor = t.terminalColor := rfl

theorem keepColor {color : Byte} (h : t.terminalColor = color) :
    { t with terminalColor := color } = t := by
  subst h
  rfl

theorem putLine_self (t : Terminal) (cs : List Byte) :
    putLine t ⟨t.terminalColor, cs⟩ = putChars t (cs ++ [ascii '\n']) :=
  keepColor (terminalColor_putChars t _)

theorem terminalColor_putLines (t : Terminal) (ls : List Line) :
    (putLines t ls).terminalColor = t.terminalColor := by
  induction ls generalizing t with
  | nil => rfl
  | cons l ls ih => rw [putLines_cons, ih, terminalColor_putLine]

theorem column_succ (h : t.terminalColumn.toNat + 1 < WIDTH.toNat) :
    (t.terminalColumn + 1).toNat = t.terminalColumn.toNat + 1 :=
  toNat_add_one (show t.terminalColumn.toNat < WIDTH.toNat by omega)

/-- A character that is not the last of its row moves the cursor one column on. -/
theorem putTerminalChar_inRow (hc : c ≠ ascii '\n') (h : t.terminalColumn.toNat + 1 < WIDTH.toNat) :
    (putTerminalChar t c).terminalRow = t.terminalRow ∧
      (putTerminalChar t c).terminalColumn = t.terminalColumn + 1 := by
  have hne : t.terminalColumn + 1 ≠ WIDTH := by
    intro heq
    have hnext := column_succ h
    rw [heq] at hnext
    omega
  rw [terminalRow_putTerminalChar, terminalColumn_putTerminalChar, rowAfter, columnAfter, if_neg hc,
    if_neg hc, if_neg hne, if_neg hne]
  exact ⟨rfl, rfl⟩

/-- A text without a newline that fits its row stays in it. -/
theorem putChars_inRow (hcs : ascii '\n' ∉ cs)
    (h : t.terminalColumn.toNat + cs.length < WIDTH.toNat) :
    (putChars t cs).terminalRow = t.terminalRow ∧
      entries t cs = cs.mapIdx fun i c =>
        (cell (t.cursor + BitVec.ofNat 32 i), vgaEntry c t.terminalColor) := by
  induction cs generalizing t with
  | nil => exact ⟨rfl, rfl⟩
  | cons c cs ih =>
    rw [List.mem_cons, not_or] at hcs
    rw [List.length_cons] at h
    obtain ⟨hrow, hcol⟩ := putTerminalChar_inRow (Ne.symm hcs.1) (t := t) (by omega)
    have hcursor : (putTerminalChar t c).cursor = t.cursor + 1 := by
      rw [Terminal.cursor, Terminal.cursor, hrow, hcol, BitVec.add_assoc]
    obtain ⟨hrow', hentries⟩ := ih (t := putTerminalChar t c) hcs.2 (by
      rw [hcol, column_succ (by omega)]
      omega)
    have hstep : ∀ i, t.cursor + 1 + BitVec.ofNat 32 i = t.cursor + BitVec.ofNat 32 (i + 1) := by
      intro i
      rw [BitVec.ofNat_add, BitVec.add_assoc]
      exact congrArg (t.cursor + ·) (BitVec.add_comm _ _)
    refine ⟨by rw [putChars_cons, hrow', hrow], ?_⟩
    rw [entries_char (Ne.symm hcs.1), hentries, List.mapIdx_cons, BitVec.add_zero, hcursor,
      terminalColor_putTerminalChar]
    simp only [hstep]

/-- The terminal after some lines that were put in the first column. -/
structure Shows (before : BitVec 31 → BitVec 16) (ls : List Line) (t : Terminal) : Prop where
  row : t.terminalRow.toNat = ls.length
  column : t.terminalColumn = 0
  cells : ∀ x, t.buffer x = shown ls before x

theorem shown_concat (ls : List Line) (l : Line) (before : BitVec 31 → BitVec 16) (x : BitVec 31) :
    shown (ls ++ [l]) before x =
      if x.toNat / WIDTH.toNat = ls.length then
        match l.text[x.toNat % WIDTH.toNat]? with
        | none => before x
        | some c => vgaEntry c l.color
      else shown ls before x := by
  split_ifs with hrow
  · simp only [shown, hrow, List.getElem?_concat_length]
  · simp only [shown]
    by_cases hlt : x.toNat / WIDTH.toNat < ls.length
    · rw [List.getElem?_append_left hlt]
    · have hnone : ls[x.toNat / WIDTH.toNat]? = none := List.getElem?_eq_none (Nat.le_of_not_lt hlt)
      have hnone' : (ls ++ [l])[x.toNat / WIDTH.toNat]? = none := by
        apply List.getElem?_eq_none
        rw [List.length_append, List.length_singleton]
        omega
      rw [hnone, hnone']

theorem cell_toNat {a : BitVec 32} {r j : ℕ} (ha : a.toNat = r * WIDTH.toNat)
    (hr : (r + 1) * WIDTH.toNat ≤ 2 ^ 31) (hj : j < WIDTH.toNat) :
    (cell (a + BitVec.ofNat 32 j)).toNat = r * WIDTH.toNat + j := by
  have hwidth : WIDTH.toNat = 80 := rfl
  rw [hwidth] at ha hr hj ⊢
  rw [cell, BitVec.toNat_setWidth, BitVec.toNat_add, BitVec.toNat_ofNat, ha]
  omega

/-- The text goes into the row of the cursor, and the cursor to the row below. -/
theorem Shows.putLine {before : BitVec 31 → BitVec 16} (S : Shows before ls t) (h : l.Short)
    (hroom : (ls.length + 1) * WIDTH.toNat ≤ 2 ^ 31) : Shows before (ls ++ [l]) (putLine t l) := by
  have hwidth : WIDTH.toNat = 80 := rfl
  have hlen := h.length_lt
  have hcol : t.terminalColumn.toNat = 0 := by rw [S.column]; rfl
  obtain ⟨hrow, hentries⟩ := putChars_inRow (t := { t with terminalColor := l.color }) h.inLine
    (by simp only [hcol]; omega)
  have hcursor : t.cursor.toNat = ls.length * WIDTH.toNat := by
    rw [Terminal.cursor, BitVec.toNat_add, BitVec.toNat_mul, S.row, hcol]
    rw [hwidth] at hroom ⊢
    omega
  have hbuffer : (Vga.putLine t l).buffer = WriteLog.apply t.buffer (l.text.mapIdx fun i c =>
      (cell (t.cursor + BitVec.ofNat 32 i), vgaEntry c l.color)) := by
    simp only [Vga.putLine, putChars_append, putTerminalChar_eq, if_true, buffer_putChars, hentries]
    rfl
  have hplace : ∀ j < l.text.length, (cell (t.cursor + BitVec.ofNat 32 j)).toNat =
      ls.length * WIDTH.toNat + j := fun j hj => cell_toNat hcursor hroom (by omega)
  rw [hwidth] at hroom hlen hplace
  constructor
  case row =>
    simp only [Vga.putLine, putChars_append, terminalRow_putTerminalChar, rowAfter, if_true, hrow]
    rw [BitVec.toNat_add, S.row, List.length_append, List.length_singleton]
    exact Nat.mod_eq_of_lt (by simp only [BitVec.reduceToNat]; omega)
  case column =>
    simp only [Vga.putLine, putChars_append, terminalColumn_putTerminalChar, columnAfter, if_true]
  case cells =>
    intro x
    rw [hbuffer, shown_concat, hwidth]
    by_cases hin : x.toNat / 80 = ls.length ∧ x.toNat % 80 < l.text.length
    · obtain ⟨hx, hj⟩ := hin
      have hcell : cell (t.cursor + BitVec.ofNat 32 (x.toNat % 80)) = x := by
        apply BitVec.eq_of_toNat_eq
        rw [hplace _ hj]
        omega
      have hwrite := WriteLog.apply_mapIdx_getElem (f := t.buffer) (g := (vgaEntry · l.color))
        (p := fun j => cell (t.cursor + BitVec.ofNat 32 j)) hj fun j hj' hlt heq => by
          have hnat := congrArg BitVec.toNat heq
          rw [hplace j hj', hplace _ hj] at hnat
          omega
      rw [hcell] at hwrite
      rw [hwrite, if_pos hx, List.getElem?_eq_getElem hj]
    · have hout : ∀ j < l.text.length, cell (t.cursor + BitVec.ofNat 32 j) ≠ x := by
        rintro j hj rfl
        rw [hplace j hj] at hin
        omega
      rw [WriteLog.apply_mapIdx_of_ne hout, S.cells]
      split_ifs with hx
      · have hnone : l.text[x.toNat % 80]? = none :=
          List.getElem?_eq_none (Nat.le_of_not_lt fun hj => hin ⟨hx, hj⟩)
        have hbelow : ls[x.toNat / 80]? = none := List.getElem?_eq_none (Nat.le_of_eq hx.symm)
        simp only [shown, hwidth, hbelow, hnone]
      · rfl

theorem shows_makeVgaTerminal (t : Terminal) :
    Shows (makeVgaTerminal t).buffer [] (makeVgaTerminal t) := ⟨rfl, rfl, fun _ => rfl⟩

theorem Shows.putLines {before : BitVec 31 → BitVec 16} {ls' : List Line} (S : Shows before ls t)
    (h : ∀ l ∈ ls', l.Short) (hroom : (ls.length + ls'.length) * WIDTH.toNat ≤ 2 ^ 31) :
    Shows before (ls ++ ls') (putLines t ls') := by
  induction ls' generalizing ls t with
  | nil =>
    rw [List.append_nil]
    exact S
  | cons l ls' ih =>
    have hwidth : WIDTH.toNat = 80 := rfl
    rw [List.forall_mem_cons] at h
    rw [List.length_cons, hwidth] at hroom
    have S' := ih (S.putLine h.1 (by rw [hwidth]; omega)) h.2 (by
      rw [List.length_append, List.length_singleton, hwidth]
      omega)
    rwa [List.append_assoc] at S'

theorem shows_putLines (t : Terminal) (h : ∀ l ∈ ls, l.Short)
    (hroom : ls.length * WIDTH.toNat ≤ 2 ^ 31) :
    Shows (makeVgaTerminal t).buffer ls (putLines (makeVgaTerminal t) ls) := by
  have S := (shows_makeVgaTerminal t).putLines h (by rwa [List.length_nil, Nat.zero_add])
  rwa [List.nil_append] at S

theorem OnScreen.putChars (h : OnScreen t) (hcs : ascii '\n' ∉ cs) : OnScreen (putChars t cs) := by
  induction cs generalizing t with
  | nil => exact h
  | cons c cs ih =>
    rw [List.mem_cons, not_or] at hcs
    exact ih (h.putTerminalChar fun hc => hcs.1 hc.1.symm) hcs.2

theorem OnScreen.recolor (h : OnScreen t) (color : Byte) :
    OnScreen { t with terminalColor := color } := ⟨h.row_lt, h.column_lt, h.stores_lt⟩

/-- A line keeps the terminal on the screen unless it is put in the last row. -/
theorem OnScreen.putLine (h : OnScreen t) (hl : l.Short) (hcol : t.terminalColumn = 0)
    (hrow : t.terminalRow.toNat + 1 < HEIGHT.toNat) : OnScreen (putLine t l) := by
  have hlen := hl.length_lt
  have hfits : t.terminalColumn.toNat + l.text.length < WIDTH.toNat := by
    rw [hcol]
    simpa using hlen
  obtain ⟨hkept, -⟩ := putChars_inRow (t := { t with terminalColor := l.color }) hl.inLine hfits
  have htext := (h.recolor l.color).putChars hl.inLine
  rw [Vga.putLine, putChars_append]
  apply OnScreen.recolor
  apply htext.putTerminalChar
  rintro ⟨-, hlast⟩
  rw [hkept] at hlast
  have hlast' : t.terminalRow.toNat = 39 := congrArg BitVec.toNat hlast
  have hheight : HEIGHT.toNat = 40 := rfl
  omega

theorem onScreen_putLines (t : Terminal) (h : ∀ l ∈ ls, l.Short) (hlt : ls.length < HEIGHT.toNat) :
    OnScreen (putLines (makeVgaTerminal t) ls) := by
  induction ls using List.reverseRecOn with
  | nil => exact onScreen_makeVgaTerminal t
  | append_singleton ls l ih =>
    rw [List.length_append, List.length_singleton] at hlt
    have hheight : HEIGHT.toNat = 40 := rfl
    have hwidth : WIDTH.toNat = 80 := rfl
    have hbefore : ∀ l ∈ ls, l.Short := fun l hl => h l (List.mem_append_left _ hl)
    have S := shows_putLines t hbefore (by
      rw [hwidth]
      omega)
    rw [putLines_concat]
    apply (ih hbefore (by omega)).putLine (h l (by simp)) S.column
    rw [S.row]
    exact hlt

/-- The entry of an empty cell. -/
def blank : BitVec 16 :=
  vgaEntry (ascii ' ') (vgaColorEntry Palette.black.code Palette.white.code)

theorem buffer_makeVgaTerminal_blank (t : Terminal) {x : BitVec 31} (hx : x.toNat < CELLS) :
    (makeVgaTerminal t).buffer x = blank := by
  have hcells : CELLS = 3200 := rfl
  have hcell : cell (x.setWidth 32) = x := BitVec.setWidth_setWidth_of_le x (by decide)
  have hlt : x.setWidth 32 < WIDTH * HEIGHT := by
    rw [BitVec.lt_def, BitVec.toNat_setWidth]
    exact Nat.lt_of_le_of_lt (Nat.mod_le _ _) hx
  have hblank := buffer_makeVgaTerminal t hlt
  rwa [hcell] at hblank

theorem shown_congr {before before' : BitVec 31 → BitVec 16} {x : BitVec 31}
    (h : before x = before' x) : shown ls before x = shown ls before' x := by
  simp only [shown, h]

theorem screen_putLines (t : Terminal) (h : ∀ l ∈ ls, l.Short)
    (hroom : ls.length * WIDTH.toNat ≤ 2 ^ 31) {x : BitVec 31} (hx : x.toNat < CELLS) :
    (putLines (makeVgaTerminal t) ls).buffer x = shown ls (fun _ => blank) x := by
  rw [(shows_putLines t h hroom).cells]
  exact shown_congr (buffer_makeVgaTerminal_blank t hx)

theorem onScreen_putLines_iff (t : Terminal) (h : ∀ l ∈ ls, l.Short)
    (hroom : ls.length * WIDTH.toNat ≤ 2 ^ 31) :
    OnScreen (putLines (makeVgaTerminal t) ls) ↔ ls.length < HEIGHT.toNat := by
  refine ⟨fun hs => ?_, onScreen_putLines t h⟩
  rw [← (shows_putLines t h hroom).row]
  exact hs.row_lt

/-- Line `r` of a log of short lines stands in row `r` for good, in its colour, and the rest of the
screen is empty. The cursor leaves the screen with the fortieth line, and the lines after it are
stored behind the screen. The text buffer is kept apart from the memory of the kernel, into whose
image at 64M the lines from row 414720 on are stored. -/
theorem lines_shown (t : Terminal) (ls : List Line) (h : ∀ l ∈ ls, l.Short)
    (hroom : ls.length * WIDTH.toNat ≤ 2 ^ 31) :
    (putLines (makeVgaTerminal t) ls).terminalRow.toNat = ls.length ∧
    (putLines (makeVgaTerminal t) ls).terminalColumn = 0 ∧
    (∀ x, (putLines (makeVgaTerminal t) ls).buffer x = shown ls (makeVgaTerminal t).buffer x) ∧
    (∀ x : BitVec 31, x.toNat < CELLS →
      (putLines (makeVgaTerminal t) ls).buffer x = shown ls (fun _ => blank) x) ∧
    (OnScreen (putLines (makeVgaTerminal t) ls) ↔ ls.length < HEIGHT.toNat) := by
  have S := shows_putLines t h hroom
  exact ⟨S.row, S.column, S.cells, fun x hx => screen_putLines t h hroom hx,
    onScreen_putLines_iff t h hroom⟩

/-- 45 lines `row A` to `row Z` and on, each in a colour of its own. -/
def fullLog : List Line :=
  (List.range 45).map fun r =>
    ⟨BitVec.ofNat 8 (r + 1), ['r', 'o', 'w', ' '].map ascii ++ [BitVec.ofNat 8 (65 + r % 26)]⟩

theorem lines_shown_fullLog :
    (putLines (makeVgaTerminal zeroTerminal) fullLog).terminalRow = 45 ∧
      (putLines (makeVgaTerminal zeroTerminal) fullLog).buffer 3124 = 0x284E ∧
      (putLines (makeVgaTerminal zeroTerminal) fullLog).buffer 3125 = blank ∧
      (putLines (makeVgaTerminal zeroTerminal) fullLog).buffer 3204 = 0x294F ∧
      ¬ OnScreen (putLines (makeVgaTerminal zeroTerminal) fullLog) := by
  have hlines : ∀ l ∈ fullLog, l.text.length < WIDTH.toNat ∧ ascii '\n' ∉ l.text := by decide
  have hshort : ∀ l ∈ fullLog, l.Short := fun l hl => ⟨(hlines l hl).1, (hlines l hl).2⟩
  obtain ⟨hrow, -, hcells, hscreen, hon⟩ := lines_shown zeroTerminal fullLog hshort (by decide)
  exact ⟨BitVec.eq_of_toNat_eq hrow, hscreen 3124 (by decide), hscreen 3125 (by decide),
    hcells 3204, fun h => absurd (hon.mp h) (by decide)⟩

end TinaOS.Vga
