import TinaOS.Stdio

/-!
# `cprintf` against `printf`

What a format puts on the terminal depends on its characters and arguments only, not on the
terminal. The two functions put the same characters up to the first `%x`, which only
`cprintf` knows.
-/

namespace TinaOS.Stdio

open Strings Vga

/-- A format and its arguments put the characters `cs`. -/
inductive Puts (k : Formatter) : List Byte → List Arg → List Byte → Prop
  | nil {ap} : Puts k [] ap []
  | char {c fmt ap cs} (hc : c ≠ ascii '%') (h : Puts k fmt ap cs) : Puts k (c :: fmt) ap (c :: cs)
  | arg {d fmt a ap out cs} (hd : written k d a = some out) (h : Puts k fmt ap cs) :
      Puts k (ascii '%' :: d :: fmt) (a :: ap) (out ++ cs)
  | plain {d fmt ap cs} (hd : takes k d = none) (h : Puts k fmt ap cs) :
      Puts k (ascii '%' :: d :: fmt) ap (d :: cs)

variable {above : BitVec 32} {k : Formatter} {nested : Arg → Terminal → Except Halt Terminal}
  {fmt cs cs' : List Byte} {ap ap' : List Arg} {t t' : Terminal} {d : Byte}

/-- A loop that returns has met no directive that calls the formatter again. -/
theorem scan_not_recursive (hn : ∀ a t, a.type ≠ .str → nested a t = .error .depth)
    (h : scan k above nested (ascii '%' :: d :: fmt) ap t = .ok (ap', t')) : ¬ Recursive d := by
  rcases scan_percent hn d fmt ap t with ⟨e, -, herr⟩ | ⟨hrec, -⟩
  · rw [herr] at h
    cases h
  · exact hrec

/-- A directive of a loop that returns either puts itself, or prints an argument. -/
theorem scan_directive (hn : ∀ a t, a.type ≠ .str → nested a t = .error .depth)
    (h : scan k above nested (ascii '%' :: d :: fmt) ap t = .ok (ap', t')) :
    (takes k d = none ∧ scan k above nested fmt ap (putTerminalChar t d) = .ok (ap', t')) ∨
    ∃ a rest out, ap = a :: rest ∧ written k d a = some out ∧
      scan k above nested fmt rest (putChars t out) = .ok (ap', t') := by
  by_cases hd : d = ascii 'c' ∨ d = ascii 's' ∨ d = ascii 'x' ∧ k = .cprintf
  · right
    rcases scan_argument hd nested fmt ap t with hbad | ⟨a, rest, out, hap, hout, heq⟩
    · rw [hbad] at h
      cases h
    · exact ⟨a, rest, out, hap, hout, heq.symm.trans h⟩
  · have htakes := takes_eq_none (scan_not_recursive hn h) hd
    rw [scan_plain htakes] at h
    exact .inl ⟨htakes, h⟩

/-- A loop that returns has put the characters of its format. -/
theorem scan_puts (hn : ∀ a t, a.type ≠ .str → nested a t = .error .depth)
    (h : scan k above nested fmt ap t = .ok (ap', t')) :
    ∃ cs, Puts k fmt ap cs ∧ t' = putChars t cs := by
  induction fmt using directives.induct generalizing ap t with
  | case1 =>
    cases h
    exact ⟨[], .nil, rfl⟩
  | case2 c fmt hc ih =>
    rw [scan_char hc] at h
    obtain ⟨cs, hcs, rfl⟩ := ih h
    exact ⟨c :: cs, .char hc hcs, rfl⟩
  | case3 c hc =>
    obtain rfl := not_not.mp hc
    cases h
  | case4 c hc d fmt ih =>
    obtain rfl := not_not.mp hc
    rcases scan_directive hn h with ⟨hd, h⟩ | ⟨a, rest, out, rfl, hd, h⟩
    · obtain ⟨cs, hcs, rfl⟩ := ih h
      exact ⟨d :: cs, .plain hd hcs, rfl⟩
    · obtain ⟨cs, hcs, rfl⟩ := ih h
      exact ⟨out ++ cs, .arg hd hcs, putChars_putChars t out cs⟩

theorem written_eq_some {a : Arg} {out : List Byte} (h : written k d a = some out) :
    (d = ascii 'c' ∧ ∃ i, a = .int i ∧ out = [(i &&& ~~~0xFFFFFF00).setWidth 8]) ∨
    (d = ascii 's' ∧ ∃ s, a = .str s ∧ out = s.chars) ∨
    (d = ascii 'x' ∧ k = .cprintf ∧ ∃ i, a = .int i ∧ out = numeral 16 i.toNat ++ [ascii '\n']) := by
  cases a with
  | int i =>
    simp only [written] at h
    split_ifs at h with hc hx
    · exact .inl ⟨hc, i, rfl, (Option.some.inj h).symm⟩
    · exact .inr (.inr ⟨hx.1, hx.2, i, rfl, (Option.some.inj h).symm⟩)
  | str s =>
    simp only [written] at h
    split_ifs at h with hs
    exact .inr (.inl ⟨hs, s, rfl, (Option.some.inj h).symm⟩)
  | double x => cases h

/-- No hexadecimal numeral begins like the directive that asks for it. -/
theorem numeral_ne_x (n : ℕ) (cs cs' : List Byte) : numeral 16 n ++ cs ≠ ascii 'x' :: cs' := by
  intro h
  cases hnum : numeral 16 n with
  | nil => exact numeral_ne_nil 16 n hnum
  | cons c rest =>
    rw [hnum] at h
    obtain ⟨d, hd, hc⟩ := mem_numeral (n := n) (by decide) (hnum ▸ List.mem_cons_self)
    have hnot : ∀ d < 16, bchars.getD d 0 ≠ ascii 'x' := by decide
    exact hnot d hd (hc.symm.trans (List.cons.inj h).1)

/-- The two functions put the same characters unless the format has a `%x`. -/
theorem puts_eq_iff (h : Puts .cprintf fmt ap cs) (h' : Puts .printf fmt ap cs') :
    cs = cs' ↔ ascii 'x' ∉ directives fmt := by
  induction h generalizing cs' with
  | nil =>
    cases h'
    simp [directives]
  | char hc _ ih =>
    cases h' with
    | char _ h' =>
      rw [directives_char hc, List.cons_inj_right]
      exact ih h'
    | arg => exact absurd rfl hc
    | plain => exact absurd rfl hc
  | arg hd _ ih =>
    rw [directives_percent, List.mem_cons, not_or]
    cases h' with
    | char hc => exact absurd rfl hc
    | arg hd' h' =>
      rcases written_eq_some hd' with ⟨rfl, i, rfl, rfl⟩ | ⟨rfl, s, rfl, rfl⟩ | ⟨-, hk, -⟩
      · cases hd
        rw [List.append_cancel_left_eq, and_iff_right (by decide)]
        exact ih h'
      · cases hd
        rw [List.append_cancel_left_eq, and_iff_right (by decide)]
        exact ih h'
      · cases hk
    | plain hd' h' =>
      rcases written_eq_some hd with ⟨rfl, i, rfl, rfl⟩ | ⟨rfl, s, rfl, rfl⟩ | ⟨rfl, -, i, rfl, rfl⟩
      · cases hd'
      · cases hd'
      · rw [List.append_assoc]
        simp [numeral_ne_x]
  | @plain d _ _ _ hd _ ih =>
    rw [directives_percent, List.mem_cons, not_or]
    cases h' with
    | char hc => exact absurd rfl hc
    | arg hd' h' =>
      rcases written_eq_some hd' with ⟨rfl, i, rfl, rfl⟩ | ⟨rfl, s, rfl, rfl⟩ | ⟨-, hk, -⟩
      · cases hd
      · cases hd
      · cases hk
    | plain hd' h' =>
      have hx : ascii 'x' ≠ d := by
        rintro rfl
        cases hd
      rw [List.cons_inj_right, and_iff_right hx]
      exact ih h'

/-- Two terminals that a call has brought about from `start`: they differ in the colour and in the
attributes of the cells written by the call. -/
structure Alike (start t t' : Terminal) : Prop where
  put : t.put = t'.put
  row : t.terminalRow = t'.terminalRow
  column : t.terminalColumn = t'.terminalColumn
  ports : t.ports = t'.ports
  chars : ∀ i, (t.buffer i).setWidth 8 = (t'.buffer i).setWidth 8
  stores : ∃ idxs, t.stores = idxs ++ start.stores ∧ t'.stores = idxs ++ start.stores ∧
    ∀ i ∉ idxs.map cell, t.buffer i = start.buffer i ∧ t'.buffer i = start.buffer i

/-- The calls have put the same text and leave the same terminal but for the attributes of the
cells written. -/
def SameText (start t t' : Terminal) : Prop :=
  Alike start t t' ∧ t.terminalColor = t'.terminalColor

variable {start : Terminal} {c : Byte}

theorem char_vgaEntry (c color : Byte) : (vgaEntry c color).setWidth 8 = c := by
  ext i hi
  simp [vgaEntry]

theorem Alike.putTerminalChar (h : Alike start t t') (c : Byte) :
    Alike start (putTerminalChar t c) (putTerminalChar t' c) := by
  obtain ⟨hput, hrow, hcol, hports, hchars, idxs, hs, hs', hrest⟩ := h
  have hcursor : t.cursor = t'.cursor := by rw [Terminal.cursor, Terminal.cursor, hrow, hcol]
  rw [putTerminalChar_eq, putTerminalChar_eq]
  constructor
  case put => simp only [hput]
  case row => simp only [rowAfter, hrow, hcol]
  case column => simp only [columnAfter, hcol]
  case ports => simp only [updateCursorPosition, outb, hrow, hcol, hports]
  case chars =>
    intro i
    by_cases hn : c = ascii '\n'
    · simp only [hn, if_true]
      exact hchars i
    · simp only [hn, if_false, hcursor]
      by_cases hi : i = cell t'.cursor
      · rw [hi, setCell_same, setCell_same, char_vgaEntry, char_vgaEntry]
      · rw [setCell, setCell, Function.update_of_ne hi, Function.update_of_ne hi]
        exact hchars i
  case stores =>
    by_cases hn : c = ascii '\n'
    · simp only [hn, if_true]
      exact ⟨idxs, hs, hs', hrest⟩
    · simp only [hn, if_false, hcursor]
      refine ⟨t'.cursor :: idxs, by rw [hs, List.cons_append], by rw [hs', List.cons_append], ?_⟩
      intro i hi
      rw [List.map_cons, List.mem_cons, not_or] at hi
      rw [setCell, setCell, Function.update_of_ne hi.1, Function.update_of_ne hi.1]
      exact hrest i hi.2

theorem Alike.putChars (h : Alike start t t') (cs : List Byte) :
    Alike start (putChars t cs) (putChars t' cs) := by
  induction cs generalizing t t' with
  | nil => exact h
  | cons c cs ih => exact ih (h.putTerminalChar c)

theorem printf_puts {n : ℕ} {f : CString} (h : printf above n f ap t = .ok t') :
    ∃ cs, Puts .printf f.chars ap cs ∧ t' = putChars t (cs ++ [ascii '\n']) := by
  cases n with
  | zero => cases h
  | succ n =>
    cases hscan : scan .printf above (fun a t => printf above n percentF [a] t) f.chars ap t with
    | error e =>
      rw [printf_of_error hscan] at h
      cases h
    | ok out =>
      obtain ⟨cs, hcs, ht⟩ := scan_puts (fun a t => printf_percentF above n a t) hscan
      rw [printf_of_ok hscan] at h
      cases h
      exact ⟨cs, hcs, by rw [ht, putChars_append]; rfl⟩

theorem cprintf_puts {n : ℕ} {f : CString} {color : Byte}
    (h : cprintf above n color f ap t = .ok t') :
    ∃ cs, Puts .cprintf f.chars ap cs ∧
      t' = { putChars (recolor t color) (cs ++ [ascii '\n']) with
        terminalColor := t.terminalColor } := by
  cases hscan : scan .cprintf above (fun a t => printf above n percentF [a] t) f.chars ap
      (recolor t color) with
  | error e =>
    rw [cprintf_of_error hscan] at h
    cases h
  | ok out =>
    obtain ⟨cs, hcs, ht⟩ := scan_puts (fun a t => printf_percentF above n a t) hscan
    rw [cprintf_of_ok hscan] at h
    cases h
    exact ⟨cs, hcs, by rw [ht, putChars_append]; rfl⟩

/-- Where both return, `cprintf` and `printf` agree but for the attributes exactly if the format
has no `%x`. -/
theorem sameText_iff {above' : BitVec 32} {n m : ℕ} {f : CString} {color : Byte} {t₁ t₂ : Terminal}
    (h₁ : cprintf above n color f ap t = .ok t₁) (h₂ : printf above' m f ap t = .ok t₂) :
    SameText t t₁ t₂ ↔ ascii 'x' ∉ directives f.chars := by
  obtain ⟨cs, hcs, rfl⟩ := cprintf_puts h₁
  obtain ⟨cs', hcs', rfl⟩ := printf_puts h₂
  rw [← puts_eq_iff hcs hcs']
  constructor
  · rintro ⟨⟨hput, -⟩, -⟩
    simp only [put_putChars] at hput
    have hrev := List.append_left_injective _ hput
    exact List.append_left_injective _ (List.reverse_injective hrev)
  · rintro rfl
    have hstart : Alike t (recolor t color) t :=
      ⟨rfl, rfl, rfl, rfl, fun _ => rfl, [], rfl, rfl, fun _ _ => ⟨rfl, rfl⟩⟩
    obtain ⟨hput, hrow, hcol, hports, hchars, hstores⟩ := hstart.putChars (cs ++ [ascii '\n'])
    exact ⟨⟨hput, hrow, hcol, hports, hchars, hstores⟩, (terminalColor_putChars t _).symm⟩

def letterA : CString := ⟨[ascii 'a'], by decide⟩

/-- `a%c%s` -/
def mixed : CString := ⟨['a', '%', 'c', '%', 's'].map ascii, by decide⟩

/-- Its arguments: an integer whose low byte is `b`, and the string `cd`. -/
def mixedArgs : List Arg := [.int 0x162, .str ⟨['c', 'd'].map ascii, by decide⟩]

theorem sameText_iff_mixed :
    SameText zeroTerminal
      { putChars (recolor zeroTerminal Palette.red.code) (['a', 'b', 'c', 'd', '\n'].map ascii) with
        terminalColor := zeroTerminal.terminalColor }
      (putChars zeroTerminal (['a', 'b', 'c', 'd', '\n'].map ascii)) := by
  have h₁ : cprintf 0 0 Palette.red.code mixed mixedArgs zeroTerminal =
      .ok { putChars (recolor zeroTerminal Palette.red.code)
          (['a', 'b', 'c', 'd', '\n'].map ascii) with
        terminalColor := zeroTerminal.terminalColor } := rfl
  have h₂ : printf 0 1 mixed mixedArgs zeroTerminal =
      .ok (putChars zeroTerminal (['a', 'b', 'c', 'd', '\n'].map ascii)) := rfl
  exact (sameText_iff h₁ h₂).mpr (by decide)

def percentX : CString := ⟨[ascii '%', ascii 'x'], by decide⟩

/-- With the argument 7, `%x` puts a numeral and a newline in `cprintf` and an `x` in `printf`. -/
theorem not_sameText_percentX :
    ∃ t₁ t₂, Matches .cprintf percentX.chars [.int 7] ∧
      cprintf 0 0 Palette.red.code percentX [.int 7] zeroTerminal = .ok t₁ ∧
      printf 0 1 percentX [.int 7] zeroTerminal = .ok t₂ ∧
      t₁.put = [ascii '\n', ascii '\n', ascii '7'] ∧ t₂.put = [ascii '\n', ascii 'x'] ∧
      ¬ SameText zeroTerminal t₁ t₂ := by
  have hscan : scan .cprintf 0 (fun a t => printf 0 0 percentF [a] t) percentX.chars [.int 7]
      (recolor zeroTerminal Palette.red.code) =
        .ok ([], putChars (recolor zeroTerminal Palette.red.code) [ascii '7', ascii '\n']) := by
    have hchars : percentX.chars = [ascii '%', ascii 'x'] := rfl
    rw [hchars, scan_x, writeHex_eq]
    rfl
  refine ⟨_, _, .arg rfl .nil, cprintf_of_ok hscan, printf_of_ok rfl, rfl, rfl, ?_⟩
  rintro ⟨⟨hput, -⟩, -⟩
  revert hput
  decide

end TinaOS.Stdio
