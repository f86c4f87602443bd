import TinaOS.ColoredOutput
import TinaOS.ScreenLines

/-!
# Messages

A message of the kernel is a format of ordinary characters and `%s`. Every function that prints one
puts it on the terminal as one line.
-/

namespace TinaOS.Stdio

open Vga
open Strings (ascii CString)

/-- The characters of a string constant of the source. -/
def constant (s : String) : List (BitVec 8) := s.toList.map ascii

variable {f : CString} {items : List Item} {cs cs' : List (BitVec 8)}

/-- A line in a colour on white. -/
def onWhite (color : Palette) (cs : List (BitVec 8)) : Vga.Line :=
  ⟨vgaColorEntry color.code Palette.white.code, cs⟩

theorem printf_line (hf : f.chars = text items) (hv : ∀ item ∈ items, item.Valid .printf)
    (above : BitVec 32) (n : ℕ) (rest : List Arg) (t : Terminal) :
    printf above (n + 1) f (args items ++ rest) t =
      .ok (putLine t ⟨t.terminalColor, printed items⟩) := by
  have hloop := scan_items above (fun a t => printf above n percentF [a] t) hv rest t
  rw [← hf] at hloop
  rw [printf_of_ok hloop, putLine_self, putChars_append]
  rfl

theorem cprintf_line (hf : f.chars = text items) (hv : ∀ item ∈ items, item.Valid .cprintf)
    (above : BitVec 32) (n : ℕ) (color : Palette) (rest : List Arg) (t : Terminal) :
    cprintf above n color.code f (args items ++ rest) t =
      .ok (putLine t (onWhite color (printed items))) := by
  have hloop := scan_items above (fun a t => printf above n percentF [a] t) hv rest
    (recolor t color.code)
  rw [← hf] at hloop
  rw [cprintf_of_ok hloop, onWhite, Vga.putLine, putChars_append]
  rfl

/-- Ordinary characters of a format. -/
def literal (cs : List (BitVec 8)) : List Item := cs.map .char

theorem text_literal (cs : List (BitVec 8)) : text (literal cs) = cs := by
  induction cs with
  | nil => rfl
  | cons c cs ih => exact congrArg (c :: ·) ih

theorem args_literal (cs : List (BitVec 8)) : args (literal cs) = [] := by
  induction cs with
  | nil => rfl
  | cons c cs ih => exact ih

theorem printed_literal (cs : List (BitVec 8)) : printed (literal cs) = cs := by
  induction cs with
  | nil => rfl
  | cons c cs ih => exact congrArg (c :: ·) ih

theorem valid_literal (h : ascii '%' ∉ cs) {k : Formatter} : ∀ item ∈ literal cs, item.Valid k := by
  intro item hitem
  obtain ⟨c, hc, rfl⟩ := List.mem_map.mp hitem
  exact fun heq => h (heq ▸ hc)

/-- A format with one `%s`. -/
def around (cs : List (BitVec 8)) (str : CString) (cs' : List (BitVec 8)) : List Item :=
  literal cs ++ .str str :: literal cs'

theorem text_around (cs : List (BitVec 8)) (str : CString) (cs' : List (BitVec 8)) :
    text (around cs str cs') = cs ++ ascii '%' :: ascii 's' :: cs' := by
  have htext : text (around cs str cs') = text (literal cs) ++ (Item.str str).text ++
      text (literal cs') := by simp [text, around]
  rw [htext, text_literal, text_literal]
  simp [Item.text]

theorem args_around (cs : List (BitVec 8)) (str : CString) (cs' : List (BitVec 8)) :
    args (around cs str cs') = [.str str] := by
  have hargs : args (around cs str cs') = args (literal cs) ++ .str str :: args (literal cs') := by
    simp [args, around, Item.arg]
  rw [hargs, args_literal, args_literal]
  rfl

theorem printed_around (cs : List (BitVec 8)) (str : CString) (cs' : List (BitVec 8)) :
    printed (around cs str cs') = cs ++ str.chars ++ cs' := by
  have hprinted : printed (around cs str cs') = printed (literal cs) ++ str.chars ++
      printed (literal cs') := by simp [printed, around, Item.printed, Item.expansion]
  rw [hprinted, printed_literal, printed_literal]

theorem valid_around (h : ascii '%' ∉ cs) (h' : ascii '%' ∉ cs') {k : Formatter} :
    ∀ item ∈ around cs str cs', item.Valid k := by
  intro item hitem
  rcases List.mem_append.mp hitem with hitem | hitem
  · exact valid_literal h item hitem
  · rcases List.mem_cons.mp hitem with rfl | hitem
    · trivial
    · exact valid_literal h' item hitem

/-- A format with two `%s`, the second one at its end. -/
def between (cs : List (BitVec 8)) (a : CString) (cs' : List (BitVec 8)) (b : CString) : List Item :=
  around cs a cs' ++ [.str b]

theorem text_between (cs : List (BitVec 8)) (a : CString) (cs' : List (BitVec 8)) (b : CString) :
    text (between cs a cs' b) = cs ++ ascii '%' :: ascii 's' :: (cs' ++ [ascii '%', ascii 's']) := by
  have htext : text (between cs a cs' b) = text (around cs a cs') ++ (Item.str b).text := by
    simp [text, between]
  rw [htext, text_around, List.append_assoc]
  rfl

theorem args_between (cs : List (BitVec 8)) (a : CString) (cs' : List (BitVec 8)) (b : CString) :
    args (between cs a cs' b) = [.str a, .str b] := by
  have hargs : args (between cs a cs' b) = args (around cs a cs') ++ [.str b] := by
    simp [args, between, Item.arg]
  rw [hargs, args_around]
  rfl

theorem printed_between (cs : List (BitVec 8)) (a : CString) (cs' : List (BitVec 8)) (b : CString) :
    printed (between cs a cs' b) = cs ++ a.chars ++ cs' ++ b.chars := by
  have hprinted : printed (between cs a cs' b) = printed (around cs a cs') ++ b.chars := by
    simp [printed, between, Item.printed, Item.expansion]
  rw [hprinted, printed_around]

theorem valid_between (h : ascii '%' ∉ cs) (h' : ascii '%' ∉ cs') (a b : CString) {k : Formatter} :
    ∀ item ∈ between cs a cs' b, item.Valid k := by
  intro item hitem
  rcases List.mem_append.mp hitem with hitem | hitem
  · exact valid_around h h' item hitem
  · rw [List.mem_singleton.mp hitem]
    trivial

/-- A message in a colour of its own with one `%s`. -/
theorem cprintf_around (cs cs' : List (BitVec 8)) (hf : f.chars = cs ++ ascii '%' :: ascii 's' :: cs')
    (h : ascii '%' ∉ cs) (h' : ascii '%' ∉ cs') (above : BitVec 32) (n : ℕ) (color : Palette)
    (str : CString) (t : Terminal) :
    (cprintf above n color.code f [.str str] t).toOption =
      some (putLine t (onWhite color (cs ++ str.chars ++ cs'))) := by
  have hline := cprintf_line (hf.trans (text_around cs str cs').symm) (valid_around h h') above n color
    [] t
  rw [args_around, printed_around] at hline
  exact congrArg Except.toOption hline

/-- A message of one of the coloured routines without a directive. -/
theorem writeColored_plain (hf : ascii '%' ∉ f.chars) (color : Palette) (above : BitVec 32) (n : ℕ)
    (frame ap : List Arg) (t : Terminal) :
    (writeColored color above (n + 1) frame f ap t).toOption =
      some (putLine t (onWhite color f.chars)) := by
  have hline := printf_line (text_literal f.chars).symm (valid_literal hf) above n frame
    (recolor t color.code)
  rw [args_literal, List.nil_append, printed_literal, putLine_self] at hline
  exact congrArg Except.toOption (writeColored_of_ok hline)

end TinaOS.Stdio
