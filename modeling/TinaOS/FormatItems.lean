import TinaOS.FormatsAlike
import TinaOS.ItoaNumeral

/-!
# Formats and their reference expansion

A format together with its arguments is a list of items; its expansion puts every argument
in the place of its directive. `printf` puts the expansion and a newline. So does `cprintf`,
except that `%x` goes through `write_to_terminal`, which ends in a newline of its own.
-/

namespace TinaOS.Stdio

open Strings Vga

/-- A piece of a format, with the argument if it takes one. -/
inductive Item where
  /-- An ordinary character. -/
  | char (c : Byte)
  /-- `%` and a character that is no directive. -/
  | percent (x : Byte)
  /-- `%c` -/
  | byte (i : BitVec 32)
  /-- `%s` -/
  | str (s : CString)
  /-- `%x` -/
  | hex (i : BitVec 32)

/-- The characters that ask for an argument. -/
def letters : Formatter → List Byte
  | .printf => ['c', 'd', 'f', 's'].map ascii
  | .cprintf => ['c', 'd', 'f', 's', 'x'].map ascii

namespace Item

def text : Item → List Byte
  | char c => [c]
  | percent x => [ascii '%', x]
  | byte _ => [ascii '%', ascii 'c']
  | str _ => [ascii '%', ascii 's']
  | hex _ => [ascii '%', ascii 'x']

def arg : Item → Option Arg
  | char _ => none
  | percent _ => none
  | byte i => some (.int i)
  | str s => some (.str s)
  | hex i => some (.int i)

/-- What the item stands for. -/
def expansion : Item → List Byte
  | char c => [c]
  | percent x => [x]
  | byte i => [i.setWidth 8]
  | str s => s.chars
  | hex i => numeral 16 i.toNat

/-- The pieces of the formats of a function. -/
def Valid (k : Formatter) : Item → Prop
  | char c => c ≠ ascii '%'
  | percent x => x ∉ letters k
  | byte _ => True
  | str _ => True
  | hex _ => k = .cprintf

/-- `%c` and `%s`. -/
def isDirective : Item → Bool
  | byte _ => true
  | str _ => true
  | _ => false

/-- What the loop puts for the item. -/
def printed : Item → List Byte
  | hex i => numeral 16 i.toNat ++ [ascii '\n']
  | item => item.expansion

end Item

/-- The format that the items make up. -/
def text (items : List Item) : List Byte := items.flatMap Item.text

/-- The arguments in the items. -/
def args (items : List Item) : List Arg := items.filterMap Item.arg

/-- Every ordinary character as it is, every argument in the place of its directive. -/
def expansion (items : List Item) : List Byte := items.flatMap Item.expansion

def printed (items : List Item) : List Byte := items.flatMap Item.printed

variable {k : Formatter} {item : Item} {items : List Item} {fmt : List Byte} {ap : List Arg}
  {t : Terminal} {f : CString}

theorem takes_eq_none_of_notMem {d : Byte} (hd : d ∉ letters k) : takes k d = none := by
  cases k with
  | printf =>
    simp only [letters, List.map_cons, List.map_nil, List.mem_cons, List.not_mem_nil, or_false,
      not_or] at hd
    simp [takes, hd]
  | cprintf =>
    simp only [letters, List.map_cons, List.map_nil, List.mem_cons, List.not_mem_nil, or_false,
      not_or] at hd
    simp [takes, hd]

theorem low_byte (i : BitVec 32) : (i &&& ~~~0xFFFFFF00).setWidth 8 = (i.setWidth 8 : Byte) :=
  setWidth_and_mask rfl i

/-- The loop puts what an item stands for and takes its argument off the list. -/
theorem scan_item (above : BitVec 32) (nested : Arg → Terminal → Except Halt Terminal)
    (hv : item.Valid k) (fmt : List Byte) (ap : List Arg) (t : Terminal) :
    scan k above nested (item.text ++ fmt) (item.arg.toList ++ ap) t =
      scan k above nested fmt ap (putChars t item.printed) := by
  cases item with
  | char c => exact scan_char hv
  | percent x => exact scan_plain (takes_eq_none_of_notMem hv)
  | byte i =>
    have hput : putChars t (Item.byte i).printed = putTerminalChar t (i.setWidth 8) := rfl
    rw [hput, ← low_byte]
    exact scan_c
  | str s => exact scan_s
  | hex i =>
    obtain rfl : k = .cprintf := hv
    refine scan_x.trans ?_
    rw [writeHex_eq]
    rfl

theorem scan_items (above : BitVec 32) (nested : Arg → Terminal → Except Halt Terminal)
    (hv : ∀ item ∈ items, item.Valid k) (rest : List Arg) (t : Terminal) :
    scan k above nested (text items) (args items ++ rest) t =
      .ok (rest, putChars t (printed items)) := by
  induction items generalizing t with
  | nil => rfl
  | cons item items ih =>
    rw [List.forall_mem_cons] at hv
    have hargs : args (item :: items) ++ rest = item.arg.toList ++ (args items ++ rest) := by
      cases item <;> rfl
    have hprinted : printed (item :: items) = item.printed ++ printed items := rfl
    have htext : text (item :: items) = item.text ++ text items := rfl
    rw [hargs, htext, scan_item above nested hv.1, ih hv.2, hprinted, putChars_putChars]

theorem printed_eq_expansion (h : ∀ i, Item.hex i ∉ items) : printed items = expansion items := by
  induction items with
  | nil => rfl
  | cons item items ih =>
    have hrest : ∀ i, Item.hex i ∉ items := fun i hi => h i (List.mem_cons_of_mem item hi)
    have hitem : item.printed = item.expansion := by
      cases item with
      | hex i => exact absurd List.mem_cons_self (h i)
      | _ => rfl
    have hprinted : printed (item :: items) = item.printed ++ printed items := rfl
    rw [hprinted, hitem, ih hrest]
    rfl

theorem not_mem_hex (hv : ∀ item ∈ items, item.Valid .printf) (i : BitVec 32) :
    Item.hex i ∉ items := by
  intro hi
  cases hv _ hi

theorem length_args (h : ∀ i, Item.hex i ∉ items) :
    (args items).length = items.countP Item.isDirective := by
  induction items with
  | nil => rfl
  | cons item items ih =>
    have hrest := ih fun i hi => h i (List.mem_cons_of_mem item hi)
    cases item with
    | hex i => exact absurd List.mem_cons_self (h i)
    | byte i =>
      rw [List.countP_cons_of_pos rfl, ← hrest]
      rfl
    | str s =>
      rw [List.countP_cons_of_pos rfl, ← hrest]
      rfl
    | char c => rw [List.countP_cons_of_neg (by simp [Item.isDirective]), ← hrest]; rfl
    | percent x => rw [List.countP_cons_of_neg (by simp [Item.isDirective]), ← hrest]; rfl

def percentS : CString := ⟨[ascii '%', ascii 's'], by decide⟩

/-- `printf` puts the expansion of its format and a newline, whatever budget and terminal it is
given, and takes one argument for each `%c` and `%s`. A string comes out as from
`write_string_to_terminal`. -/
theorem printf_expansion (hf : f.chars = text items) (hap : ap = args items)
    (hv : ∀ item ∈ items, item.Valid .printf) (above : BitVec 32) (n : ℕ) (t : Terminal) :
    printf above (n + 1) f ap t = .ok (putChars t (expansion items ++ [ascii '\n'])) ∧
    (∀ nested rest, scan .printf above nested f.chars (ap ++ rest) t =
      .ok (rest, putChars t (expansion items))) ∧
    ap.length = items.countP Item.isDirective ∧
    ∀ (str : CString), ∀ fuel > str.chars.length, ∃ t',
      printf above (n + 1) percentS [.str str] t = .ok t' ∧
        writeStringToTerminal fuel t str.bytes = some t' := by
  have hscan : ∀ nested rest, scan .printf above nested f.chars (ap ++ rest) t =
      .ok (rest, putChars t (expansion items)) := by
    intro nested rest
    rw [hf, hap, scan_items above nested hv, printed_eq_expansion (not_mem_hex hv)]
  refine ⟨?_, hscan, by rw [hap, length_args (not_mem_hex hv)], fun str fuel hfuel => ?_⟩
  · have hloop := hscan (fun a t => printf above n percentF [a] t) []
    rw [List.append_nil] at hloop
    rw [printf_of_ok hloop, putChars_append]
    rfl
  · refine ⟨_, ?_, writeStringToTerminal_bytes str hfuel t⟩
    have hloop : scan .printf above (fun a t => printf above n percentF [a] t) percentS.chars
        [.str str] t = .ok ([], putChars t str.chars) := rfl
    rw [printf_of_ok hloop, putChars_append]
    rfl

theorem printf_expansion_letterA :
    printf 0 1 ⟨[ascii 'a', ascii '%', ascii 'c'], by decide⟩ [.int 0x162] zeroTerminal =
      .ok (putChars zeroTerminal ([ascii 'a', ascii 'b'] ++ [ascii '\n'])) := by
  have hv : ∀ item ∈ [Item.char (ascii 'a'), .byte 0x162], item.Valid .printf := by
    intro item hitem
    rcases List.mem_cons.mp hitem with rfl | hitem
    · exact show ascii 'a' ≠ ascii '%' by decide
    · rw [List.mem_singleton.mp hitem]
      trivial
  exact (printf_expansion (f := ⟨[ascii 'a', ascii '%', ascii 'c'], by decide⟩) rfl rfl hv 0 0
    zeroTerminal).1

theorem cprintf_printed (hf : f.chars = text items) (hap : ap = args items)
    (hv : ∀ item ∈ items, item.Valid .cprintf) (above : BitVec 32) (n : ℕ) (color : Byte)
    (t : Terminal) :
    cprintf above n color f ap t =
      .ok { putChars (recolor t color) (printed items ++ [ascii '\n']) with
        terminalColor := t.terminalColor } := by
  have hloop := scan_items above (fun a t => printf above n percentF [a] t) hv [] (recolor t color)
  rw [List.append_nil, ← hf, ← hap] at hloop
  rw [cprintf_of_ok hloop, putChars_append]
  rfl

/-- Neither the piece nor its argument contains a newline, and no character but `%` itself
follows a `%`. -/
def Item.InLine : Item → Prop
  | .char c => c ≠ ascii '%' ∧ c ≠ ascii '\n'
  | .percent x => x = ascii '%'
  | .byte i => i.setWidth 8 ≠ ascii '\n'
  | .str s => ascii '\n' ∉ s.chars
  | .hex _ => True

theorem Item.InLine.valid (h : item.InLine) : item.Valid .cprintf := by
  cases item with
  | char c => exact h.1
  | percent x =>
    obtain rfl : x = ascii '%' := h
    exact show ascii '%' ∉ letters .cprintf by decide
  | byte i => trivial
  | str s => trivial
  | hex i => rfl

theorem newline_notMem_numeral (n : ℕ) : ascii '\n' ∉ numeral 16 n := by
  intro h
  obtain ⟨d, hd, hc⟩ := mem_numeral (by decide) h
  revert d
  decide

theorem newline_notMem_expansion (h : ∀ item ∈ items, item.InLine) :
    ascii '\n' ∉ expansion items := by
  rw [expansion, List.mem_flatMap]
  rintro ⟨item, hitem, hmem⟩
  have hline := h item hitem
  cases item with
  | char c => exact hline.2 (List.mem_singleton.mp hmem).symm
  | percent x =>
    obtain rfl : x = ascii '%' := hline
    exact absurd (List.mem_singleton.mp hmem) (by decide)
  | byte i => exact hline (List.mem_singleton.mp hmem).symm
  | str s => exact hline hmem
  | hex i => exact newline_notMem_numeral i.toNat hmem

/-- `cprintf` emits the one line `line`. -/
structure OneLine (f : CString) (ap : List Arg) (line : List Byte) : Prop where
  inLine : ascii '\n' ∉ line
  emits : ∀ (above : BitVec 32) (n : ℕ) (color : Byte) (t : Terminal), ∃ t',
    cprintf above n color f ap t = .ok t' ∧ t'.put = (line ++ [ascii '\n']).reverse ++ t.put

/-- Only `%x` puts more than it stands for. -/
theorem printed_eq_expansion_iff : printed items = expansion items ↔ ∀ i, Item.hex i ∉ items := by
  refine ⟨fun heq i hi => ?_, printed_eq_expansion⟩
  have hle : ∀ items : List Item, (expansion items).length ≤ (printed items).length := by
    intro items
    induction items with
    | nil => exact Nat.le_refl 0
    | cons item items ih =>
      have hitem : item.expansion.length ≤ item.printed.length := by
        cases item with
        | hex i => exact Nat.le_of_lt (by simp [Item.expansion, Item.printed])
        | _ => exact Nat.le_refl _
      simp only [expansion, printed, List.flatMap_cons, List.length_append] at ih ⊢
      omega
  obtain ⟨before, behind, rfl⟩ := List.append_of_mem hi
  have hlen := congrArg List.length heq
  have hbefore := hle before
  have hbehind := hle behind
  simp only [expansion, printed, List.flatMap_append, List.flatMap_cons, List.length_append,
    Item.expansion, Item.printed, List.length_singleton] at hlen hbefore hbehind
  omega

/-- A call without newlines in format and arguments emits its expansion as one line exactly if
the format has no `%x`. -/
theorem oneLine_iff (hf : f.chars = text items) (hap : ap = args items)
    (hline : ∀ item ∈ items, item.InLine) :
    OneLine f ap (expansion items) ↔ ∀ i, Item.hex i ∉ items := by
  have hv : ∀ item ∈ items, item.Valid .cprintf := fun item hitem => (hline item hitem).valid
  rw [← printed_eq_expansion_iff]
  constructor
  · intro h
    obtain ⟨t', hcall, hput⟩ := h.emits 0 0 0 zeroTerminal
    rw [cprintf_printed hf hap hv] at hcall
    obtain rfl := Except.ok.inj hcall
    rw [put_putChars] at hput
    have hrev := List.append_left_injective _ hput
    exact List.append_left_injective _ (List.reverse_injective hrev)
  · intro heq
    refine ⟨newline_notMem_expansion hline, fun above n color t => ?_⟩
    refine ⟨_, cprintf_printed hf hap hv above n color t, ?_⟩
    rw [heq]
    exact put_putChars _ _

theorem oneLine_iff_mixed : OneLine mixed mixedArgs (['a', 'b', 'c', 'd'].map ascii) := by
  have hline : ∀ item ∈ [Item.char (ascii 'a'), .byte 0x162,
      .str ⟨['c', 'd'].map ascii, by decide⟩], item.InLine := by
    simp only [List.forall_mem_cons, List.not_mem_nil, false_imp_iff, implies_true, and_true]
    exact ⟨⟨by decide, by decide⟩, show (0x162 : BitVec 32).setWidth 8 ≠ ascii '\n' by decide,
      show ascii '\n' ∉ ['c', 'd'].map ascii by decide⟩
  exact (oneLine_iff rfl rfl hline).mpr (by simp)

/-- The call with `%x` and 255 ends its line twice. -/
theorem not_oneLine_percentX :
    percentX.chars = text [.hex 255] ∧ [Arg.int 255] = args [.hex 255] ∧
    (∀ item ∈ [Item.hex 255], item.InLine) ∧
    ¬ OneLine percentX [.int 255] (expansion [.hex 255]) := by
  have hv : ∀ item ∈ [Item.hex 255], item.Valid .cprintf := by
    intro item hitem
    rw [List.mem_singleton.mp hitem]
    rfl
  have hf : percentX.chars = text [.hex 255] := rfl
  have hap : [Arg.int 255] = args [.hex 255] := rfl
  refine ⟨hf, hap, ?_, fun h => ?_⟩
  · intro item hitem
    rw [List.mem_singleton.mp hitem]
    trivial
  · obtain ⟨t', hcall, hput⟩ := h.emits 0 0 0 zeroTerminal
    rw [cprintf_printed hf hap hv] at hcall
    obtain rfl := Except.ok.inj hcall
    rw [put_putChars] at hput
    have hlen := congrArg List.length hput
    simp [printed, expansion, Item.printed, Item.expansion, recolor] at hlen

end TinaOS.Stdio
