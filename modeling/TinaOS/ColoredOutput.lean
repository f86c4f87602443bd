import TinaOS.FormatItems
import TinaOS.ScreenContents

/-!
# Output in a colour of its own

`cprintf` and the three message routines of `display/vga.c` set the colour of the terminal
for the time of one call. All the cells that the call writes carry that colour, and nothing
else changes. The routines are declared with arguments behind the format, but call `printf`
with the format alone.
-/

namespace TinaOS.Stdio

open Strings Vga

/-- The body of the three routines. The arguments are not handed on: where `printf` looks for
them it finds `frame`, whatever stands there on the stack. -/
def writeColored (fgColor : Palette) (above : BitVec 32) (depth : ℕ) (frame : List Arg)
    (data : CString) (_ap : List Arg) (t : Terminal) : Except Halt Terminal := do
  let oldColor := t.terminalColor
  let t := { t with terminalColor := vgaColorEntry fgColor.code Palette.white.code }
  let t ← printf above depth data frame t
  pure { t with terminalColor := oldColor }

def writeWarningString := writeColored .cyan

def writeErrorString := writeColored .red

def writePassString := writeColored .green

inductive Routine where
  | warning | error | pass
  deriving DecidableEq, Repr

def Routine.color : Routine → Palette
  | .warning => .cyan
  | .error => .red
  | .pass => .green

def Routine.write (r : Routine) : BitVec 32 → ℕ → List Arg → CString → List Arg → Terminal →
    Except Halt Terminal :=
  match r with
  | .warning => writeWarningString
  | .error => writeErrorString
  | .pass => writePassString

theorem Routine.write_eq (r : Routine) : r.write = writeColored r.color := by
  cases r <;> rfl

variable {above : BitVec 32} {n : ℕ} {frame ap : List Arg} {f : CString} {t t' : Terminal}
  {color : Byte} {cs : List Byte} {items : List Item} {r : Routine} {fgColor : Palette}

theorem writeColored_of_ok (h : printf above n f frame (recolor t fgColor.code) = .ok t') :
    writeColored fgColor above n frame f ap t =
      .ok { t' with terminalColor := t.terminalColor } := by
  rw [recolor] at h
  simp only [writeColored, h]
  rfl

theorem writeColored_of_error {e : Halt}
    (h : printf above n f frame (recolor t fgColor.code) = .error e) :
    writeColored fgColor above n frame f ap t = .error e := by
  rw [recolor] at h
  simp only [writeColored, h]
  rfl

/-- The upper half of an entry. -/
def attributeOf (entry : BitVec 16) : Byte := (entry >>> 8).setWidth 8

theorem attribute_vgaEntry (c color : Byte) : attributeOf (vgaEntry c color) = color := by
  ext i hi
  have hlow : 8 + i < 16 := by omega
  simp [attributeOf, vgaEntry, hlow, BitVec.getLsbD_eq_getElem hi]

theorem attribute_entries (t : Terminal) (cs : List Byte) :
    ∀ w ∈ entries t cs, attributeOf w.2 = t.terminalColor := by
  induction cs generalizing t with
  | nil => exact nofun
  | cons c cs ih =>
    have hrest := ih (putTerminalChar t c)
    rw [terminalColor_putTerminalChar] at hrest
    by_cases hc : c = ascii '\n'
    · subst hc
      rwa [entries_newline]
    · rw [entries_char hc, List.forall_mem_cons]
      exact ⟨attribute_vgaEntry c t.terminalColor, hrest⟩

/-- The colour of the terminal is as before, all the cells that have been written carry
`color` on white, and the others are as before. -/
structure Painted (color : Byte) (t t' : Terminal) : Prop where
  terminalColor : t'.terminalColor = t.terminalColor
  cells : ∃ idxs, t'.stores = idxs ++ t.stores ∧
    (∀ idx ∈ idxs, attributeOf (t'.buffer (cell idx)) = color ||| Palette.white.code <<< 4) ∧
    ∀ x ∉ idxs.map cell, t'.buffer x = t.buffer x

/-- Characters put between a change of colour and its return paint the cells they go to. -/
theorem painted_putChars (t : Terminal) (color : Byte) (cs : List Byte) :
    Painted color t
      { putChars (recolor t color) cs with terminalColor := t.terminalColor } := by
  refine ⟨rfl, ?_⟩
  obtain ⟨idxs, hstores, hcells⟩ := stores_putChars (recolor t color) cs
  have hmem : ∀ x, x ∈ idxs.map cell ↔ x ∈ (entries (recolor t color) cs).map Prod.fst := by
    intro x
    rw [hcells, List.mem_reverse]
  refine ⟨idxs, hstores, fun idx hidx => ?_, fun x hx => ?_⟩
  · have hwritten := (hmem (cell idx)).mp (List.mem_map_of_mem hidx)
    obtain ⟨w, hw, -, hval⟩ := WriteLog.exists_mem_apply (f := (recolor t color).buffer) hwritten
    simp only [buffer_putChars, hval]
    exact attribute_entries _ _ w hw
  · simp only [buffer_putChars]
    exact WriteLog.apply_of_notMem (mt (hmem x).mpr hx)

theorem painted_cprintf (h : cprintf above n color f ap t = .ok t') : Painted color t t' := by
  obtain ⟨cs, -, rfl⟩ := cprintf_puts h
  exact painted_putChars t color _

theorem painted_writeColored (h : writeColored fgColor above n frame f ap t = .ok t') :
    Painted fgColor.code t t' := by
  cases hprintf : printf above n f frame (recolor t fgColor.code) with
  | error e =>
    rw [writeColored_of_error hprintf] at h
    cases h
  | ok t'' =>
    rw [writeColored_of_ok hprintf] at h
    obtain rfl := Except.ok.inj h
    obtain ⟨cs, -, rfl⟩ := printf_puts hprintf
    exact painted_putChars t fgColor.code _

/-- Every call of `cprintf` or of a message routine that returns leaves the colour as it was,
paints what it writes and changes no other cell. -/
theorem calls_painted (above : BitVec 32) (n : ℕ) (f : CString) (ap : List Arg) (t t' : Terminal) :
    (∀ color, cprintf above n color f ap t = .ok t' → Painted color t t') ∧
    ∀ (r : Routine) frame, r.write above n frame f ap t = .ok t' → Painted r.color.code t t' := by
  refine ⟨fun color h => painted_cprintf h, fun r frame h => ?_⟩
  rw [r.write_eq] at h
  exact painted_writeColored h

theorem calls_painted_mixed :
    Painted Palette.red.code zeroTerminal
      { putChars (recolor zeroTerminal Palette.red.code) (['a', 'b', 'c', 'd', '\n'].map ascii) with
        terminalColor := zeroTerminal.terminalColor } ∧
    Painted Palette.green.code zeroTerminal
      { putChars (recolor zeroTerminal Palette.green.code) (['a', 'b', 'c', 'd', '\n'].map ascii) with
        terminalColor := zeroTerminal.terminalColor } :=
  ⟨(calls_painted 0 0 mixed mixedArgs zeroTerminal _).1 Palette.red.code rfl,
    (calls_painted 0 1 mixed [] zeroTerminal _).2 .pass mixedArgs rfl⟩

/-- Ordinary characters, `%c`, `%s` and `%%`. -/
def Item.Basic : Item → Prop
  | .char c => c ≠ ascii '%'
  | .percent x => x = ascii '%'
  | .byte _ => True
  | .str _ => True
  | .hex _ => False

theorem Item.Basic.valid {item : Item} (h : item.Basic) : item.Valid .printf := by
  cases item with
  | char c => exact h
  | percent x =>
    obtain rfl : x = ascii '%' := h
    exact show ascii '%' ∉ letters .printf by decide
  | byte i => trivial
  | str s => trivial
  | hex i => exact h.elim

/-- Whatever stands on the stack, the routine puts the characters that `printf` puts, in its
own colour. -/
def Relays (r : Routine) (f : CString) (ap : List Arg) : Prop :=
  ∀ above n frame t, ∃ t₁ t₂, r.write above (n + 1) frame f ap t = .ok t₁ ∧
    printf above (n + 1) f ap t = .ok t₂ ∧ t₁.put = t₂.put ∧ Painted r.color.code t t₁

/-- Without arguments the first directive finds none. -/
theorem scan_no_args (above : BitVec 32) (nested : Arg → Terminal → Except Halt Terminal)
    (hv : ∀ item ∈ items, item.Valid .printf) (hargs : args items ≠ []) (t : Terminal) :
    scan .printf above nested (text items) [] t = .error .badArgument := by
  induction items generalizing t with
  | nil => exact absurd rfl hargs
  | cons item items ih =>
    rw [List.forall_mem_cons] at hv
    cases item with
    | char c =>
      have hstep := scan_item above nested hv.1 (text items) [] t
      exact hstep.trans (ih hv.2 hargs _)
    | percent x =>
      have hstep := scan_item above nested hv.1 (text items) [] t
      exact hstep.trans (ih hv.2 hargs _)
    | byte i => rfl
    | str s => rfl
    | hex i => cases hv.1

theorem relays_of_nil (hf : f.chars = text items) (hargs : args items = [])
    (hv : ∀ item ∈ items, item.Valid .printf) : Relays r f [] := by
  intro above n frame t
  have hscan : ∀ ap t, scan .printf above (fun a t => printf above n percentF [a] t) f.chars ap t =
      .ok (ap, putChars t (printed items)) := by
    intro ap t
    have hloop := scan_items above (fun a t => printf above n percentF [a] t) hv ap t
    rwa [hargs, List.nil_append, ← hf] at hloop
  have hprintf := printf_of_ok (hscan frame (recolor t r.color.code))
  have hwrite : writeColored r.color above (n + 1) frame f [] t = .ok _ :=
    writeColored_of_ok hprintf
  rw [r.write_eq]
  refine ⟨_, _, hwrite, printf_of_ok (hscan [] t), ?_, painted_writeColored hwrite⟩
  have hput : ∀ t : Terminal, (endLine (putChars t (printed items))).put =
      ascii '\n' :: ((printed items).reverse ++ t.put) := by
    intro t
    rw [← put_putChars]
    exact put_putTerminalChar (putChars t (printed items)) (ascii '\n')
  rw [hput t]
  exact hput (recolor t r.color.code)

/-- With matching arguments a routine relays its call to `printf` exactly if there are none. -/
theorem relays_iff (r : Routine) (hf : f.chars = text items) (hap : ap = args items)
    (hitems : ∀ item ∈ items, item.Basic) : Relays r f ap ↔ ap = [] := by
  have hv : ∀ item ∈ items, item.Valid .printf := fun item hitem => (hitems item hitem).valid
  subst hap
  constructor
  · intro h
    by_contra hargs
    obtain ⟨t₁, -, hwrite, -⟩ := h 0 0 [] zeroTerminal
    have hscan := scan_no_args 0 (fun a t => printf 0 0 percentF [a] t) hv hargs
      (recolor zeroTerminal r.color.code)
    rw [← hf] at hscan
    rw [r.write_eq, writeColored_of_error (printf_of_error hscan)] at hwrite
    cases hwrite
  · intro hargs
    rw [hargs]
    exact relays_of_nil hf hargs hv

theorem relays_iff_mixed : Relays .warning letterA [] ∧ ¬ Relays .warning mixed mixedArgs := by
  have hletter : ∀ item ∈ [Item.char (ascii 'a')], item.Basic := by
    intro item hitem
    rw [List.mem_singleton.mp hitem]
    exact show ascii 'a' ≠ ascii '%' by decide
  have hmixed : ∀ item ∈ [Item.char (ascii 'a'), .byte 0x162,
      .str ⟨['c', 'd'].map ascii, by decide⟩], item.Basic := by
    simp only [List.forall_mem_cons, List.not_mem_nil, false_imp_iff, implies_true, and_true]
    exact ⟨show ascii 'a' ≠ ascii '%' by decide, trivial, trivial⟩
  refine ⟨(relays_iff .warning rfl rfl hletter).mpr rfl, fun h => ?_⟩
  have hnone : mixedArgs = [] := (relays_iff .warning rfl rfl hmixed).mp h
  exact List.cons_ne_nil _ _ hnone

def percentC : CString := ⟨[ascii '%', ascii 'c'], by decide⟩

/-- With a `b` on the stack, the call with `%c` and `a` puts the `b`. -/
theorem not_relays_percentC :
    percentC.chars = text [.byte 0x61] ∧ [Arg.int 0x61] = args [.byte 0x61] ∧
    (∀ item ∈ [Item.byte 0x61], item.Basic) ∧
    (∃ t₁ t₂, writeErrorString 0 1 [.int 0x62] percentC [.int 0x61] zeroTerminal = .ok t₁ ∧
      printf 0 1 percentC [.int 0x61] zeroTerminal = .ok t₂ ∧
      t₁.put = [ascii '\n', ascii 'b'] ∧ t₂.put = [ascii '\n', ascii 'a']) ∧
    ¬ Relays .error percentC [.int 0x61] := by
  have hwrite : writeErrorString 0 1 [.int 0x62] percentC [.int 0x61] zeroTerminal =
      .ok { putChars (recolor zeroTerminal Palette.red.code) [ascii 'b', ascii '\n'] with
        terminalColor := zeroTerminal.terminalColor } := rfl
  have hprintf : printf 0 1 percentC [.int 0x61] zeroTerminal =
      .ok (putChars zeroTerminal [ascii 'a', ascii '\n']) := rfl
  refine ⟨rfl, rfl, ?_, ⟨_, _, hwrite, hprintf, rfl, rfl⟩, fun h => ?_⟩
  · intro item hitem
    rw [List.mem_singleton.mp hitem]
    trivial
  · obtain ⟨t₁, t₂, h₁, h₂, hput, -⟩ := h 0 0 [.int 0x62] zeroTerminal
    obtain rfl := Except.ok.inj (hwrite.symm.trans h₁)
    obtain rfl := Except.ok.inj (hprintf.symm.trans h₂)
    revert hput
    decide

end TinaOS.Stdio
