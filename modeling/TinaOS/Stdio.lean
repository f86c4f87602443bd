import TinaOS.Vga
import Mathlib.Data.BitVec
import Mathlib.Data.List.GetD
import Mathlib.Data.Nat.Digits.Lemmas
import Mathlib.Tactic.IntervalCases

/-!
# Formatted output of `stdio.c`

`itoa` writes the digits of a word into a scratch array, lowest first, and copies them back
in reverse.

`printf` and `cprintf` scan a format and call themselves for `%d` and `%f`. A budget
bounds the depth of these calls, everything else is recursion on the format, so an
exhausted budget means nesting and nothing else.
-/

namespace TinaOS.Stdio

open Strings Vga

/-- Why a call does not return. -/
inductive Halt where
  /-- The budget for nested calls is exhausted. -/
  | depth
  /-- `va_arg` finds no argument of its type. -/
  | badArgument
  /-- An index is past the end of its array or string. -/
  | overrun
  /-- A division by zero. -/
  | divide
  deriving DecidableEq, Repr

/-- `bchars` -/
def bchars : List Byte :=
  ['0', '1', '2', '3', '4', '5', '6', '7', '8', '9', 'A', 'B', 'C', 'D', 'E', 'F'].map ascii

/-- The digit loop of `itoa`, with room for the given number of digits in `tbuf`. It leaves
with the number of digits and with `tbuf`. -/
def itoaDigits (base : BitVec 32) (room : ℕ) (i : BitVec 32) (pos : ℕ) (tbuf : ℕ → Byte) :
    Except Halt (ℕ × (ℕ → Byte)) :=
  if i = 0 then .ok (pos, tbuf)
  else if base = 0 then .error .divide
  else match room with
    | 0 => .error .overrun
    | room + 1 =>
      itoaDigits base room (i / base) (pos + 1)
        (Function.update tbuf pos (bchars.getD (i % base).toNat 0))

/-- `itoa`: the new bytes of `buf` and of `tbuf`, which has room for 32 digits. -/
def itoa (i base : BitVec 32) (buf tbuf : ℕ → Byte) : Except Halt ((ℕ → Byte) × (ℕ → Byte)) :=
  if i = 0 ∨ base > 16 then
    .ok (Function.update (Function.update buf 0 (ascii '0')) 1 0, tbuf)
  else do
    let (top, tbuf) ← itoaDigits base 32 i 0 tbuf
    let buf := (List.range top).foldl (fun buf opos =>
      Function.update buf opos (tbuf (top - 1 - opos))) buf
    pure (Function.update buf top 0, tbuf)

inductive Arg where
  | int (i : BitVec 32)
  | double (d : BitVec 64)
  | str (s : CString)

def vaInt : List Arg → Except Halt (BitVec 32 × List Arg)
  | .int i :: ap => .ok (i, ap)
  | _ => .error .badArgument

/-- `va_arg(ap, double)`. The last argument may be an `int`: it is read together with the word
`above` it on the stack. -/
def vaDouble (above : BitVec 32) : List Arg → Except Halt (BitVec 64 × List Arg)
  | .double d :: ap => .ok (d, ap)
  | [.int i] => .ok (above ++ i, [])
  | _ => .error .badArgument

def vaStr : List Arg → Except Halt (CString × List Arg)
  | .str s :: ap => .ok (s, ap)
  | _ => .error .badArgument

/-- The case `'x'` of `cprintf`. -/
def writeHex (i : BitVec 32) (t : Terminal) : Except Halt Terminal := do
  let (str, _) ← itoa i 16 (fun _ => 0) (fun _ => 0)
  match strlen 32 str with
  | none => .error .overrun
  | some size => .ok (writeToTerminal t str size)

/-- Only `cprintf` has a case `'x'`; the rest of its loop is that of `printf`. -/
inductive Formatter where
  | printf | cprintf
  deriving DecidableEq, Repr

/-- The loop over the format. `nested` is the call that prints a number; a `%` at the very end
takes the terminator for its directive and the loop beyond the string. -/
def scan (k : Formatter) (above : BitVec 32) (nested : Arg → Terminal → Except Halt Terminal) :
    List Byte → List Arg → Terminal → Except Halt (List Arg × Terminal)
  | [], ap, t => .ok (ap, t)
  | c :: fmt, ap, t =>
    if c ≠ ascii '%' then scan k above nested fmt ap (putTerminalChar t c)
    else match fmt with
      | [] => .error .overrun
      | d :: fmt =>
        if d = ascii 'c' then do
          let (i, ap) ← vaInt ap
          scan k above nested fmt ap (putTerminalChar t ((i &&& ~~~0xFFFFFF00).setWidth 8))
        else if d = ascii 'd' then do
          let (i, ap) ← vaInt ap
          scan k above nested fmt ap (← nested (.int i) t)
        else if d = ascii 'f' then do
          let (d, ap) ← vaDouble above ap
          scan k above nested fmt ap (← nested (.double d) t)
        else if d = ascii 's' then do
          let (s, ap) ← vaStr ap
          scan k above nested fmt ap (putChars t s.chars)
        else if d = ascii 'x' ∧ k = .cprintf then do
          let (i, ap) ← vaInt ap
          scan k above nested fmt ap (← writeHex i t)
        else scan k above nested fmt ap (putTerminalChar t d)

/-- The newline that both functions end with. -/
def endLine (t : Terminal) : Terminal :=
  if NEW_LINE_AT_END then putTerminalChar t (ascii '\n') else t

def percentF : CString := ⟨[ascii '%', ascii 'f'], by decide⟩

/-- `printf`. The budget bounds the depth of nested calls. -/
def printf (above : BitVec 32) : ℕ → CString → List Arg → Terminal → Except Halt Terminal
  | 0, _, _, _ => .error .depth
  | depth + 1, fmt, ap, t => do
    let nested := fun a t => printf above depth percentF [a] t
    let (_, t) ← scan .printf above nested fmt.chars ap t
    pure (endLine t)

def cprintf (above : BitVec 32) (depth : ℕ) (color : Byte) (fmt : CString) (ap : List Arg)
    (t : Terminal) : Except Halt Terminal := do
  let oldColor := t.terminalColor
  let t := { t with terminalColor := vgaColorEntry color Palette.white.code }
  let nested := fun a t => printf above depth percentF [a] t
  let (_, t) ← scan .cprintf above nested fmt.chars ap t
  let t := endLine t
  pure { t with terminalColor := oldColor }

variable {above i base : BitVec 32} {t : Terminal} {fmt : List Byte} {ap : List Arg}
  {k : Formatter} {nested : Arg → Terminal → Except Halt Terminal}

theorem scan_char {c : Byte} (hc : c ≠ ascii '%') :
    scan k above nested (c :: fmt) ap t = scan k above nested fmt ap (putTerminalChar t c) := by
  rw [scan.eq_def]
  exact if_pos hc

theorem scan_c : scan k above nested (ascii '%' :: ascii 'c' :: fmt) (.int i :: ap) t =
    scan k above nested fmt ap (putTerminalChar t ((i &&& ~~~0xFFFFFF00).setWidth 8)) := rfl

theorem scan_d : scan k above nested (ascii '%' :: ascii 'd' :: fmt) (.int i :: ap) t =
    (nested (.int i) t).bind (scan k above nested fmt ap) := rfl

theorem scan_f {d : BitVec 64} :
    scan k above nested (ascii '%' :: ascii 'f' :: fmt) (.double d :: ap) t =
      (nested (.double d) t).bind (scan k above nested fmt ap) := rfl

theorem scan_f_int : scan k above nested (ascii '%' :: ascii 'f' :: fmt) [.int i] t =
    (nested (.double (above ++ i)) t).bind (scan k above nested fmt []) := rfl

theorem scan_s {s : CString} :
    scan k above nested (ascii '%' :: ascii 's' :: fmt) (.str s :: ap) t =
      scan k above nested fmt ap (putChars t s.chars) := rfl

theorem scan_x : scan .cprintf above nested (ascii '%' :: ascii 'x' :: fmt) (.int i :: ap) t =
    (writeHex i t).bind (scan .cprintf above nested fmt ap) := rfl

/-- The numeral of `n` in `base`, highest digit first. -/
def numeral (base n : ℕ) : List Byte :=
  if n = 0 then [ascii '0'] else (Nat.digits base n).reverse.map (bchars.getD · 0)

theorem numeral_ne_nil (base n : ℕ) : numeral base n ≠ [] := by
  by_cases hn : n = 0
  · subst hn
    exact List.cons_ne_nil _ _
  · rw [numeral, if_neg hn]
    simpa [Nat.digits_eq_nil_iff_eq_zero] using hn

/-- A numeral is written in the characters of the digits below `base`. -/
theorem mem_numeral {base n : ℕ} (hb : 1 < base) {c : Byte} (hc : c ∈ numeral base n) :
    ∃ d < base, c = bchars.getD d 0 := by
  by_cases hn : n = 0
  · subst hn
    exact ⟨0, Nat.zero_lt_of_lt hb, List.mem_singleton.mp hc⟩
  · rw [numeral, if_neg hn] at hc
    obtain ⟨d, hd, rfl⟩ := List.mem_map.mp hc
    exact ⟨d, Nat.digits_lt_base hb (List.mem_reverse.mp hd), rfl⟩

/-- The digits of a numeral, read by `value`, make up its number. -/
theorem ofDigits_numeral {base : ℕ} (hb : 1 < base) {value : Byte → ℕ}
    (hvalue : ∀ d < base, value (bchars.getD d 0) = d) (n : ℕ) :
    Nat.ofDigits base ((numeral base n).reverse.map value) = n := by
  by_cases hn : n = 0
  · subst hn
    have hzero : value (ascii '0') = 0 := hvalue 0 (Nat.zero_lt_of_lt hb)
    rw [numeral, if_pos rfl, List.reverse_singleton, List.map_singleton, hzero,
      Nat.ofDigits_singleton]
  · have hmap : ((Nat.digits base n).map (bchars.getD · 0)).map value = Nat.digits base n := by
      rw [List.map_map]
      refine (List.map_congr_left fun d hd => ?_).trans (List.map_id _)
      exact hvalue d (Nat.digits_lt_base hb hd)
    rw [numeral, if_neg hn, ← List.map_reverse, List.reverse_reverse, hmap, Nat.ofDigits_digits]

theorem numeral_length {base n m : ℕ} (hb : 1 < base) (hm : 0 < m) (hn : n < base ^ m) :
    (numeral base n).length ≤ m := by
  by_cases h0 : n = 0
  · subst h0
    exact hm
  · rw [numeral, if_neg h0, List.length_map, List.length_reverse, Nat.digits_length_le_iff hb]
    exact hn

theorem itoaDigits_zero (base : BitVec 32) (room pos : ℕ) (tbuf : ℕ → Byte) :
    itoaDigits base room 0 pos tbuf = .ok (pos, tbuf) := by
  cases room <;> simp [itoaDigits]

theorem itoaDigits_succ (hi : i ≠ 0) (hb : base ≠ 0) (room pos : ℕ) (tbuf : ℕ → Byte) :
    itoaDigits base (room + 1) i pos tbuf = itoaDigits base room (i / base) (pos + 1)
      (Function.update tbuf pos (bchars.getD (i % base).toNat 0)) := by
  rw [itoaDigits.eq_def, if_neg hi, if_neg hb]

theorem digits_toNat (hb : 1 < base.toNat) (hi : i ≠ 0) : Nat.digits base.toNat i.toNat =
    (i % base).toNat :: Nat.digits base.toNat (i / base).toNat := by
  have hpos : 0 < i.toNat := Nat.pos_of_ne_zero fun h => hi (BitVec.eq_of_toNat_eq h)
  rw [Nat.digits_def' hb hpos, BitVec.toNat_umod, BitVec.toNat_udiv]

/-- The loop stores the digits behind `pos`, lowest first. -/
theorem itoaDigits_eq {room : ℕ} (hb : 1 < base.toNat)
    (hroom : (Nat.digits base.toNat i.toNat).length ≤ room) (pos : ℕ) (tbuf : ℕ → Byte) :
    ∃ tbuf', itoaDigits base room i pos tbuf =
        .ok (pos + (Nat.digits base.toNat i.toNat).length, tbuf') ∧
      (∀ k (hk : k < (Nat.digits base.toNat i.toNat).length),
        tbuf' (pos + k) = bchars.getD (Nat.digits base.toNat i.toNat)[k] 0) ∧
      (∀ k < pos, tbuf' k = tbuf k) ∧
      ∀ k ≥ pos + (Nat.digits base.toNat i.toNat).length, tbuf' k = tbuf k := by
  induction room generalizing i pos tbuf with
  | zero =>
    have hnil := List.length_eq_zero_iff.mp (Nat.le_zero.mp hroom)
    have hi : i = 0 := BitVec.eq_of_toNat_eq (Nat.digits_eq_nil_iff_eq_zero.mp hnil)
    subst hi
    refine ⟨tbuf, ?_, by simp, fun _ _ => rfl, fun _ _ => rfl⟩
    rw [itoaDigits_zero]
    simp
  | succ room ih =>
    by_cases hi : i = 0
    · subst hi
      refine ⟨tbuf, ?_, by simp, fun _ _ => rfl, fun _ _ => rfl⟩
      rw [itoaDigits_zero]
      simp
    · have hb0 : base ≠ 0 := by
        rintro rfl
        simp at hb
      have hdigits := digits_toNat hb hi
      rw [hdigits, List.length_cons] at hroom
      obtain ⟨tbuf', heq, hnew, hold, hbeyond⟩ := ih (Nat.le_of_succ_le_succ hroom) (pos + 1)
        (Function.update tbuf pos (bchars.getD (i % base).toNat 0))
      refine ⟨tbuf', ?_, fun k hk => ?_, fun k hk => ?_, fun k hk => ?_⟩
      · rw [itoaDigits_succ hi hb0, heq, hdigits, List.length_cons, Nat.add_right_comm,
          Nat.add_assoc]
      · simp only [hdigits] at hk ⊢
        cases k with
        | zero =>
          rw [Nat.add_zero, hold pos (Nat.lt_succ_self pos), Function.update_self]
          rfl
        | succ k =>
          have hnext := hnew k (Nat.lt_of_succ_lt_succ hk)
          rwa [Nat.add_assoc, Nat.add_comm 1 k] at hnext
      · rw [hold k (Nat.lt_succ_of_lt hk), Function.update_of_ne (Nat.ne_of_lt hk)]
      · rw [hdigits, List.length_cons] at hk
        rw [hbeyond k (by omega), Function.update_of_ne (by omega)]

theorem foldl_update (f : ℕ → Byte) (n k : ℕ) (buf : ℕ → Byte) :
    (List.range n).foldl (fun buf opos => Function.update buf opos (f opos)) buf k =
      if k < n then f k else buf k := by
  induction n with
  | zero => rfl
  | succ n ih =>
    rw [List.range_succ, List.foldl_append, List.foldl_cons, List.foldl_nil]
    by_cases hk : k = n
    · subst hk
      rw [Function.update_self, if_pos (Nat.lt_succ_self k)]
    · rw [Function.update_of_ne hk, ih]
      exact if_congr (by omega) rfl rfl

/-- `itoa` writes the numeral and a terminator, and nothing behind them. -/
theorem itoa_spells (hb : 1 < base.toNat) (hle : base.toNat ≤ 16) (i : BitVec 32)
    (buf tbuf : ℕ → Byte) :
    ∃ str tbuf', itoa i base buf tbuf = .ok (str, tbuf') ∧
      Spells str (numeral base.toNat i.toNat) ∧
      (∀ k > (numeral base.toNat i.toNat).length, str k = buf k) ∧
      ∀ k ≥ 32, tbuf' k = tbuf k := by
  by_cases hi : i = 0
  · subst hi
    refine ⟨_, tbuf, if_pos (.inl rfl), fun k hk => ?_, fun k hk => ?_, fun _ _ => rfl⟩
    · have hk' : k ≤ 1 := hk
      interval_cases k
      · rfl
      · rfl
    · have hk' : 1 < k := hk
      rw [Function.update_of_ne (by omega), Function.update_of_ne (by omega)]
  · have hlen : (Nat.digits base.toNat i.toNat).length ≤ 32 := by
      rw [Nat.digits_length_le_iff hb]
      exact i.isLt.trans_le (Nat.pow_le_pow_left hb 32)
    obtain ⟨tbuf', hdigits, hnew, -, hbeyond⟩ := itoaDigits_eq hb hlen 0 tbuf
    have hguard : ¬ (i = 0 ∨ base > 16) := by
      simp only [hi, false_or, gt_iff_lt, BitVec.lt_def, BitVec.reduceToNat]
      omega
    have hn : i.toNat ≠ 0 := fun h => hi (BitVec.eq_of_toNat_eq h)
    rw [Nat.zero_add] at hdigits
    have hitoa : itoa i base buf tbuf = .ok (Function.update
        ((List.range (Nat.digits base.toNat i.toNat).length).foldl (fun buf opos =>
          Function.update buf opos (tbuf' ((Nat.digits base.toNat i.toNat).length - 1 - opos))) buf)
        (Nat.digits base.toNat i.toNat).length 0, tbuf') := by
      rw [itoa, if_neg hguard, hdigits]
      rfl
    have hlength : (numeral base.toNat i.toNat).length = (Nat.digits base.toNat i.toNat).length := by
      rw [numeral, if_neg hn, List.length_map, List.length_reverse]
    refine ⟨_, tbuf', hitoa, fun k hk => ?_, fun k hk => ?_, fun k hk => hbeyond k (by omega)⟩
    · rw [hlength] at hk
      rw [numeral, if_neg hn]
      by_cases hkn : k = (Nat.digits base.toNat i.toNat).length
      · rw [hkn, Function.update_self, List.getD_eq_default _ _ (by simp)]
      · have hlt : k < (Nat.digits base.toNat i.toNat).length := Nat.lt_of_le_of_ne hk hkn
        have hlast : (Nat.digits base.toNat i.toNat).length - 1 - k <
            (Nat.digits base.toNat i.toNat).length := by omega
        have hdigit := hnew _ hlast
        rw [Nat.zero_add] at hdigit
        have hk' : k < ((Nat.digits base.toNat i.toNat).reverse.map (bchars.getD · 0)).length := by
          rwa [List.length_map, List.length_reverse]
        rw [Function.update_of_ne hkn, foldl_update, if_pos hlt, hdigit,
          List.getD_eq_getElem _ _ hk', List.getElem_map, List.getElem_reverse]
    · rw [hlength] at hk
      rw [Function.update_of_ne (by omega), foldl_update, if_neg (by omega)]

/-- `%x` writes a numeral and starts a new line. -/
theorem writeHex_eq (i : BitVec 32) (t : Terminal) :
    writeHex i t = .ok (putChars t (numeral 16 i.toNat ++ [ascii '\n'])) := by
  have hbase : 1 < (16 : BitVec 32).toNat ∧ (16 : BitVec 32).toNat ≤ 16 := by decide
  obtain ⟨str, tbuf, hitoa, hspells, -⟩ :=
    itoa_spells hbase.1 hbase.2 i (fun _ => 0) (fun _ => 0)
  change Spells str (numeral 16 i.toNat) at hspells
  have hlen : (numeral 16 i.toNat).length ≤ 8 := numeral_length (by decide) (by decide) i.isLt
  have hzero : 0 ∉ numeral 16 i.toNat := by
    intro h
    obtain ⟨d, hd, hc⟩ := mem_numeral (by decide) h
    revert d
    decide
  have hsize : strlen 32 str = some (numeral 16 i.toNat).length :=
    hspells.strlen_eq hzero (by omega)
  simp only [writeHex, hitoa, bind, Except.bind, hsize, writeToTerminal_spells hspells]

/-- The characters behind the `%` signs. -/
def directives : List Byte → List Byte
  | [] => []
  | c :: fmt =>
    if c ≠ ascii '%' then directives fmt
    else match fmt with
      | [] => []
      | d :: fmt => d :: directives fmt

/-- The kind of argument that a directive takes, if it takes one. -/
inductive ArgType where
  | int | double | str
  deriving DecidableEq, Repr

def Arg.type : Arg → ArgType
  | .int _ => .int
  | .double _ => .double
  | .str _ => .str

def takes (k : Formatter) (d : Byte) : Option ArgType :=
  if d = ascii 'c' ∨ d = ascii 'd' ∨ d = ascii 'x' ∧ k = .cprintf then some .int
  else if d = ascii 'f' then some .double
  else if d = ascii 's' then some .str
  else none

theorem takes_eq_some {d : Byte} {a : Arg} (h : takes k d = some a.type) :
    (∃ i, a = .int i ∧ (d = ascii 'c' ∨ d = ascii 'd' ∨ d = ascii 'x' ∧ k = .cprintf)) ∨
    (∃ x, a = .double x ∧ d = ascii 'f') ∨ (∃ s, a = .str s ∧ d = ascii 's') := by
  simp only [takes] at h
  split_ifs at h with hint hf hs
  · cases a with
    | int i => exact .inl ⟨i, rfl, hint⟩
    | double x => cases h
    | str s => cases h
  · cases a with
    | int i => cases h
    | double x => exact .inr (.inl ⟨x, rfl, hf⟩)
    | str s => cases h
  · cases a with
    | int i => cases h
    | double x => cases h
    | str s => exact .inr (.inr ⟨s, rfl, hs⟩)

theorem scan_plain {d : Byte} (hd : takes k d = none) :
    scan k above nested (ascii '%' :: d :: fmt) ap t =
      scan k above nested fmt ap (putTerminalChar t d) := by
  simp only [takes] at hd
  split_ifs at hd with hint hf hs
  simp only [not_or] at hint
  rw [scan.eq_def]
  simp only [ne_eq, not_true_eq_false, if_false, hint, hf, hs]

/-- The arguments are those that the directives of the format take, and no `%` stands alone
at its end. -/
inductive Matches (k : Formatter) : List Byte → List Arg → Prop
  | nil : Matches k [] []
  | char {c fmt ap} (hc : c ≠ ascii '%') (h : Matches k fmt ap) : Matches k (c :: fmt) ap
  | arg {d fmt a ap} (hd : takes k d = some a.type) (h : Matches k fmt ap) :
      Matches k (ascii '%' :: d :: fmt) (a :: ap)
  | plain {d fmt ap} (hd : takes k d = none) (h : Matches k fmt ap) :
      Matches k (ascii '%' :: d :: fmt) ap

theorem directives_char {c : Byte} (hc : c ≠ ascii '%') : directives (c :: fmt) = directives fmt := by
  rw [directives.eq_def]
  exact if_pos hc

theorem directives_percent {d : Byte} : directives (ascii '%' :: d :: fmt) = d :: directives fmt :=
  rfl

/-- The directives that call the formatter again. -/
def Recursive (d : Byte) : Prop := d = ascii 'd' ∨ d = ascii 'f'

variable {d : Byte}

/-- A directive that is not recursive prints an argument of its type. -/
theorem scan_takes {a : Arg} (htakes : takes k d = some a.type) (hrec : ¬ Recursive d)
    (above : BitVec 32) (nested : Arg → Terminal → Except Halt Terminal) (fmt : List Byte)
    (ap : List Arg) (t : Terminal) :
    ∃ t', scan k above nested (ascii '%' :: d :: fmt) (a :: ap) t = scan k above nested fmt ap t' := by
  rcases takes_eq_some htakes with ⟨i, rfl, rfl | rfl | ⟨rfl, rfl⟩⟩ | ⟨x, rfl, rfl⟩ | ⟨s, rfl, rfl⟩
  · exact ⟨_, scan_c⟩
  · exact absurd (.inl rfl) hrec
  · exact ⟨_, by rw [scan_x, writeHex_eq]; rfl⟩
  · exact absurd (.inr rfl) hrec
  · exact ⟨_, scan_s⟩

/-- A recursive directive hands on what its nested call comes to. -/
theorem scan_takes_nested {a : Arg} (hn : ∀ a t, a.type ≠ .str → nested a t = .error .depth)
    (htakes : takes k d = some a.type) (hrec : Recursive d) (fmt : List Byte) (ap : List Arg)
    (t : Terminal) :
    scan k above nested (ascii '%' :: d :: fmt) (a :: ap) t = .error .depth := by
  rcases takes_eq_some htakes with ⟨i, rfl, rfl | rfl | ⟨rfl, rfl⟩⟩ | ⟨x, rfl, rfl⟩ | ⟨s, rfl, rfl⟩
  · exact absurd hrec (by simp only [Recursive]; decide)
  · rw [scan_d, hn (.int i) t nofun]
    rfl
  · exact absurd hrec (by simp only [Recursive]; decide)
  · rw [scan_f, hn (.double x) t nofun]
    rfl
  · exact absurd hrec (by simp only [Recursive]; decide)

/-- Without a recursive directive the loop runs through a format that its arguments match. -/
theorem scan_prefix (above : BitVec 32) (nested : Arg → Terminal → Except Halt Terminal)
    (hm : Matches k fmt ap) (hd : ∀ d ∈ directives fmt, ¬ Recursive d) (fmt' : List Byte)
    (ap' : List Arg) (t : Terminal) :
    ∃ t', scan k above nested (fmt ++ fmt') (ap ++ ap') t = scan k above nested fmt' ap' t' := by
  induction hm generalizing t with
  | nil => exact ⟨t, rfl⟩
  | char hc _ ih =>
    rw [List.cons_append, scan_char hc]
    exact ih (by rwa [directives_char hc] at hd) _
  | arg htakes _ ih =>
    rw [directives_percent, List.forall_mem_cons] at hd
    obtain ⟨hnot, hd⟩ := hd
    simp only [List.cons_append]
    obtain ⟨t', hstep⟩ := scan_takes htakes hnot above nested _ _ t
    rw [hstep]
    exact ih hd t'
  | plain htakes _ ih =>
    rw [directives_percent, List.forall_mem_cons] at hd
    simp only [List.cons_append]
    rw [scan_plain htakes]
    exact ih hd.2 _

theorem scan_returns (above : BitVec 32) (nested : Arg → Terminal → Except Halt Terminal)
    (hm : Matches k fmt ap) (hd : ∀ d ∈ directives fmt, ¬ Recursive d) (t : Terminal) :
    ∃ out, scan k above nested fmt ap t = .ok out := by
  obtain ⟨t', h⟩ := scan_prefix above nested hm hd [] [] t
  rw [List.append_nil, List.append_nil] at h
  exact ⟨([], t'), h⟩

/-- A loop with a recursive directive ends in the outcome of its nested call. -/
theorem scan_nested (above : BitVec 32) (hn : ∀ a t, a.type ≠ .str → nested a t = .error .depth)
    (hm : Matches k fmt ap) (hd : ∃ d ∈ directives fmt, Recursive d) (t : Terminal) :
    scan k above nested fmt ap t = .error .depth := by
  induction hm generalizing t with
  | nil => simp [directives] at hd
  | char hc _ ih =>
    rw [scan_char hc]
    exact ih (by rwa [directives_char hc] at hd) _
  | @arg d fmt a ap htakes _ ih =>
    rw [directives_percent, List.exists_mem_cons_iff] at hd
    by_cases hrec : Recursive d
    · exact scan_takes_nested hn htakes hrec fmt ap t
    · obtain ⟨t', hstep⟩ := scan_takes htakes hrec above nested fmt ap t
      rw [hstep]
      exact ih (hd.resolve_left hrec) t'
  | plain htakes _ ih =>
    rw [directives_percent, List.exists_mem_cons_iff] at hd
    rw [scan_plain htakes]
    refine ih (hd.resolve_left ?_) _
    rintro (rfl | rfl)
    · simp [takes] at htakes
    · cases htakes

theorem takes_eq_none (hrec : ¬ Recursive d)
    (hd : ¬ (d = ascii 'c' ∨ d = ascii 's' ∨ d = ascii 'x' ∧ k = .cprintf)) : takes k d = none := by
  simp only [Recursive, not_or] at hrec hd
  simp [takes, hrec, hd]

/-- The characters that a directive puts for an argument that it can print. -/
def written (k : Formatter) (d : Byte) : Arg → Option (List Byte)
  | .int i =>
    if d = ascii 'c' then some [(i &&& ~~~0xFFFFFF00).setWidth 8]
    else if d = ascii 'x' ∧ k = .cprintf then some (numeral 16 i.toNat ++ [ascii '\n'])
    else none
  | .str s => if d = ascii 's' then some s.chars else none
  | .double _ => none

theorem scan_recursive_head (hn : ∀ a t, a.type ≠ .str → nested a t = .error .depth)
    (hd : Recursive d) (fmt : List Byte) (ap : List Arg) (t : Terminal) :
    ∃ e, e ≠ .overrun ∧ scan k above nested (ascii '%' :: d :: fmt) ap t = .error e := by
  have hbad : Halt.badArgument ≠ .overrun := nofun
  have hdepth : Halt.depth ≠ .overrun := nofun
  rcases hd with rfl | rfl
  · cases ap with
    | nil => exact ⟨_, hbad, rfl⟩
    | cons a rest =>
      cases a with
      | int i => exact ⟨_, hdepth, by rw [scan_d, hn (.int i) t nofun]; rfl⟩
      | double x => exact ⟨_, hbad, rfl⟩
      | str s => exact ⟨_, hbad, rfl⟩
  · cases ap with
    | nil => exact ⟨_, hbad, rfl⟩
    | cons a rest =>
      cases a with
      | int i =>
        cases rest with
        | nil => exact ⟨_, hdepth, by rw [scan_f_int, hn (.double (above ++ i)) t nofun]; rfl⟩
        | cons b rest => exact ⟨_, hbad, rfl⟩
      | double x => exact ⟨_, hdepth, by rw [scan_f, hn (.double x) t nofun]; rfl⟩
      | str s => exact ⟨_, hbad, rfl⟩

/-- A directive that takes its argument itself prints it, or does not find it. -/
theorem scan_argument (hd : d = ascii 'c' ∨ d = ascii 's' ∨ d = ascii 'x' ∧ k = .cprintf)
    (nested : Arg → Terminal → Except Halt Terminal) (fmt : List Byte) (ap : List Arg)
    (t : Terminal) :
    scan k above nested (ascii '%' :: d :: fmt) ap t = .error .badArgument ∨
    ∃ a rest out, ap = a :: rest ∧ written k d a = some out ∧
      scan k above nested (ascii '%' :: d :: fmt) ap t =
        scan k above nested fmt rest (putChars t out) := by
  cases ap with
  | nil =>
    rcases hd with rfl | rfl | ⟨rfl, rfl⟩
    · exact .inl rfl
    · exact .inl rfl
    · exact .inl rfl
  | cons a rest =>
    rcases hd with rfl | rfl | ⟨rfl, rfl⟩
    · cases a with
      | int i => exact .inr ⟨_, rest, _, rfl, rfl, scan_c⟩
      | double x => exact .inl rfl
      | str s => exact .inl rfl
    · cases a with
      | int i => exact .inl rfl
      | double x => exact .inl rfl
      | str s => exact .inr ⟨_, rest, _, rfl, rfl, scan_s⟩
    · cases a with
      | int i => exact .inr ⟨_, rest, _, rfl, rfl, by rw [scan_x, writeHex_eq]; rfl⟩
      | double x => exact .inl rfl
      | str s => exact .inl rfl

/-- With any arguments, a directive stops the loop or lets it go on; a recursive one stops it. -/
theorem scan_percent (hn : ∀ a t, a.type ≠ .str → nested a t = .error .depth) (d : Byte)
    (fmt : List Byte) (ap : List Arg) (t : Terminal) :
    (∃ e, e ≠ .overrun ∧ scan k above nested (ascii '%' :: d :: fmt) ap t = .error e) ∨
    (¬ Recursive d ∧ ∃ ap' t',
      scan k above nested (ascii '%' :: d :: fmt) ap t = scan k above nested fmt ap' t') := by
  by_cases hrec : Recursive d
  · exact .inl (scan_recursive_head hn hrec fmt ap t)
  · by_cases hd : d = ascii 'c' ∨ d = ascii 's' ∨ d = ascii 'x' ∧ k = .cprintf
    · rcases scan_argument hd nested fmt ap t with hbad | ⟨a, rest, out, -, -, heq⟩
      · exact .inl ⟨.badArgument, nofun, hbad⟩
      · exact .inr ⟨hrec, rest, _, heq⟩
    · exact .inr ⟨hrec, ap, _, scan_plain (takes_eq_none hrec hd)⟩

variable {n : ℕ} {t' : Terminal} {ap' : List Arg} {e : Halt}

theorem printf_of_ok {f : CString}
    (h : scan .printf above (fun a t => printf above n percentF [a] t) f.chars ap t = .ok (ap', t')) :
    printf above (n + 1) f ap t = .ok (endLine t') := by
  rw [printf, h]
  rfl

theorem printf_of_error {f : CString}
    (h : scan .printf above (fun a t => printf above n percentF [a] t) f.chars ap t = .error e) :
    printf above (n + 1) f ap t = .error e := by
  rw [printf, h]
  rfl

/-- `cprintf` scans with its own colour set. -/
def recolor (t : Terminal) (color : Byte) : Terminal :=
  { t with terminalColor := vgaColorEntry color Palette.white.code }

theorem cprintf_of_ok {f : CString} {color : Byte}
    (h : scan .cprintf above (fun a t => printf above n percentF [a] t) f.chars ap
      (recolor t color) = .ok (ap', t')) :
    cprintf above n color f ap t = .ok { endLine t' with terminalColor := t.terminalColor } := by
  rw [recolor] at h
  simp only [cprintf, h]
  rfl

theorem cprintf_of_error {f : CString} {color : Byte}
    (h : scan .cprintf above (fun a t => printf above n percentF [a] t) f.chars ap
      (recolor t color) = .error e) : cprintf above n color f ap t = .error e := by
  rw [recolor] at h
  simp only [cprintf, h]
  rfl

/-- The format that prints a number asks for it again, without end. -/
theorem printf_percentF (above : BitVec 32) (n : ℕ) (a : Arg) (t : Terminal) (ha : a.type ≠ .str) :
    printf above n percentF [a] t = .error .depth := by
  induction n generalizing a t with
  | zero => rfl
  | succ n ih =>
    apply printf_of_error
    have hchars : percentF.chars = [ascii '%', ascii 'f'] := rfl
    rw [hchars]
    cases a with
    | int i =>
      rw [scan_f_int, ih (.double (above ++ i)) t nofun]
      rfl
    | double d =>
      rw [scan_f, ih (.double d) t nofun]
      rfl
    | str s => exact absurd rfl ha

/-- With matching arguments both functions return exactly if the format has neither `%d` nor
`%f`; otherwise every budget for nested calls is exhausted. -/
theorem format_returns_iff (above : BitVec 32) (color : Byte) (f : CString) (t : Terminal) :
    (∀ ap, Matches .printf f.chars ap →
      ((∃ n t', printf above n f ap t = .ok t') ↔ ∀ d ∈ directives f.chars, ¬ Recursive d)) ∧
    (∀ ap, Matches .cprintf f.chars ap →
      ((∃ n t', cprintf above n color f ap t = .ok t') ↔
        ∀ d ∈ directives f.chars, ¬ Recursive d)) := by
  constructor
  · intro ap hm
    constructor
    · rintro ⟨n, t', hr⟩ d hd hrec
      cases n with
      | zero => cases hr
      | succ n =>
        have hscan := scan_nested above (fun a t => printf_percentF above n a t) hm
          ⟨d, hd, hrec⟩ t
        rw [printf_of_error hscan] at hr
        cases hr
    · intro hd
      obtain ⟨⟨ap', t'⟩, hscan⟩ := scan_returns above
        (fun a t => printf above 0 percentF [a] t) hm hd t
      exact ⟨1, endLine t', printf_of_ok hscan⟩
  · intro ap hm
    constructor
    · rintro ⟨n, t', hr⟩ d hd hrec
      have hscan := scan_nested above (fun a t => printf_percentF above n a t) hm
        ⟨d, hd, hrec⟩ (recolor t color)
      rw [cprintf_of_error hscan] at hr
      cases hr
    · intro hd
      obtain ⟨⟨ap', t'⟩, hscan⟩ := scan_returns above
        (fun a t => printf above 0 percentF [a] t) hm hd (recolor t color)
      exact ⟨0, _, cprintf_of_ok hscan⟩

def percentD : CString := ⟨[ascii '%', ascii 'd'], by decide⟩

theorem matches_percentD (k : Formatter) : Matches k percentD.chars [.int 7] :=
  .arg rfl .nil

theorem printf_percentD_diverges :
    Matches .printf percentD.chars [.int 7] ∧
      ¬ ∃ n t', printf 0 n percentD [.int 7] zeroTerminal = .ok t' := by
  refine ⟨matches_percentD _, ?_⟩
  rintro ⟨n, t', hr⟩
  cases n with
  | zero => cases hr
  | succ n =>
    have hscan := scan_nested 0 (fun a t => printf_percentF 0 n a t) (matches_percentD .printf)
      ⟨ascii 'd', by decide, .inl rfl⟩ zeroTerminal
    rw [printf_of_error hscan] at hr
    cases hr

end TinaOS.Stdio
