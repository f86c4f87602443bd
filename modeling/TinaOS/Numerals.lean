import TinaOS.Stdio
import Mathlib.Data.List.DropRight
import Mathlib.Tactic.Ring

/-!
# Numerals of `stdio.c`

`atoi` reads a string from the right, with a power of ten that wraps, and keeps the length of
the string in eight bits. It reads back what `itoa` writes in decimal.
-/

namespace TinaOS.Stdio

open Strings

/-- `isdigit`: a `char` is signed. -/
def isdigit (c : Byte) : Bool := (ascii '0').sle c && c.sle (ascii '9')

/-- The loop of `atoi`, from right to left. It leaves with the rest of `len` and with
`result`. -/
def atoiDigits (s : ℕ → Byte) : ℕ → BitVec 32 → BitVec 32 → ℕ × BitVec 32
  | 0, result, _ => (0, result)
  | len + 1, result, mul =>
    if isdigit (s len) then
      atoiDigits s len
        (result + ((s len).signExtend 32 - (ascii '0').signExtend 32) * mul) (mul * 10)
    else (len + 1, result)

/-- `atoi`: its `len` is a `uint8_t`. -/
def atoi (fuel : ℕ) (s : ℕ → Byte) : Option (BitVec 32) :=
  (strlen fuel s).map fun size =>
    let (len, result) := atoiDigits s (BitVec.ofNat 8 size).toNat 0 1
    let (len, result) := if len = 1 ∧ s 0 = ascii '-' then (0, result * -1) else (len, result)
    if len = 0 then result else -1

def digit (c : Byte) : ℕ := c.toNat - (ascii '0').toNat

/-- The number of a row of digits. -/
def decimal (ds : List Byte) : ℕ := Nat.ofDigits 10 (ds.reverse.map digit)

/-- One or more decimal digits. -/
def Digits (ds : List Byte) : Prop := ds ≠ [] ∧ ∀ c ∈ ds, isdigit c

instance (ds : List Byte) : Decidable (Digits ds) := inferInstanceAs (Decidable (_ ∧ _))

/-- The number that a string stands for, if it is an optional `-` and one or more digits. -/
def value (cs : List Byte) : Option ℤ :=
  if Digits cs then some (decimal cs)
  else if cs.head? = some (ascii '-') ∧ Digits cs.tail then some (-decimal cs.tail)
  else none

/-- The numbers of an `int32_t`. -/
def Fits (v : ℤ) : Prop := -2 ^ 31 ≤ v ∧ v < 2 ^ 31

instance (v : ℤ) : Decidable (Fits v) := inferInstanceAs (Decidable (_ ∧ _))

/-- What `atoi` makes of the characters that it looks at. -/
def parse (cs : List Byte) : BitVec 32 :=
  match value cs with
  | some v => BitVec.ofInt 32 v
  | none => if cs = [] ∨ cs = [ascii '-'] then 0 else -1

theorem isdigit_iff {c : Byte} : isdigit c ↔ 48 ≤ c.toNat ∧ c.toNat ≤ 57 := by
  have h0 : (ascii '0').toInt = 48 := by decide
  have h9 : (ascii '9').toInt = 57 := by decide
  have hc := c.isLt
  simp only [isdigit, BitVec.sle_eq_decide, h0, h9, Bool.and_eq_true, decide_eq_true_eq,
    BitVec.toInt_eq_toNat_cond]
  split <;> omega

theorem signExtend_digit {c : Byte} (hc : isdigit c) :
    c.signExtend 32 - (ascii '0').signExtend 32 = BitVec.ofNat 32 (digit c) := by
  obtain ⟨hlow, hhigh⟩ := isdigit_iff.mp hc
  have hmsb : c.msb = false := by
    rw [BitVec.msb_eq_false_iff_two_mul_lt]
    omega
  have hzero : (ascii '0').signExtend 32 = 48#32 := by decide
  have hval : (ascii '0').toNat = 48 := by decide
  rw [BitVec.signExtend_eq_setWidth_of_msb_false hmsb, hzero, digit, hval]
  apply BitVec.eq_of_toNat_eq
  simp only [BitVec.toNat_sub, BitVec.toNat_setWidth, BitVec.toNat_ofNat]
  omega

theorem decimal_concat (ds : List Byte) (c : Byte) :
    decimal (ds ++ [c]) = digit c + 10 * decimal ds := by
  simp [decimal, Nat.ofDigits_cons]

/-- The loop takes the digits at the end of the string and adds their number to `result`, in
units of `mul`. -/
theorem atoiDigits_eq {s : ℕ → Byte} {t : List Byte} (hs : ∀ k (hk : k < t.length), s k = t[k])
    (result mul : BitVec 32) :
    atoiDigits s t.length result mul = ((t.rdropWhile isdigit).length,
      result + BitVec.ofNat 32 (decimal (t.rtakeWhile isdigit)) * mul) := by
  induction t using List.reverseRecOn generalizing result mul with
  | nil => simp [atoiDigits, decimal]
  | append_singleton t c ih =>
    have hlast : s t.length = c := by
      rw [hs t.length (by simp), List.getElem_concat_length rfl]
    have hinit : ∀ k (hk : k < t.length), s k = t[k] := by
      intro k hk
      rw [hs k (by simp; omega), List.getElem_append_left hk]
    rw [List.length_append, List.length_singleton, atoiDigits, hlast]
    by_cases hc : isdigit c
    · rw [if_pos hc, ih hinit, signExtend_digit hc, List.rdropWhile_concat_pos _ _ _ hc,
        List.rtakeWhile_concat_pos _ _ _ hc, decimal_concat, BitVec.ofNat_add, BitVec.ofNat_mul]
      have hten : BitVec.ofNat 32 10 = 10 := rfl
      congr 1
      rw [hten]
      ring
    · rw [if_neg hc, List.rdropWhile_concat_neg _ _ _ hc, List.rtakeWhile_concat_neg _ _ _ hc]
      simp [decimal]

theorem value_digits {ds : List Byte} (hne : ds ≠ []) (hd : ∀ c ∈ ds, isdigit c) :
    value ds = some (decimal ds : ℤ) := if_pos ⟨hne, hd⟩

theorem value_of_not_isdigit {c : Byte} (hc : ¬ isdigit c) (ds : List Byte) : value (c :: ds) =
    if c = ascii '-' ∧ Digits ds then some (-decimal ds : ℤ) else none := by
  have hnot : ¬ Digits (c :: ds) := fun h => hc (h.2 c (List.mem_cons_self))
  rw [value, if_neg hnot]
  simp

theorem value_eq_none {cs : List Byte} {c : Byte} (hmem : c ∈ cs.tail) (hc : ¬ isdigit c) :
    value cs = none := by
  have hnot : ¬ Digits cs := fun h => hc (h.2 c (List.mem_of_mem_tail hmem))
  have hnot' : ¬ Digits cs.tail := fun h => hc (h.2 c hmem)
  rw [value, if_neg hnot, if_neg fun h => hnot' h.2]

theorem parse_of_some {cs : List Byte} {v : ℤ} (h : value cs = some v) :
    parse cs = BitVec.ofInt 32 v := by
  rw [parse, h]

theorem parse_of_none {cs : List Byte} (h : value cs = none) (hcs : ¬ (cs = [] ∨ cs = [ascii '-'])) :
    parse cs = -1 := by
  rw [parse, h]
  exact if_neg hcs

theorem parse_digits {ds : List Byte} (hd : ∀ c ∈ ds, isdigit c) :
    parse ds = BitVec.ofNat 32 (decimal ds) := by
  by_cases hne : ds = []
  · subst hne
    rfl
  · rw [parse_of_some (value_digits hne hd), BitVec.ofInt_natCast]

theorem parse_minus {ds : List Byte} (hd : ∀ c ∈ ds, isdigit c) :
    parse (ascii '-' :: ds) = BitVec.ofNat 32 (decimal ds) * -1 := by
  have hval := value_of_not_isdigit (c := ascii '-') (by decide) ds
  by_cases hne : ds = []
  · subst hne
    rfl
  · rw [if_pos ⟨rfl, hne, hd⟩] at hval
    rw [parse_of_some hval, BitVec.ofInt_neg, BitVec.ofInt_natCast, mul_neg_one]

/-- What follows the loop of `atoi` decides by how many characters are left. -/
theorem parse_eq {s : ℕ → Byte} {t : List Byte} (hs : ∀ k (hk : k < t.length), s k = t[k]) :
    parse t =
      if (t.rdropWhile isdigit).length = 1 ∧ s 0 = ascii '-' then
        BitVec.ofNat 32 (decimal (t.rtakeWhile isdigit)) * -1
      else if (t.rdropWhile isdigit).length = 0 then
        BitVec.ofNat 32 (decimal (t.rtakeWhile isdigit))
      else -1 := by
  have hsplit : t.rdropWhile isdigit ++ t.rtakeWhile isdigit = t := List.rdropWhile_append_rtakeWhile
  have hdigits : ∀ c ∈ t.rtakeWhile isdigit, isdigit c := fun c hc => List.mem_rtakeWhile_imp hc
  cases hleft : t.rdropWhile isdigit with
  | nil =>
    rw [hleft, List.nil_append] at hsplit
    rw [hsplit] at hdigits ⊢
    exact parse_digits hdigits
  | cons a left =>
    have hlast := List.rdropWhile_last_not isdigit t (by rw [hleft]; exact List.cons_ne_nil a left)
    simp only [hleft] at hlast hsplit
    generalize t.rtakeWhile isdigit = ds at hsplit hdigits
    subst hsplit
    cases left with
    | nil =>
      have hfirst : s 0 = a := hs 0 (Nat.succ_pos _)
      rw [List.getLast_singleton] at hlast
      rw [List.cons_append, List.nil_append, List.length_singleton, hfirst]
      by_cases ha : a = ascii '-'
      · rw [if_pos ⟨rfl, ha⟩, ha]
        exact parse_minus hdigits
      · rw [if_neg fun h => ha h.2, if_neg Nat.one_ne_zero]
        have hval := value_of_not_isdigit hlast ds
        rw [if_neg fun h => ha h.1] at hval
        apply parse_of_none hval
        rintro (h | h)
        · cases h
        · exact ha (List.cons.inj h).1
    | cons b left =>
      have hmem : (b :: left).getLast (List.cons_ne_nil b left) ∈ (a :: b :: left ++ ds).tail :=
        List.mem_append_left ds (List.getLast_mem _)
      rw [List.getLast_cons_cons] at hlast
      have hmany : (a :: b :: left).length ≠ 1 ∧ (a :: b :: left).length ≠ 0 := by simp
      rw [if_neg fun h => hmany.1 h.1, if_neg hmany.2]
      apply parse_of_none (value_eq_none hmem hlast)
      simp

variable {str : ℕ → Byte} {cs : List Byte} {fuel : ℕ}

/-- `atoi` looks at as many characters as its `len` says. -/
theorem atoi_eq (h : Spells str cs) (hz : 0 ∉ cs) (hf : cs.length < fuel) :
    atoi fuel str = some (parse (cs.take (cs.length % 256))) := by
  have hlen : (cs.take (cs.length % 256)).length = (BitVec.ofNat 8 cs.length).toNat := by
    rw [List.length_take, BitVec.toNat_ofNat]
    exact Nat.min_eq_left (Nat.mod_le _ _)
  have hstr : ∀ k (hk : k < (cs.take (cs.length % 256)).length),
      str k = (cs.take (cs.length % 256))[k] := by
    intro k hk
    rw [List.length_take] at hk
    have hkn : k < cs.length := Nat.lt_of_lt_of_le hk (Nat.min_le_right _ _)
    rw [h k (Nat.le_of_lt hkn), List.getD_eq_getElem _ _ hkn, List.getElem_take]
  rw [atoi, h.strlen_eq hz hf, Option.map_some, ← hlen, atoiDigits_eq hstr, parse_eq hstr]
  rw [mul_one, zero_add]
  by_cases hsign : ((cs.take (cs.length % 256)).rdropWhile isdigit).length = 1 ∧ str 0 = ascii '-'
  · simp only [if_pos hsign, if_true]
  · simp only [if_neg hsign]

theorem bchars_isdigit {d : ℕ} (hd : d < 10) :
    isdigit (bchars.getD d 0) ∧ digit (bchars.getD d 0) = d := by
  revert d
  decide

theorem numeral_digits (n : ℕ) : Digits (numeral 10 n) := by
  refine ⟨numeral_ne_nil 10 n, fun c hc => ?_⟩
  obtain ⟨d, hd, rfl⟩ := mem_numeral (by decide) hc
  exact (bchars_isdigit hd).1

theorem decimal_numeral (n : ℕ) : decimal (numeral 10 n) = n :=
  ofDigits_numeral (by decide) (fun _ hd => (bchars_isdigit hd).2) n

theorem zero_notMem_of_digits {ds : List Byte} (hd : ∀ c ∈ ds, isdigit c) : 0 ∉ ds :=
  fun h => absurd (hd 0 h) (by decide)

/-- `atoi` reads back every word that `itoa` writes in decimal. -/
theorem atoi_itoa (i : BitVec 32) (buf tbuf : ℕ → Byte) :
    ∃ str tbuf', itoa i 10 buf tbuf = .ok (str, tbuf') ∧
      (∀ fuel > 10, atoi fuel str = some i) ∧
      (i.toNat < 2 ^ 31 → ∀ fuel > 10, (atoi fuel str).map BitVec.toInt = some (i.toNat : ℤ)) := by
  have hbase : 1 < (10 : BitVec 32).toNat ∧ (10 : BitVec 32).toNat ≤ 16 := by decide
  obtain ⟨str, tbuf', hitoa, hspells, -⟩ := itoa_spells hbase.1 hbase.2 i buf tbuf
  change Spells str (numeral 10 i.toNat) at hspells
  have hlen : (numeral 10 i.toNat).length ≤ 10 :=
    numeral_length (by decide) (by decide) (i.isLt.trans (by decide))
  have hdigits := (numeral_digits i.toNat).2
  have hatoi : ∀ fuel > 10, atoi fuel str = some i := by
    intro fuel hf
    rw [atoi_eq hspells (zero_notMem_of_digits hdigits) (Nat.lt_of_le_of_lt hlen hf),
      Nat.mod_eq_of_lt (by omega), List.take_length, parse_digits hdigits, decimal_numeral,
      BitVec.ofNat_toNat, BitVec.setWidth_eq]
  refine ⟨str, tbuf', hitoa, hatoi, ?_⟩
  intro hi fuel hf
  rw [hatoi fuel hf, Option.map_some, BitVec.toInt_eq_toNat_of_lt (by omega)]

/-- `atoi` returns the number of a string that stands for one of an `int32_t`, and -1 for a
string that stands for none. -/
def Reads (s : CString) : Prop :=
  ∃ r, (∀ fuel > s.chars.length, atoi fuel s.bytes = some r) ∧
    match value s.chars with
    | some v => Fits v → r.toInt = v
    | none => r = -1

/-- The characters that are left when `len` drops all but eight bits of the length. -/
def shortened (cs : List Byte) : List Byte := cs.take (cs.length % 256)

/-- A number is read if the string is short; a longer one must be zero or out of range. Any other
string must not be cut to an empty one, to a lone `-` or to a number other than -1 in a word. -/
def Readable (cs : List Byte) : Prop :=
  match value cs with
  | some v => cs.length < 256 ∨ v = 0 ∨ ¬ Fits v
  | none => (shortened cs ≠ [] ∧ shortened cs ≠ [ascii '-']) ∧
      ∀ w, value (shortened cs) = some w → 2 ^ 32 ∣ w + 1

theorem shortened_of_lt (h : cs.length < 256) : shortened cs = cs := by
  rw [shortened, Nat.mod_eq_of_lt h, List.take_length]

theorem reads_iff_parse (s : CString) : Reads s ↔
    match value s.chars with
    | some v => Fits v → (parse (shortened s.chars)).toInt = v
    | none => parse (shortened s.chars) = -1 := by
  have hatoi : ∀ fuel > s.chars.length, atoi fuel s.bytes = some (parse (shortened s.chars)) :=
    fun fuel hf => atoi_eq s.spells s.nonzero hf
  constructor
  · rintro ⟨r, hr, hcase⟩
    have heq := (hr _ (Nat.lt_succ_self _)).symm.trans (hatoi _ (Nat.lt_succ_self _))
    rwa [Option.some.inj heq] at hcase
  · exact fun h => ⟨_, hatoi, h⟩

theorem decimal_append (as bs : List Byte) :
    decimal (as ++ bs) = decimal as * 10 ^ bs.length + decimal bs := by
  rw [decimal, List.reverse_append, List.map_append, Nat.ofDigits_append, List.length_map,
    List.length_reverse, Nat.add_comm, Nat.mul_comm]
  rfl

/-- A number below `10 ^ n` has no digit other than 0 in front of its last `n`. -/
theorem decimal_take_eq_zero {ds : List Byte} {k n : ℕ} (hlt : decimal ds < 10 ^ n)
    (hk : k + n ≤ ds.length) : decimal (ds.take k) = 0 := by
  have hsplit := decimal_append (ds.take k) (ds.drop k)
  rw [List.take_append_drop, List.length_drop] at hsplit
  have hpow : 10 ^ n ≤ 10 ^ (ds.length - k) := Nat.pow_le_pow_right (by decide) (by omega)
  by_contra hne
  have hmul := Nat.le_mul_of_pos_left (10 ^ (ds.length - k)) (Nat.pos_of_ne_zero hne)
  omega

theorem value_eq_some {cs : List Byte} {v : ℤ} (h : value cs = some v) :
    (Digits cs ∧ v = decimal cs) ∨ ∃ ds, cs = ascii '-' :: ds ∧ Digits ds ∧ v = -decimal ds := by
  rw [value] at h
  split_ifs at h with hplain hminus
  · exact .inl ⟨hplain, (Option.some.inj h).symm⟩
  · cases cs with
    | nil => exact absurd rfl hminus.2.1
    | cons c ds =>
      obtain rfl : c = ascii '-' := Option.some.inj hminus.1
      exact .inr ⟨ds, rfl, hminus.2, (Option.some.inj h).symm⟩

/-- What is left of a long number of an `int32_t` are zeros. -/
theorem parse_shortened_long {v : ℤ} (hv : value cs = some v) (hfits : Fits v)
    (hlong : 256 ≤ cs.length) : parse (shortened cs) = 0 := by
  obtain ⟨hlow, hhigh⟩ := hfits
  have hcut : cs.length % 256 + 256 ≤ cs.length := by omega
  rcases value_eq_some hv with ⟨⟨-, hd⟩, rfl⟩ | ⟨ds, rfl, ⟨-, hd⟩, rfl⟩
  · have hlt : decimal cs < 10 ^ 10 := by omega
    have hzero := decimal_take_eq_zero hlt (k := cs.length % 256) (by omega)
    rw [shortened, parse_digits fun c hc => hd c (List.mem_of_mem_take hc), hzero]
    rfl
  · rw [shortened]
    generalize (ascii '-' :: ds).length % 256 = k at hcut
    cases k with
    | zero => rfl
    | succ k =>
      have hlt : decimal ds < 10 ^ 10 := by omega
      rw [List.length_cons] at hcut
      have hzero := decimal_take_eq_zero hlt (k := k) (by omega)
      rw [List.take_succ_cons, parse_minus fun c hc => hd c (List.mem_of_mem_take hc), hzero]
      rfl

theorem toInt_of_fits {v : ℤ} (h : Fits v) : (BitVec.ofInt 32 v).toInt = v := by
  obtain ⟨hlow, hhigh⟩ := h
  rw [BitVec.toInt_ofInt]
  exact Int.bmod_eq_of_le (by omega) (by omega)

theorem ofInt_eq_neg_one_iff (w : ℤ) : BitVec.ofInt 32 w = -1 ↔ 2 ^ 32 ∣ w + 1 := by
  have hmod : (w % 2 ^ 32).toNat = 2 ^ 32 - 1 ↔ 2 ^ 32 ∣ w + 1 := by omega
  rw [← BitVec.toNat_inj, BitVec.toNat_ofInt]
  exact hmod

/-- `atoi` reads exactly the readable strings. -/
theorem reads_iff (s : CString) : Reads s ↔ Readable s.chars := by
  rw [reads_iff_parse, Readable]
  cases hv : value s.chars with
  | some v =>
    by_cases hlen : s.chars.length < 256
    · have hparse := parse_of_some hv
      simp only [shortened_of_lt hlen, hparse, hlen, true_or, iff_true]
      exact toInt_of_fits
    · by_cases hfits : Fits v
      · have hzero := parse_shortened_long hv hfits (Nat.le_of_not_lt hlen)
        simp only [hzero, hfits, hlen, true_imp_iff, false_or, not_true, or_false]
        exact eq_comm
      · simp only [hfits, false_imp_iff, not_false_iff, or_true]
  | none =>
    dsimp only
    cases hw : value (shortened s.chars) with
    | some w =>
      have hne : shortened s.chars ≠ [] ∧ shortened s.chars ≠ [ascii '-'] := by
        constructor
        · intro h
          rw [h] at hw
          cases hw
        · intro h
          rw [h] at hw
          cases hw
      rw [parse_of_some hw, ofInt_eq_neg_one_iff]
      simp [hne]
    | none =>
      by_cases hcs : shortened s.chars = [] ∨ shortened s.chars = [ascii '-']
      · have hparse : parse (shortened s.chars) = 0 := by
          rw [parse, hw]
          exact if_pos hcs
        rw [← not_or, hparse]
        simp [hcs]
      · rw [← not_or, parse_of_none hw hcs]
        simp [hcs]

/-- 255 zeros and a one. -/
def paddedOne : CString :=
  ⟨List.replicate 255 (ascii '0') ++ [ascii '1'], by
    rw [List.mem_append, List.mem_replicate]
    decide⟩

theorem value_paddedOne : value paddedOne.chars = some 1 := by
  have hdigits : ∀ c ∈ paddedOne.chars, isdigit c := by
    intro c hc
    rcases List.mem_append.mp hc with hzero | hone
    · rw [(List.mem_replicate.mp hzero).2]
      decide
    · rw [List.mem_singleton.mp hone]
      decide
  have hzeros : ∀ n, decimal (List.replicate n (ascii '0')) = 0 := by
    intro n
    induction n with
    | zero => rfl
    | succ n ih => rw [List.replicate_succ', decimal_concat, ih]; rfl
  have hdecimal : decimal paddedOne.chars = 1 := by
    rw [paddedOne, decimal_concat, hzeros]
    rfl
  have hne : paddedOne.chars ≠ [] := List.append_ne_nil_of_right_ne_nil _ (List.cons_ne_nil _ _)
  rw [value_digits hne hdigits, hdecimal]
  rfl

theorem shortened_paddedOne : shortened paddedOne.chars = [] := by
  have hlen : paddedOne.chars.length = 256 := by
    rw [paddedOne, List.length_append, List.length_replicate, List.length_singleton]
  rw [shortened, hlen]
  rfl

/-- The padded one comes out as 0, and so do the two strings without a digit. -/
theorem not_reads : ¬ Reads paddedOne ∧ ¬ Reads ⟨[], by decide⟩ ∧
    ¬ Reads ⟨[ascii '-'], by decide⟩ := by
  refine ⟨fun h => ?_, fun h => ?_, fun h => ?_⟩
  · rw [reads_iff_parse, value_paddedOne, shortened_paddedOne] at h
    exact absurd (h (by decide)) (by decide)
  · have hnone : value [] = none := rfl
    rw [reads_iff_parse, hnone] at h
    exact absurd h (by decide)
  · have hnone : value [ascii '-'] = none := by decide
    rw [reads_iff_parse, hnone] at h
    exact absurd h (by decide)

end TinaOS.Stdio
