import TinaOS.Stdio

/-!
# What `itoa` promises

For every base from 2 to 16 `itoa` writes the canonical numeral of its word. Its guard only
looks at the upper end of the bases; the digit loop divides by zero in base 0 and does not
come to an end in base 1.
-/

namespace TinaOS.Stdio

open Strings

variable {i base : BitVec 32} {n : ℕ}

/-- The numeral of `n` in `base`: one or more of the digits below the base with the value `n`,
and no zero in front of others. -/
structure Canonical (base n : ℕ) (cs : List Byte) : Prop where
  ne_nil : cs ≠ []
  digit : ∀ c ∈ cs, c ∈ bchars.take base
  leading : cs.head? = some (ascii '0') → n = 0 ∧ cs = [ascii '0']
  value : Nat.ofDigits base (cs.reverse.map bchars.idxOf) = n

theorem bchars_idxOf {d : ℕ} (hd : d < 16) : bchars.idxOf (bchars.getD d 0) = d := by
  revert d
  decide

theorem mem_take_bchars {base d : ℕ} (hle : base ≤ 16) (hd : d < base) :
    bchars.getD d 0 ∈ bchars.take base := by
  have hlen : d < bchars.length := Nat.lt_of_lt_of_le hd hle
  rw [List.getD_eq_getElem _ _ hlen, List.mem_take_iff_getElem]
  exact ⟨d, by omega, rfl⟩

theorem canonical_numeral {base : ℕ} (hb : 1 < base) (hle : base ≤ 16) (n : ℕ) :
    Canonical base n (numeral base n) := by
  constructor
  case ne_nil => exact numeral_ne_nil base n
  case digit =>
    intro c hc
    obtain ⟨d, hd, rfl⟩ := mem_numeral hb hc
    exact mem_take_bchars hle hd
  case leading =>
    intro hhead
    by_cases hn : n = 0
    · subst hn
      exact ⟨rfl, rfl⟩
    · have hne : Nat.digits base n ≠ [] := Nat.digits_ne_nil_iff_ne_zero.mpr hn
      rw [numeral, if_neg hn, List.head?_map, List.head?_reverse, List.getLast?_eq_some_getLast hne,
        Option.map_some] at hhead
      have hlt : (Nat.digits base n).getLast hne < base := Nat.digits_lt_base hb (List.getLast_mem hne)
      have hidx := congrArg bchars.idxOf (Option.some.inj hhead)
      rw [bchars_idxOf (by omega)] at hidx
      exact absurd hidx (Nat.getLast_digit_ne_zero base hn)
  case value => exact ofDigits_numeral hb (fun d hd => bchars_idxOf (Nat.lt_of_lt_of_le hd hle)) n

/-- In every base from 2 to 16 `itoa` writes the canonical numeral, of at most 32 digits, and
writes neither behind its terminator nor behind the end of `tbuf`. -/
theorem itoa_canonical (hlo : 2 ≤ base) (hhi : base ≤ 16) (i : BitVec 32) (buf tbuf : ℕ → Byte) :
    ∃ str tbuf' cs, itoa i base buf tbuf = .ok (str, tbuf') ∧ Spells str cs ∧
      Canonical base.toNat i.toNat cs ∧ 1 ≤ cs.length ∧ cs.length ≤ 32 ∧
      (∀ k > cs.length, str k = buf k) ∧ ∀ k ≥ 32, tbuf' k = tbuf k := by
  have hb : 1 < base.toNat := hlo
  obtain ⟨str, tbuf', hitoa, hspells, hbehind, hbeyond⟩ := itoa_spells hb hhi i buf tbuf
  have hcanonical := canonical_numeral hb hhi i.toNat
  have hlen : (numeral base.toNat i.toNat).length ≤ 32 :=
    numeral_length hb (by decide) (i.isLt.trans_le (Nat.pow_le_pow_left hb 32))
  exact ⟨str, tbuf', _, hitoa, hspells, hcanonical, List.length_pos_of_ne_nil hcanonical.ne_nil,
    hlen, hbehind, hbeyond⟩

/-- The largest word in base 2 takes all of `tbuf`. -/
theorem itoa_canonical_binary :
    ∃ str tbuf' cs, itoa 0xFFFFFFFF 2 (fun _ => 0) (fun _ => 0) = .ok (str, tbuf') ∧
      Spells str cs ∧ Canonical 2 0xFFFFFFFF cs ∧ 1 ≤ cs.length ∧ cs.length ≤ 32 ∧
      (∀ k > cs.length, str k = 0) ∧ ∀ k ≥ 32, tbuf' k = 0 := by
  have hlo : (2 : BitVec 32) ≤ 2 := by decide
  exact itoa_canonical hlo (by decide) 0xFFFFFFFF (fun _ => 0) fun _ => 0

/-- A call divides by no zero, its digit loop comes to an end, and no index of `tbuf` that it
writes or copies is above 31. -/
structure Sane (i base : BitVec 32) : Prop where
  divides : ∀ buf tbuf, itoa i base buf tbuf ≠ .error .divide
  ends : ∃ room, ∀ tbuf, ∃ out, itoaDigits base room i 0 tbuf = .ok out
  writes : ∀ buf tbuf, itoa i base buf tbuf ≠ .error .overrun
  copies : ∀ tbuf top tbuf', itoaDigits base 32 i 0 tbuf = .ok (top, tbuf') → top ≤ 32

theorem itoaDigits_le {room pos top : ℕ} {tbuf tbuf' : ℕ → Byte}
    (h : itoaDigits base room i pos tbuf = .ok (top, tbuf')) : top ≤ pos + room := by
  induction room generalizing i pos tbuf with
  | zero =>
    rw [itoaDigits] at h
    split_ifs at h
    cases h
    exact Nat.le_refl _
  | succ room ih =>
    rw [itoaDigits] at h
    split_ifs at h
    · cases h
      exact Nat.le_add_right _ _
    · have hle := ih h
      omega

theorem itoaDigits_base_zero (hi : i ≠ 0) (room pos : ℕ) (tbuf : ℕ → Byte) :
    itoaDigits 0 room i pos tbuf = .error .divide := by
  rw [itoaDigits.eq_def, if_neg hi, if_pos rfl]

/-- Division by one leaves the word as it is. -/
theorem itoaDigits_base_one (hi : i ≠ 0) (room pos : ℕ) (tbuf : ℕ → Byte) :
    itoaDigits 1 room i pos tbuf = .error .overrun := by
  induction room generalizing pos tbuf with
  | zero =>
    rw [itoaDigits.eq_def, if_neg hi]
    rfl
  | succ room ih =>
    have hone : (1 : BitVec 32) ≠ 0 := by decide
    have hdiv : i / 1 = i := BitVec.udiv_one
    rw [itoaDigits_succ hi hone, hdiv]
    exact ih (pos + 1) _

theorem Sane.two_le (h : Sane i base) (hi : i ≠ 0) : 2 ≤ base := by
  obtain ⟨room, hends⟩ := h.ends
  obtain ⟨out, hout⟩ := hends fun _ => 0
  by_contra hlo
  have hlo' : ¬ 2 ≤ base.toNat := hlo
  have hcases : base = 0 ∨ base = 1 := by
    simp only [← BitVec.toNat_inj, BitVec.reduceToNat]
    omega
  rcases hcases with rfl | rfl
  · rw [itoaDigits_base_zero hi] at hout
    cases hout
  · rw [itoaDigits_base_one hi] at hout
    cases hout

theorem itoa_returns (hguard : base ≤ 16) (h : i = 0 ∨ 2 ≤ base) (buf tbuf : ℕ → Byte) :
    ∃ out, itoa i base buf tbuf = .ok out := by
  rcases h with rfl | hlo
  · exact ⟨_, if_pos (.inl rfl)⟩
  · obtain ⟨str, tbuf', hitoa, -⟩ := itoa_spells hlo hguard i buf tbuf
    exact ⟨_, hitoa⟩

theorem itoaDigits_ends (h : i = 0 ∨ 2 ≤ base) :
    ∃ room, ∀ tbuf, ∃ out, itoaDigits base room i 0 tbuf = .ok out := by
  rcases h with rfl | hlo
  · exact ⟨0, fun tbuf => ⟨_, itoaDigits_zero base 0 0 tbuf⟩⟩
  · refine ⟨(Nat.digits base.toNat i.toNat).length, fun tbuf => ?_⟩
    obtain ⟨tbuf', hdigits, -⟩ := itoaDigits_eq hlo (Nat.le_refl _) 0 tbuf
    exact ⟨_, hdigits⟩

/-- Of the bases that the guard of `itoa` lets through, those from 2 on are sane, and so are all
for the word 0. -/
theorem sane_iff (hguard : base ≤ 16) : Sane i base ↔ i = 0 ∨ 2 ≤ base := by
  constructor
  · intro h
    by_cases hi : i = 0
    · exact .inl hi
    · exact .inr (h.two_le hi)
  · intro h
    constructor
    case ends => exact itoaDigits_ends h
    case divides =>
      intro buf tbuf herr
      obtain ⟨out, hout⟩ := itoa_returns hguard h buf tbuf
      rw [hout] at herr
      cases herr
    case writes =>
      intro buf tbuf herr
      obtain ⟨out, hout⟩ := itoa_returns hguard h buf tbuf
      rw [hout] at herr
      cases herr
    case copies =>
      intro tbuf top tbuf' hdigits
      have hle := itoaDigits_le hdigits
      omega

theorem sane_iff_sixteen : Sane 255 16 ↔ (255 : BitVec 32) = 0 ∨ (2 : BitVec 32) ≤ 16 :=
  sane_iff (by decide)

/-- The guard lets the bases 0 and 1 through. -/
theorem not_sane_five : ((0 : BitVec 32) ≤ 16 ∧ ¬ Sane 5 0) ∧ (1 : BitVec 32) ≤ 16 ∧ ¬ Sane 5 1 := by
  have hfive : (5 : BitVec 32) ≠ 0 := by decide
  refine ⟨⟨by decide, fun h => ?_⟩, by decide, fun h => ?_⟩
  · exact absurd (h.two_le hfive) (by decide)
  · exact absurd (h.two_le hfive) (by decide)

end TinaOS.Stdio
