import Mathlib.Algebra.Group.Nat.Defs
import Mathlib.Logic.Function.Basic
import Mathlib.Tactic.ByContra

/-!
# Byte memory with little-endian words

Memory is a byte at every 32-bit address. Stores of several bytes write a run of
addresses, which may go round the end of the address space; loads put the bytes of
a run together, lowest first. Two runs are apart when each starts beyond the end of
the other, measured as a 32-bit difference.
-/

namespace ByteMemory

abbrev Ptr := BitVec 32

abbrev Mem := Ptr → BitVec 8

/-- Write the `n` bytes `f 0, f 1, …` from address `a` on. -/
def writeBytes (m : Mem) (a : Ptr) (n : ℕ) (f : ℕ → BitVec 8) : Mem := fun x =>
  if (x - a).toNat < n then f (x - a).toNat else m x

def load16 (m : Mem) (a : Ptr) : BitVec 16 := m (a + 1) ++ m a

def load32 (m : Mem) (a : Ptr) : BitVec 32 := m (a + 3) ++ m (a + 2) ++ m (a + 1) ++ m a

def store16 (m : Mem) (a : Ptr) (v : BitVec 16) : Mem :=
  writeBytes m a 2 fun k => v.extractLsb' (8 * k) 8

def store32 (m : Mem) (a : Ptr) (v : BitVec 32) : Mem :=
  writeBytes m a 4 fun k => v.extractLsb' (8 * k) 8

/-- The runs of `n` bytes from `a` and of `k` bytes from `b` have no common address. -/
def Apart (a : Ptr) (n : ℕ) (b : Ptr) (k : ℕ) : Prop := n ≤ (b - a).toNat ∧ k ≤ (a - b).toNat

theorem Apart.symm {a b : Ptr} {n k : ℕ} (h : Apart a n b k) : Apart b k a n := ⟨h.2, h.1⟩

/-- Runs that do not go round the end and lie one behind the other are apart. -/
theorem apart_of_le {a b : Ptr} {n k : ℕ} (hn : 0 < n) (hk : 0 < k)
    (ha : a.toNat + n ≤ 2 ^ 32) (hb : b.toNat + k ≤ 2 ^ 32)
    (h : a.toNat + n ≤ b.toNat ∨ b.toNat + k ≤ a.toNat) : Apart a n b k := by
  have hab := a.isLt
  have hbb := b.isLt
  simp only [Apart, BitVec.toNat_sub, Nat.reducePow] at *
  omega

theorem Apart.mono {a b : Ptr} {n k n' k' : ℕ} (h : Apart a n b k) (hn : n' ≤ n) (hk : k' ≤ k) :
    Apart a n' b k' := ⟨Nat.le_trans hn h.1, Nat.le_trans hk h.2⟩

theorem Apart.part {a b : Ptr} {n k j k' : ℕ} (h : Apart a n b k) (hk : 0 < k') (hj : j + k' ≤ k) :
    Apart a n (b + BitVec.ofNat 32 j) k' := by
  have ha := a.isLt
  have hb := b.isLt
  simp only [Apart, BitVec.toNat_sub, BitVec.toNat_add, BitVec.toNat_ofNat, Nat.reducePow] at *
  omega

theorem apart_parts (a : Ptr) {n k i j : ℕ} (hn : 0 < n) (hk : 0 < k) (hij : i + n ≤ j)
    (hj : j + k ≤ 2 ^ 32) :
    Apart (a + BitVec.ofNat 32 i) n (a + BitVec.ofNat 32 j) k := by
  have ha := a.isLt
  simp only [Apart, BitVec.toNat_sub, BitVec.toNat_add, BitVec.toNat_ofNat, Nat.reducePow] at *
  omega

theorem offset_sub (a : Ptr) {k : ℕ} (hk : k < 2 ^ 32) : (a + BitVec.ofNat 32 k - a).toNat = k := by
  simp only [BitVec.toNat_sub, BitVec.toNat_add, BitVec.toNat_ofNat]
  omega

theorem offset_offset (a : Ptr) (i j : ℕ) :
    a + BitVec.ofNat 32 i + BitVec.ofNat 32 j = a + BitVec.ofNat 32 (i + j) := by
  rw [BitVec.add_assoc, BitVec.ofNat_add]

theorem next_offset (a : Ptr) (k : ℕ) : a + 1 + BitVec.ofNat 32 k = a + BitVec.ofNat 32 (k + 1) := by
  rw [Nat.add_comm k 1]
  exact offset_offset a 1 k

@[simp] theorem add_offset_zero (a : Ptr) : a + BitVec.ofNat 32 0 = a := BitVec.add_zero a

theorem offset_of_sub (a x : Ptr) : a + BitVec.ofNat 32 (x - a).toNat = x := by
  rw [BitVec.ofNat_toNat, BitVec.setWidth_eq, BitVec.add_comm, BitVec.sub_add_cancel]

/-- An address that is none of the first `n` from `a` on lies beyond them. -/
theorem le_sub_of_ne {a x : Ptr} {n : ℕ} (h : ∀ i < n, x ≠ a + BitVec.ofNat 32 i) :
    n ≤ (x - a).toNat := by
  by_contra hlt
  exact h _ (Nat.lt_of_not_le hlt) (offset_of_sub a x).symm

theorem offset_inj (a : Ptr) {i j : ℕ} (hi : i < 2 ^ 32) (hj : j < 2 ^ 32)
    (h : a + BitVec.ofNat 32 i = a + BitVec.ofNat 32 j) : i = j := by
  rw [← offset_sub a hi, h, offset_sub a hj]

theorem writeBytes_outside {m : Mem} {a x : Ptr} {n : ℕ} (f : ℕ → BitVec 8)
    (h : n ≤ (x - a).toNat) : writeBytes m a n f x = m x := if_neg (by omega)

theorem writeBytes_inside {m : Mem} {a : Ptr} {n k : ℕ} (f : ℕ → BitVec 8) (hk : k < n)
    (hn : n ≤ 2 ^ 32) : writeBytes m a n f (a + BitVec.ofNat 32 k) = f k := by
  have hd := offset_sub a (show k < 2 ^ 32 by omega)
  rw [writeBytes, hd, if_pos hk]

theorem writeBytes_congr {m : Mem} {a : Ptr} {n : ℕ} {f g : ℕ → BitVec 8}
    (h : ∀ j < n, f j = g j) : writeBytes m a n f = writeBytes m a n g := by
  funext x
  by_cases hx : (x - a).toNat < n
  · rw [writeBytes, writeBytes, if_pos hx, if_pos hx, h _ hx]
  · rw [writeBytes, writeBytes, if_neg hx, if_neg hx]

theorem sub_offset_toNat (a x : Ptr) (n : ℕ) : (x - (a + BitVec.ofNat 32 n)).toNat =
    ((x - a).toNat + (2 ^ 32 - n % 2 ^ 32)) % 2 ^ 32 := by
  rw [← BitVec.sub_sub, BitVec.toNat_sub (x - a), BitVec.toNat_ofNat, Nat.add_comm]

theorem writeBytes_append (m : Mem) (a : Ptr) (f : ℕ → BitVec 8) {n k : ℕ} (h : n + k ≤ 2 ^ 32) :
    writeBytes (writeBytes m a n f) (a + BitVec.ofNat 32 n) k (fun j => f (n + j)) =
      writeBytes m a (n + k) f := by
  funext x
  have hx := (x - a).isLt
  simp only [writeBytes, sub_offset_toNat]
  generalize (x - a).toNat = t at *
  by_cases ht : t < n
  · rw [if_neg (by omega), if_pos ht, if_pos (by omega)]
  · by_cases hk : t < n + k
    · have hi : (t + (2 ^ 32 - n % 2 ^ 32)) % 2 ^ 32 = t - n := by omega
      rw [hi, if_pos (by omega), if_pos hk]
      congr 1
      omega
    · rw [if_neg (by omega), if_neg ht, if_neg hk]

/-- Writing the same bytes once more, next to where they were written last, even where this goes
round the end of memory. -/
theorem writeBytes_again (m : Mem) (a : Ptr) (f : ℕ → BitVec 8) {p : ℕ} (hp : p ∣ 2 ^ 32) (k : ℕ) :
    writeBytes (writeBytes m a (p * k) fun i => f (i % p)) (a + BitVec.ofNat 32 (p * k)) p f =
      writeBytes m a (p * (k + 1)) fun i => f (i % p) := by
  funext x
  have hx := (x - a).isLt
  have hmul : p * (k + 1) = p * k + p := Nat.mul_succ p k
  have hback : ((x - a).toNat + (2 ^ 32 - p * k % 2 ^ 32)) % 2 ^ 32 % p = (x - a).toNat % p := by
    have hdvd : p ∣ 2 ^ 32 - p * k % 2 ^ 32 :=
      Nat.dvd_sub hp ((Nat.dvd_mod_iff hp).mpr (Nat.dvd_mul_right p k))
    obtain ⟨c, hc⟩ := hdvd
    rw [Nat.mod_mod_of_dvd _ hp, hc, Nat.add_mul_mod_self_left]
  simp only [writeBytes, sub_offset_toNat]
  generalize (x - a).toNat = t at *
  generalize hs : (t + (2 ^ 32 - p * k % 2 ^ 32)) % 2 ^ 32 = s at *
  by_cases hlast : s < p
  · rw [if_pos hlast, if_pos (by omega), ← hback, Nat.mod_eq_of_lt hlast]
  · rw [if_neg hlast]
    by_cases ht : t < p * k
    · rw [if_pos ht, if_pos (by omega)]
    · rw [if_neg ht, if_neg (by omega)]

theorem writeBytes_one (m : Mem) (a : Ptr) (f : ℕ → BitVec 8) :
    writeBytes m a 1 f = Function.update m a (f 0) := by
  funext x
  by_cases hx : x = a
  · rw [hx, Function.update_self, writeBytes, BitVec.sub_self]
    exact if_pos Nat.one_pos
  · rw [Function.update_of_ne hx]
    apply writeBytes_outside
    apply Nat.one_le_iff_ne_zero.mpr
    intro h0
    apply hx
    have hsub : x - a = 0#32 := BitVec.eq_of_toNat_eq h0
    calc x = x - a + a := (BitVec.sub_add_cancel x a).symm
      _ = a := by rw [hsub, BitVec.zero_add]

/-- All bytes of a run but the last, and then the last. -/
theorem writeBytes_succ (m : Mem) (a : Ptr) (f : ℕ → BitVec 8) {n : ℕ} (h : n + 1 ≤ 2 ^ 32) :
    Function.update (writeBytes m a n f) (a + BitVec.ofNat 32 n) (f n) =
      writeBytes m a (n + 1) f := by
  have happend := writeBytes_append m a f h
  rwa [writeBytes_one, Nat.add_zero] at happend

/-- The first byte of a run, and then the others. -/
theorem writeBytes_cons (m : Mem) (a : Ptr) (f : ℕ → BitVec 8) {n : ℕ} (h : n + 1 ≤ 2 ^ 32) :
    writeBytes (Function.update m a (f 0)) (a + 1) n (fun k => f (k + 1)) =
      writeBytes m a (n + 1) f := by
  have happend := writeBytes_append m a f (n := 1) (k := n) (by omega)
  rw [writeBytes_one] at happend
  simp only [Nat.add_comm 1] at happend
  exact happend

/-- A byte of a run stays outside every run that is apart from it. -/
theorem Apart.outside {a b : Ptr} {n k : ℕ} (h : Apart a n b k) {i : ℕ} (hi : i < k) :
    n ≤ (b + BitVec.ofNat 32 i - a).toNat := by
  obtain ⟨h₁, h₂⟩ := h
  simp only [BitVec.toNat_sub, BitVec.toNat_add, BitVec.toNat_ofNat] at *
  omega

theorem load32_congr {m m' : Mem} {a : Ptr}
    (h : ∀ i < 4, m' (a + BitVec.ofNat 32 i) = m (a + BitVec.ofNat 32 i)) :
    load32 m' a = load32 m a := by
  have h0 : m' a = m a := by simpa using h 0 (by omega)
  have h1 : m' (a + 1) = m (a + 1) := h 1 (by omega)
  have h2 : m' (a + 2) = m (a + 2) := h 2 (by omega)
  have h3 : m' (a + 3) = m (a + 3) := h 3 (by omega)
  simp only [load32, h0, h1, h2, h3]

theorem load16_congr {m m' : Mem} {a : Ptr}
    (h : ∀ i < 2, m' (a + BitVec.ofNat 32 i) = m (a + BitVec.ofNat 32 i)) :
    load16 m' a = load16 m a := by
  have h0 : m' a = m a := by simpa using h 0 (by omega)
  have h1 : m' (a + 1) = m (a + 1) := h 1 (by omega)
  simp only [load16, h0, h1]

theorem load32_eq_append (m : Mem) (a : Ptr) : load32 m a = load16 m (a + 2) ++ load16 m a := by
  have hnext : a + 2 + 1 = a + 3 := BitVec.add_assoc a 2 1
  rw [load32, load16, load16, hnext]
  exact BitVec.append_assoc

theorem load32_writeBytes {m : Mem} {a b : Ptr} {n : ℕ} (f : ℕ → BitVec 8) (h : Apart a n b 4) :
    load32 (writeBytes m a n f) b = load32 m b :=
  load32_congr fun _ hi => writeBytes_outside f (h.outside hi)

theorem load16_writeBytes {m : Mem} {a b : Ptr} {n : ℕ} (f : ℕ → BitVec 8) (h : Apart a n b 2) :
    load16 (writeBytes m a n f) b = load16 m b :=
  load16_congr fun _ hi => writeBytes_outside f (h.outside hi)

@[simp] theorem load32_store32_same (m : Mem) (a : Ptr) (v : BitVec 32) :
    load32 (store32 m a v) a = v := by
  have hk : ∀ k < 4, store32 m a v (a + BitVec.ofNat 32 k) = v.extractLsb' (8 * k) 8 :=
    fun k hk => writeBytes_inside _ hk (by omega)
  have h0 : store32 m a v a = v.extractLsb' 0 8 := by simpa using hk 0 (by omega)
  have h1 : store32 m a v (a + 1) = v.extractLsb' 8 8 := hk 1 (by omega)
  have h2 : store32 m a v (a + 2) = v.extractLsb' 16 8 := hk 2 (by omega)
  have h3 : store32 m a v (a + 3) = v.extractLsb' 24 8 := hk 3 (by omega)
  have e₁ : v.extractLsb' 24 8 ++ v.extractLsb' 16 8 = v.extractLsb' 16 16 :=
    BitVec.extractLsb'_append_extractLsb'_eq_extractLsb' rfl
  have e₂ : v.extractLsb' 16 16 ++ v.extractLsb' 8 8 = v.extractLsb' 8 24 :=
    BitVec.extractLsb'_append_extractLsb'_eq_extractLsb' rfl
  have e₃ : v.extractLsb' 8 24 ++ v.extractLsb' 0 8 = v.extractLsb' 0 32 :=
    BitVec.extractLsb'_append_extractLsb'_eq_extractLsb' rfl
  rw [load32, h0, h1, h2, h3, e₁, e₂, e₃, BitVec.extractLsb'_eq_self]

theorem append_halves {w : ℕ} (v : BitVec (w + w)) : v.extractLsb' w w ++ v.extractLsb' 0 w = v := by
  have hwhole : v.extractLsb' w w ++ v.extractLsb' 0 w = v.extractLsb' 0 (w + w) :=
    BitVec.extractLsb'_append_extractLsb'_eq_extractLsb' (Nat.zero_add w).symm
  rw [hwhole, BitVec.extractLsb'_eq_self]

@[simp] theorem load16_store16_same (m : Mem) (a : Ptr) (v : BitVec 16) :
    load16 (store16 m a v) a = v := by
  have hk : ∀ k < 2, store16 m a v (a + BitVec.ofNat 32 k) = v.extractLsb' (8 * k) 8 :=
    fun k hk => writeBytes_inside _ hk (by omega)
  have h0 : store16 m a v a = v.extractLsb' 0 8 := by simpa using hk 0 (by omega)
  have h1 : store16 m a v (a + 1) = v.extractLsb' 8 8 := hk 1 (by omega)
  rw [load16, h0, h1]
  exact append_halves (w := 8) v

theorem load32_store32_apart {m : Mem} {a b : Ptr} (v : BitVec 32) (h : Apart a 4 b 4) :
    load32 (store32 m a v) b = load32 m b := load32_writeBytes _ h

theorem store32_outside {m : Mem} {a x : Ptr} (v : BitVec 32) (h : 4 ≤ (x - a).toNat) :
    store32 m a v x = m x := writeBytes_outside _ h

theorem append_inj {w v : ℕ} {x x' : BitVec w} {y y' : BitVec v} (h : x ++ y = x' ++ y') :
    x = x' ∧ y = y' := by
  have hlow := congrArg (BitVec.extractLsb' 0 v) h
  rw [BitVec.extractLsb'_append_eq_right, BitVec.extractLsb'_append_eq_right] at hlow
  rw [hlow, BitVec.append_left_inj] at h
  exact ⟨h, hlow⟩

/-- A word determines its bytes. -/
theorem load32_inj {m m' : Mem} {a : Ptr} (h : load32 m' a = load32 m a) :
    ∀ i < 4, m' (a + BitVec.ofNat 32 i) = m (a + BitVec.ofNat 32 i) := by
  obtain ⟨h, h0⟩ := append_inj h
  obtain ⟨h, h1⟩ := append_inj h
  obtain ⟨h3, h2⟩ := append_inj h
  intro i hi
  match i, hi with
  | 0, _ => simpa using h0
  | 1, _ => exact h1
  | 2, _ => exact h2
  | 3, _ => exact h3

theorem eq_of_load32 {m m' : Mem} (h : ∀ a, load32 m' a = load32 m a) : m' = m := by
  funext x
  simpa using load32_inj (h x) 0 (by omega)

/-- Storing a word where it stands changes nothing. -/
theorem store32_load32 (m : Mem) (a : Ptr) : store32 m a (load32 m a) = m := by
  funext x
  by_cases hx : 4 ≤ (x - a).toNat
  · exact store32_outside _ hx
  · rw [← offset_of_sub a x]
    exact load32_inj (load32_store32_same m a _) _ (by omega)

end ByteMemory
