import TinaOS.Library.ByteMemory
import Mathlib.Tactic.ByContra

/-!
# `memcpy` of `sys/string.c`

The bytes are copied one by one from the lowest address on. Where the ranges overlap this is
right as long as no byte is written before it is read.
-/

namespace TinaOS.Strings

open ByteMemory

/-- The loop of `memcpy`. -/
def memcpyLoop : ℕ → Ptr → Ptr → Mem → Mem
  | 0, _, _, m => m
  | n + 1, p, q, m => memcpyLoop n (p + 1) (q + 1) (Function.update m p (m q))

/-- `memcpy`: the pointer returned, and memory. The `int` `number` counts down to 0. -/
def memcpy (m : Mem) (destination src : Ptr) (number : BitVec 32) : Ptr × Mem :=
  let value := destination
  (value, memcpyLoop number.toNat destination src m)

variable {m : Mem} {p q x : Ptr} {n i : ℕ}

/-- Where the destination starts `d` bytes behind the source, the copy reads on in what it has
written itself, and the first `d` bytes of the source come again and again. -/
theorem memcpyLoop_again {d : ℕ} (hn : n ≤ 2 ^ 32) (hd : (p - q).toNat = d) :
    memcpyLoop n p q m = writeBytes m p n fun k => m (q + BitVec.ofNat 32 (k % d)) := by
  induction n generalizing p q m with
  | zero =>
    funext x
    exact (writeBytes_outside _ (Nat.zero_le _)).symm
  | succ n ih =>
    have hlt := (p - q).isLt
    have hdist : (p + 1 - (q + 1)).toNat = d := by
      rw [← hd]
      congr 1
      bv_omega
    have hp : p = q + BitVec.ofNat 32 d := by rw [← hd, offset_of_sub]
    have hread : ∀ k < n, Function.update m p (m q) (q + 1 + BitVec.ofNat 32 (k % d)) =
        m (q + BitVec.ofNat 32 ((k + 1) % d)) := by
      intro k _
      rw [next_offset]
      by_cases hlast : k % d + 1 = d
      · have hzero : (k + 1) % d = 0 := by rw [← Nat.mod_add_mod, hlast, Nat.mod_self]
        rw [hlast, ← hp, Function.update_self, hzero, add_offset_zero]
      · have hnext : (k + 1) % d = k % d + 1 := by
          rw [← Nat.mod_add_mod]
          rcases Nat.eq_zero_or_pos d with rfl | hpos
          · exact Nat.mod_zero _
          · have hk := Nat.mod_lt k hpos
            exact Nat.mod_eq_of_lt (by omega)
        rw [hnext]
        have hk : k % d + 1 < 2 ^ 32 := by
          have hle := Nat.mod_le k d
          omega
        by_cases hback : q + BitVec.ofNat 32 (k % d + 1) = p
        · exact absurd (offset_inj q hk (by omega) (hback.trans hp)) hlast
        · exact Function.update_of_ne hback _ _
    have hfirst : m q = m (q + BitVec.ofNat 32 (0 % d)) := by rw [Nat.zero_mod, add_offset_zero]
    rw [memcpyLoop, ih (by omega) hdist, writeBytes_congr hread, hfirst]
    exact writeBytes_cons m p (fun k => m (q + BitVec.ofNat 32 (k % d))) hn

/-- Unless the destination starts inside the source, behind its first byte, each byte is read
before it is written. -/
theorem memcpyLoop_eq (hn : n ≤ 2 ^ 32) (h : p = q ∨ n ≤ (p - q).toNat) :
    memcpyLoop n p q m = writeBytes m p n fun k => m (q + BitVec.ofNat 32 k) := by
  rw [memcpyLoop_again hn rfl]
  refine writeBytes_congr fun k hk => ?_
  rcases h with rfl | hle
  · rw [BitVec.sub_self, BitVec.toNat_zero, Nat.mod_zero]
  · rw [Nat.mod_eq_of_lt (Nat.lt_of_lt_of_le hk hle)]

/-- `memcpy` copies between disjoint ranges, and to a range that starts in front of the source. -/
theorem memcpy_copies (m : Mem) (destination src : Ptr) (n : BitVec 32)
    (h : (∀ i < n.toNat, ∀ j < n.toNat,
        destination + BitVec.ofNat 32 i ≠ src + BitVec.ofNat 32 j) ∨
      destination ≤ src ∧ src.toNat + n.toNat ≤ 2 ^ 32) :
    (memcpy m destination src n).1 = destination ∧
    (∀ i < n.toNat, (memcpy m destination src n).2 (destination + BitVec.ofNat 32 i) =
      m (src + BitVec.ofNat 32 i)) ∧
    ∀ x, (∀ i < n.toNat, x ≠ destination + BitVec.ofNat 32 i) →
      (memcpy m destination src n).2 x = m x := by
  have hn : n.toNat ≤ 2 ^ 32 := Nat.le_of_lt n.isLt
  have hready : destination = src ∨ n.toNat ≤ (destination - src).toNat := by
    rcases h with hdisjoint | ⟨hle, hend⟩
    · by_cases hpos : 0 < n.toNat
      · right
        apply le_sub_of_ne
        intro j hj
        have hne := hdisjoint 0 hpos j hj
        rwa [add_offset_zero] at hne
      · exact .inr (by omega)
    · have hlt := src.isLt
      rw [BitVec.le_def] at hle
      by_cases heq : destination = src
      · exact .inl heq
      · right
        have hne : destination.toNat ≠ src.toNat := fun h => heq (BitVec.eq_of_toNat_eq h)
        rw [BitVec.toNat_sub]
        omega
  simp only [memcpy, memcpyLoop_eq hn hready]
  refine ⟨trivial, fun i hi => ?_, fun x hx => ?_⟩
  · exact writeBytes_inside _ hi hn
  · exact writeBytes_outside _ (le_sub_of_ne hx)

/-- Three bytes, two places down over themselves. -/
theorem memcpy_copies_down : (memcpy (fun x => x.setWidth 8) 0x1000 0x1002 3).2 0x1002 = 4 :=
  (memcpy_copies (fun x => x.setWidth 8) 0x1000 0x1002 3 (.inr (by decide))).2.1 2 (by decide)

/-- What `memcpy` leaves for any two ranges, however they overlap; it is a copy of the source, for
every memory, exactly if the destination does not start inside the source behind its first byte. -/
theorem memcpy_moves_iff (destination src : Ptr) (n : BitVec 32) :
    (∀ m x, (memcpy m destination src n).2 x =
      if (x - destination).toNat < n.toNat
      then m (src + BitVec.ofNat 32 ((x - destination).toNat % (destination - src).toNat))
      else m x) ∧
    ((∀ m, ∀ i < n.toNat, (memcpy m destination src n).2 (destination + BitVec.ofNat 32 i) =
        m (src + BitVec.ofNat 32 i)) ↔
      destination = src ∨ n.toNat ≤ (destination - src).toNat) := by
  have hn : n.toNat ≤ 2 ^ 32 := Nat.le_of_lt n.isLt
  have hcopy : ∀ m, (memcpy m destination src n).2 = writeBytes m destination n.toNat fun k =>
      m (src + BitVec.ofNat 32 (k % (destination - src).toNat)) := fun m => memcpyLoop_again hn rfl
  refine ⟨fun m x => ?_, ?_, ?_⟩
  · rw [hcopy]
    rfl
  · intro hcopies
    by_contra hinside
    rw [not_or, Nat.not_le] at hinside
    obtain ⟨hne, hlt⟩ := hinside
    -- a memory with a mark at the first byte of the source, which comes again at its end
    have hmark := hcopies (fun x => if x = src then 1 else 0) _ hlt
    rw [hcopy, writeBytes_inside _ hlt hn] at hmark
    simp only [Nat.mod_self, add_offset_zero, if_true, offset_of_sub, if_neg hne] at hmark
    exact absurd hmark (by decide)
  · intro h m i hi
    have hmove : (memcpy m destination src n).2 = writeBytes m destination n.toNat fun k =>
        m (src + BitVec.ofNat 32 k) := memcpyLoop_eq hn h
    rw [hmove]
    exact writeBytes_inside _ hi hn

end TinaOS.Strings
