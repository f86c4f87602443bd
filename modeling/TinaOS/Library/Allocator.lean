import TinaOS.Library.ByteMemory
import Mathlib.Tactic.SplitIfs
import Mathlib.Tactic.TypeStar

/-!
# Allocators over byte memory

An allocator answers a request with a pointer or with 0, and may change memory when it does.
Its contract speaks of the blocks that it has given out: they are apart, their owners may
store in them, and no later call changes them. A bump allocator meets the contract.
-/

namespace Allocators

open ByteMemory

/-- A request of some bytes, over memory and the allocator's own state. -/
abbrev Allocator (α : Type*) := BitVec 32 → Mem → α → Ptr × Mem × α

/-- A run of bytes that was given out. -/
structure Block where
  base : Ptr
  len : ℕ

def Block.Within (b : Block) (x : Ptr) : Prop := (x - b.base).toNat < b.len

/-- `Given bs m a` says that in memory `m` and state `a` the blocks `bs` are given out. Requests
of more than `limit` bytes are not covered. -/
structure Contract {α : Type*} (alloc : Allocator α) (limit : ℕ)
    (Given : List Block → Mem → α → Prop) : Prop where
  disjoint : ∀ {bs m a}, Given bs m a → bs.Pairwise fun b c => ∀ x, b.Within x → ¬ c.Within x
  store : ∀ {bs m a m'}, Given bs m a → (∀ x, (∀ b ∈ bs, ¬ b.Within x) → m' x = m x) →
    Given bs m' a
  refuse : ∀ {bs m a n m' a'}, Given bs m a → n.toNat ≤ limit → alloc n m a = (0, m', a') →
    Given bs m' a'
  serve : ∀ {bs m a n p m' a'}, Given bs m a → n.toNat ≤ limit → alloc n m a = (p, m', a') →
    p ≠ 0 → Given (⟨p, n.toNat⟩ :: bs) m' a'
  keeps : ∀ {bs m a n p m' a'}, Given bs m a → n.toNat ≤ limit → alloc n m a = (p, m', a') →
    ∀ b ∈ bs, ∀ x, b.Within x → m' x = m x

variable {b : Block} {m m' : Mem} {k : ℕ}

theorem Block.within_offset {i : ℕ} (hi : i < b.len) (hlen : b.len ≤ 2 ^ 32) :
    b.Within (b.base + BitVec.ofNat 32 i) := by
  rwa [Within, offset_sub b.base (by omega)]

theorem Block.apart {c : Block} (h : ∀ x, b.Within x → ¬ c.Within x) (hb : 0 < b.len)
    (hc : 0 < c.len) : Apart b.base b.len c.base c.len := by
  constructor
  · have hx := fun hw => h c.base hw
    simp only [Within, BitVec.sub_self, BitVec.toNat_zero, Nat.not_lt] at hx
    omega
  · have hx := h b.base
    simp only [Within, BitVec.sub_self, BitVec.toNat_zero, Nat.not_lt] at hx
    omega

theorem Block.load16_eq (h : ∀ x, b.Within x → m' x = m x) (hlen : b.len ≤ 2 ^ 32)
    (hk : k + 2 ≤ b.len) :
    load16 m' (b.base + BitVec.ofNat 32 k) = load16 m (b.base + BitVec.ofNat 32 k) := by
  apply load16_congr
  intro i hi
  rw [offset_offset]
  exact h _ (within_offset (by omega) hlen)

theorem Block.load32_eq (h : ∀ x, b.Within x → m' x = m x) (hlen : b.len ≤ 2 ^ 32)
    (hk : k + 4 ≤ b.len) :
    load32 m' (b.base + BitVec.ofNat 32 k) = load32 m (b.base + BitVec.ofNat 32 k) := by
  apply load32_congr
  intro i hi
  rw [offset_offset]
  exact h _ (within_offset (by omega) hlen)

/-- Blocks one behind the other, as long as they end within the address space. -/
def bump : Allocator Ptr := fun n m top =>
  if top.toNat + n.toNat < 2 ^ 32 then (top, m, top + n) else (0, m, top)

/-- All blocks lie below `top`, one behind the other. -/
structure BelowTop (bs : List Block) (m : Mem) (top : Ptr) : Prop where
  below : ∀ b ∈ bs, b.base.toNat + b.len ≤ top.toNat
  sorted : bs.Pairwise fun b c => c.base.toNat + c.len ≤ b.base.toNat

theorem bump_of_fits {n : BitVec 32} {top : Ptr} (m : Mem) (h : top.toNat + n.toNat < 2 ^ 32) :
    bump n m top = (top, m, top + n) := if_pos h

private theorem within_iff {b : Block} {x : Ptr} (hb : b.base.toNat + b.len < 2 ^ 32) :
    b.Within x ↔ b.base.toNat ≤ x.toNat ∧ x.toNat < b.base.toNat + b.len := by
  have hx := x.isLt
  simp only [Block.Within, BitVec.toNat_sub]
  omega

theorem bump_contract (limit : ℕ) : Contract bump limit BelowTop := by
  constructor
  case disjoint =>
    intro bs m top G
    refine G.sorted.imp_of_mem fun {b c} hb hc hbc x hx hx' => ?_
    have hbt := G.below b hb
    have hct := G.below c hc
    have htop := top.isLt
    rw [within_iff (by omega)] at hx hx'
    omega
  case store =>
    rintro bs m top m' ⟨hbelow, hsorted⟩ -
    exact ⟨hbelow, hsorted⟩
  case refuse =>
    rintro bs m top n m' top' ⟨hbelow, hsorted⟩ - h
    simp only [bump] at h
    split_ifs at h with hfit
    · obtain ⟨rfl, rfl, rfl⟩ : top = 0 ∧ m = m' ∧ top + n = top' := by simpa using h
      refine ⟨fun b hb => ?_, hsorted⟩
      exact Nat.le_trans (hbelow b hb) (Nat.zero_le _)
    · obtain ⟨rfl, rfl⟩ : m = m' ∧ top = top' := by simpa using h
      exact ⟨hbelow, hsorted⟩
  case serve =>
    rintro bs m top n p m' top' ⟨hbelow, hsorted⟩ - h hp
    simp only [bump] at h
    split_ifs at h with hfit
    · obtain ⟨rfl, rfl, rfl⟩ : top = p ∧ m = m' ∧ top + n = top' := by simpa using h
      have htop : (top + n).toNat = top.toNat + n.toNat := by
        rw [BitVec.toNat_add]
        omega
      refine ⟨fun b hb => ?_, List.pairwise_cons.mpr ⟨hbelow, hsorted⟩⟩
      rcases List.mem_cons.mp hb with rfl | hb
      · exact Nat.le_of_eq htop.symm
      · have hb' := hbelow b hb
        omega
    · exact absurd (Prod.mk.inj h).1.symm hp
  case keeps =>
    rintro bs m top n p m' top' - - h b - x -
    simp only [bump] at h
    split_ifs at h
    · rw [(Prod.mk.inj (Prod.mk.inj h).2).1]
    · rw [(Prod.mk.inj (Prod.mk.inj h).2).1]

end Allocators
