import TinaOS.Library.Arena
import TinaOS.Malloc

/-!
# Block layout of the allocator

A `Tiling` lists the headers of the free list and of the live blocks and says that
their extents, read off the size fields in memory, are the free and the live extents
of an arena. The static header `freelist` is a node of size zero below every owned
extent. Each change of size fields that `malloc` and `free` make is a move of the arena.
-/

namespace TinaOS.Malloc

open ByteMemory Arenas

/-- The bytes of the block whose header is at `p`. -/
def extent (m : Mem) (p : Ptr) : Extent := ⟨p.toNat, 8 * (size m p).toNat⟩

theorem extent_congr {m m' : Mem} {p : Ptr} (h : size m' p = size m p) :
    extent m' p = extent m p := by
  simp [extent, h]

def extents (m : Mem) (l : List Ptr) : Multiset Extent := l.map (extent m)

theorem extents_cons (m : Mem) (p : Ptr) (l : List Ptr) :
    extents m (p :: l) = extent m p ::ₘ extents m l := rfl

theorem extents_append (m : Mem) (l l' : List Ptr) :
    extents m (l ++ l') = extents m l + extents m l' := by
  simp [extents]

theorem extents_perm {m : Mem} {l l' : List Ptr} (h : l.Perm l') : extents m l = extents m l' :=
  Multiset.coe_eq_coe.mpr (h.map _)

theorem extents_congr {m m' : Mem} {l : List Ptr} (h : ∀ p ∈ l, size m' p = size m p) :
    extents m' l = extents m l := by
  rw [extents, extents, List.map_congr_left fun p hp => extent_congr (h p hp)]

/-- The free headers `nodes` and the live headers `live` lay out the arena `A` in `m`. -/
structure Tiling (fl : Ptr) (m : Mem) (nodes live : List Ptr) (A : Arena) : Prop where
  header : 0 < fl.toNat ∧ fl.toNat + 8 ≤ 2 ^ 32
  freelist_mem : fl ∈ nodes
  freelist_size : size m fl = 0
  freelist_notMem : fl ∉ live
  size_pos : ∀ p ∈ nodes ++ live, p ≠ fl → 0 < (size m p).toNat
  free_eq : A.free = extents m nodes
  live_eq : A.live = extents m live
  owned : ∀ e ∈ A.owned, fl.toNat + 8 ≤ e.lo ∧ e.lo + e.len ≤ 2 ^ 32

/-- The bytes that the header at `p` stands for; `freelist` stands for itself only. -/
def foot (fl : Ptr) (m : Mem) (p : Ptr) : ℕ := if p = fl then 8 else 8 * (size m p).toNat

namespace Tiling

variable {fl : Ptr} {m m' : Mem} {nodes nodes' live live' : List Ptr} {A : Arena} {p q : Ptr}

theorem extent_mem (T : Tiling fl m nodes live A) (hp : p ∈ nodes ++ live) :
    extent m p ∈ A.free + A.live := by
  rw [T.free_eq, T.live_eq]
  rw [← extents_append]
  exact List.mem_map_of_mem hp

theorem block_bound (T : Tiling fl m nodes live A) (hp : p ∈ nodes ++ live) (hne : p ≠ fl) :
    fl.toNat + 8 ≤ p.toNat ∧ p.toNat + 8 * (size m p).toNat ≤ 2 ^ 32 := by
  have hpos := T.size_pos p hp hne
  have hcell : ∀ a, p.toNat ≤ a → a < p.toNat + 8 * (size m p).toNat →
      fl.toNat + 8 ≤ a ∧ a + 1 ≤ 2 ^ 32 := by
    intro a h₁ h₂
    obtain ⟨f, hf, hfa⟩ := A.owned_of_mem (T.extent_mem hp) (Extent.mem_cells.mpr ⟨h₁, h₂⟩)
    have hb := T.owned f hf
    have hfa := Extent.mem_cells.mp hfa
    omega
  have hlo := hcell p.toNat (by omega) (by omega)
  have hhi := hcell (p.toNat + 8 * (size m p).toNat - 1) (by omega) (by omega)
  omega

theorem disjoint_cells (T : Tiling fl m nodes live A) {s : List Ptr}
    (h : (nodes ++ live).Perm (p :: q :: s)) :
    Disjoint (extent m p).cells (extent m q).cells := by
  apply A.disjoint_cells (s := extents m s)
  rw [T.free_eq, T.live_eq, ← extents_append, extents_perm h, extents_cons, extents_cons]

theorem not_duplicate (T : Tiling fl m nodes live A) {s : List Ptr}
    (h : (nodes ++ live).Perm (p :: p :: s)) (hne : p ≠ fl) : False := by
  have hpos := T.size_pos p (h.mem_iff.mpr (by simp)) hne
  have hmem : p.toNat ∈ (extent m p).cells := Extent.mem_cells.mpr ⟨le_rfl, by simp [extent]; omega⟩
  exact Multiset.disjoint_left.mp (T.disjoint_cells h) hmem hmem

/-- No header is listed twice: a block is either free or live. -/
theorem nodup (T : Tiling fl m nodes live A) (hn : nodes.Nodup) : (nodes ++ live).Nodup := by
  apply List.nodup_append.mpr
  refine ⟨hn, ?_, ?_⟩
  · apply List.nodup_iff_sublist.mpr
    intro p hp
    obtain ⟨s, hs⟩ := hp.exists_perm_append
    have hperm : (nodes ++ live).Perm (p :: p :: (nodes ++ s)) :=
      (hs.append_left nodes).trans (by simpa using List.perm_append_comm_assoc nodes [p, p] s)
    apply T.not_duplicate hperm
    rintro rfl
    exact T.freelist_notMem (hs.mem_iff.mpr (by simp))
  · rintro p hp _ hl rfl
    have hperm : (nodes ++ live).Perm (p :: p :: (nodes.erase p ++ live.erase p)) :=
      ((List.perm_cons_erase hp).append (List.perm_cons_erase hl)).trans
        (List.Perm.cons p List.perm_middle)
    apply T.not_duplicate hperm
    rintro rfl
    exact T.freelist_notMem hl

theorem blocks_apart (T : Tiling fl m nodes live A) (hp : p ∈ nodes ++ live)
    (hq : q ∈ nodes ++ live) (hne : p ≠ q) (hpf : p ≠ fl) (hqf : q ≠ fl) :
    p.toNat + 8 * (size m p).toNat ≤ q.toNat ∨ q.toNat + 8 * (size m q).toNat ≤ p.toNat := by
  obtain ⟨s, hs⟩ : ∃ s, (nodes ++ live).Perm (p :: q :: s) := by
    have hq' : q ∈ (nodes ++ live).erase p := (List.mem_erase_of_ne hne.symm).mpr hq
    exact ⟨_, (List.perm_cons_erase hp).trans ((List.perm_cons_erase hq').cons p)⟩
  have hd := T.disjoint_cells hs
  have hpp := T.size_pos p hp hpf
  have hqp := T.size_pos q hq hqf
  exact Extent.apart_of_disjoint (by simp only [extent]; omega) (by simp only [extent]; omega) hd

theorem foot_bound (T : Tiling fl m nodes live A) (hp : p ∈ nodes ++ live) :
    8 ≤ foot fl m p ∧ p.toNat + foot fl m p ≤ 2 ^ 32 := by
  by_cases hpf : p = fl
  · have hh := T.header
    simp only [foot, hpf, ite_true]
    omega
  · have hb := T.block_bound hp hpf
    have hpos := T.size_pos p hp hpf
    simp only [foot, hpf, ite_false]
    omega

theorem foot_apart (T : Tiling fl m nodes live A) (hp : p ∈ nodes ++ live)
    (hq : q ∈ nodes ++ live) (hne : p ≠ q) :
    p.toNat + foot fl m p ≤ q.toNat ∨ q.toNat + foot fl m q ≤ p.toNat := by
  by_cases hpf : p = fl
  · have hb := T.block_bound hq (fun h => hne (hpf.trans h.symm))
    simp only [foot, hpf, ite_true]
    omega
  · by_cases hqf : q = fl
    · have hb := T.block_bound hp hpf
      simp only [foot, hqf, ite_true]
      omega
    · simpa only [foot, hpf, hqf, ite_false] using T.blocks_apart hp hq hne hpf hqf

/-- A run of bytes inside one block is apart from the header of every other. -/
theorem inner_apart (T : Tiling fl m nodes live A) (hp : p ∈ nodes ++ live)
    (hq : q ∈ nodes ++ live) (hne : p ≠ q) {a : Ptr} {k : ℕ} (hk : 0 < k) (hlo : p.toNat ≤ a.toNat)
    (hhi : a.toNat + k ≤ p.toNat + foot fl m p) : Apart a k q 8 := by
  have hbp := T.foot_bound hp
  have hbq := T.foot_bound hq
  have hpq := T.foot_apart hp hq hne
  apply apart_of_le hk (by omega) (by omega) (by omega)
  omega

theorem headers_apart (T : Tiling fl m nodes live A) (hp : p ∈ nodes ++ live)
    (hq : q ∈ nodes ++ live) (hne : p ≠ q) : Apart p 8 q 8 := by
  have hbp := T.foot_bound hp
  exact T.inner_apart hp hq hne (by omega) (by omega) (by omega)

theorem eq_or_headers_apart (T : Tiling fl m nodes live A) (hp : p ∈ nodes ++ live)
    (hq : q ∈ nodes ++ live) : q = p ∨ Apart p 8 q 8 := by
  by_cases hne : q = p
  · exact .inl hne
  · exact .inr (T.headers_apart hp hq (Ne.symm hne))

theorem perm (T : Tiling fl m nodes live A) (hn : nodes.Perm nodes') (hl : live.Perm live') :
    Tiling fl m nodes' live' A where
  header := T.header
  freelist_mem := hn.mem_iff.mp T.freelist_mem
  freelist_size := T.freelist_size
  freelist_notMem := fun h => T.freelist_notMem (hl.mem_iff.mpr h)
  size_pos := fun p hp => T.size_pos p ((hn.append hl).mem_iff.mpr hp)
  free_eq := T.free_eq.trans (extents_perm hn)
  live_eq := T.live_eq.trans (extents_perm hl)
  owned := T.owned

theorem congr (T : Tiling fl m nodes live A) (h : ∀ p ∈ nodes ++ live, size m' p = size m p) :
    Tiling fl m' nodes live A where
  header := T.header
  freelist_mem := T.freelist_mem
  freelist_size := by
    rw [h fl (List.mem_append_left _ T.freelist_mem), T.freelist_size]
  freelist_notMem := T.freelist_notMem
  size_pos := fun p hp hne => by
    rw [h p hp]
    exact T.size_pos p hp hne
  free_eq := by rw [T.free_eq, extents_congr fun p hp => h p (List.mem_append_left _ hp)]
  live_eq := by rw [T.live_eq, extents_congr fun p hp => h p (List.mem_append_right _ hp)]
  owned := T.owned

theorem hand (T : Tiling fl m (p :: nodes) live A) (hp : p ≠ fl) :
    ∃ A', A.Step A' ∧ A'.owned = A.owned ∧ Tiling fl m nodes (p :: live) A' := by
  refine ⟨A.hand _ _ (T.free_eq.trans (extents_cons m p nodes)), .hand _ _ _ _, rfl, ?_⟩
  constructor
  case header => exact T.header
  case freelist_mem => exact List.mem_of_ne_of_mem hp.symm T.freelist_mem
  case freelist_size => exact T.freelist_size
  case freelist_notMem => simpa [hp.symm] using T.freelist_notMem
  case size_pos =>
    intro q hq
    exact T.size_pos q (List.perm_middle.mem_iff.mp hq)
  case free_eq => rfl
  case live_eq => simp only [Arena.hand, T.live_eq, extents_cons]
  case owned => exact T.owned

theorem carve (T : Tiling fl m (p :: nodes) live A) (hp : p ≠ fl) {b : Ptr}
    (hlt : 0 < (size m' p).toNat) (hb : 0 < (size m' b).toNat)
    (hsum : (size m' p).toNat + (size m' b).toNat = (size m p).toNat)
    (hbp : b.toNat = p.toNat + 8 * (size m' p).toNat)
    (h : ∀ q ∈ nodes ++ live, size m' q = size m q) :
    ∃ A', A.Step A' ∧ A'.owned = A.owned ∧ Tiling fl m' (p :: nodes) (b :: live) A' := by
  have hfree : A.free = ⟨p.toNat, 8 * (size m' p).toNat + 8 * (size m' b).toNat⟩ ::ₘ
      extents m nodes := by
    rw [T.free_eq, ← Nat.mul_add, hsum]
    rfl
  have hfn : fl ∈ nodes := List.mem_of_ne_of_mem hp.symm T.freelist_mem
  have hbf : b ≠ fl := by
    have hbound := T.block_bound (by simp) hp
    rintro rfl
    omega
  refine ⟨A.carve _ _ _ _ hfree, .carve _ _ _ _ _ _, rfl, ?_⟩
  constructor
  case header => exact T.header
  case freelist_mem => simp [hfn]
  case freelist_size =>
    rw [h fl (List.mem_append_left _ hfn)]
    exact T.freelist_size
  case freelist_notMem => simpa [hbf.symm] using T.freelist_notMem
  case size_pos =>
    intro q hq hqf
    simp only [List.cons_append, List.mem_cons, List.mem_append] at hq
    rcases hq with rfl | hq | rfl | hq
    · exact hlt
    · rw [h q (List.mem_append_left _ hq)]
      exact T.size_pos q (by simp [hq]) hqf
    · exact hb
    · rw [h q (List.mem_append_right _ hq)]
      exact T.size_pos q (by simp [hq]) hqf
  case free_eq =>
    rw [extents_cons, extents_congr fun q hq => h q (List.mem_append_left _ hq)]
    rfl
  case live_eq =>
    rw [extents_cons, extents_congr fun q hq => h q (List.mem_append_right _ hq), extent, hbp]
    simp only [Arena.carve, T.live_eq]
  case owned => exact T.owned

theorem grow (T : Tiling fl m nodes live A) {r : Ptr} (hr : 0 < (size m' r).toNat)
    (hlo : fl.toNat + 8 ≤ r.toNat) (hhi : r.toNat + 8 * (size m' r).toNat ≤ 2 ^ 32)
    (hfresh : ∀ e ∈ A.owned, Disjoint (extent m' r).cells e.cells)
    (h : ∀ q ∈ nodes ++ live, size m' q = size m q) :
    ∃ A', A.Step A' ∧ A'.owned = extent m' r ::ₘ A.owned ∧ Tiling fl m' (r :: nodes) live A' := by
  refine ⟨A.grow (extent m' r) hfresh, .grow _ _ _, rfl, ?_⟩
  have T' := T.congr h
  constructor
  case header => exact T.header
  case freelist_mem => exact List.mem_cons_of_mem _ T.freelist_mem
  case freelist_size => exact T'.freelist_size
  case freelist_notMem => exact T.freelist_notMem
  case size_pos =>
    intro q hq hqf
    rcases List.mem_cons.mp hq with rfl | hq
    · exact hr
    · exact T'.size_pos q hq hqf
  case free_eq => simp only [Arena.grow, T'.free_eq, extents_cons]
  case live_eq => exact T'.live_eq
  case owned =>
    intro e he
    rcases Multiset.mem_cons.mp he with rfl | he
    · exact ⟨hlo, hhi⟩
    · exact T.owned e he

theorem release (T : Tiling fl m nodes (p :: live) A) :
    ∃ A', A.Step A' ∧ A'.owned = A.owned ∧ Tiling fl m (p :: nodes) live A' := by
  refine ⟨A.release _ _ (T.live_eq.trans (extents_cons m p live)), .release _ _ _ _, rfl, ?_⟩
  constructor
  case header => exact T.header
  case freelist_mem => exact List.mem_cons_of_mem _ T.freelist_mem
  case freelist_size => exact T.freelist_size
  case freelist_notMem => exact fun h => T.freelist_notMem (List.mem_cons_of_mem _ h)
  case size_pos =>
    intro q hq
    exact T.size_pos q (List.perm_middle.mem_iff.mpr hq)
  case free_eq => simp only [Arena.release, T.free_eq, extents_cons]
  case live_eq => rfl
  case owned => exact T.owned

theorem join {a b : Ptr} (T : Tiling fl m (a :: b :: nodes) live A) (ha : a ≠ fl) (hb : b ≠ fl)
    (hab : a.toNat + 8 * (size m a).toNat = b.toNat)
    (hsum : (size m' a).toNat = (size m a).toNat + (size m b).toNat)
    (h : ∀ q ∈ nodes ++ live, size m' q = size m q) :
    ∃ A', A.Step A' ∧ A'.owned = A.owned ∧ Tiling fl m' (a :: nodes) live A' := by
  have hfree : A.free = ⟨a.toNat, 8 * (size m a).toNat⟩ ::ₘ
      ⟨a.toNat + 8 * (size m a).toNat, 8 * (size m b).toNat⟩ ::ₘ
      extents m nodes := by
    rw [T.free_eq, hab]
    rfl
  have hfn : fl ∈ nodes := by simpa [ha.symm, hb.symm] using T.freelist_mem
  refine ⟨A.join _ _ _ _ hfree, .join _ _ _ _ _ _, rfl, ?_⟩
  constructor
  case header => exact T.header
  case freelist_mem => exact List.mem_cons_of_mem _ hfn
  case freelist_size =>
    rw [h fl (List.mem_append_left _ hfn)]
    exact T.freelist_size
  case freelist_notMem => exact T.freelist_notMem
  case size_pos =>
    intro q hq hqf
    rcases List.mem_cons.mp hq with rfl | hq
    · have hpos := T.size_pos q (by simp) hqf
      omega
    · rw [h q hq]
      exact T.size_pos q (by simp only [List.cons_append, List.mem_cons]; exact .inr (.inr hq)) hqf
  case free_eq =>
    rw [extents_cons, extents_congr fun q hq => h q (List.mem_append_left _ hq), extent, hsum,
      Nat.mul_add]
    rfl
  case live_eq =>
    rw [extents_congr fun q hq => h q (List.mem_append_right _ hq)]
    exact T.live_eq
  case owned => exact T.owned

end Tiling

end TinaOS.Malloc
