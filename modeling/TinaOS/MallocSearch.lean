import TinaOS.FirstFit

/-!
# The search of `malloc` over any list

What `malloc` does on links and sizes of any kind, whether they form a ring or not: its search
finds a block, comes round to `freep` without one, or never ends.
-/

namespace TinaOS.Malloc

open ByteMemory LinkedRing

variable {σ : Type*}

/-- The blocks that the search looks at, from the one behind `freep` on. -/
def Heap.block (h : Heap σ) (k : ℕ) : Ptr := (link h.mem)^[k + 1] h.freep

/-- The first `k` of them are too small, and none is `freep`. -/
def Heap.Passes (h : Heap σ) (sz : BitVec 32) (k : ℕ) : Prop :=
  ∀ i < k, size h.mem (h.block i) < sz ∧ h.block i ≠ h.freep

/-- The search finds the block behind `q`. -/
def Heap.Finds (h : Heap σ) (sz : BitVec 32) (q : Ptr) : Prop :=
  ∃ k, h.Passes sz k ∧ q = (link h.mem)^[k] h.freep ∧ sz ≤ size h.mem (h.block k)

/-- The search comes round to `freep`, and all blocks are too small. -/
def Heap.Exhausts (h : Heap σ) (sz : BitVec 32) : Prop :=
  ∃ k, h.Passes sz k ∧ size h.mem (h.block k) < sz ∧ h.block k = h.freep

/-- The end of the block that the search finds is not the last header of the address space, so
that the pointer to what is behind it is not 0. -/
def Heap.Pays (h : Heap σ) (sz : BitVec 32) : Prop :=
  ∀ q, h.Finds sz q → carved h.mem (link h.mem q) sz + 8 ≠ 0

/-- The search finds a block of just the right size that is linked to itself, behind `freep`. -/
def Heap.Idles (h : Heap σ) (sz : BitVec 32) : Prop :=
  h.Finds sz h.freep ∧ size h.mem (link h.mem h.freep) = sz ∧
    link h.mem (link h.mem h.freep) = link h.mem h.freep

variable {sbrk : BitVec 32 → σ → Ptr × σ} {h : Heap σ} {m : Mem} {freep p q : Ptr} {sz v : BitVec 32}
  {nbytes : BitVec 32} {out : Ptr × Heap σ} {rest : List Ptr} {n : ℕ}

theorem Heap.block_eq (h : Heap σ) (k : ℕ) : h.block k = link h.mem ((link h.mem)^[k] h.freep) :=
  Function.iterate_succ_apply' _ _ _

theorem searchStep_found (hfit : sz ≤ size m (link m q)) : searchStep m freep sz q = .inr (some q) := by
  rw [searchStep_eq, lapStep, if_pos (decide_eq_true hfit)]

theorem searchStep_round (hsmall : size m (link m q) < sz) (hq : link m q = freep) :
    searchStep m freep sz q = .inr none := by
  have hno : ¬ sz ≤ size m (link m q) := BitVec.not_le.mpr hsmall
  rw [searchStep_eq, lapStep, if_neg (by simpa using hno), if_pos hq]

theorem searchStep_next (hsmall : size m (link m q) < sz) (hq : link m q ≠ freep) :
    searchStep m freep sz q = .inl (link m q) := by
  have hno : ¬ sz ≤ size m (link m q) := BitVec.not_le.mpr hsmall
  rw [searchStep_eq, lapStep, if_neg (by simpa using hno), if_neg hq]

theorem Heap.Passes.run {k : ℕ} (hk : h.Passes sz k) (n : ℕ) :
    BoundedLoop.run (searchStep h.mem h.freep sz) (k + n) h.freep =
      BoundedLoop.run (searchStep h.mem h.freep sz) n ((link h.mem)^[k] h.freep) := by
  apply BoundedLoop.run_iterate
  intro i hi
  obtain ⟨hsmall, hne⟩ := hk i hi
  rw [h.block_eq] at hsmall hne
  rw [searchStep_next hsmall hne, Function.iterate_succ_apply']

theorem Heap.Finds.run (F : h.Finds sz q) :
    ∃ n, BoundedLoop.run (searchStep h.mem h.freep sz) n h.freep = some (some q) := by
  obtain ⟨k, hk, rfl, hfit⟩ := F
  rw [h.block_eq] at hfit
  exact ⟨k + 1, (hk.run 1).trans (BoundedLoop.run_of_inr (searchStep_found hfit) 0)⟩

theorem Heap.Exhausts.run (E : h.Exhausts sz) :
    ∃ n, BoundedLoop.run (searchStep h.mem h.freep sz) n h.freep = some none := by
  obtain ⟨k, hk, hsmall, hround⟩ := E
  rw [h.block_eq] at hsmall hround
  exact ⟨k + 1, (hk.run 1).trans (BoundedLoop.run_of_inr (searchStep_round hsmall hround) 0)⟩

theorem searchStep_inl (h : searchStep m freep sz q = .inl p) :
    p = link m q ∧ size m (link m q) < sz ∧ link m q ≠ freep := by
  by_cases hfit : sz ≤ size m (link m q)
  · rw [searchStep_found hfit] at h
    cases h
  · have hsmall := BitVec.not_le.mp hfit
    by_cases hq : link m q = freep
    · rw [searchStep_round hsmall hq] at h
      cases h
    · rw [searchStep_next hsmall hq] at h
      exact ⟨(Sum.inl.inj h).symm, hsmall, hq⟩

/-- A search that ends has found a block, or is round. -/
theorem finds_or_exhausts {found : Option Ptr}
    (hr : BoundedLoop.run (searchStep h.mem h.freep sz) n h.freep = some found) :
    (∃ q, found = some q ∧ h.Finds sz q) ∨ (found = none ∧ h.Exhausts sz) := by
  obtain ⟨k, hk, hend⟩ := BoundedLoop.exists_iterate_of_run (fun _ _ hs => (searchStep_inl hs).1) hr
  have hpasses : h.Passes sz k := by
    intro i hi
    rw [h.block_eq]
    exact (searchStep_inl (hk i hi)).2
  by_cases hfit : sz ≤ size h.mem (link h.mem ((link h.mem)^[k] h.freep))
  · rw [searchStep_found hfit] at hend
    refine .inl ⟨_, (Sum.inr.inj hend).symm, k, hpasses, rfl, ?_⟩
    rwa [h.block_eq]
  · have hsmall := BitVec.not_le.mp hfit
    by_cases hq : link h.mem ((link h.mem)^[k] h.freep) = h.freep
    · rw [searchStep_round hsmall hq] at hend
      refine .inr ⟨(Sum.inr.inj hend).symm, k, hpasses, ?_⟩
      rw [h.block_eq]
      exact ⟨hsmall, hq⟩
    · rw [searchStep_next hsmall hq] at hend
      cases hend

theorem Heap.Finds.fits (F : h.Finds sz q) : sz ≤ size h.mem (link h.mem q) := by
  obtain ⟨k, -, rfl, hfit⟩ := F
  rwa [h.block_eq] at hfit

theorem Heap.Finds.unique (F : h.Finds sz q) (F' : h.Finds sz p) : q = p := by
  obtain ⟨n, hn⟩ := F.run
  obtain ⟨n', hn'⟩ := F'.run
  exact Option.some.inj (BoundedLoop.run_unique hn hn')

theorem Heap.Finds.not_exhausts (F : h.Finds sz q) : ¬ h.Exhausts sz := by
  intro E
  obtain ⟨n, hn⟩ := F.run
  obtain ⟨n', hn'⟩ := E.run
  exact nomatch BoundedLoop.run_unique hn hn'

/-- A block that is found is taken. -/
theorem malloc_of_finds (sbrk : BitVec 32 → σ → Ptr × σ) (F : h.Finds (units nbytes) q) :
    ∃ n, malloc sbrk n nbytes h = some (take h (units nbytes) q) := by
  obtain ⟨n, hn⟩ := F.run
  refine ⟨n + 1, ?_⟩
  simp only [malloc, BoundedLoop.run_mono hn (Nat.le_succ n)]

/-- A search that is round ends in what `sbrk` answers. -/
theorem malloc_of_exhausts (E : h.Exhausts (units nbytes)) {s : σ}
    (hs : sbrk (growth (units nbytes) * 8) h.sbrk = (p, s)) :
    (p = -1 → ∃ n, malloc sbrk n nbytes h = some (0, { h with sbrk := s })) ∧
      (p ≠ -1 → ∀ n out, malloc sbrk n nbytes
        (insertRegion { h with sbrk := s } p (growth (units nbytes))) = some out →
          ∃ n, malloc sbrk n nbytes h = some out) := by
  obtain ⟨k, hk⟩ := E.run
  constructor
  · intro hp
    refine ⟨k + 1, ?_⟩
    simp only [malloc, BoundedLoop.run_mono hk (Nat.le_succ k), hs, hp, if_true]
  · intro hp n out hm
    refine ⟨max k n + 1, ?_⟩
    have hround := BoundedLoop.run_mono hk (show k ≤ max k n + 1 by omega)
    simp only [malloc, hround, hs, hp, if_false]
    exact malloc_mono hm (Nat.le_max_right k n)

/-- What a call that returned did first, on any list. -/
theorem malloc_search (hm : malloc sbrk n nbytes h = some out) :
    (∃ q, h.Finds (units nbytes) q ∧ take h (units nbytes) q = out) ∨
    (h.Exhausts (units nbytes) ∧ ∃ p s, sbrk (growth (units nbytes) * 8) h.sbrk = (p, s) ∧
      (p = -1 ∧ (0, { h with sbrk := s }) = out ∨
        p ≠ -1 ∧ ∃ k, malloc sbrk k nbytes
          (insertRegion { h with sbrk := s } p (growth (units nbytes))) = some out)) := by
  obtain ⟨k, found, hrun, hend⟩ := malloc_ended hm
  rcases finds_or_exhausts hrun with ⟨q, rfl, F⟩ | ⟨rfl, E⟩
  · rcases hend with ⟨q', hq, htake⟩ | ⟨hnone, -⟩
    · obtain rfl := Option.some.inj hq
      exact .inl ⟨q, F, htake⟩
    · cases hnone
  · rcases hend with ⟨q, hq, -⟩ | ⟨-, hanswer⟩
    · cases hq
    · exact .inr ⟨E, hanswer⟩

/-- On a ring the search is round exactly if no block is large enough. -/
theorem exhausts_iff_of_ring (hring : IsRing (link h.mem) (h.freep :: rest)) :
    h.Exhausts sz ↔ ∀ b ∈ h.freep :: rest, size h.mem b < sz := by
  have hrun := run_searchStep hring sz (Nat.le_refl _)
  rw [← find?_fits_eq_none hring]
  constructor
  · intro E
    obtain ⟨n, hn⟩ := E.run
    exact (BoundedLoop.run_unique hn hrun).symm
  · intro hnone
    rw [hnone] at hrun
    exact (finds_or_exhausts hrun).elim (fun ⟨q, hq, _⟩ => nomatch hq) And.right

theorem Heap.Finds.mem_ring (F : h.Finds sz q) (hring : IsRing (link h.mem) (h.freep :: rest)) :
    link h.mem q ∈ h.freep :: rest := by
  obtain ⟨k, -, rfl, -⟩ := F
  exact hring.next_mem (hring.iterate_mem List.mem_cons_self k)

theorem take_fst (hfit : sz ≤ size h.mem (link h.mem q)) :
    (take h sz q).1 = carved h.mem (link h.mem q) sz + 8 := by
  by_cases hlt : sz < size h.mem (link h.mem q)
  · rw [take_smaller rfl hlt]
  · have heq : size h.mem (link h.mem q) = sz :=
      BitVec.le_antisymm (BitVec.not_lt.mp hlt) hfit
    have hcarved : carved h.mem (link h.mem q) sz = link h.mem q := by
      rw [carved, heq, BitVec.sub_self, advance]
      simp
    simp only [take, gt_iff_lt, hlt, if_false, hcarved]

theorem Heap.Pays.take_fst_ne (hpays : h.Pays sz) (F : h.Finds sz q) : (take h sz q).1 ≠ 0 := by
  rw [take_fst F.fits]
  exact hpays q F

theorem malloc_of_not_pays (sbrk : BitVec 32 → σ → Ptr × σ) (hno : ¬ h.Pays (units nbytes)) :
    ∃ q n, h.Finds (units nbytes) q ∧
      malloc sbrk n nbytes h = some (0, (take h (units nbytes) q).2) := by
  simp only [Heap.Pays, not_forall, not_not] at hno
  obtain ⟨q, F, hzero⟩ := hno
  obtain ⟨n, hm⟩ := malloc_of_finds sbrk F
  have hr : take h (units nbytes) q = (0, (take h (units nbytes) q).2) :=
    Prod.ext ((take_fst F.fits).trans hzero) rfl
  exact ⟨q, n, F, hm.trans (congrArg some hr)⟩

/-- What is carved off a block starts whole headers behind it, also around the end of memory. -/
theorem carved_apart (m : Mem) (p : Ptr) (sz : BitVec 32) :
    carved m p sz = p ∨ Apart (carved m p sz) 8 p 8 := by
  have hp := p.isLt
  simp only [carved, advance, Apart]
  generalize size m p - sz = n
  have hn := n.isLt
  by_cases h0 : (n * 8).toNat = 0
  · have hz : n * 8 = 0 := BitVec.eq_of_toNat_eq h0
    exact .inl (by rw [hz]; exact BitVec.add_zero p)
  · right
    simp only [BitVec.toNat_sub, BitVec.toNat_add, BitVec.toNat_mul, BitVec.reduceToNat] at *
    omega

/-- A block that loses its high end changes its size. -/
theorem size_take_smaller (hpos : 0 < sz.toNat) (hlt : sz < size h.mem (link h.mem q)) :
    size (take h sz q).2.mem (link h.mem q) ≠ size h.mem (link h.mem q) := by
  rw [take_smaller rfl hlt]
  rcases carved_apart h.mem (link h.mem q) sz with heq | hapart
  · rw [heq]
    have hsize : size ((h.setSize (link h.mem q) (size h.mem (link h.mem q) - sz)).setSize
        (link h.mem q) sz).mem (link h.mem q) = sz := Heap.size_setSize _ _ _
    exact fun hsame => by simp [hsize.symm.trans hsame] at hlt
  · have hsize : size ((h.setSize (link h.mem q) (size h.mem (link h.mem q) - sz)).setSize
        (carved h.mem (link h.mem q) sz) sz).mem (link h.mem q) =
          size h.mem (link h.mem q) - sz :=
      (size_store_size_apart hapart sz).trans (Heap.size_setSize _ _ _)
    intro hsame
    have hsub := congrArg BitVec.toNat (hsize.symm.trans hsame)
    have hle : sz.toNat < (size h.mem (link h.mem q)).toNat := hlt
    rw [BitVec.toNat_sub_of_le (BitVec.le_of_lt hlt)] at hsub
    omega

/-- Taking a block changes nothing exactly if it stands behind `freep`, has the right size and is
linked to itself. -/
theorem take_unchanged_iff (hpos : 0 < sz.toNat) (hfit : sz ≤ size h.mem (link h.mem q)) :
    ((take h sz q).2.freep = h.freep ∧ (take h sz q).2.mem = h.mem) ↔
      q = h.freep ∧ size h.mem (link h.mem q) = sz ∧
        link h.mem (link h.mem q) = link h.mem q := by
  rw [freep_take]
  apply and_congr_right
  intro _
  by_cases hlt : sz < size h.mem (link h.mem q)
  · have hne : size h.mem (link h.mem q) ≠ sz := fun heq => by simp [heq] at hlt
    refine iff_of_false (fun hmem => ?_) fun hsame => hne hsame.1
    exact size_take_smaller hpos hlt (congrArg (fun m => size m (link h.mem q)) hmem)
  · have heq : size h.mem (link h.mem q) = sz := BitVec.le_antisymm (BitVec.not_lt.mp hlt) hfit
    have htake : (take h sz q).2.mem = store32 h.mem q (link h.mem (link h.mem q)) := by
      simp only [take, gt_iff_lt, hlt, if_false]
      rfl
    rw [htake, and_iff_right heq]
    constructor
    · intro hmem
      have hlink := congrArg (fun m => link m q) hmem
      exact (link_store_link _ _ _).symm.trans hlink
    · intro hself
      rw [hself]
      exact store32_load32 h.mem q

theorem sbrk_take (h : Heap σ) (sz : BitVec 32) (q : Ptr) : (take h sz q).2.sbrk = h.sbrk := by
  simp only [take]
  split_ifs <;> rfl

/-- What is taken depends on the memory alone. -/
theorem take_congr {h' : Heap σ} (hm : h'.mem = h.mem) (sz : BitVec 32) (q : Ptr) :
    (take h' sz q).1 = (take h sz q).1 ∧ (take h' sz q).2.mem = (take h sz q).2.mem := by
  simp only [take, Heap.setSize, Heap.setLink, hm]
  split_ifs <;> exact ⟨rfl, rfl⟩

theorem Heap.Finds.idles (F : h.Finds sz q) (hpos : 0 < sz.toNat)
    (hfreep : (take h sz q).2.freep = h.freep) (hmem : (take h sz q).2.mem = h.mem) :
    h.Idles sz := by
  obtain ⟨rfl, hsize, hself⟩ := (take_unchanged_iff hpos F.fits).mp ⟨hfreep, hmem⟩
  exact ⟨F, hsize, hself⟩

/-- The header of a region at `p` reaches into the header at `freep`, whose link is stored last. -/
def Cuts (freep p : Ptr) : Prop := 0 < (freep - p).toNat ∧ (freep - p).toNat < 8

theorem size_insertRegion_of_not_cuts (hcut : ¬ Cuts h.freep p) :
    size (insertRegion h p sz).mem p = sz := by
  have hapart : Apart h.freep 4 (p + 4) 4 := by
    have hp := p.isLt
    have hf := h.freep.isLt
    simp only [Cuts, Apart, BitVec.toNat_sub, BitVec.toNat_add, BitVec.reduceToNat] at *
    omega
  have hlink : ∀ v, size (store32 (h.setSize p sz).mem p v) p = sz := fun v =>
    (size_store_link (.inl rfl) v).trans (Heap.size_setSize h p sz)
  exact (load32_store32_apart p hapart).trans (hlink _)

theorem finds_insertRegion (hcut : ¬ Cuts h.freep p) (hle : sz ≤ v) :
    (insertRegion h p v).Finds sz h.freep := by
  refine ⟨0, fun i hi => absurd hi (Nat.not_lt_zero i), rfl, ?_⟩
  have hblock : (insertRegion h p v).block 0 = p := link_insertRegion_freep h p v
  rwa [hblock, size_insertRegion_of_not_cuts hcut]

theorem cuts_of_exhausts (hle : sz ≤ v) (E : (insertRegion h p v).Exhausts sz) :
    Cuts h.freep p := by
  by_contra hcut
  exact (finds_insertRegion hcut hle).not_exhausts E

/-- A region that does not reach into the header at `freep` is the block that the next search
finds. -/
theorem pays_insertRegion_iff (hcut : ¬ Cuts h.freep p) (hle : sz ≤ v) :
    (insertRegion h p v).Pays sz ↔ advance p (v - sz) + 8 ≠ 0 := by
  have F := finds_insertRegion hcut hle
  have hcarved : carved (insertRegion h p v).mem (link (insertRegion h p v).mem h.freep) sz =
      advance p (v - sz) := by
    rw [link_insertRegion_freep, carved, size_insertRegion_of_not_cuts hcut]
  rw [← hcarved]
  exact ⟨fun hpays => hpays _ F, fun hne q hq => hq.unique F ▸ hne⟩

end TinaOS.Malloc
