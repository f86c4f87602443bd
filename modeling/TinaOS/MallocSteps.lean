import TinaOS.FreeList
import TinaOS.Library.LinkedRing

/-!
# What one call of `malloc` does

The free list is a ring of headers from `freep`. The search of `malloc` finds the first
node in ring order whose successor fits; the call then hands that successor out, carves
its high end, or grows the arena and takes from the new region.
-/

namespace TinaOS.Malloc

open ByteMemory Arenas LinkedRing

variable {σ : Type*}

/-- The free list from `freep` on and the live headers, as they lie in memory. -/
structure Laid (fl : Ptr) (h : Heap σ) (rest live : List Ptr) (A : Arena) : Prop where
  ring : IsRing (link h.mem) (h.freep :: rest)
  tiling : Tiling fl h.mem (h.freep :: rest) live A

/-- No block ends with the address space. -/
def Below (A : Arena) : Prop := ∀ e ∈ A.owned, e.lo + e.len < 2 ^ 32

/-- Free list and live headers in memory that does not reach up to the end of the address space,
where the payload behind a header could be at address 0. -/
structure Represents (fl : Ptr) (h : Heap σ) (rest live : List Ptr) (A : Arena) : Prop
    extends Laid fl h rest live A where
  below : Below A

variable {fl : Ptr} {h : Heap σ} {rest live t : List Ptr} {A : Arena} {p q : Ptr} {sz : BitVec 32}

theorem Laid.live_nodup (R : Laid fl h rest live A) : live.Nodup :=
  (List.nodup_append.mp (R.tiling.nodup R.ring.nodup)).2.1

theorem Laid.notMem_list (R : Laid fl h rest live A) (hp : p ∈ live) : p ∉ h.freep :: rest :=
  fun hm => (List.nodup_append.mp (R.tiling.nodup R.ring.nodup)).2.2 p hm p hp rfl

/-- The successor of `q` is large enough. -/
def fits (m : Mem) (sz : BitVec 32) (q : Ptr) : Bool := decide (sz ≤ size m (link m q))

theorem searchStep_eq (m : Mem) (freep : Ptr) (sz : BitVec 32) :
    searchStep m freep sz = lapStep (link m) (fun p => decide (sz ≤ size m p)) freep := by
  funext q
  by_cases hgt : size m (link m q) > sz
  · have hle : sz ≤ size m (link m q) := BitVec.le_of_lt hgt
    simp [searchStep, lapStep, hgt, hle]
  · by_cases heq : size m (link m q) = sz
    · simp [searchStep, lapStep, heq]
    · have hle : ¬ sz ≤ size m (link m q) := by
        simp only [gt_iff_lt, BitVec.lt_def, BitVec.le_def, ← BitVec.toNat_inj] at *
        omega
      simp [searchStep, lapStep, hgt, heq, hle]

/-- Within one lap the search finds the first node whose successor fits. -/
theorem run_searchStep {m : Mem} {freep : Ptr} (hring : IsRing (link m) (freep :: rest))
    (sz : BitVec 32) {n : ℕ} (hn : (freep :: rest).length ≤ n) :
    BoundedLoop.run (searchStep m freep sz) n freep = some ((freep :: rest).find? (fits m sz)) := by
  rw [searchStep_eq]
  exact run_lapStep hring _ hn

theorem ne_freelist_of_size_pos {m : Mem} {nodes : List Ptr} (T : Tiling fl m nodes live A)
    (hp : 0 < (size m p).toNat) : p ≠ fl := by
  rintro rfl
  simp [T.freelist_size] at hp

/-- A header of the ring whose successor is not `freelist` is followed by another one. -/
theorem Tiling.exists_pair {m : Mem} (T : Tiling fl m (p :: t) live A)
    (hring : IsRing (link m) (p :: t)) (hnf : link m p ≠ fl) : ∃ t', t = link m p :: t' := by
  apply hring.exists_pair
  intro heq
  have hnil := hring.eq_singleton heq
  subst hnil
  have hfp : fl = p := by simpa using T.freelist_mem
  exact hnf (heq.trans hfp.symm)

/-- A block of exactly the right size is unlinked whole. -/
theorem take_exact (hring : IsRing (link h.mem) (q :: p :: t))
    (T : Tiling fl h.mem (q :: p :: t) live A) (hpos : 0 < sz.toNat) (hsz : size h.mem p = sz) :
    take h sz q = (p + 8, { h.setLink q (link h.mem p) with freep := q }) ∧
    ∃ A', A.Step A' ∧ A'.owned = A.owned ∧
      Laid fl (take h sz q).2 t (p :: live) A' ∧ size (take h sz q).2.mem p = sz ∧
      ∀ y ∈ (q :: p :: t) ++ live, size (take h sz q).2.mem y = size h.mem y := by
  have hqp := (isRing_pair.mp hring).2.1
  have htake : take h sz q = (p + 8, { h.setLink q (link h.mem p) with freep := q }) := by
    simp [take, hqp, hsz]
  refine ⟨htake, ?_⟩
  rw [htake]
  have hsize : ∀ y ∈ (q :: p :: t) ++ live,
      size (h.setLink q (link h.mem p)).mem y = size h.mem y := fun y hy =>
    size_store_link (T.eq_or_headers_apart (by simp) hy) _
  have hpf : p ≠ fl := ne_freelist_of_size_pos T (hsz ▸ hpos)
  obtain ⟨A', hstep, howned, T'⟩ :=
    ((T.congr hsize).perm (List.Perm.swap p q t) (List.Perm.refl live)).hand hpf
  refine ⟨A', hstep, howned, ⟨?_, T'⟩, (hsize p (by simp)).trans hsz, hsize⟩
  refine hring.remove (link_store_link _ _ _) fun y hy => link_store_link_apart ?_ _
  apply T.headers_apart (by simp) (by simp [hy])
  rintro rfl
  simpa [hy] using hring.nodup

/-- The header of what `take` carves off the end of `p`. -/
def carved (m : Mem) (p : Ptr) (sz : BitVec 32) : Ptr := advance p (size m p - sz)

/-- Header and units of what is carved off reach up to the end of the block. -/
theorem carved_toNat {m : Mem} (hend : p.toNat + 8 * (size m p).toNat ≤ 2 ^ 32)
    (hpos : 0 < sz.toNat) (hle : sz ≤ size m p) :
    (carved m p sz).toNat + 8 * sz.toNat = p.toNat + 8 * (size m p).toNat := by
  have hle' : sz.toNat ≤ (size m p).toNat := hle
  have hrest : (size m p - sz).toNat = (size m p).toNat - sz.toNat := BitVec.toNat_sub_of_le hle
  simp only [carved, advance, BitVec.toNat_add, BitVec.toNat_mul, BitVec.reduceToNat, hrest]
  omega

theorem take_smaller (hqp : link h.mem q = p) (hlt : sz < size h.mem p) :
    take h sz q = (carved h.mem p sz + 8,
      { (h.setSize p (size h.mem p - sz)).setSize (carved h.mem p sz) sz with freep := q }) := by
  simp only [take, hqp, gt_iff_lt, hlt, if_true, carved, Heap.size_setSize]

/-- A larger block keeps its place in the list and loses its high end. -/
theorem take_split (hring : IsRing (link h.mem) (q :: p :: t))
    (T : Tiling fl h.mem (q :: p :: t) live A) (hpos : 0 < sz.toNat) (hlt : sz < size h.mem p) :
    take h sz q = (carved h.mem p sz + 8,
      { (h.setSize p (size h.mem p - sz)).setSize (carved h.mem p sz) sz with freep := q }) ∧
    (carved h.mem p sz).toNat + 8 * sz.toNat = p.toNat + 8 * (size h.mem p).toNat ∧
    ∃ A', A.Step A' ∧ A'.owned = A.owned ∧
      Laid fl (take h sz q).2 (p :: t) (carved h.mem p sz :: live) A' ∧
      size (take h sz q).2.mem (carved h.mem p sz) = sz ∧
      size (take h sz q).2.mem p = size h.mem p - sz ∧
      ∀ y ∈ (q :: t) ++ live, size (take h sz q).2.mem y = size h.mem y := by
  rw [take_smaller (isRing_pair.mp hring).2.1 hlt]
  have hlt' : sz.toNat < (size h.mem p).toNat := hlt
  have hpf : p ≠ fl := ne_freelist_of_size_pos T (by omega)
  have hpm : p ∈ (q :: p :: t) ++ live := by simp
  have hbound := T.block_bound hpm hpf
  have hrest : (size h.mem p - sz).toNat = (size h.mem p).toNat - sz.toNat :=
    BitVec.toNat_sub_of_le (BitVec.le_of_lt hlt)
  have hb := carved_toNat hbound.2 hpos (BitVec.le_of_lt hlt)
  generalize carved h.mem p sz = b at *
  have hfoot : foot fl h.mem p = 8 * (size h.mem p).toNat := if_neg hpf
  have hbp : Apart b 8 p 8 := apart_of_le (by omega) (by omega) (by omega) (by omega) (by omega)
  have hother : ∀ y ∈ (q :: p :: t) ++ live, y ≠ p → Apart p 8 y 8 ∧ Apart b 8 y 8 := by
    intro y hy hne
    have hinner : Apart b 8 y 8 :=
      T.inner_apart hpm hy hne.symm (by omega) (by omega) (by rw [hfoot]; omega)
    exact ⟨T.headers_apart hpm hy hne.symm, hinner⟩
  have hlink : ∀ y ∈ q :: p :: t,
      link ((h.setSize p (size h.mem p - sz)).setSize b sz).mem y = link h.mem y := by
    intro y hy
    by_cases hyp : y = p
    · subst hyp
      exact (link_store_size (.inr hbp) _).trans (link_store_size (.inl rfl) _)
    · obtain ⟨h₁, h₂⟩ := hother y (List.mem_append_left _ hy) hyp
      exact (link_store_size (.inr h₂) _).trans (link_store_size (.inr h₁) _)
  have hsp : size ((h.setSize p (size h.mem p - sz)).setSize b sz).mem p = size h.mem p - sz :=
    (size_store_size_apart hbp _).trans (size_store_size _ _ _)
  have hsb : size ((h.setSize p (size h.mem p - sz)).setSize b sz).mem b = sz :=
    size_store_size _ _ _
  have hsize : ∀ y ∈ (q :: t) ++ live,
      size ((h.setSize p (size h.mem p - sz)).setSize b sz).mem y = size h.mem y := by
    intro y hy
    have hyp : y ≠ p := by
      rintro rfl
      have hnd : (y :: ((q :: t) ++ live)).Nodup :=
        ((List.Perm.swap y q t).append_right live).nodup_iff.mp (T.nodup hring.nodup)
      exact (List.nodup_cons.mp hnd).1 hy
    have hm : y ∈ (q :: p :: t) ++ live :=
      ((List.Perm.swap p q t).append_right live).mem_iff.mpr (List.mem_cons_of_mem _ hy)
    obtain ⟨h₁, h₂⟩ := hother y hm hyp
    exact (size_store_size_apart h₂ _).trans (size_store_size_apart h₁ _)
  obtain ⟨A', hstep, howned, T'⟩ :=
    (T.perm (List.Perm.swap p q t) (List.Perm.refl live)).carve hpf (b := b)
      (by rw [hsp, hrest]; omega) (by rw [hsb]; exact hpos) (by rw [hsp, hsb, hrest]; omega)
      (by rw [hsp]; omega) hsize
  refine ⟨rfl, hb, A', hstep, howned, ⟨hring.congr hlink, ?_⟩, hsb, hsp, hsize⟩
  exact T'.perm (List.Perm.swap q p t) (List.Perm.refl _)

/-- What holds after `malloc` returned the pointer `r` to a block of `sz` units: the new block is
live, and every word stored lies in a header of `nodes` or in the header of the block. -/
structure Handed (fl : Ptr) (sz : BitVec 32) (h h' : Heap σ) (nodes live : List Ptr) (A A' : Arena)
    (r : Ptr) : Prop where
  steps : A.Steps A'
  laid : ∃ rest', Laid fl h' rest' ((r - 8) :: live) A'
  size_eq : size h'.mem (r - 8) = sz
  sizes : ∀ q ∈ live, size h'.mem q = size h.mem q
  frame : ∃ ws, Frame h h' ws ∧
    ∀ w ∈ ws, (∃ p ∈ nodes, InHeader w p) ∨ InHeader w (r - 8)

/-- A call that was served after a step that kept the live blocks. -/
theorem Handed.after {h₁ h' : Heap σ} {nodes nodes₁ ws₁ : List Ptr} {A₁ A' : Arena} {r : Ptr}
    (V : Handed fl sz h₁ h' nodes₁ live A₁ A' r) (hstep : A.Step A₁)
    (hsame : ∀ q ∈ live, size h₁.mem q = size h.mem q) (F : Frame h h₁ ws₁)
    (hws : ∀ w ∈ ws₁, ∃ p ∈ nodes, InHeader w p) (hnodes : ∀ p ∈ nodes₁, p ∈ nodes) :
    Handed fl sz h h' nodes live A A' r := by
  constructor
  case steps => exact .head hstep V.steps
  case laid => exact V.laid
  case size_eq => exact V.size_eq
  case sizes => exact fun q hq => (V.sizes q hq).trans (hsame q hq)
  case frame =>
    obtain ⟨ws, F', hloc⟩ := V.frame
    refine ⟨ws ++ ws₁, F.trans F', fun w hw => ?_⟩
    cases List.mem_append.mp hw with
    | inl hw =>
      rcases hloc w hw with ⟨p, hp, hwp⟩ | hwr
      · exact .inl ⟨p, hnodes p hp, hwp⟩
      · exact .inr hwr
    | inr hw => exact .inl (hws w hw)

/-- The same in memory that stays below the end of the address space. -/
structure Served (fl : Ptr) (sz : BitVec 32) (h h' : Heap σ) (nodes live : List Ptr) (A A' : Arena)
    (r : Ptr) : Prop extends Handed fl sz h h' nodes live A A' r where
  below : Below A'
  ne_zero : r ≠ 0

theorem Served.represents {h' : Heap σ} {nodes : List Ptr} {A' : Arena} {r : Ptr}
    (V : Served fl sz h h' nodes live A A' r) : ∃ rest', Represents fl h' rest' ((r - 8) :: live) A' := by
  obtain ⟨rest', R'⟩ := V.laid
  exact ⟨rest', R', V.below⟩

theorem Represents.congr {τ : Type*} {h' : Heap τ} (R : Represents fl h rest live A)
    (hmem : h'.mem = h.mem) (hfreep : h'.freep = h.freep) : Represents fl h' rest live A := by
  obtain ⟨⟨hring, T⟩, hbelow⟩ := R
  rw [← hmem, ← hfreep] at hring T
  exact ⟨⟨hring, T⟩, hbelow⟩

theorem add_header_sub (b : Ptr) : b + 8 - 8 = b := BitVec.add_sub_cancel b 8

theorem add_header_toNat {b : Ptr} (h : b.toNat + 8 < 2 ^ 32) : (b + 8).toNat = b.toNat + 8 := by
  rw [BitVec.toNat_add]
  exact Nat.mod_eq_of_lt h

theorem Tiling.end_lt_top {m : Mem} {nodes : List Ptr} (T : Tiling fl m nodes live A) (hA : Below A)
    (hp : p ∈ nodes ++ live) (hne : p ≠ fl) : p.toNat + 8 * (size m p).toNat < 2 ^ 32 := by
  have hpos := T.size_pos p hp hne
  have hlast : p.toNat + 8 * (size m p).toNat - 1 ∈ (extent m p).cells := by
    simp only [Extent.mem_cells, extent]
    omega
  obtain ⟨f, hf, hfa⟩ := A.owned_of_mem (T.extent_mem hp) hlast
  have hb := hA f hf
  have hfa := Extent.mem_cells.mp hfa
  omega

theorem Represents.block_bound (R : Represents fl h rest live A) (hp : p ∈ (h.freep :: rest) ++ live)
    (hne : p ≠ fl) :
    fl.toNat + 8 ≤ p.toNat ∧ p.toNat + 8 * (size h.mem p).toNat < 2 ^ 32 :=
  ⟨(R.tiling.block_bound hp hne).1, R.tiling.end_lt_top R.below hp hne⟩

/-- A block whose payload would be at address 0 lies at the end of the address space. -/
theorem Handed.region_ends {h' : Heap σ} {nodes : List Ptr} {A' : Arena} {r : Ptr}
    (V : Handed fl sz h h' nodes live A A' r) (hr : r = 0) :
    ∃ e ∈ A'.owned, e.lo + e.len = 2 ^ 32 := by
  obtain ⟨rest', -, T⟩ := V.laid
  rw [hr] at T
  have hmem : (0 : Ptr) - 8 ∈ (h'.freep :: rest') ++ ((0 : Ptr) - 8) :: live := by simp
  have hne : (0 : Ptr) - 8 ≠ fl := fun heq => T.freelist_notMem (heq ▸ List.mem_cons_self)
  have hbound := T.block_bound hmem hne
  have hpos := T.size_pos _ hmem hne
  have hlast : ((0 : Ptr) - 8).toNat + 7 ∈ (extent h'.mem (0 - 8)).cells := by
    simp only [Extent.mem_cells, extent]
    omega
  obtain ⟨e, he, hea⟩ := A'.owned_of_mem (T.extent_mem hmem) hlast
  have hcell := Extent.mem_cells.mp hea
  have hle := (T.owned e he).2
  have hheader : ((0 : Ptr) - 8).toNat = 2 ^ 32 - 8 := rfl
  exact ⟨e, he, by omega⟩

/-- Below the end of the address space the pointer to a block is not 0. -/
theorem Handed.served {h' : Heap σ} {nodes : List Ptr} {A' : Arena} {r : Ptr}
    (V : Handed fl sz h h' nodes live A A' r) (hA' : Below A') :
    Served fl sz h h' nodes live A A' r := by
  refine ⟨V, hA', fun hr => ?_⟩
  obtain ⟨e, he, hend⟩ := V.region_ends hr
  exact (hA' e he).ne hend

theorem Laid.take_spec (R : Laid fl h rest live A) (hq : q ∈ h.freep :: rest)
    (hpos : 0 < sz.toNat) (hfit : fits h.mem sz q) {r : Ptr} {h' : Heap σ}
    (hr : take h sz q = (r, h')) :
    ∃ A', Handed fl sz h h' (h.freep :: rest) live A A' r ∧ A'.owned = A.owned ∧
      h'.sbrk = h.sbrk := by
  obtain ⟨u, hrot, hring⟩ := R.ring.exists_cons hq
  have T := R.tiling.perm hrot.perm.symm (List.Perm.refl live)
  have hle : sz ≤ size h.mem (link h.mem q) := of_decide_eq_true hfit
  have hpf : link h.mem q ≠ fl := ne_freelist_of_size_pos T (Nat.lt_of_lt_of_le hpos hle)
  obtain ⟨t, rfl⟩ := T.exists_pair hring hpf
  have hmem : link h.mem q ∈ h.freep :: rest := hrot.mem_iff.mp (by simp)
  generalize link h.mem q = p at *
  by_cases hsz : size h.mem p = sz
  · obtain ⟨htake, A', hstep, howned, R', hsize, hsame⟩ := take_exact hring T hpos hsz
    rw [htake] at hr R' hsize hsame
    obtain ⟨rfl, rfl⟩ := Prod.mk.inj hr
    refine ⟨A', ?_, howned, rfl⟩
    constructor
    case steps => exact .single hstep
    case laid => exact ⟨t, by rw [add_header_sub]; exact R'⟩
    case size_eq => rw [add_header_sub]; exact hsize
    case sizes => exact fun y hy => hsame y (List.mem_append_right _ hy)
    case frame =>
      refine ⟨[q], (Frame.setLink h q _).congr rfl rfl, fun w hw => .inl ⟨q, hq, .inl ?_⟩⟩
      exact List.mem_singleton.mp hw
  · have hlt : sz < size h.mem p := BitVec.lt_of_le_ne hle (Ne.symm hsz)
    obtain ⟨htake, hend, A', hstep, howned, R', hsize, -, hsame⟩ := take_split hring T hpos hlt
    rw [htake] at hr R' hsize hsame
    obtain ⟨rfl, rfl⟩ := Prod.mk.inj hr
    refine ⟨A', ?_, howned, rfl⟩
    constructor
    case steps => exact .single hstep
    case laid => exact ⟨p :: t, by rw [add_header_sub]; exact R'⟩
    case size_eq => rw [add_header_sub]; exact hsize
    case sizes => exact fun y hy => hsame y (List.mem_append_right _ hy)
    case frame =>
      refine ⟨[carved h.mem p sz + 4, p + 4],
        ((Frame.setSize h p _).trans (Frame.setSize _ _ _)).congr rfl rfl, fun w hw => ?_⟩
      rcases List.mem_cons.mp hw with rfl | hw
      · exact .inr (.inr (by rw [add_header_sub]))
      · exact .inl ⟨p, hmem, .inr (List.mem_singleton.mp hw)⟩

theorem take_spec (R : Represents fl h rest live A) (hq : q ∈ h.freep :: rest)
    (hpos : 0 < sz.toNat) (hfit : fits h.mem sz q) {r : Ptr} {h' : Heap σ}
    (hr : take h sz q = (r, h')) :
    ∃ A', Served fl sz h h' (h.freep :: rest) live A A' r ∧ A'.owned = A.owned ∧
      h'.sbrk = h.sbrk := by
  obtain ⟨A', V, howned, hsbrk⟩ := R.toLaid.take_spec hq hpos hfit hr
  refine ⟨A', V.served fun e he => ?_, howned, hsbrk⟩
  exact R.below e (howned ▸ he)

/-- A region of `n` bytes at `r` that the arena of `fl` can take in, and that may reach up to the
end of the address space. -/
structure FreshToEnd (fl : Ptr) (owned : Multiset Extent) (r : Ptr) (n : ℕ) : Prop where
  above : fl.toNat + 8 ≤ r.toNat
  noWrap : r.toNat + n ≤ 2 ^ 32
  disjoint : ∀ e ∈ owned, Disjoint (Extent.cells ⟨r.toNat, n⟩) e.cells

/-- A region that ends below the end of the address space. From one that ends at `2 ^ 32`,
`malloc(0)` can take the last header there is, and then returns the pointer 0 for its block. -/
structure Fresh (fl : Ptr) (owned : Multiset Extent) (r : Ptr) (n : ℕ) : Prop where
  above : fl.toNat + 8 ≤ r.toNat
  noWrap : r.toNat + n < 2 ^ 32
  disjoint : ∀ e ∈ owned, Disjoint (Extent.cells ⟨r.toNat, n⟩) e.cells

theorem Fresh.toEnd {owned : Multiset Extent} {r : Ptr} {n : ℕ} (F : Fresh fl owned r n) :
    FreshToEnd fl owned r n := ⟨F.above, Nat.le_of_lt F.noWrap, F.disjoint⟩

theorem FreshToEnd.header_apart {m : Mem} {nodes : List Ptr} {r : Ptr} {n : ℕ}
    (F : FreshToEnd fl A.owned r n) (hn : 8 ≤ n) (T : Tiling fl m nodes live A)
    (hq : q ∈ nodes ++ live) : Apart r 8 q 8 := by
  have hh := T.header
  have hr := F.above
  have hw := F.noWrap
  by_cases hqf : q = fl
  · subst hqf
    exact apart_of_le (by omega) (by omega) (by omega) (by omega) (by omega)
  · have hb := T.block_bound hq hqf
    have hpos := T.size_pos q hq hqf
    have hd : Disjoint (Extent.cells ⟨r.toNat, n⟩) (extent m q).cells := by
      refine Multiset.disjoint_left.mpr fun {a} ha haq => ?_
      obtain ⟨e, he, hea⟩ := A.owned_of_mem (T.extent_mem hq) haq
      exact Multiset.disjoint_left.mp (F.disjoint e he) ha hea
    have hap := Extent.apart_of_disjoint (by simp only; omega) (by simp only [extent]; omega) hd
    simp only [extent] at hap
    exact apart_of_le (by omega) (by omega) (by omega) (by omega) (by omega)

theorem Apart.ne {r : Ptr} (h : Apart r 8 q 8) : q ≠ r := by
  rintro rfl
  simp [Apart] at h

theorem below_grown {A' : Arena} {e : Extent} (howned : A'.owned = e ::ₘ A.owned) (hA : Below A)
    (he : e.lo + e.len < 2 ^ 32) : Below A' := by
  intro f hf
  rw [howned] at hf
  rcases Multiset.mem_cons.mp hf with rfl | hf
  · exact he
  · exact hA f hf

section InsertRegion

variable {r y : Ptr}

/-- The store to the new header does not disturb the link of `freep`. -/
theorem insertRegion_eq (hfr : Apart r 8 h.freep 8) :
    insertRegion h r sz = ((h.setSize r sz).setLink r (link h.mem h.freep)).setLink h.freep r := by
  have hlf : link (h.setSize r sz).mem h.freep = link h.mem h.freep := link_store_size (.inr hfr) _
  simp only [insertRegion, ← hlf]
  rfl

theorem size_insertRegion_self (hfr : Apart r 8 h.freep 8) :
    size (insertRegion h r sz).mem r = sz := by
  rw [insertRegion_eq hfr]
  exact ((size_store_link (.inr hfr.symm) _).trans (size_store_link (.inl rfl) _)).trans
    (Heap.size_setSize _ _ _)

theorem size_insertRegion (hfr : Apart r 8 h.freep 8) (hfy : y = h.freep ∨ Apart h.freep 8 y 8)
    (hry : Apart r 8 y 8) : size (insertRegion h r sz).mem y = size h.mem y := by
  rw [insertRegion_eq hfr]
  exact ((size_store_link hfy _).trans (size_store_link (.inr hry) _)).trans
    (size_store_size_apart hry _)

theorem link_insertRegion_freep (h : Heap σ) (r : Ptr) (sz : BitVec 32) :
    link (insertRegion h r sz).mem h.freep = r := link_store_link _ _ _

theorem link_insertRegion_self (hfr : Apart r 8 h.freep 8) :
    link (insertRegion h r sz).mem r = link h.mem h.freep := by
  rw [insertRegion_eq hfr]
  exact (link_store_link_apart hfr.symm _).trans (link_store_link _ _ _)

theorem link_insertRegion (hfr : Apart r 8 h.freep 8) (hfy : Apart h.freep 8 y 8)
    (hry : Apart r 8 y 8) : link (insertRegion h r sz).mem y = link h.mem y := by
  rw [insertRegion_eq hfr]
  exact ((link_store_link_apart hfy _).trans (link_store_link_apart hry _)).trans
    (link_store_size (.inr hry) _)

theorem frame_insertRegion (hfr : Apart r 8 h.freep 8) :
    Frame h (insertRegion h r sz) [h.freep, r, r + 4] := by
  rw [insertRegion_eq hfr]
  exact ((Frame.setSize h r sz).trans (Frame.setLink _ _ _)).trans (Frame.setLink _ _ _)

/-- A region from `sbrk` is a new free block behind `freep`. -/
theorem Laid.insertRegion_spec (R : Laid fl h rest live A) (hpos : 0 < sz.toNat)
    (F : FreshToEnd fl A.owned r (8 * sz.toNat)) :
    ∃ A', A.Step A' ∧ A'.owned = ⟨r.toNat, 8 * sz.toNat⟩ ::ₘ A.owned ∧
      Laid fl (insertRegion h r sz) (r :: rest) live A' ∧
      size (insertRegion h r sz).mem r = sz ∧
      (∀ q ∈ (h.freep :: rest) ++ live, size (insertRegion h r sz).mem q = size h.mem q) ∧
      Frame h (insertRegion h r sz) [h.freep, r, r + 4] := by
  obtain ⟨hring, T⟩ := R
  have hap : ∀ q ∈ (h.freep :: rest) ++ live, Apart r 8 q 8 := fun q hq =>
    F.header_apart (by omega) T hq
  have hfm : h.freep ∈ (h.freep :: rest) ++ live := List.mem_append_left _ List.mem_cons_self
  have hfr : Apart r 8 h.freep 8 := hap _ hfm
  have hsr : size (insertRegion h r sz).mem r = sz := size_insertRegion_self hfr
  have hsize : ∀ q ∈ (h.freep :: rest) ++ live, size (insertRegion h r sz).mem q = size h.mem q :=
    fun q hq => size_insertRegion hfr (T.eq_or_headers_apart hfm hq) (hap q hq)
  have hextent : extent (insertRegion h r sz).mem r = ⟨r.toNat, 8 * sz.toNat⟩ := by
    rw [extent, hsr]
  obtain ⟨A', hstep, howned, T'⟩ := T.grow (r := r)
    (by rw [hsr]; exact hpos) F.above (by rw [hsr]; exact F.noWrap)
    (by rw [hextent]; exact F.disjoint) hsize
  have hring' : IsRing (link (insertRegion h r sz).mem) (h.freep :: r :: rest) := by
    have hnew : r ∉ h.freep :: rest := fun hm => Apart.ne (hap r (List.mem_append_left _ hm)) rfl
    apply hring.insert hnew (link_insertRegion_freep h r sz) (link_insertRegion_self hfr)
    intro y hy
    have hym : y ∈ (h.freep :: rest) ++ live := by simp [hy]
    have hfy : h.freep ≠ y := by
      rintro rfl
      exact (List.nodup_cons.mp hring.nodup).1 hy
    exact link_insertRegion hfr (T.headers_apart hfm hym hfy) (hap y hym)
  have T'' := T'.perm (List.Perm.swap _ _ _) (List.Perm.refl _)
  exact ⟨A', hstep, by rw [howned, hextent], ⟨hring', T''⟩, hsr, hsize, frame_insertRegion hfr⟩

theorem insertRegion_spec (R : Represents fl h rest live A) (hpos : 0 < sz.toNat)
    (F : Fresh fl A.owned r (8 * sz.toNat)) :
    ∃ A', A.Step A' ∧ A'.owned = ⟨r.toNat, 8 * sz.toNat⟩ ::ₘ A.owned ∧
      Represents fl (insertRegion h r sz) (r :: rest) live A' ∧
      size (insertRegion h r sz).mem r = sz ∧
      (∀ q ∈ (h.freep :: rest) ++ live, size (insertRegion h r sz).mem q = size h.mem q) ∧
      Frame h (insertRegion h r sz) [h.freep, r, r + 4] := by
  obtain ⟨A', hstep, howned, R', hrest⟩ := R.toLaid.insertRegion_spec hpos F.toEnd
  exact ⟨A', hstep, howned, ⟨R', below_grown howned R.below F.noWrap⟩, hrest⟩

end InsertRegion

variable {sbrk : BitVec 32 → σ → Ptr × σ} {nbytes : BitVec 32} {h' : Heap σ} {r : Ptr} {n : ℕ}

theorem units_toNat_of_lt (h : nbytes.toNat + 7 < 2 ^ 32) :
    (units nbytes).toNat = (nbytes.toNat + 7) / 8 + 1 := by
  simp only [units, BitVec.toNat_add, BitVec.toNat_sub, BitVec.toNat_udiv, BitVec.reduceToNat]
  omega

theorem units_toNat (h : nbytes.toNat ≤ 2 ^ 31 - 16) :
    (units nbytes).toNat = (nbytes.toNat + 7) / 8 + 1 := units_toNat_of_lt (by omega)

theorem units_pos (nbytes : BitVec 32) : 0 < (units nbytes).toNat := by
  have hlt := (nbytes + 8 - 1).isLt
  simp only [units, BitVec.toNat_add, BitVec.toNat_udiv, BitVec.reduceToNat]
  omega

theorem growth_toNat (sz : BitVec 32) : (growth sz).toNat = max sz.toNat 1024 := by
  by_cases h : sz < BLOCK
  · have hlt : sz.toNat < 1024 := h
    rw [growth, if_pos h, Nat.max_eq_right (by omega)]
    rfl
  · have hge : ¬ sz.toNat < 1024 := h
    rw [growth, if_neg h, Nat.max_eq_left (by omega)]

/-- A request that a block of the list can serve is served from it. -/
theorem malloc_found (hring : IsRing (link h.mem) (h.freep :: rest)) (hn : rest.length + 1 ≤ n)
    (hq : (h.freep :: rest).find? (fits h.mem (units nbytes)) = some q) :
    malloc sbrk n nbytes h = some (take h (units nbytes) q) := by
  obtain ⟨n, rfl⟩ : ∃ k, n = k + 1 := ⟨n - 1, by omega⟩
  have hrun := run_searchStep hring (units nbytes) (n := n + 1) (by simpa using hn)
  simp only [malloc, hrun, hq]

/-- A request that no block can serve asks `sbrk` once, and on success starts again. -/
theorem malloc_full (hring : IsRing (link h.mem) (h.freep :: rest)) (hn : rest.length ≤ n)
    (hnone : (h.freep :: rest).find? (fits h.mem (units nbytes)) = none) {s : σ}
    (hs : sbrk (growth (units nbytes) * 8) h.sbrk = (r, s)) :
    malloc sbrk (n + 1) nbytes h = if r = -1 then some (0, { h with sbrk := s })
      else malloc sbrk n nbytes (insertRegion { h with sbrk := s } r (growth (units nbytes))) := by
  have hrun := run_searchStep hring (units nbytes) (n := n + 1) (by simpa using hn)
  simp only [malloc, hrun, hnone, hs]

/-- The search of a call that returned came to an end, and the call took the block it found, or asked
`sbrk` and stopped or started again. -/
theorem malloc_ended {out : Ptr × Heap σ} (hm : malloc sbrk n nbytes h = some out) :
    ∃ k found, BoundedLoop.run (searchStep h.mem h.freep (units nbytes)) k h.freep = some found ∧
      ((∃ q, found = some q ∧ take h (units nbytes) q = out) ∨
        (found = none ∧ ∃ p s, sbrk (growth (units nbytes) * 8) h.sbrk = (p, s) ∧
          (p = -1 ∧ (0, { h with sbrk := s }) = out ∨
            p ≠ -1 ∧ ∃ k, malloc sbrk k nbytes
              (insertRegion { h with sbrk := s } p (growth (units nbytes))) = some out))) := by
  cases n with
  | zero => cases hm
  | succ n =>
    cases hrun : BoundedLoop.run (searchStep h.mem h.freep (units nbytes)) (n + 1) h.freep with
    | none => simp [malloc, hrun] at hm
    | some found =>
      refine ⟨n + 1, found, hrun, ?_⟩
      cases found with
      | some q =>
        simp only [malloc, hrun, Option.some.injEq] at hm
        exact .inl ⟨q, rfl, hm⟩
      | none =>
        simp only [malloc, hrun] at hm
        refine .inr ⟨rfl, _, _, rfl, ?_⟩
        by_cases hp : (sbrk (growth (units nbytes) * 8) h.sbrk).1 = -1
        · rw [if_pos hp] at hm
          exact .inl ⟨hp, Option.some.inj hm⟩
        · rw [if_neg hp] at hm
          exact .inr ⟨hp, n, hm⟩

/-- What a call that returned did first. -/
theorem malloc_cases (hring : IsRing (link h.mem) (h.freep :: rest))
    (hm : malloc sbrk n nbytes h = some (r, h')) :
    (∃ q, (h.freep :: rest).find? (fits h.mem (units nbytes)) = some q ∧
      take h (units nbytes) q = (r, h')) ∨
    ((h.freep :: rest).find? (fits h.mem (units nbytes)) = none ∧
      ∃ p s, sbrk (growth (units nbytes) * 8) h.sbrk = (p, s) ∧
        (p = -1 ∧ r = 0 ∧ h' = { h with sbrk := s } ∨
          p ≠ -1 ∧ ∃ k, malloc sbrk k nbytes
            (insertRegion { h with sbrk := s } p (growth (units nbytes))) = some (r, h'))) := by
  obtain ⟨k, found, hrun, hend⟩ := malloc_ended hm
  have hlap := run_searchStep hring (units nbytes) (Nat.le_refl _)
  rw [← BoundedLoop.run_unique hrun hlap]
  rcases hend with ⟨q, rfl, htake⟩ | ⟨rfl, p, s, hs, hanswer⟩
  · exact .inl ⟨q, rfl, htake⟩
  · refine .inr ⟨rfl, p, s, hs, hanswer.imp_left ?_⟩
    rintro ⟨hp, heq⟩
    obtain ⟨hr, hh⟩ := Prod.mk.inj heq
    exact ⟨hp, hr.symm, hh.symm⟩

theorem malloc_mono {n' : ℕ} {out : Ptr × Heap σ} (hm : malloc sbrk n nbytes h = some out)
    (hn : n ≤ n') : malloc sbrk n' nbytes h = some out := by
  induction n generalizing n' h with
  | zero => simp [malloc] at hm
  | succ n ih =>
    obtain ⟨n', rfl⟩ : ∃ k, n' = k + 1 := ⟨n' - 1, by omega⟩
    cases hrun : BoundedLoop.run (searchStep h.mem h.freep (units nbytes)) (n + 1) h.freep with
    | none => simp [malloc, hrun] at hm
    | some found =>
      have hrun' := BoundedLoop.run_mono hrun hn
      cases found with
      | some q =>
        simp only [malloc, hrun] at hm
        simp only [malloc, hrun', hm]
      | none =>
        simp only [malloc, hrun] at hm
        simp only [malloc, hrun']
        split_ifs at hm ⊢
        · exact hm
        · exact ih hm (by omega)

/-- The budget does not show in what a call returns. -/
theorem malloc_unique {n' : ℕ} {out out' : Ptr × Heap σ} (hm : malloc sbrk n nbytes h = some out)
    (hm' : malloc sbrk n' nbytes h = some out') : out = out' := by
  have h₁ := malloc_mono hm (Nat.le_max_left n n')
  have h₂ := malloc_mono hm' (Nat.le_max_right n n')
  exact Option.some.inj (h₁.symm.trans h₂)

/-- What every call of `sbrk` keeps, every call of `malloc` keeps. -/
theorem malloc_sbrk (I : σ → Prop) (hI : ∀ n s, I s → I (sbrk n s).2) (h₀ : I h.sbrk)
    (hm : malloc sbrk n nbytes h = some (r, h')) : I h'.sbrk := by
  induction n generalizing h with
  | zero => simp [malloc] at hm
  | succ n ih =>
    simp only [malloc] at hm
    split at hm
    · cases hm
    · obtain rfl : _ = h' := congrArg Prod.snd (Option.some.inj hm)
      simp only [take]
      split_ifs <;> exact h₀
    · split_ifs at hm
      · obtain rfl : _ = h' := congrArg Prod.snd (Option.some.inj hm)
        exact hI _ _ h₀
      · exact ih (hI _ _ h₀) hm

theorem growth_pos (sz : BitVec 32) : 0 < (growth sz).toNat := by
  rw [growth_toNat]
  omega

theorem growth_bytes (h : nbytes.toNat ≤ 2 ^ 31 - 16) :
    (growth (units nbytes) * 8).toNat = 8 * (growth (units nbytes)).toNat ∧
      8 * (growth (units nbytes)).toNat < 2 ^ 31 := by
  have hu := units_toNat h
  have hg := growth_toNat (units nbytes)
  rw [BitVec.toNat_mul]
  simp only [BitVec.reduceToNat]
  omega

/-- The block that `malloc` has just put behind `freep` serves the request. -/
theorem find?_insertRegion {m : Mem} {freep : Ptr} (hring : IsRing (link m) (freep :: r :: rest))
    (hsize : size m r = growth sz) : (freep :: r :: rest).find? (fits m sz) = some freep := by
  have hlink := (isRing_pair.mp hring).2.1
  have hfit : fits m sz freep = true := by
    have hg := growth_toNat sz
    simp only [fits, hlink, hsize, BitVec.le_def, decide_eq_true_eq]
    omega
  simp [hfit]

/-- A call that returned served the request from the list, failed and left memory alone, or
took in the region that `sbrk` answered and served the request then. -/
theorem Laid.malloc_spec (R : Laid fl h rest live A) {s : σ}
    (hs : sbrk (growth (units nbytes) * 8) h.sbrk = (p, s))
    (hfresh : p = -1 ∨ FreshToEnd fl A.owned p (8 * (growth (units nbytes)).toNat))
    (hm : malloc sbrk n nbytes h = some (r, h')) :
    (∃ A', Handed fl (units nbytes) h h' (h.freep :: rest) live A A' r ∧ A'.owned = A.owned ∧
      h'.sbrk = h.sbrk) ∨
    (p = -1 ∧ r = 0 ∧ h' = { h with sbrk := s }) ∨
    (p ≠ -1 ∧ ∃ A', Handed fl (units nbytes) h h' (p :: h.freep :: rest) live A A' r ∧
      A'.owned = ⟨p.toNat, 8 * (growth (units nbytes)).toNat⟩ ::ₘ A.owned ∧ h'.sbrk = s) := by
  have hpos := units_pos nbytes
  rcases malloc_cases R.ring hm with ⟨q, hq, htake⟩ | ⟨-, p', s', hs', hend⟩
  · obtain ⟨A', hserved, howned, hsb⟩ :=
      R.take_spec (List.mem_of_find?_eq_some hq) hpos (List.find?_some hq) htake
    exact .inl ⟨A', hserved, howned, hsb⟩
  · obtain ⟨rfl, rfl⟩ := Prod.mk.inj (hs.symm.trans hs')
    rcases hend with hfail | ⟨hne, k, hk⟩
    · exact .inr (.inl hfail)
    · have R₁ : Laid fl { h with sbrk := s } rest live A := ⟨R.ring, R.tiling⟩
      obtain ⟨A₁, hstep, howned, R₂, hsize, hsame, hframe⟩ :=
        R₁.insertRegion_spec (growth_pos _) (hfresh.resolve_left hne)
      refine .inr (.inr ⟨hne, ?_⟩)
      rcases malloc_cases R₂.ring hk with ⟨q, hq, htake⟩ | ⟨hnone, -⟩
      · obtain ⟨A₂, hserved, howned', hsb⟩ :=
          R₂.take_spec (List.mem_of_find?_eq_some hq) hpos (List.find?_some hq) htake
        have hframe' : Frame h (insertRegion { h with sbrk := s } p (growth (units nbytes)))
            [h.freep, p, p + 4] := ⟨hframe.writes, hframe.outside⟩
        have hsame' := fun q hq => hsame q (List.mem_append_right _ hq)
        refine ⟨A₂, hserved.after hstep hsame' hframe' ?_ ?_, by rw [howned', howned], hsb⟩
        · intro w hw
          simp only [List.mem_cons, List.not_mem_nil, or_false] at hw
          rcases hw with rfl | rfl | rfl
          · exact ⟨h.freep, by simp, .inl rfl⟩
          · exact ⟨w, by simp, .inl rfl⟩
          · exact ⟨p, by simp, .inr rfl⟩
        · exact fun y hy => (List.Perm.swap p h.freep rest).mem_iff.mp hy
      · have hfound := find?_insertRegion R₂.ring hsize
        exact absurd (hfound.symm.trans hnone) (by simp)

theorem malloc_spec (R : Represents fl h rest live A) {s : σ}
    (hs : sbrk (growth (units nbytes) * 8) h.sbrk = (p, s))
    (hfresh : p = -1 ∨ Fresh fl A.owned p (8 * (growth (units nbytes)).toNat))
    (hm : malloc sbrk n nbytes h = some (r, h')) :
    (∃ A', Served fl (units nbytes) h h' (h.freep :: rest) live A A' r ∧ A'.owned = A.owned ∧
      h'.sbrk = h.sbrk) ∨
    (p = -1 ∧ r = 0 ∧ h' = { h with sbrk := s }) ∨
    (p ≠ -1 ∧ ∃ A', Served fl (units nbytes) h h' (p :: h.freep :: rest) live A A' r ∧
      A'.owned = ⟨p.toNat, 8 * (growth (units nbytes)).toNat⟩ ::ₘ A.owned ∧ h'.sbrk = s) := by
  rcases R.toLaid.malloc_spec hs (hfresh.imp_right Fresh.toEnd) hm with
    ⟨A', V, howned, hsb⟩ | hfail | ⟨hne, A', V, howned, hsb⟩
  · exact .inl ⟨A', V.served fun e he => R.below e (howned ▸ he), howned, hsb⟩
  · exact .inr (.inl hfail)
  · have hA' := below_grown howned R.below (hfresh.resolve_left hne).noWrap
    exact .inr (.inr ⟨hne, A', V.served hA', howned, hsb⟩)

/-- A call returns 0 exactly if no block of the list fits and `sbrk` refuses. -/
theorem malloc_eq_zero_iff (R : Represents fl h rest live A) {s : σ}
    (hs : sbrk (growth (units nbytes) * 8) h.sbrk = (p, s))
    (hfresh : p = -1 ∨ Fresh fl A.owned p (8 * (growth (units nbytes)).toNat))
    (hm : malloc sbrk n nbytes h = some (r, h')) :
    r = 0 ↔ (h.freep :: rest).find? (fits h.mem (units nbytes)) = none ∧ p = -1 := by
  rcases malloc_cases R.ring hm with ⟨q, hq, htake⟩ | ⟨hnone, p', s', hs', hend⟩
  · obtain ⟨A', V, -⟩ := take_spec R (List.mem_of_find?_eq_some hq) (units_pos nbytes)
      (List.find?_some hq) htake
    refine iff_of_false V.ne_zero ?_
    rintro ⟨hnone, -⟩
    exact absurd (hq.symm.trans hnone) (Option.some_ne_none q)
  · obtain ⟨rfl, rfl⟩ := Prod.mk.inj (hs.symm.trans hs')
    rcases hend with ⟨hp, hr, -⟩ | ⟨hne, -⟩
    · exact iff_of_true hr ⟨hnone, hp⟩
    · refine iff_of_false ?_ fun hno => hne hno.2
      rcases malloc_spec R hs hfresh hm with ⟨A', V, -⟩ | ⟨hp, -⟩ | ⟨-, A', V, -⟩
      · exact V.ne_zero
      · exact absurd hp hne
      · exact V.ne_zero

/-- Every call returns: two laps and one recursive call at most. -/
theorem malloc_returns (R : Represents fl h rest live A) {s : σ}
    (hs : sbrk (growth (units nbytes) * 8) h.sbrk = (p, s))
    (hfresh : p = -1 ∨ Fresh fl A.owned p (8 * (growth (units nbytes)).toNat))
    (hfuel : rest.length + 3 ≤ n) : ∃ r h', malloc sbrk n nbytes h = some (r, h') := by
  cases hq : (h.freep :: rest).find? (fits h.mem (units nbytes)) with
  | some q => exact ⟨_, _, malloc_found R.ring (by omega) hq⟩
  | none =>
    obtain ⟨n, rfl⟩ : ∃ k, n = k + 1 := ⟨n - 1, by omega⟩
    rw [malloc_full R.ring (by omega) hq hs]
    by_cases hp : p = -1
    · exact ⟨0, _, if_pos hp⟩
    · rw [if_neg hp]
      have R₁ : Represents fl { h with sbrk := s } rest live A := R.congr rfl rfl
      obtain ⟨A₁, -, -, R₂, hsize, -⟩ :=
        insertRegion_spec R₁ (growth_pos _) (hfresh.resolve_left hp)
      exact ⟨_, _, malloc_found R₂.ring (by simp; omega) (find?_insertRegion R₂.ring hsize)⟩

end TinaOS.Malloc
