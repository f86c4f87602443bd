import TinaOS.FirstFit

/-!
# The order of the free list

The search of `free` and its two tests for neighbours are written for a list in address
order in which no block touches the next one. `free` keeps such a list, and so does every
`malloc` that takes from a block. `malloc` puts a region behind `freep`, whatever the place of
that node, and this is the one step that can lose the order.
-/

namespace TinaOS.Malloc

open ByteMemory Arenas LinkedRing

variable {σ : Type*} {fl : Ptr} {h h' : Heap σ} {m m' : Mem} {rest live nodes t : List Ptr}
  {A : Arena} {p q r bp : Ptr} {sz : BitVec 32}

/-- The list read from `freelist` on is in strictly increasing address order, and no block ends
where another one begins. -/
def Ordered (fl : Ptr) (m : Mem) : Prop :=
  ∃ t, IsRing (link m) (fl :: t) ∧ (fl :: t).Pairwise (fun p q => p.toNat < q.toNat) ∧
    ∀ p ∈ fl :: t, ∀ q ∈ fl :: t, p ≠ q → p.toNat + 8 * (size m p).toNat ≠ q.toNat

/-- Between the block at `p` and the next one there is a gap, or `p` is the last node. -/
def Gap (fl : Ptr) (m : Mem) (p : Ptr) : Prop :=
  link m p = fl ∨ p.toNat + 8 * (size m p).toNat < (link m p).toNat

theorem Gap.congr (hg : Gap fl m p) (hlink : link m' p = link m p) (hsize : size m' p = size m p) :
    Gap fl m' p := by
  rwa [Gap, hlink, hsize]

theorem Gap.rises (hg : Gap fl m p) : link m p = fl ∨ p.toNat < (link m p).toNat :=
  hg.imp_right fun h => by omega

/-- A list is in order exactly if every node has its gap. -/
theorem ordered_iff (hring : IsRing (link m) nodes) (T : Tiling fl m nodes live A) :
    Ordered fl m ↔ ∀ p ∈ nodes, Gap fl m p := by
  obtain ⟨t, hr, hringt⟩ := hring.exists_cons T.freelist_mem
  constructor
  · rintro ⟨t', hring', hs, hapart⟩ p hp
    have hsub := hring.subset_of_mem hring' T.freelist_mem List.mem_cons_self
    have hp' := hsub hp
    have hn' := hring'.next_mem hp'
    cases (hring'.ascending_iff BitVec.toNat).mp hs p hp' with
    | inl hlast => exact .inl hlast
    | inr hlt =>
      by_cases hlast : link m p = fl
      · exact .inl hlast
      · have hne : p ≠ link m p := fun heq => absurd hlt (by rw [← heq]; exact lt_irrefl _)
        have hmem := List.mem_append_left live hp
        have hnmem := List.mem_append_left live (hring.next_mem hp)
        have hend := mt (T.advance_eq_iff hmem (T.pos hnmem)).mp (hapart p hp' (link m p) hn' hne)
        exact .inr (T.end_lt hmem hnmem hlast hlt hend)
  · intro hgap
    have hs := (hringt.ascending_iff BitVec.toNat).mpr fun p hp => (hgap p (hr.mem_iff.mp hp)).rises
    refine ⟨t, hringt, hs, fun p hp q hq hne hend => ?_⟩
    by_cases hpf : p = fl
    · rw [hpf, T.freelist_size] at hend
      exact hne (hpf.trans (BitVec.eq_of_toNat_eq (by simpa using hend)))
    · have hpos := T.size_pos p (List.mem_append_left _ (hr.mem_iff.mp hp)) hpf
      obtain ⟨hnf, hle⟩ := hringt.next_le_of_lt BitVec.toNat hs hp hq (by omega)
      have hlt := (hgap p (hr.mem_iff.mp hp)).resolve_left hnf
      omega

/-- A block that leaves the list, or loses its high end, leaves all gaps. -/
theorem Takes.gap (V : Takes sz h h' nodes q r) (hring : IsRing (link h.mem) nodes)
    (hq : q ≠ fl) (hle : sz ≤ size h.mem q) (hgap : ∀ p ∈ nodes, Gap fl h.mem p) :
    ∃ t', IsRing (link h'.mem) (h'.freep :: t') ∧ ∀ p ∈ h'.freep :: t', Gap fl h'.mem p := by
  obtain ⟨t, hrot, hring'⟩ := V.list
  have hringt := hring.rotated hrot.symm
  have hgapt : ∀ p ∈ h'.freep :: q :: t, Gap fl h.mem p := fun p hp => hgap p (hrot.mem_iff.mp hp)
  have hsize : ∀ p ∈ h'.freep :: q :: t, p ≠ q → size h'.mem p = size h.mem p := fun p hp =>
    V.others p (hrot.mem_iff.mp hp)
  have hnd := hringt.nodup
  generalize h'.freep = f at *
  simp only [List.nodup_cons, List.mem_cons, not_or] at hnd
  obtain ⟨⟨hfq, -⟩, hqt, -⟩ := hnd
  by_cases hsz : size h.mem q = sz
  · rw [if_pos hsz] at hring'
    obtain ⟨hlinkf, hlinkq, hlinkt⟩ := hring'.links_of_insert hringt
    refine ⟨t, hring', fun p hp => ?_⟩
    rcases List.mem_cons.mp hp with rfl | hp
    · have hgf := (hgapt p (by simp)).resolve_left (hlinkf ▸ hq)
      have hgq := hgapt q (by simp)
      rw [hlinkf] at hgf
      rw [Gap, ← hlinkq, hsize p (by simp) hfq]
      exact hgq.imp_right fun hlt => by omega
    · have hpq : p ≠ q := fun heq => hqt (heq ▸ hp)
      exact (hgapt p (by simp [hp])).congr (hlinkt p hp).symm (hsize p (by simp [hp]) hpq)
  · rw [if_neg hsz] at hring'
    have hlink := hringt.next_eq hring'
    refine ⟨q :: t, hring', fun p hp => ?_⟩
    by_cases hpq : p = q
    · subst hpq
      have hgp := hgapt p hp
      have hle' : sz.toNat ≤ (size h.mem p).toNat := hle
      have hrest : (size h.mem p - sz).toNat = (size h.mem p).toNat - sz.toNat :=
        BitVec.toNat_sub_of_le hle
      rw [Gap, hlink p hp, V.rest_eq hsz, hrest]
      exact hgp.imp_right fun hlt => by omega
    · exact (hgapt p hp).congr (hlink p hp) (hsize p hp hpq)

/-- In a list in order the search of `free` leaves right below the block. -/
theorem Gap.place_iff (hg : Gap fl m p) (hfl : fl.toNat < bp.toNat) (hplace : place m bp p) :
    p.toNat < bp.toNat ∧ (link m p = fl ∨ bp.toNat < (link m p).toNat) := by
  simp only [place, decide_eq_true_eq, gt_iff_lt, ge_iff_le, BitVec.lt_def, BitVec.le_def]
    at hplace
  cases hg.rises with
  | inl hlast =>
    rw [hlast] at hplace
    exact ⟨by omega, .inl hlast⟩
  | inr hlt => exact ⟨by omega, .inr (by omega)⟩

theorem joinUpper_gap (T : Tiling fl h.mem nodes (bp :: live) A) (hp : p ∈ nodes)
    (hn : link h.mem p ∈ nodes) (hbn : bp ∉ nodes) (hgap : Gap fl h.mem (link h.mem p))
    (habove : link h.mem p = fl ∨ bp.toNat < (link h.mem p).toNat) :
    Gap fl (joinUpper h bp p).mem bp := by
  have hbf : bp ≠ fl := fun heq => T.freelist_notMem (heq ▸ List.mem_cons_self)
  have hbm : bp ∈ nodes ++ bp :: live := by simp
  have hbound := T.block_bound hbm hbf
  have hnm := List.mem_append_left (bp :: live) hn
  have hapart : ∀ y ∈ nodes, Apart bp 8 y 8 := fun y hy =>
    T.headers_apart hbm (List.mem_append_left _ hy) fun heq => hbn (heq ▸ hy)
  by_cases hU : advance bp (size h.mem bp) = link h.mem p
  · have hend := (T.advance_eq_iff hbm (T.pos hnm)).mp hU
    have hnf : link h.mem p ≠ fl := by
      intro heq
      rw [heq] at hend
      omega
    have hnbound := T.block_bound hnm hnf
    rw [joinUpper_touching hU (hapart p hp) (hapart _ hn), Gap, link_absorb,
      size_absorb (by omega)]
    exact hgap.imp_right fun hlt => by omega
  · have hlink : link (h.setLink bp (link h.mem p)).mem bp = link h.mem p := link_store_link _ _ _
    have hsize : size (h.setLink bp (link h.mem p)).mem bp = size h.mem bp :=
      size_store_link (.inl rfl) _
    rw [joinUpper_far hU, Gap, hlink, hsize]
    by_cases hnf : link h.mem p = fl
    · exact .inl hnf
    · exact .inr (T.end_lt hbm hnm hnf (habove.resolve_left hnf) hU)

theorem joinLower_gap (T : Tiling fl h.mem nodes live A) (hp : p ∈ nodes) (hb : bp ∈ nodes)
    (hlt : p.toNat < bp.toNat) (hgap : Gap fl h.mem bp) : Gap fl (joinLower h bp p).mem p := by
  have hpm := List.mem_append_left live hp
  have hbm := List.mem_append_left live hb
  have hne : p ≠ bp := fun heq => absurd hlt (by rw [heq]; exact lt_irrefl _)
  have hbf : bp ≠ fl := by
    rintro rfl
    have hbound := T.block_bound hpm hne
    omega
  have hbound := T.block_bound hbm hbf
  by_cases hD : advance p (size h.mem p) = bp
  · have hpf : p ≠ fl := by
      rintro rfl
      rw [T.freelist_size] at hD
      exact hne (by simpa [advance] using hD)
    have hend := (T.advance_eq_iff hpm (T.pos hbm)).mp hD
    rw [joinLower_touching hD (T.headers_apart hpm hbm hne), Gap, link_absorb,
      size_absorb (by omega)]
    exact hgap.imp_right fun hlt => by omega
  · have hlink : link (h.setLink p bp).mem p = bp := link_store_link _ _ _
    have hsize : size (h.setLink p bp).mem p = size h.mem p := size_store_link (.inl rfl) _
    rw [joinLower_far hD, Gap, hlink, hsize]
    exact .inr (T.end_lt hpm hbm hbf hlt hD)

/-- `free` puts the block where it belongs and leaves all gaps. -/
theorem free_gap {ptr : Ptr} {n : ℕ} (R : Represents fl h rest live A) (hptr : ptr ≠ 0)
    (hlive : ptr - 8 ∈ live) (hf : free n ptr h = some h')
    (hgap : ∀ y ∈ h.freep :: rest, Gap fl h.mem y) :
    ∀ y ∈ (ptr - 8) :: h.freep :: rest, Gap fl h'.mem y := by
  obtain ⟨p, hp, hplace, rfl⟩ := R.free_eq hptr hlive hf
  generalize ptr - 8 = bp at *
  have hbn : bp ∉ h.freep :: rest := R.notMem_list hlive
  have hbf : bp ≠ fl := fun heq => R.tiling.freelist_notMem (heq ▸ hlive)
  have hbm := List.mem_append_right (h.freep :: rest) hlive
  have hfl := (R.tiling.block_bound hbm hbf).1
  obtain ⟨hlt, habove⟩ := (hgap p hp).place_iff (by omega) hplace
  have T := R.tiling.perm (List.Perm.refl _) (List.perm_cons_erase hlive)
  obtain ⟨t, hrot, hring⟩ := R.ring.exists_cons hp
  obtain ⟨t₁, A₁, ws₁, -, -, -, T₁, -, -, -⟩ :=
    joinUpper_spec hring (T.perm hrot.perm.symm (List.Perm.refl _))
  have hn := R.ring.next_mem hp
  have hgap₁ : ∀ y ∈ bp :: h.freep :: rest, Gap fl (joinUpper h bp p).mem y := by
    intro y hy
    by_cases hyb : y = bp
    · rw [hyb]
      exact joinUpper_gap T hp hn hbn (hgap _ hn) habove
    · have hyn := List.mem_of_ne_of_mem hyb hy
      have hfields := fields_joinUpper (h := h) (p := p)
        (R.tiling.headers_apart hbm (List.mem_append_left live hyn) (Ne.symm hyb))
      exact (hgap y hyn).congr hfields.1 hfields.2
  intro y hy
  by_cases hyp : y = p
  · rw [hyp]
    exact joinLower_gap T₁ (by simp) List.mem_cons_self hlt (hgap₁ bp List.mem_cons_self)
  · have hym : y ∈ (h.freep :: rest) ++ live := by
      cases List.mem_cons.mp hy with
      | inl heq => exact heq ▸ hbm
      | inr hyn => exact List.mem_append_left live hyn
    have hapart := R.tiling.headers_apart (List.mem_append_left live hp) hym (Ne.symm hyp)
    exact (hgap₁ y hy).congr (fields_joinLower hapart).1 (fields_joinLower hapart).2

theorem Tiling.end_le (T : Tiling fl m nodes live A) {k : ℕ} (hk : ∀ e ∈ A.owned, e.hi ≤ k)
    (hp : p ∈ nodes ++ live) (hne : p ≠ fl) : p.toNat + 8 * (size m p).toNat ≤ k := by
  have hpos := T.size_pos p hp hne
  have hlast : p.toNat + 8 * (size m p).toNat - 1 ∈ (extent m p).cells := by
    simp only [Extent.mem_cells, extent]
    omega
  obtain ⟨e, he, hea⟩ := A.owned_of_mem (T.extent_mem hp) hlast
  have hle := hk e he
  simp only [Extent.mem_cells] at hea
  simp only [Extent.hi] at hle
  omega

/-- The list after the region at `p` has gone in behind `freep` and a block has come out of it:
the nodes `t` of the old list stand behind `freep`, or behind what is left of the region. -/
structure GrownBy (h h' : Heap σ) (rest : List Ptr) (p : Ptr) (sz : BitVec 32) (t : List Ptr) :
    Prop where
  ring : IsRing (link h'.mem) (if growth sz = sz then h.freep :: t else h.freep :: p :: t)
  sub : ∀ y ∈ t, y ∈ rest
  link_eq : ∀ y ∈ t, link h'.mem y = link h.mem y
  size_eq : ∀ y ∈ h.freep :: t, size h'.mem y = size h.mem y
  usedUp : growth sz = sz → link h'.mem h.freep = link h.mem h.freep
  left : growth sz ≠ sz → link h'.mem h.freep = p ∧ link h'.mem p = link h.mem h.freep

theorem Takes.grownBy (V : Takes sz (insertRegion h p (growth sz)) h' (p :: searched h rest) p r)
    (R : Represents fl h rest live A) (hpos : 0 < sz.toNat)
    (F : Fresh fl A.owned p (8 * (growth sz).toNat)) (hfreep : h'.freep = h.freep) :
    ∃ t, GrownBy h h' rest p sz t := by
  have hgrowth := growth_toNat sz
  obtain ⟨A₁, -, -, R₁, hsize, hsizes, -⟩ := insertRegion_spec R (by omega) F
  have hrot₁ : h.freep :: p :: rest ~r p :: searched h rest :=
    searched_isRotated (insertRegion h p (growth sz)) (p :: rest)
  have hring₁ : IsRing (link (insertRegion h p (growth sz)).mem) (h.freep :: p :: rest) := R₁.ring
  generalize insertRegion h p (growth sz) = h₁ at *
  obtain ⟨hlinkf, hlinkp, hlinkr⟩ := R.ring.links_of_insert hring₁
  obtain ⟨t, hrot, hring'⟩ := V.list
  rw [hfreep] at hrot hring'
  rw [hsize] at hring'
  have hrot' := hrot.trans hrot₁.symm
  have hringt := hring₁.rotated hrot'.symm
  have hnd := hringt.nodup
  simp only [List.nodup_cons, List.mem_cons, not_or] at hnd
  obtain ⟨⟨hfp, hft⟩, hpt, -⟩ := hnd
  have hrest : ∀ y ∈ t, y ∈ rest := by
    intro y hy
    have hmem := hrot'.mem_iff.mp (List.mem_cons_of_mem _ (List.mem_cons_of_mem _ hy))
    have hyf : y ≠ h.freep := fun heq => hft (heq ▸ hy)
    have hyp : y ≠ p := fun heq => hpt (heq ▸ hy)
    exact List.mem_of_ne_of_mem hyp (List.mem_of_ne_of_mem hyf hmem)
  have hsame : ∀ y ∈ h.freep :: rest, y ∈ h.freep :: p :: t → y ≠ p →
      size h'.mem y = size h.mem y := fun y hold hmem hyp =>
    (V.others y (hrot.mem_iff.mp hmem) hyp).trans (hsizes y (List.mem_append_left _ hold))
  refine ⟨t, hring', hrest, fun y hy => ?_, fun y hy => ?_, fun hsz => ?_, fun hsz => ?_⟩
  · rw [← hlinkr y (hrest y hy)]
    by_cases hsz : growth sz = sz
    · rw [if_pos hsz] at hring'
      exact ((hring'.links_of_insert hringt).2.2 y hy).symm
    · rw [if_neg hsz] at hring'
      exact hringt.next_eq hring' y (by simp [hy])
  · rcases List.mem_cons.mp hy with rfl | hy
    · exact hsame _ List.mem_cons_self List.mem_cons_self hfp
    · exact hsame y (List.mem_cons_of_mem _ (hrest y hy)) (by simp [hy]) fun heq => hpt (heq ▸ hy)
  · rw [if_pos hsz] at hring'
    exact (hring'.links_of_insert hringt).2.1.symm.trans hlinkp
  · rw [if_neg hsz] at hring'
    have hlink := hringt.next_eq hring'
    exact ⟨(hlink _ (by simp)).trans hlinkf, (hlink p (by simp)).trans hlinkp⟩

/-- The other nodes have the gaps that they had. -/
theorem GrownBy.gap_of_mem (G : GrownBy h h' rest p sz t)
    (hgap : ∀ y ∈ h.freep :: rest, Gap fl h.mem y) : ∀ y ∈ t, Gap fl h'.mem y := fun y hy =>
  (hgap y (List.mem_cons_of_mem _ (G.sub y hy))).congr (G.link_eq y hy)
    (G.size_eq y (List.mem_cons_of_mem _ hy))

/-- What is left of a region above all others keeps the gaps exactly if `freep` was the last node
and does not touch it. -/
theorem GrownBy.gap_iff (G : GrownBy h h' rest p sz t) (hleft : growth sz ≠ sz)
    (R : Represents fl h rest live A) (hfl : fl.toNat < p.toNat)
    (habove : ∀ e ∈ A.owned, e.hi ≤ p.toNat) (hgap : ∀ y ∈ h.freep :: rest, Gap fl h.mem y) :
    (∀ y ∈ h.freep :: p :: t, Gap fl h'.mem y) ↔
      link h.mem h.freep = fl ∧ advance h.freep (size h.mem h.freep) ≠ p := by
  have T := R.tiling
  obtain ⟨hlf, hlp⟩ := G.left hleft
  have hsf := G.size_eq h.freep List.mem_cons_self
  have hadvance := T.advance_eq_iff (p := h.freep) (q := p) (by simp) (by omega)
  have hle : h.freep.toNat + 8 * (size h.mem h.freep).toNat ≤ p.toNat := by
    by_cases hff : h.freep = fl
    · have hzero : (0 : BitVec 32).toNat = 0 := rfl
      rw [hff, T.freelist_size, hzero]
      omega
    · exact T.end_le habove (by simp) hff
  constructor
  · intro hall
    have hgf := hall h.freep (by simp)
    have hgp := hall p (by simp)
    rw [Gap, hlf, hsf] at hgf
    rw [Gap, hlp] at hgp
    have hpf : p ≠ fl := by
      rintro rfl
      exact lt_irrefl _ hfl
    have hend := hgf.resolve_left hpf
    refine ⟨hgp.resolve_right fun hlt => ?_, fun heq => ?_⟩
    · -- the old successor of `freep` lies below the region
      have hnmem := R.ring.next_mem List.mem_cons_self
      by_cases hnf : link h.mem h.freep = fl
      · rw [hnf] at hlt
        omega
      · have hnle := T.end_le habove (List.mem_append_left live hnmem) hnf
        omega
    · have hne := hadvance.mp heq
      omega
  · rintro ⟨hlast, hne⟩ y hy
    rcases List.mem_cons.mp hy with rfl | hy
    · rw [Gap, hlf, hsf]
      exact .inr (lt_of_le_of_ne hle fun heq => hne (hadvance.mpr heq))
    · rcases List.mem_cons.mp hy with rfl | hy
      · exact .inl (hlp.trans hlast)
      · exact G.gap_of_mem hgap y hy

theorem growth_eq_iff (sz : BitVec 32) : growth sz = sz ↔ ¬ sz < BLOCK := by
  have hgrowth := growth_toNat sz
  rw [← BitVec.toNat_inj, hgrowth, BitVec.lt_def]
  have hblock : BLOCK.toNat = 1024 := rfl
  omega

/-- A region above all others that is not used up keeps the gaps exactly if `freep` was the last
node and does not touch it. -/
theorem grow_gap_iff (R : Represents fl h rest live A) (hpos : 0 < sz.toNat)
    (F : Fresh fl A.owned p (8 * (growth sz).toNat)) (habove : ∀ e ∈ A.owned, e.hi ≤ p.toNat)
    (V : Takes sz (insertRegion h p (growth sz)) h' (p :: searched h rest) p r)
    (hfreep : h'.freep = h.freep) (hgap : ∀ y ∈ h.freep :: rest, Gap fl h.mem y) :
    ∃ t', IsRing (link h'.mem) (h'.freep :: t') ∧ ((∀ y ∈ h'.freep :: t', Gap fl h'.mem y) ↔
      (sz < BLOCK → link h.mem h.freep = fl ∧ advance h.freep (size h.mem h.freep) ≠ p)) := by
  obtain ⟨t, G⟩ := V.grownBy R hpos F hfreep
  have hring := G.ring
  have hfl := F.above
  rw [hfreep]
  by_cases hsz : growth sz = sz
  · rw [if_pos hsz] at hring
    refine ⟨t, hring, fun _ hlt => absurd hlt ((growth_eq_iff sz).mp hsz), fun _ y hy => ?_⟩
    rcases List.mem_cons.mp hy with rfl | hy
    · exact (hgap _ List.mem_cons_self).congr (G.usedUp hsz) (G.size_eq _ List.mem_cons_self)
    · exact G.gap_of_mem hgap y hy
  · rw [if_neg hsz] at hring
    have hlt : sz < BLOCK := not_not.mp (mt (growth_eq_iff sz).mpr hsz)
    exact ⟨p :: t, hring, (G.gap_iff hsz R (by omega) habove hgap).trans (by simp [hlt])⟩

/-- Every answer is `-1` or a region above the static header and above all earlier regions. -/
def Rising (fl : Ptr) (answer : SbrkLog → BitVec 32 → Ptr) : Prop :=
  ∀ log nbytes, answer log nbytes = -1 ∨
    fl.toNat + 8 ≤ (answer log nbytes).toNat ∧
      (answer log nbytes).toNat + nbytes.toNat < 2 ^ 32 ∧
      ∀ e ∈ regions log, e.hi ≤ (answer log nbytes).toNat

/-- A call that has to grow the list and leaves a rest of the region finds `freep` at the last
node, whose block does not end where the region begins. -/
def Orderly (fl : Ptr) (answer : SbrkLog → BitVec 32 → Ptr) (s : Machine) : Call → Prop
  | .malloc nbytes =>
    (∀ b, FreeNode s.heap b → size s.heap.mem b < units nbytes) →
    answer s.heap.sbrk (growth (units nbytes) * 8) ≠ -1 → units nbytes < BLOCK →
      link s.heap.mem s.heap.freep = fl ∧
        advance s.heap.freep (size s.heap.mem s.heap.freep) ≠
          answer s.heap.sbrk (growth (units nbytes) * 8)
  | .free _ => True

/-- The runs from boot: the calls made, each with the state before it, the latest first, and the
state reached. -/
inductive Run (fl : Ptr) (answer : SbrkLog → BitVec 32 → Ptr) : List (Machine × Call) → Machine → Prop
  | boot {s} (h : Boot fl s) : Run fl answer [] s
  | call {s s' steps} {c : Call} {fuel : ℕ} (h : Run fl answer steps s) (hc : c.Allowed s)
      (hs : exec answer fuel s c = some s') : Run fl answer ((s, c) :: steps) s'

variable {answer : SbrkLog → BitVec 32 → Ptr} {s s' : Machine} {nbytes : BitVec 32} {fuel : ℕ}

theorem Rising.fair (ha : Rising fl answer) : Fair fl answer := by
  intro log nbytes
  refine (ha log nbytes).imp_right fun ⟨hlo, hhi, habove⟩ => ⟨hlo, hhi, fun e he => ?_⟩
  refine Multiset.disjoint_left.mpr fun {a} ha hea => ?_
  have hle := habove e (Multiset.mem_coe.mp he)
  simp only [Extent.mem_cells, Extent.hi] at *
  omega

theorem Run.reachable {steps : List (Machine × Call)} (hr : Run fl answer steps s) :
    Reachable fl answer s := by
  induction hr with
  | boot h => exact .boot h
  | call _ hc hs ih => exact .call ih hc hs

theorem Represents.ordered_iff {σ : Type*} {h : Heap σ} (R : Represents fl h rest live A)
    (hring : IsRing (link h.mem) (h.freep :: t)) :
    Ordered fl h.mem ↔ ∀ y ∈ h.freep :: t, Gap fl h.mem y := by
  have hsub := R.ring.subset_of_mem hring List.mem_cons_self List.mem_cons_self
  have hsub' := hring.subset_of_mem R.ring List.mem_cons_self List.mem_cons_self
  rw [Malloc.ordered_iff R.ring R.tiling]
  exact ⟨fun hall y hy => hall y (hsub' hy), fun hall y hy => hall y (hsub hy)⟩

theorem Sound.noFit_iff (S : Sound fl s rest A) :
    (∀ b, FreeNode s.heap b → size s.heap.mem b < units nbytes) ↔
      (s.heap.freep :: rest).find? (fits s.heap.mem (units nbytes)) = none := by
  rw [find?_fits_eq_none S.represents.ring]
  constructor
  · exact fun hall b hb => hall b (S.freeNode hb)
  · rintro hall _ ⟨k, rfl⟩
    exact hall _ (S.represents.ring.iterate_mem List.mem_cons_self k)

/-- A block that comes out of a list in order leaves it in order. -/
theorem Represents.ordered_take {σ : Type*} {h h' : Heap σ} (R : Represents fl h rest live A)
    (hq : q ∈ h.freep :: rest) (hpos : 0 < sz.toNat) (hfit : fits h.mem sz q)
    (htake : take h sz q = (r, h')) (ho : Ordered fl h.mem) : Ordered fl h'.mem := by
  have hle : sz ≤ size h.mem (link h.mem q) := of_decide_eq_true hfit
  have hqf := ne_freelist_of_size_pos (p := link h.mem q) R.tiling (Nat.lt_of_lt_of_le hpos hle)
  obtain ⟨A', V, -, -⟩ := take_spec R hq hpos hfit htake
  obtain ⟨rest', R'⟩ := V.represents
  have hgap := (R.ordered_iff R.ring).mp ho
  have hring := R.ring.rotated (searched_isRotated h rest)
  obtain ⟨t', hring', hgap'⟩ := (take_takes R hq hpos hfit htake).gap hring hqf hle fun y hy =>
    hgap y ((searched_isRotated h rest).mem_iff.mpr hy)
  exact (R'.ordered_iff hring').mpr hgap'

/-- A call that some block serves keeps a list in order, wherever the regions lie. -/
theorem Sound.ordered_found (S : Sound fl s rest A) (hg : Grows fl answer s.heap.sbrk nbytes)
    (hs : exec answer fuel s (.malloc nbytes) = some s') (ho : Ordered fl s.heap.mem)
    (hfit : ∃ b, FreeNode s.heap b ∧ units nbytes ≤ size s.heap.mem b) :
    Ordered fl s'.heap.mem := by
  obtain ⟨⟨r, h'⟩, hm, rfl⟩ := Option.map_eq_some_iff.mp hs
  have hanswer := oracle_eq answer (growth (units nbytes) * 8) s.heap.sbrk
  rcases malloc_outcome S.represents hanswer (hg.fresh S.owned) hm with ⟨q, hq, htake⟩ | ⟨hnone, -⟩
  · exact S.represents.ordered_take (List.mem_of_find?_eq_some hq) (units_pos nbytes)
      (List.find?_some hq) htake ho
  · obtain ⟨b, hb, hle⟩ := hfit
    exact absurd (S.noFit_iff.mpr hnone b hb) (BitVec.not_lt.mpr hle)

/-- One call of `malloc` on a list in order. -/
theorem Sound.ordered_malloc (S : Sound fl s rest A) (ha : Rising fl answer)
    (hn : nbytes.toNat ≤ 2 ^ 31 - 16) (hs : exec answer fuel s (.malloc nbytes) = some s')
    (ho : Ordered fl s.heap.mem) :
    Ordered fl s'.heap.mem ↔ Orderly fl answer s (.malloc nbytes) := by
  obtain ⟨rest', A', -, S'⟩ := S.call_malloc (ha.fair.grows hn _) hs
  obtain ⟨⟨r, h'⟩, hm, rfl⟩ := Option.map_eq_some_iff.mp hs
  have R := S.represents
  have hgap := (R.ordered_iff R.ring).mp ho
  have hpos := units_pos nbytes
  rw [Orderly, S.noFit_iff]
  have hfresh := (ha.fair.grows hn s.heap.sbrk).fresh S.owned
  have hanswer := oracle_eq answer (growth (units nbytes) * 8) s.heap.sbrk
  rcases malloc_outcome R hanswer hfresh hm with
    ⟨q, hq, htake⟩ | ⟨hnone, ⟨hp, rfl, rfl⟩ | ⟨hp, V, hfreep⟩⟩
  · refine ⟨fun _ hnone => absurd (hq.symm.trans hnone) (Option.some_ne_none q), fun _ => ?_⟩
    exact R.ordered_take (List.mem_of_find?_eq_some hq) hpos (List.find?_some hq) htake ho
  · exact ⟨fun _ _ hne => absurd hp hne, fun _ => ho⟩
  · have F := hfresh.resolve_left hp
    have habove : ∀ e ∈ A.owned, e.hi ≤ (answer s.heap.sbrk (growth (units nbytes) * 8)).toNat := by
      intro e he
      rw [S.owned] at he
      exact ((ha s.heap.sbrk (growth (units nbytes) * 8)).resolve_left hp).2.2 e
        (Multiset.mem_coe.mp he)
    have R₁ : Represents fl { s.heap with sbrk := ⟨growth (units nbytes) * 8,
        answer s.heap.sbrk (growth (units nbytes) * 8)⟩ :: s.heap.sbrk } rest
        (s.live.map headerOf) A := R.congr rfl rfl
    obtain ⟨t', hring', hiff⟩ := grow_gap_iff R₁ hpos F habove V hfreep hgap
    rw [S'.represents.ordered_iff hring', hiff]
    exact ⟨fun hcond _ _ => hcond, fun hcond => hcond hnone hp⟩

/-- `free` keeps a list in order. -/
theorem Sound.ordered_free (S : Sound fl s rest A) {ptr : Ptr} (hptr : ptr = 0 ∨ ptr ∈ s.live)
    (hs : exec answer fuel s (.free ptr) = some s') (ho : Ordered fl s.heap.mem) :
    Ordered fl s'.heap.mem := by
  obtain ⟨h', hf, rfl⟩ := Option.map_eq_some_iff.mp hs
  by_cases hz : ptr = 0
  · subst hz
    have hh : s.heap = h' := Option.some.inj ((free_zero fuel s.heap).symm.trans hf)
    rwa [← hh]
  · have R := S.represents
    have hlive : ptr - 8 ∈ s.live.map headerOf := List.mem_map_of_mem (hptr.resolve_left hz)
    have hgap := free_gap R hz hlive hf ((R.ordered_iff R.ring).mp ho)
    obtain ⟨rest', A', -, -, -, R', hsub, -⟩ := free_spec R hz hlive hf
    exact (R'.ordered_iff R'.ring).mpr fun y hy => hgap y (hsub hy)

theorem Sound.ordered_call (S : Sound fl s rest A) (ha : Rising fl answer) {c : Call}
    (hc : c.Allowed s) (hs : exec answer fuel s c = some s') (ho : Ordered fl s.heap.mem) :
    Ordered fl s'.heap.mem ↔ Orderly fl answer s c := by
  cases c with
  | malloc nbytes => exact S.ordered_malloc ha hc hs ho
  | free ptr => exact ⟨fun _ => trivial, fun _ => S.ordered_free hc hs ho⟩

theorem ordered_boot (hb : Boot fl s) : Ordered fl s.heap.mem := by
  have R := (sound_boot hb).represents
  rw [R.ordered_iff R.ring]
  intro y hy
  rw [List.mem_singleton.mp hy, hb.initial.freep_eq]
  exact .inl hb.initial.link_eq

/-- The list is in order after every call of a run exactly if every call of it is orderly. -/
theorem ordered_iff_orderly (ha : Rising fl answer) {steps : List (Machine × Call)}
    (hr : Run fl answer steps s) :
    (Ordered fl s.heap.mem ∧ ∀ x ∈ steps, Ordered fl x.1.heap.mem) ↔
      ∀ x ∈ steps, Orderly fl answer x.1 x.2 := by
  induction hr with
  | boot hb => simpa using ordered_boot hb
  | call hr hc hs ih =>
    obtain ⟨rest, A, -, S⟩ := hr.reachable.sound ha.fair
    rw [List.forall_mem_cons, List.forall_mem_cons, ← ih]
    constructor
    · rintro ⟨ho', ho, hall⟩
      exact ⟨(S.ordered_call ha hc hs ho).mp ho', ho, hall⟩
    · rintro ⟨hcond, ho, hall⟩
      exact ⟨(S.ordered_call ha hc hs ho).mpr hcond, ho, hall⟩

theorem Ordered.rises (ho : Ordered fl m) (k : ℕ) :
    link m ((link m)^[k] fl) = fl ∨ ((link m)^[k] fl).toNat < (link m ((link m)^[k] fl)).toNat := by
  obtain ⟨t, hring, hs, -⟩ := ho
  exact (hring.ascending_iff BitVec.toNat).mp hs _ (hring.iterate_mem List.mem_cons_self k)

/-- An `sbrk` that gives 8192 bytes at 4096, and then the 8192 bytes behind them. -/
def twiceAnswer : SbrkLog → BitVec 32 → Ptr
  | [], nbytes => if nbytes = 8192 then 4096 else -1
  | [c], nbytes => if c.answer = 4096 ∧ c.nbytes = 8192 ∧ nbytes = 8192 then 12288 else -1
  | _ :: _ :: _, _ => -1

theorem rising_twiceAnswer : Rising 16 twiceAnswer := by
  intro log nbytes
  match log with
  | [] =>
    by_cases hn : nbytes = 8192
    · subst hn
      exact .inr ⟨by decide, by decide, by simp [regions]⟩
    · exact .inl (if_neg hn)
  | [c] =>
    by_cases hc : c.answer = 4096 ∧ c.nbytes = 8192 ∧ nbytes = 8192
    · obtain ⟨hanswer, hcount, rfl⟩ := hc
      have hregions : regions [c] = [⟨4096, 8192⟩] := by
        rw [regions, hanswer, hcount]
        rfl
      have htwice : twiceAnswer [c] 8192 = 12288 := if_pos ⟨hanswer, hcount, rfl⟩
      rw [htwice, hregions]
      exact .inr ⟨by decide, by decide, by simp [Extent.hi]⟩
    · exact .inl (if_neg hc)
  | _ :: _ :: _ => exact .inl rfl

/-- The rest of the second region comes before the rest of the first one. -/
theorem not_ordered_twiceAnswer : Rising 16 twiceAnswer ∧
    ∃ steps s, Run 16 twiceAnswer steps s ∧ ¬ Ordered 16 s.heap.mem := by
  have hrun : ((exec twiceAnswer 4 bootMachine (.malloc 8176)).bind fun s =>
      exec twiceAnswer 4 s (.malloc 100)).map
        (fun s => (link s.heap.mem 16, link s.heap.mem 12288)) = some (12288, 4096) := by decide
  obtain ⟨s', hs', hlinks⟩ := Option.map_eq_some_iff.mp hrun
  obtain ⟨s, hs, hs'⟩ := Option.bind_eq_some_iff.mp hs'
  obtain ⟨hlink, hlink'⟩ := Prod.mk.inj hlinks
  have hboot : Run 16 twiceAnswer [] bootMachine := .boot boot_bootMachine
  have hfirst := hboot.call (c := .malloc 8176) (by decide) hs
  have hsmall : (100 : BitVec 32).toNat ≤ 2 ^ 31 - 16 := by decide
  refine ⟨rising_twiceAnswer, _, s', hfirst.call (c := .malloc 100) hsmall hs', fun ho => ?_⟩
  have hrises := ho.rises 1
  rw [Function.iterate_one, hlink, hlink'] at hrises
  exact absurd hrises (by decide)

theorem ordered_iff_orderly_twiceAnswer :
    ∃ s, exec twiceAnswer 4 bootMachine (.malloc 100) = some s ∧ Ordered 16 s.heap.mem := by
  have hrun : (exec twiceAnswer 4 bootMachine (.malloc 100)).isSome := by decide
  obtain ⟨s, hs⟩ := Option.isSome_iff_exists.mp hrun
  have hboot : Run 16 twiceAnswer [] bootMachine := .boot boot_bootMachine
  have hfirst := hboot.call (c := .malloc 100) (by decide) hs
  have hcond : Orderly 16 twiceAnswer bootMachine (.malloc 100) := fun _ _ _ => by decide
  refine ⟨s, hs, ((ordered_iff_orderly rising_twiceAnswer hfirst).mpr fun x hx => ?_).1⟩
  rw [List.mem_singleton.mp hx]
  exact hcond

end TinaOS.Malloc
