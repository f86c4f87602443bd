import TinaOS.MallocSteps

/-!
# What one call of `free` does

The search of `free` has no lap test. It stops because a key outside a ring always has
a place in it. The update is a release of the arena and up to two joins; between its two
halves the released header hangs in front of the rest of the ring.
-/

namespace TinaOS.Malloc

open ByteMemory Arenas LinkedRing

variable {σ : Type*} {fl : Ptr} {h : Heap σ} {m : Mem} {rest live nodes t : List Ptr}
  {A : Arena} {p q bp : Ptr}

/-- The test by which the search of `free` leaves at `p`. -/
def place (m : Mem) (bp p : Ptr) : Bool :=
  decide ((bp > p ∧ bp < link m p) ∨ (p ≥ link m p ∧ (bp > p ∨ bp < link m p)))

theorem freeStep_eq (m : Mem) (bp : Ptr) : freeStep m bp = walkStep (link m) (place m bp) := by
  funext p
  simp [freeStep, walkStep, place]

/-- A header that is no node of the ring has a place in it, found within one lap. -/
theorem run_freeStep {freep : Ptr} (hring : IsRing (link m) (freep :: rest))
    (hbp : bp ∉ freep :: rest) {n : ℕ} (hn : (freep :: rest).length ≤ n) :
    ∃ p ∈ freep :: rest, place m bp p ∧ BoundedLoop.run (freeStep m bp) n freep = some p := by
  have hkey : ∀ p ∈ freep :: rest, p.toNat ≠ bp.toNat := by
    intro p hp heq
    exact hbp (BitVec.eq_of_toNat_eq heq ▸ hp)
  obtain ⟨p, hp, hgap⟩ := hring.exists_gap BitVec.toNat hkey
  have hplace : place m bp p = true := by
    simp only [place, decide_eq_true_eq, gt_iff_lt, ge_iff_le, BitVec.lt_def, BitVec.le_def]
    exact hgap
  rw [freeStep_eq, run_walkStep hring _ ⟨p, hp, hplace⟩ hn]
  cases hfind : (freep :: rest).find? (place m bp) with
  | none =>
    have hno := List.find?_eq_none.mp hfind p hp
    exact absurd hplace hno
  | some q => exact ⟨q, List.mem_of_find?_eq_some hfind, List.find?_some hfind, rfl⟩

theorem advance_toNat {k : BitVec 32} (h : p.toNat + 8 * k.toNat < 2 ^ 32) :
    (advance p k).toNat = p.toNat + 8 * k.toNat := by
  simp only [advance, BitVec.toNat_add, BitVec.toNat_mul, BitVec.reduceToNat]
  omega

theorem Tiling.pos (T : Tiling fl m nodes live A) (hp : p ∈ nodes ++ live) : 0 < p.toNat := by
  have hh := T.header
  by_cases hpf : p = fl
  · rw [hpf]
    exact hh.1
  · have hbound := T.block_bound hp hpf
    omega

/-- The end of a block is an address only below the end of the address space, and 0 is not the
address of a header. -/
theorem Tiling.advance_eq_iff (T : Tiling fl m nodes live A) (hp : p ∈ nodes ++ live)
    (hq : 0 < q.toNat) : advance p (size m p) = q ↔ p.toNat + 8 * (size m p).toNat = q.toNat := by
  have hle : p.toNat + 8 * (size m p).toNat ≤ 2 ^ 32 := by
    by_cases hpf : p = fl
    · rw [hpf, T.freelist_size]
      exact Nat.le_of_lt fl.isLt
    · exact (T.block_bound hp hpf).2
  by_cases hlow : p.toNat + 8 * (size m p).toNat < 2 ^ 32
  · rw [← advance_toNat hlow, BitVec.toNat_inj]
  · have hlt := q.isLt
    have hzero : (advance p (size m p)).toNat = 0 := by
      simp only [advance, BitVec.toNat_add, BitVec.toNat_mul, BitVec.reduceToNat]
      omega
    refine iff_of_false (fun heq => ?_) fun heq => ?_
    · rw [heq] at hzero
      omega
    · omega

/-- A block that does not touch a later one ends below it. -/
theorem Tiling.end_lt (T : Tiling fl m nodes live A) (hp : p ∈ nodes ++ live)
    (hq : q ∈ nodes ++ live) (hqf : q ≠ fl) (hlt : p.toNat < q.toNat)
    (hend : advance p (size m p) ≠ q) : p.toNat + 8 * (size m p).toNat < q.toNat := by
  by_cases hpf : p = fl
  · rw [hpf] at hlt ⊢
    rw [T.freelist_size]
    simpa using hlt
  · have hpos := T.size_pos q hq hqf
    have hne : p ≠ q := fun heq => absurd hlt (by rw [heq]; exact lt_irrefl _)
    have hblocks := T.blocks_apart hp hq hne hpf hqf
    have hend' := mt (T.advance_eq_iff hp (T.pos hq)).mpr hend
    omega

/-- The header `a` takes over the size and the link of `b`. -/
def absorb (h : Heap σ) (a b : Ptr) : Heap σ :=
  (h.setSize a (size h.mem a + size h.mem b)).setLink a (link h.mem b)

section Absorb

variable {a b y : Ptr}

theorem link_absorb (h : Heap σ) (a b : Ptr) : link (absorb h a b).mem a = link h.mem b :=
  link_store_link _ _ _

theorem link_absorb_apart (hy : Apart a 8 y 8) : link (absorb h a b).mem y = link h.mem y :=
  (link_store_link_apart hy _).trans (link_store_size (.inr hy) _)

theorem size_absorb_apart (hy : Apart a 8 y 8) : size (absorb h a b).mem y = size h.mem y :=
  (size_store_link (.inr hy) _).trans (size_store_size_apart hy _)

theorem size_absorb (hlt : (size h.mem a).toNat + (size h.mem b).toNat < 2 ^ 32) :
    (size (absorb h a b).mem a).toNat = (size h.mem a).toNat + (size h.mem b).toNat := by
  have hsize : size (absorb h a b).mem a = size h.mem a + size h.mem b :=
    (size_store_link (.inl rfl) _).trans (Heap.size_setSize h a _)
  rw [hsize, BitVec.toNat_add]
  omega

theorem frame_absorb (h : Heap σ) (a b : Ptr) : Frame h (absorb h a b) [a, a + 4] :=
  (Frame.setSize h a _).trans (Frame.setLink _ _ _)

theorem Tiling.absorb (T : Tiling fl h.mem (a :: b :: nodes) live A) (ha : a ≠ fl) (hb : b ≠ fl)
    (hab : a.toNat + 8 * (size h.mem a).toNat = b.toNat)
    (hapart : ∀ y ∈ nodes ++ live, Apart a 8 y 8) :
    ∃ A', A.Step A' ∧ A'.owned = A.owned ∧ Tiling fl (absorb h a b).mem (a :: nodes) live A' := by
  have hbound := T.block_bound (p := b) (by simp) hb
  exact T.join ha hb hab (size_absorb (by omega)) fun y hy => size_absorb_apart (hapart y hy)

theorem joinUpper_touching (hU : advance bp (size h.mem bp) = link h.mem p) (hp : Apart bp 8 p 8)
    (hn : Apart bp 8 (link h.mem p) 8) : joinUpper h bp p = absorb h bp (link h.mem p) := by
  have h₁ : link (h.setSize bp (size h.mem bp + size h.mem (link h.mem p))).mem p = link h.mem p :=
    link_store_size (.inr hp) _
  have h₂ : link (h.setSize bp (size h.mem bp + size h.mem (link h.mem p))).mem (link h.mem p) =
      link h.mem (link h.mem p) := link_store_size (.inr hn) _
  simp only [joinUpper, hU, if_true, h₁, h₂, absorb]

theorem joinLower_touching (hD : advance p (size h.mem p) = bp) (hbp : Apart p 8 bp 8) :
    joinLower h bp p = absorb h p bp := by
  have h₁ : link (h.setSize p (size h.mem p + size h.mem bp)).mem bp = link h.mem bp :=
    link_store_size (.inr hbp) _
  simp only [joinLower, hD, if_true, h₁, absorb]

theorem joinUpper_far (hU : advance bp (size h.mem bp) ≠ link h.mem p) :
    joinUpper h bp p = h.setLink bp (link h.mem p) := by
  simp only [joinUpper, hU, if_false]

theorem joinLower_far (hD : advance p (size h.mem p) ≠ bp) : joinLower h bp p = h.setLink p bp := by
  simp only [joinLower, hD, if_false]

end Absorb

/-- The first half changes no header but that of `bp`. -/
theorem fields_joinUpper {y : Ptr} (hy : Apart bp 8 y 8) :
    link (joinUpper h bp p).mem y = link h.mem y ∧ size (joinUpper h bp p).mem y = size h.mem y := by
  simp only [joinUpper]
  split_ifs
  · exact ⟨(link_store_link_apart hy _).trans (link_store_size (.inr hy) _),
      (size_store_link (.inr hy) _).trans (size_store_size_apart hy _)⟩
  · exact ⟨link_store_link_apart hy _, size_store_link (.inr hy) _⟩

/-- The second half changes no header but that of `p`. -/
theorem fields_joinLower {y : Ptr} (hy : Apart p 8 y 8) :
    link (joinLower h bp p).mem y = link h.mem y ∧ size (joinLower h bp p).mem y = size h.mem y := by
  simp only [joinLower]
  split_ifs
  · exact ⟨(link_store_link_apart hy _).trans (link_store_size (.inr hy) _),
      (size_store_link (.inr hy) _).trans (size_store_size_apart hy _)⟩
  · exact ⟨link_store_link_apart hy _, size_store_link (.inr hy) _⟩

/-- Between the halves of the update the ring runs through `p` straight to what `bp` links to. -/
def Hanging (h : Heap σ) (p bp : Ptr) (t : List Ptr) : Prop :=
  IsRing (Function.update (link h.mem) p (link h.mem bp)) (p :: t) ∧ bp ∉ p :: t

/-- The first half takes `bp` back and joins it with the node behind `p` if they touch. -/
theorem joinUpper_spec (hring : IsRing (link h.mem) (p :: t))
    (T : Tiling fl h.mem (p :: t) (bp :: live) A) :
    ∃ t' A' ws, A.Steps A' ∧ A'.owned = A.owned ∧ Hanging (joinUpper h bp p) p bp t' ∧
      Tiling fl (joinUpper h bp p).mem (bp :: p :: t') live A' ∧ t' ⊆ t ∧
      Frame h (joinUpper h bp p) ws ∧ ∀ w ∈ ws, InHeader w bp := by
  have hnd := T.nodup hring.nodup
  have hbf : bp ≠ fl := fun heq => T.freelist_notMem (heq ▸ List.mem_cons_self)
  have hbn : bp ∉ p :: t := fun hm => (List.nodup_append.mp hnd).2.2 bp hm bp (by simp) rfl
  have hbl : bp ∉ live := (List.nodup_cons.mp (List.nodup_append.mp hnd).2.1).1
  have hbound := T.block_bound (p := bp) (by simp) hbf
  have hapart : ∀ y ∈ (p :: t) ++ live, Apart bp 8 y 8 := by
    intro y hy
    apply T.headers_apart (by simp) (List.perm_middle.mem_iff.mpr (List.mem_cons_of_mem _ hy))
    rintro rfl
    exact (List.mem_append.mp hy).elim hbn hbl
  obtain ⟨A₁, hstep₁, howned₁, T₁⟩ := T.release
  by_cases hU : advance bp (size h.mem bp) = link h.mem p
  · have hnpos := T.pos (List.mem_append_left (bp :: live) (hring.next_mem List.mem_cons_self))
    have hend := (T.advance_eq_iff (by simp) hnpos).mp hU
    have hnf : link h.mem p ≠ fl := by
      intro heq
      rw [heq] at hend
      omega
    obtain ⟨t, rfl⟩ := T.exists_pair hring hnf
    have hjoin := joinUpper_touching hU (hapart p (by simp)) (hapart _ (by simp))
    generalize link h.mem p = n at *
    have hkeep : ∀ y ∈ (p :: t) ++ live, Apart bp 8 y 8 := fun y hy =>
      hapart y (((List.Perm.swap p n t).append_right live).mem_iff.mp (List.mem_cons_of_mem _ hy))
    obtain ⟨A₂, hstep₂, howned₂, T₂⟩ :=
      (T₁.perm ((List.Perm.swap n p t).cons bp) (List.Perm.refl live)).absorb hbf hnf hend hkeep
    rw [hjoin]
    refine ⟨t, A₂, [bp, bp + 4], (Relation.ReflTransGen.single hstep₁).tail hstep₂,
      howned₂.trans howned₁, ⟨?_, ?_⟩, T₂, List.subset_cons_self n t, frame_absorb h bp n,
      by simp [InHeader]⟩
    · apply hring.remove
      · rw [Function.update_self, link_absorb]
      · intro y hy
        have hyp : y ≠ p := by
          rintro rfl
          simpa [hy] using hring.nodup
        rw [Function.update_of_ne hyp, link_absorb_apart (hkeep y (by simp [hy]))]
    · exact fun hm => hbn ((List.Perm.swap p n t).mem_iff.mp (List.mem_cons_of_mem _ hm))
  · have hsize : ∀ y ∈ (bp :: p :: t) ++ live,
        size (h.setLink bp (link h.mem p)).mem y = size h.mem y := by
      intro y hy
      apply size_store_link
      exact T.eq_or_headers_apart (by simp) (List.perm_middle.mem_iff.mpr hy)
    rw [joinUpper_far hU]
    refine ⟨t, A₁, [bp], .single hstep₁, howned₁, ⟨?_, hbn⟩, T₁.congr hsize, List.Subset.refl t,
      Frame.setLink h bp _, by simp [InHeader]⟩
    apply hring.congr
    intro y hy
    by_cases hyp : y = p
    · subst hyp
      rw [Function.update_self]
      exact link_store_link _ _ _
    · rw [Function.update_of_ne hyp]
      exact link_store_link_apart (hapart y (List.mem_append_left _ hy)) _

/-- The second half links the hanging header in behind `p`, or joins it with `p` if they touch. -/
theorem joinLower_spec (H : Hanging h p bp t) (T : Tiling fl h.mem (bp :: p :: t) live A)
    (hbf : bp ≠ fl) :
    ∃ t' A' ws, A.Steps A' ∧ A'.owned = A.owned ∧ IsRing (link (joinLower h bp p).mem) (p :: t') ∧
      Tiling fl (joinLower h bp p).mem (p :: t') live A' ∧ t' ⊆ bp :: t ∧
      Frame h (joinLower h bp p) ws ∧ ∀ w ∈ ws, InHeader w p := by
  obtain ⟨hring, hbn⟩ := H
  have Ts := T.perm (List.Perm.swap p bp t) (List.Perm.refl live)
  have hnd : (p :: bp :: t).Nodup :=
    (List.Perm.swap p bp t).nodup_iff.mp (List.nodup_cons.mpr ⟨hbn, hring.nodup⟩)
  have hpn : p ∉ bp :: (t ++ live) := (List.nodup_cons.mp (Ts.nodup hnd)).1
  have hapart : ∀ y ∈ bp :: (t ++ live), Apart p 8 y 8 := by
    intro y hy
    apply Ts.headers_apart (by simp) (List.mem_cons_of_mem _ hy)
    rintro rfl
    exact hpn hy
  have hpt : ∀ y ∈ t, y ≠ p := by
    rintro y hy rfl
    exact hpn (by simp [hy])
  by_cases hD : advance p (size h.mem p) = bp
  · have hpf : p ≠ fl := by
      rintro rfl
      have hzero : advance p (size h.mem p) = p := by simp [T.freelist_size, advance]
      exact hpn (by simp [← hD, hzero])
    have hend := (T.advance_eq_iff (by simp) (T.pos (by simp))).mp hD
    have hkeep : ∀ y ∈ t ++ live, Apart p 8 y 8 := fun y hy => hapart y (List.mem_cons_of_mem _ hy)
    obtain ⟨A', hstep, howned, T'⟩ := Ts.absorb hpf hbf hend hkeep
    rw [joinLower_touching hD (hapart bp (by simp))]
    refine ⟨t, A', [p, p + 4], .single hstep, howned, ?_, T', List.subset_cons_self bp t,
      frame_absorb h p bp, by simp [InHeader]⟩
    apply hring.congr
    intro y hy
    by_cases hyp : y = p
    · subst hyp
      rw [Function.update_self, link_absorb]
    · have hyt : y ∈ t := List.mem_of_ne_of_mem hyp hy
      rw [Function.update_of_ne hyp, link_absorb_apart (hkeep y (List.mem_append_left _ hyt))]
  · have hsize : ∀ y ∈ (p :: bp :: t) ++ live, size (h.setLink p bp).mem y = size h.mem y :=
      fun y hy => size_store_link (Ts.eq_or_headers_apart (by simp) hy) _
    rw [joinLower_far hD]
    refine ⟨bp :: t, A, [p], .refl, rfl, ?_, Ts.congr hsize, List.Subset.refl _,
      Frame.setLink h p bp, by simp [InHeader]⟩
    apply hring.insert hbn
    · exact link_store_link _ _ _
    · rw [Function.update_self]
      exact link_store_link_apart (hapart bp (by simp)) _
    · intro y hy
      rw [Function.update_of_ne (hpt y hy)]
      exact link_store_link_apart (hapart y (by simp [hy])) _

/-- A call with a live pointer links the block in behind the node at which the search leaves. -/
theorem Laid.free_eq {ptr : Ptr} {h' : Heap σ} {n : ℕ} (R : Laid fl h rest live A)
    (hptr : ptr ≠ 0) (hlive : ptr - 8 ∈ live) (hf : free n ptr h = some h') :
    ∃ p ∈ h.freep :: rest, place h.mem (ptr - 8) p ∧
      h' = { joinLower (joinUpper h (ptr - 8) p) (ptr - 8) p with freep := p } := by
  have hbn : ptr - 8 ∉ h.freep :: rest := R.notMem_list hlive
  obtain ⟨p, hp, hplace, hrun⟩ := run_freeStep R.ring hbn (Nat.le_refl _)
  refine ⟨p, hp, hplace, ?_⟩
  cases hrun' : BoundedLoop.run (freeStep h.mem (ptr - 8)) n h.freep with
  | none =>
    simp only [free, hptr, hrun', if_false] at hf
    cases hf
  | some p' =>
    obtain rfl := BoundedLoop.run_unique hrun' hrun
    simp only [free, hptr, hrun', if_false, Option.some.injEq] at hf
    exact hf.symm

/-- The block is back in the list, and only its header and the header of one free block have
changed. -/
theorem Laid.free_spec {ptr : Ptr} {h' : Heap σ} {n : ℕ} (R : Laid fl h rest live A)
    (hptr : ptr ≠ 0) (hlive : ptr - 8 ∈ live) (hf : free n ptr h = some h') :
    ∃ rest' A' ws, A.Steps A' ∧ A'.owned = A.owned ∧
      Laid fl h' rest' (live.erase (ptr - 8)) A' ∧
      h'.freep :: rest' ⊆ (ptr - 8) :: h.freep :: rest ∧ Frame h h' ws ∧ h'.sbrk = h.sbrk ∧
      ∀ w ∈ ws, (∃ p ∈ h.freep :: rest, InHeader w p) ∨ InHeader w (ptr - 8) := by
  obtain ⟨p, hp, -, rfl⟩ := R.free_eq hptr hlive hf
  generalize ptr - 8 = bp at *
  have T := R.tiling.perm (List.Perm.refl _) (List.perm_cons_erase hlive)
  obtain ⟨t, hrot, hring⟩ := R.ring.exists_cons hp
  have hbf : bp ≠ fl := fun heq => R.tiling.freelist_notMem (heq ▸ hlive)
  obtain ⟨t₁, A₁, ws₁, hsteps₁, howned₁, H, T₁, hsub₁, F₁, hw₁⟩ :=
    joinUpper_spec hring (T.perm hrot.perm.symm (List.Perm.refl _))
  obtain ⟨t₂, A₂, ws₂, hsteps₂, howned₂, hring₂, T₂, hsub₂, F₂, hw₂⟩ := joinLower_spec H T₁ hbf
  refine ⟨t₂, A₂, ws₂ ++ ws₁, hsteps₁.trans hsteps₂, howned₂.trans howned₁, ⟨hring₂, T₂⟩, ?_,
    (F₁.trans F₂).congr rfl rfl, ?_, fun w hw => ?_⟩
  · refine List.cons_subset.mpr ⟨List.mem_cons_of_mem _ hp, fun y hy => ?_⟩
    cases List.mem_cons.mp (hsub₂ hy) with
    | inl heq => exact heq ▸ List.mem_cons_self
    | inr hy =>
      have hyt := List.mem_cons_of_mem p (hsub₁ hy)
      exact List.mem_cons_of_mem _ (hrot.mem_iff.mp hyt)
  · simp only [joinLower, joinUpper]
    split_ifs <;> rfl
  · cases List.mem_append.mp hw with
    | inl hw =>
      exact .inl ⟨p, hp, hw₂ w hw⟩
    | inr hw =>
      exact .inr (hw₁ w hw)

theorem free_spec {ptr : Ptr} {h' : Heap σ} {n : ℕ} (R : Represents fl h rest live A)
    (hptr : ptr ≠ 0) (hlive : ptr - 8 ∈ live) (hf : free n ptr h = some h') :
    ∃ rest' A' ws, A.Steps A' ∧ A'.owned = A.owned ∧
      Represents fl h' rest' (live.erase (ptr - 8)) A' ∧
      h'.freep :: rest' ⊆ (ptr - 8) :: h.freep :: rest ∧ Frame h h' ws ∧ h'.sbrk = h.sbrk ∧
      ∀ w ∈ ws, (∃ p ∈ h.freep :: rest, InHeader w p) ∨ InHeader w (ptr - 8) := by
  obtain ⟨rest', A', ws, hsteps, howned, R', hfree⟩ := R.toLaid.free_spec hptr hlive hf
  exact ⟨rest', A', ws, hsteps, howned, ⟨R', fun e he => R.below e (howned ▸ he)⟩, hfree⟩

/-- From any ring of headers, in whatever order of addresses, the search for a header outside
it stops at a node within one lap, and the call returns. -/
theorem free_search_stops (hring : IsRing (link h.mem) (h.freep :: rest))
    (hbp : bp ∉ h.freep :: rest) :
    ∃ p ∈ h.freep :: rest, place h.mem bp p ∧ ∀ n, (h.freep :: rest).length ≤ n →
      BoundedLoop.run (freeStep h.mem bp) n h.freep = some p ∧
      (bp + 8 ≠ 0 → free n (bp + 8) h =
        some { joinLower (joinUpper h bp p) bp p with freep := p }) := by
  obtain ⟨p, hp, hplace, hrun⟩ := run_freeStep hring hbp (Nat.le_refl _)
  refine ⟨p, hp, hplace, fun n hn => ?_⟩
  have hrun' := BoundedLoop.run_mono hrun hn
  refine ⟨hrun', fun hptr => ?_⟩
  simp only [free, add_header_sub, hptr, if_false, hrun']

/-- A list of four headers that is not in the order of addresses from any of them on. -/
def unorderedHeap : Heap Unit where
  mem := store32 (store32 (store32 (store32 (fun _ => 0) 0x400 0x100) 0x100 0x300) 0x300 0x200)
    0x200 0x400
  freep := 0x400
  sbrk := ()
  writes := []

theorem free_search_stops_unorderedHeap :
    BoundedLoop.run (freeStep unorderedHeap.mem 0x380) 2 0x400 = none ∧
    BoundedLoop.run (freeStep unorderedHeap.mem 0x380) 4 0x400 = some 0x300 ∧
    (free 4 0x388 unorderedHeap).map Heap.freep = some 0x300 := by
  have hring : IsRing (link unorderedHeap.mem) (unorderedHeap.freep :: [0x100, 0x300, 0x200]) :=
    isRing_cons.mpr ⟨by decide, by decide⟩
  have hbp : (0x380 : Ptr) ∉ unorderedHeap.freep :: [0x100, 0x300, 0x200] := by decide
  obtain ⟨p, -, -, hstops⟩ := free_search_stops hring hbp
  obtain ⟨hrun, hfree⟩ := hstops 4 (Nat.le_refl 4)
  have hmoves : BoundedLoop.run (freeStep unorderedHeap.mem 0x380) 3 0x400 = some 0x300 := by decide
  obtain rfl : p = 0x300 := Option.some.inj (hrun.symm.trans (BoundedLoop.run_mono hmoves (by decide)))
  exact ⟨by decide, hrun, congrArg (Option.map Heap.freep) (hfree (by decide))⟩

theorem free_zero (n : ℕ) (h : Heap σ) : free n 0 h = some h := by
  simp only [free, if_true]

theorem free_returns {ptr : Ptr} {n : ℕ} (R : Represents fl h rest live A)
    (hlive : ptr - 8 ∈ live) (hn : rest.length + 1 ≤ n) : ∃ h', free n ptr h = some h' := by
  have hbn : ptr - 8 ∉ h.freep :: rest := R.notMem_list hlive
  obtain ⟨p, -, -, hrun⟩ := run_freeStep R.ring hbn (n := n) (by simpa using hn)
  by_cases hptr : ptr = 0
  · exact ⟨h, by simp [free, hptr]⟩
  · exact ⟨{ joinLower (joinUpper h (ptr - 8) p) (ptr - 8) p with freep := p },
      by simp only [free, hptr, if_false, hrun]⟩

end TinaOS.Malloc
