import TinaOS.AllocatorContract
import TinaOS.FreeOrder

/-!
# `calloc`

`calloc` of `sys/memory.c` multiplies in 32 bits and asks `malloc` for the product, then fills
what `malloc` answered, a block or 0. `memset` takes a pointer to the byte that it fills with,
and gets the null pointer for it: the first round of its loop ends the run in a trap.
-/

namespace TinaOS.Malloc

open ByteMemory Arenas Allocators LinkedRing

variable {σ : Type*}

/-- What ends a run before it returns. -/
inductive Trap where
  | nullPointer
  deriving DecidableEq

/-- The byte at `p`. The kernel is built with `-O2`, which puts a trap in the place of a load
through the null pointer. -/
def load (m : Mem) (p : Ptr) : Except Trap (BitVec 8) :=
  if p = 0 then .error .nullPointer else .ok (m p)

/-- The loop of `memset`, which reads `*value` again in every round. -/
def memsetLoop (value : Ptr) : ℕ → Ptr → Mem → Except Trap Mem
  | 0, _, m => .ok m
  | n + 1, tmp, m =>
    match load m value with
    | .error trap => .error trap
    | .ok c => memsetLoop value n (tmp + 1) (Function.update m tmp c)

/-- `memset`. The `int` `n` counts down to 0, from a negative one round the end of its range. -/
def memset (m : Mem) (dst value : Ptr) (n : BitVec 32) : Except Trap Mem :=
  memsetLoop value n.toNat dst m

/-- `calloc` within a budget for `malloc`: it returns, or it ends in a trap. -/
def calloc (sbrk : BitVec 32 → σ → Ptr × σ) (fuel : ℕ) (number size : BitVec 32) (h : Heap σ) :
    Option (Except Trap (Ptr × Heap σ)) :=
  (malloc sbrk fuel (number * size) h).map fun (ptr, h) =>
    (memset h.mem ptr 0 (number * size)).map fun mem => (ptr, { h with mem })

/-- The byte at `x` belongs to the header of a free or of a live block. -/
def HeaderByte (s : Machine) (x : Ptr) : Prop :=
  ∃ p, (FreeNode s.heap p ∨ p ∈ s.live.map headerOf) ∧ (x - p).toNat < 8

/-- A free block is large enough, or `sbrk` gives a region. -/
def CanServe (answer : SbrkLog → BitVec 32 → Ptr) (s : Machine) (nbytes : BitVec 32) : Prop :=
  (∃ b, FreeNode s.heap b ∧ units nbytes ≤ size s.heap.mem b) ∨
    answer s.heap.sbrk (growth (units nbytes) * 8) ≠ -1

/-- What `calloc` is for. The product of `number` and `bytes` is one of numbers. -/
structure Clears (fl : Ptr) (answer : SbrkLog → BitVec 32 → Ptr) (number bytes : BitVec 32)
    (s : Machine) : Prop where
  returns : ∃ fuel r h', calloc (oracle answer) fuel number bytes s.heap = some (.ok (r, h'))
  served : ∀ fuel r h', calloc (oracle answer) fuel number bytes s.heap = some (.ok (r, h')) → r ≠ 0 →
    (∃ rest A, Sound fl ⟨h', r :: s.live⟩ rest A) ∧
    number.toNat * bytes.toNat + 8 ≤ 8 * (size h'.mem (headerOf r)).toNat ∧
    (∀ i < number.toNat * bytes.toNat, h'.mem (r + BitVec.ofNat 32 i) = 0) ∧
    ∀ x, h'.mem x ≠ s.heap.mem x →
      (x - r).toNat < number.toNat * bytes.toNat ∨ HeaderByte ⟨h', r :: s.live⟩ x
  refused : ∀ fuel h₁, malloc (oracle answer) fuel (number * bytes) s.heap = some (0, h₁) →
    ∃ h', calloc (oracle answer) fuel number bytes s.heap = some (.ok (0, h')) ∧
      ∀ x, h'.mem x ≠ s.heap.mem x → HeaderByte s x

variable {fl : Ptr} {answer : SbrkLog → BitVec 32 → Ptr} {s : Machine} {rest : List Ptr} {A : Arena}
  {h h' : Heap SbrkLog} {r p x : Ptr} {nbytes number bytes : BitVec 32} {fuel : ℕ} {m : Mem}

/-- Through the null pointer `memset` returns only if it has nothing to do. -/
theorem memset_null (m : Mem) (dst : Ptr) (n : BitVec 32) :
    memset m dst 0 n = if n = 0 then .ok m else .error .nullPointer := by
  split_ifs with hn
  · rw [hn]
    rfl
  · obtain ⟨k, hk⟩ := Nat.exists_eq_succ_of_ne_zero fun h0 => hn (BitVec.eq_of_toNat_eq h0)
    rw [memset, hk]
    rfl

/-- A product other than 0 ends the call in a trap. -/
theorem calloc_eq (hm : malloc (oracle answer) fuel (number * bytes) h = some (r, h')) :
    calloc (oracle answer) fuel number bytes h =
      some (if number * bytes = 0 then .ok (r, h') else .error .nullPointer) := by
  simp only [calloc, hm, Option.map_some, memset_null]
  split_ifs <;> rfl

theorem calloc_eq_ok (hc : calloc (oracle answer) fuel number bytes h = some (.ok (r, h'))) :
    number * bytes = 0 ∧ malloc (oracle answer) fuel (number * bytes) h = some (r, h') := by
  rcases hm : malloc (oracle answer) fuel (number * bytes) h with - | ⟨r', h₁⟩
  · rw [calloc, hm] at hc
    exact nomatch hc
  · rw [calloc_eq hm] at hc
    split_ifs at hc with hzero
    · obtain ⟨rfl, rfl⟩ := Prod.mk.inj (Except.ok.inj (Option.some.inj hc))
      exact ⟨hzero, rfl⟩
    · exact nomatch hc

theorem Sound.freeNode_iff (S : Sound fl s rest A) :
    FreeNode s.heap p ↔ p ∈ s.heap.freep :: rest := by
  refine ⟨?_, S.freeNode⟩
  rintro ⟨k, rfl⟩
  exact S.represents.ring.iterate_mem List.mem_cons_self k

theorem Sound.headerByte_iff (S : Sound fl s rest A) : HeaderByte s x ↔
    ∃ p ∈ (s.heap.freep :: rest) ++ s.live.map headerOf, (x - p).toNat < 8 := by
  simp only [HeaderByte, S.freeNode_iff, List.mem_append]

/-- No header lies at address 0. -/
theorem Sound.not_headerByte_zero (S : Sound fl s rest A) : ¬ HeaderByte s 0 := by
  rw [S.headerByte_iff]
  rintro ⟨p, hp, hlt⟩
  have T := S.represents.tiling
  have hfoot := T.foot_bound hp
  have hpos : 0 < p.toNat := by
    by_cases hpf : p = fl
    · rw [hpf]
      exact T.header.1
    · have hbound := T.block_bound hp hpf
      omega
  rw [BitVec.toNat_sub] at hlt
  simp only [BitVec.reduceToNat] at hlt
  omega

/-- A call returns 0 exactly if it cannot be served. -/
theorem Sound.refused_iff (S : Sound fl s rest A) (hg : Grows fl answer s.heap.sbrk nbytes)
    (hm : malloc (oracle answer) fuel nbytes s.heap = some (r, h')) :
    r = 0 ↔ ¬ CanServe answer s nbytes := by
  have hfit : (∃ b, FreeNode s.heap b ∧ units nbytes ≤ size s.heap.mem b) ↔
      (s.heap.freep :: rest).find? (fits s.heap.mem (units nbytes)) ≠ none := by
    rw [ne_eq, ← S.noFit_iff]
    push Not
    simp only [BitVec.not_lt]
  rw [malloc_eq_zero_iff S.represents (oracle_eq answer _ _) (hg.fresh S.owned) hm, CanServe, hfit]
  simp only [ne_eq, not_or, not_not]

/-- Every block of the list is still in it, or has been handed out. -/
theorem Takes.kept {sz : BitVec 32} {nodes : List Ptr} {b y : Ptr} (V : Takes sz h h' nodes b r)
    (hy : y ∈ nodes) : FreeNode h' y ∨ y = headerOf r := by
  obtain ⟨t, hrot, hring⟩ := V.list
  have hy' : y ∈ h'.freep :: b :: t := hrot.mem_iff.mpr hy
  by_cases hsz : size h.mem b = sz
  · rw [if_pos hsz] at hring
    by_cases hyb : y = b
    · right
      have hplace := V.place
      have hlt := r.isLt
      apply BitVec.eq_of_toNat_eq
      rw [hsz] at hplace
      rw [hyb, headerOf, BitVec.toNat_sub]
      simp only [BitVec.reduceToNat]
      omega
    · rw [List.mem_cons, List.mem_cons, or_iff_right hyb, ← List.mem_cons] at hy'
      exact .inl (hring.exists_iterate hy')
  · rw [if_neg hsz] at hring
    exact .inl (hring.exists_iterate hy')

theorem InHeader.byte {w : Ptr} (hw : InHeader w p) (hx : (x - w).toNat < 4) :
    (x - p).toNat < 8 := by
  rcases hw with rfl | rfl
  · omega
  · have hp := p.isLt
    simp only [BitVec.toNat_sub, BitVec.toNat_add, BitVec.reduceToNat] at *
    omega

theorem Served.headerByte {sz : BitVec 32} {nodes live : List Ptr} {A' : Arena}
    (V : Served fl sz h h' nodes live A A' r) (ptrs : List Ptr)
    (hkept : ∀ y ∈ nodes, FreeNode h' y ∨ y = headerOf r) (hx : h'.mem x ≠ h.mem x) :
    HeaderByte ⟨h', r :: ptrs⟩ x := by
  obtain ⟨ws, F, hloc⟩ := V.frame
  have hnew : headerOf r ∈ (r :: ptrs).map headerOf := List.mem_cons_self
  by_contra hno
  apply hx
  apply F.outside x
  intro w hw
  by_contra hin
  have hin' : (x - w).toNat < 4 := by omega
  apply hno
  rcases hloc w hw with ⟨p, hp, hwp⟩ | hwr
  · rcases hkept p hp with hfree | rfl
    · exact ⟨p, .inl hfree, hwp.byte hin'⟩
    · exact ⟨_, .inr hnew, hwp.byte hin'⟩
  · exact ⟨_, .inr hnew, hwr.byte hin'⟩

/-- A call that returns a block writes only into headers that there are afterwards. -/
theorem Sound.malloc_headerByte (S : Sound fl s rest A) (hg : Grows fl answer s.heap.sbrk nbytes)
    (hm : malloc (oracle answer) fuel nbytes s.heap = some (r, h')) (hr : r ≠ 0)
    (hx : h'.mem x ≠ s.heap.mem x) : HeaderByte ⟨h', r :: s.live⟩ x := by
  have R := S.represents
  have hfresh := hg.fresh S.owned
  have hanswer := oracle_eq answer (growth (units nbytes) * 8) s.heap.sbrk
  have hsearched : ∀ y ∈ s.heap.freep :: rest, y ∈ searched s.heap rest := fun y hy =>
    (searched_isRotated s.heap rest).mem_iff.mp hy
  rcases malloc_outcome R hanswer hfresh hm with
    ⟨q, hq, htake⟩ | ⟨-, ⟨-, hz, -⟩ | ⟨-, T, -⟩⟩
  · have hmem := List.mem_of_find?_eq_some hq
    have hfit := List.find?_some hq
    obtain ⟨A', V, -⟩ := take_spec R hmem (units_pos nbytes) hfit htake
    have T := take_takes R hmem (units_pos nbytes) hfit htake
    exact V.headerByte s.live (fun y hy => T.kept (hsearched y hy)) hx
  · exact absurd hz hr
  · have hlist : ∀ y ∈ s.heap.freep :: rest, FreeNode h' y ∨ y = headerOf r := fun y hy =>
      T.kept (List.mem_cons_of_mem _ (hsearched y hy))
    rcases malloc_spec R hanswer hfresh hm with ⟨A', V, -⟩ | ⟨-, hz, -⟩ | ⟨-, A', V, -⟩
    · exact V.headerByte s.live hlist hx
    · exact absurd hz hr
    · exact V.headerByte s.live
        (List.forall_mem_cons.mpr ⟨T.kept List.mem_cons_self, hlist⟩) hx

theorem Sound.malloc_block (S : Sound fl s rest A) (hg : Grows fl answer s.heap.sbrk nbytes)
    (hm : malloc (oracle answer) fuel nbytes s.heap = some (r, h')) (hr : r ≠ 0) :
    (∃ rest' A', Sound fl ⟨h', r :: s.live⟩ rest' A') ∧
      size h'.mem (headerOf r) = units nbytes := by
  obtain ⟨⟨rest', A', S'⟩, -, hsize⟩ := S.malloc_cases hg hm
  rw [if_neg hr] at S'
  exact ⟨⟨rest', A', S'⟩, hsize hr⟩

theorem Sound.malloc_refused (S : Sound fl s rest A) (hg : Grows fl answer s.heap.sbrk nbytes)
    (hm : malloc (oracle answer) fuel nbytes s.heap = some (0, h')) : h'.mem = s.heap.mem := by
  rcases malloc_spec S.represents (oracle_eq answer _ _) (hg.fresh S.owned) hm with
    ⟨A', V, -⟩ | ⟨-, -, rfl⟩ | ⟨-, A', V, -⟩
  · exact absurd rfl V.ne_zero
  · rfl
  · exact absurd rfl V.ne_zero

/-- Bytes stored in the payload of a live block leave the state sound and its headers in place. -/
theorem Sound.inPayload {live : List Ptr} (S : Sound fl ⟨h, r :: live⟩ rest A) {k : ℕ}
    (hroom : k + 8 ≤ 8 * (size h.mem (headerOf r)).toNat) {m : Mem}
    (hm : ∀ x, k ≤ (x - r).toNat → m x = h.mem x) :
    Sound fl ⟨{ h with mem := m }, r :: live⟩ rest A ∧
      size m (headerOf r) = size h.mem (headerOf r) ∧
      ∀ x, HeaderByte ⟨{ h with mem := m }, r :: live⟩ x ↔ HeaderByte ⟨h, r :: live⟩ x := by
  have hlive : headerOf (Block.base ⟨r, k⟩) ∈ (r :: live).map headerOf := List.mem_cons_self
  have hsame : ∀ q ∈ (h.freep :: rest) ++ (r :: live).map headerOf, ∀ i < 8,
      m (q + BitVec.ofNat 32 i) = h.mem (q + BitVec.ofNat 32 i) :=
    fun q hq i hi => hm _
      (Nat.not_lt.mp (S.represents.tiling.header_outside S.represents.below hlive hroom hq hi))
  obtain ⟨S', hsize⟩ := S.store (h := h) (m := h.mem) hsame
  refine ⟨S', hsize _ (List.mem_append_right _ hlive), fun x => ?_⟩
  rw [S.headerByte_iff, S'.headerByte_iff]

theorem Sound.fill {live : List Ptr} (S : Sound fl ⟨h, r :: live⟩ rest A) {k : ℕ}
    (hroom : k + 8 ≤ 8 * (size h.mem (headerOf r)).toNat) (f : ℕ → BitVec 8) :
    Sound fl ⟨{ h with mem := writeBytes h.mem r k f }, r :: live⟩ rest A ∧
      size (writeBytes h.mem r k f) (headerOf r) = size h.mem (headerOf r) ∧
      ∀ x, HeaderByte ⟨h, r :: live⟩ x →
        HeaderByte ⟨{ h with mem := writeBytes h.mem r k f }, r :: live⟩ x := by
  obtain ⟨S', hsize, hheaders⟩ := S.inPayload hroom fun x hx => writeBytes_outside f hx
  exact ⟨S', hsize, fun x => (hheaders x).mpr⟩

theorem Clears.product (C : Clears fl answer number bytes s) (ha : Fair fl answer)
    (S : Sound fl s rest A) :
    number * bytes = 0 ∧ (CanServe answer s 0 → number.toNat * bytes.toNat = 0) := by
  obtain ⟨fuel, r, h', hc⟩ := C.returns
  obtain ⟨hzero, hm⟩ := calloc_eq_ok hc
  have hg : Grows fl answer s.heap.sbrk 0 := ha.grows (Nat.zero_le _) s.heap.sbrk
  rw [hzero] at hm
  refine ⟨hzero, fun hcan => ?_⟩
  have hr : r ≠ 0 := fun hz => (S.refused_iff hg hm).mp hz hcan
  have hroom := (C.served _ _ _ hc hr).2.1
  -- A request for no bytes gets one unit, which its header fills.
  have hunits : (units 0).toNat = 1 := by decide
  rw [(S.malloc_block hg hm hr).2] at hroom
  omega

/-- `calloc` clears its block and nothing else exactly if the product in 32 bits is 0, and, where
a block without payload can be had, the product of the numbers is 0 as well. -/
theorem clears_iff (ha : Fair fl answer) (S : Sound fl s rest A) (number bytes : BitVec 32) :
    Clears fl answer number bytes s ↔
      number * bytes = 0 ∧ (CanServe answer s 0 → number.toNat * bytes.toNat = 0) := by
  refine ⟨fun C => C.product ha S, ?_⟩
  rintro ⟨hzero, hcan⟩
  have hg : Grows fl answer s.heap.sbrk 0 := ha.grows (Nat.zero_le _) s.heap.sbrk
  constructor
  case returns =>
    obtain ⟨r, h', hm⟩ := malloc_returns S.represents (oracle_eq answer _ _) (hg.fresh S.owned)
      (Nat.le_refl _)
    rw [← hzero] at hm
    refine ⟨_, r, h', (calloc_eq hm).trans ?_⟩
    rw [if_pos hzero]
  case served =>
    intro fuel r h' hc hr
    obtain ⟨-, hm⟩ := calloc_eq_ok hc
    rw [hzero] at hm
    have hnone : number.toNat * bytes.toNat = 0 :=
      hcan (not_not.mp fun hno => hr ((S.refused_iff hg hm).mpr hno))
    obtain ⟨hsound, hsize⟩ := S.malloc_block hg hm hr
    have hunits : (units 0).toNat = 1 := by decide
    rw [hnone, hsize]
    refine ⟨hsound, by omega, fun i hi => absurd hi i.not_lt_zero, fun x hx => ?_⟩
    exact .inr (S.malloc_headerByte hg hm hr hx)
  case refused =>
    intro fuel h₁ hm
    refine ⟨h₁, ?_, fun x hx => ?_⟩
    · rw [calloc_eq hm, if_pos hzero]
    · rw [hzero] at hm
      rw [S.malloc_refused hg hm] at hx
      exact absurd rfl hx

theorem clears_iff_bootMachine : Clears 16 onceAnswer 0 5 bootMachine := by
  have ha := honest_onceAnswer.fair
  exact (clears_iff ha (sound_boot boot_bootMachine) 0 5).mpr ⟨by decide, fun _ => by decide⟩

/-- 10 times 10 bytes end in a trap, where a block can be had; `2 ^ 16` times `2 ^ 16` bytes get a
block without payload; and where no block can be had, 100000 bytes end in a trap as well. -/
theorem not_clears : Fair 16 onceAnswer ∧ Boot 16 bootMachine ∧
    CanServe onceAnswer bootMachine (10 * 10) ∧ ¬ Clears 16 onceAnswer 10 10 bootMachine ∧
    ¬ Clears 16 onceAnswer 0x10000 0x10000 bootMachine ∧
    ¬ CanServe onceAnswer bootMachine (100000 * 1) ∧
    ¬ Clears 16 onceAnswer 100000 1 bootMachine := by
  have ha := honest_onceAnswer.fair
  have S := sound_boot boot_bootMachine
  have htrap : ∀ number bytes : BitVec 32, number * bytes ≠ 0 →
      ¬ Clears 16 onceAnswer number bytes bootMachine := by
    intro number bytes hne C
    exact hne (C.product ha S).1
  have hgiven : CanServe onceAnswer bootMachine (10 * 10) := .inr (by decide)
  have hgiven' : CanServe onceAnswer bootMachine 0 := .inr (by decide)
  refine ⟨ha, boot_bootMachine, hgiven, htrap 10 10 (by decide), fun C => ?_, ?_,
    htrap 100000 1 (by decide)⟩
  · have hnone := (C.product ha S).2 hgiven'
    exact absurd hnone (by decide)
  · rintro (⟨b, hb, hfit⟩ | hgiven)
    · obtain rfl : b = 16 := List.mem_singleton.mp (S.freeNode_iff.mp hb)
      revert hfit
      decide
    · exact hgiven (by decide)

end TinaOS.Malloc
