import TinaOS.Library.Allocator
import TinaOS.AllocatorWrites
import Mathlib.Tactic.SplitIfs

/-!
# The kernel's `malloc` as an allocator

Over an `sbrk` that answers with fresh regions, `malloc` meets the contract of an allocator:
callers may store in what they were given, which no later call changes.
-/

namespace TinaOS.Malloc

open ByteMemory Arenas Allocators LinkedRing

variable {fl : Ptr} {answer : SbrkLog → BitVec 32 → Ptr} {s : Machine} {rest nodes live : List Ptr}
  {A : Arena} {m m' : Mem} {h : Heap SbrkLog} {b : Block} {bs : List Block} {q : Ptr}

/-- A budget that no list of 32-bit pointers exhausts. -/
def enough : ℕ := 2 ^ 32 + 3

theorem length_le_of_nodup {l : List Ptr} (hl : l.Nodup) : l.length ≤ 2 ^ 32 := by
  have hmap : (l.map BitVec.toNat).Nodup := hl.map fun _ _ => BitVec.eq_of_toNat_eq
  have hsub : l.map BitVec.toNat ⊆ List.range (2 ^ 32) := by
    intro a ha
    obtain ⟨p, -, rfl⟩ := List.mem_map.mp ha
    exact List.mem_range.mpr p.isLt
  have hle := (List.subperm_of_subset hmap hsub).length_le
  rwa [List.length_map, List.length_range] at hle

/-- `malloc`, on memory and on the variables that are not memory. -/
def kernelMalloc (answer : SbrkLog → BitVec 32 → Ptr) : Allocator (Heap SbrkLog) := fun nbytes m h =>
  match malloc (oracle answer) enough nbytes { h with mem := m } with
  | none => (0, m, h)
  | some (r, h') => (r, h'.mem, h')

/-- In a sound state `malloc` returns, so the budget does not show. -/
theorem Sound.malloc_enough (S : Sound fl s rest A) (ha : Fair fl answer) {nbytes : BitVec 32}
    (hn : nbytes.toNat ≤ 2 ^ 31 - 16) :
    ∃ r h', malloc (oracle answer) enough nbytes s.heap = some (r, h') := by
  have hfresh := (ha.grows hn s.heap.sbrk).fresh S.owned
  apply malloc_returns S.represents (oracle_eq answer _ _) hfresh
  have hlen := length_le_of_nodup S.represents.ring.nodup
  rw [List.length_cons] at hlen
  rw [enough]
  omega

/-- The block is a live one, and its bytes fit behind the header. -/
structure Payload (fl : Ptr) (m : Mem) (b : Block) : Prop where
  above : fl.toNat + 8 ≤ (headerOf b.base).toNat
  room : b.len + 8 ≤ 8 * (size m (headerOf b.base)).toNat
  bound : (headerOf b.base).toNat + 8 * (size m (headerOf b.base)).toNat < 2 ^ 32

theorem Payload.base_toNat (P : Payload fl m b) :
    b.base.toNat = (headerOf b.base).toNat + 8 := by
  have hbase : headerOf b.base + 8 = b.base := BitVec.sub_add_cancel b.base 8
  have hroom := P.room
  have hbound := P.bound
  rw [← congrArg BitVec.toNat hbase, BitVec.toNat_add]
  simp only [BitVec.reduceToNat]
  omega

theorem Tiling.payload (T : Tiling fl m nodes live A) (hA : Below A) (hb : headerOf b.base ∈ live)
    (hroom : b.len + 8 ≤ 8 * (size m (headerOf b.base)).toNat) : Payload fl m b := by
  have hne : headerOf b.base ≠ fl := fun heq => T.freelist_notMem (heq ▸ hb)
  have hmem := List.mem_append_right nodes hb
  exact ⟨(T.block_bound hmem hne).1, hroom, T.end_lt_top hA hmem hne⟩

theorem Payload.within_iff (P : Payload fl m b) {x : Ptr} :
    b.Within x ↔ b.base.toNat ≤ x.toNat ∧ x.toNat < b.base.toNat + b.len := by
  have hx := x.isLt
  have hbase := P.base_toNat
  have hroom := P.room
  have hbound := P.bound
  simp only [Block.Within, BitVec.toNat_sub]
  omega

theorem Payload.mem_cells (P : Payload fl m b) {x : Ptr} (hx : b.Within x) :
    x.toNat ∈ (extent m (headerOf b.base)).cells := by
  have hbase := P.base_toNat
  have hroom := P.room
  have hx' := P.within_iff.mp hx
  simp only [Extent.mem_cells, extent]
  omega

theorem Tiling.header_outside (T : Tiling fl m nodes live A) (hA : Below A)
    (hb : headerOf b.base ∈ live) (hroom : b.len + 8 ≤ 8 * (size m (headerOf b.base)).toNat) (hq : q ∈ nodes ++ live) {i : ℕ}
    (hi : i < 8) : ¬ b.Within (q + BitVec.ofNat 32 i) := by
  have P := T.payload hA hb hroom
  have hmem : headerOf b.base ∈ nodes ++ live := List.mem_append_right nodes hb
  have hne : headerOf b.base ≠ fl := fun heq => T.freelist_notMem (heq ▸ hb)
  have hbase := P.base_toNat
  have hbound := P.bound
  by_cases heq : headerOf b.base = q
  · subst heq
    rw [P.within_iff, BitVec.toNat_add, BitVec.toNat_ofNat]
    omega
  · by_cases hlen : b.len = 0
    · rw [P.within_iff]
      omega
    · have hfoot : foot fl m (headerOf b.base) = 8 * (size m (headerOf b.base)).toNat := if_neg hne
      have hapart : Apart b.base b.len q 8 := T.inner_apart hmem hq heq (by omega) (by omega) (by
        rw [hfoot]
        omega)
      exact Nat.not_lt.mpr (hapart.outside hi)

theorem Tiling.payloads_disjoint (T : Tiling fl m nodes live A) (hA : Below A) {c : Block}
    (hb : headerOf b.base ∈ live) (hc : headerOf c.base ∈ live)
    (hne : headerOf b.base ≠ headerOf c.base)
    (hroom : b.len + 8 ≤ 8 * (size m (headerOf b.base)).toNat)
    (hroom' : c.len + 8 ≤ 8 * (size m (headerOf c.base)).toNat) {x : Ptr} (hx : b.Within x) :
    ¬ c.Within x := by
  have P := T.payload hA hb hroom
  have P' := T.payload hA hc hroom'
  have hbf : headerOf b.base ≠ fl := fun heq => T.freelist_notMem (heq ▸ hb)
  have hcf : headerOf c.base ≠ fl := fun heq => T.freelist_notMem (heq ▸ hc)
  have hapart := T.blocks_apart (List.mem_append_right nodes hb) (List.mem_append_right nodes hc)
    hne hbf hcf
  have hbase := P.base_toNat
  have hbase' := P'.base_toNat
  rw [P.within_iff] at hx
  rw [P'.within_iff]
  omega

theorem Sound.store (S : Sound fl ⟨{ h with mem := m }, live⟩ rest A)
    (hm : ∀ q ∈ (h.freep :: rest) ++ live.map headerOf, ∀ i < 8,
      m' (q + BitVec.ofNat 32 i) = m (q + BitVec.ofNat 32 i)) :
    Sound fl ⟨{ h with mem := m' }, live⟩ rest A ∧
      ∀ q ∈ (h.freep :: rest) ++ live.map headerOf, size m' q = size m q := by
  have hlink : ∀ q ∈ (h.freep :: rest) ++ live.map headerOf, link m' q = link m q :=
    fun q hq => load32_congr fun i hi => hm q hq i (by omega)
  have hsize : ∀ q ∈ (h.freep :: rest) ++ live.map headerOf, size m' q = size m q := by
    intro q hq
    apply load32_congr
    intro i hi
    have h4 := hm q hq (4 + i) (by omega)
    rwa [← offset_offset] at h4
  refine ⟨⟨⟨⟨?_, ?_⟩, S.represents.below⟩, S.owned, S.zero_notMem⟩, hsize⟩
  · exact S.represents.ring.congr fun q hq => hlink q (List.mem_append_left _ hq)
  · exact S.represents.tiling.congr hsize

/-- The blocks are the live ones of a sound state, each with room for its bytes. -/
structure GivenOut (fl : Ptr) (bs : List Block) (m : Mem) (h : Heap SbrkLog) : Prop where
  sound : ∃ rest A, Sound fl ⟨{ h with mem := m }, bs.map Block.base⟩ rest A
  room : ∀ b ∈ bs, b.len + 8 ≤ 8 * (size m (headerOf b.base)).toNat

theorem headerOf_mem (hb : b ∈ bs) : headerOf b.base ∈ (bs.map Block.base).map headerOf :=
  List.mem_map_of_mem (List.mem_map_of_mem hb)

theorem givenOut_boot (hb : Boot fl ⟨h, []⟩) : GivenOut fl [] h.mem h :=
  ⟨⟨[], _, sound_boot hb⟩, by simp⟩

theorem GivenOut.disjoint (G : GivenOut fl bs m h) :
    bs.Pairwise fun b c => ∀ x, b.Within x → ¬ c.Within x := by
  obtain ⟨⟨rest, A, S⟩, hroom⟩ := G
  have hnd : (bs.map Block.base).Nodup := S.live_nodup
  rw [List.Nodup, List.pairwise_map] at hnd
  refine hnd.imp_of_mem fun {b c} hb hc hne x hx => ?_
  have hne' : headerOf b.base ≠ headerOf c.base := fun heq => hne (headerOf_injective heq)
  exact S.represents.tiling.payloads_disjoint S.represents.below (headerOf_mem hb) (headerOf_mem hc) hne'
    (hroom b hb) (hroom c hc) hx

theorem GivenOut.store (G : GivenOut fl bs m h)
    (hm : ∀ x, (∀ b ∈ bs, ¬ b.Within x) → m' x = m x) : GivenOut fl bs m' h := by
  obtain ⟨⟨rest, A, S⟩, hroom⟩ := G
  obtain ⟨S', hsize⟩ := S.store fun q hq i hi => hm _ fun b hb =>
    S.represents.tiling.header_outside S.represents.below (headerOf_mem hb) (hroom b hb) hq hi
  refine ⟨⟨rest, A, S'⟩, fun b hb => ?_⟩
  rw [hsize _ (List.mem_append_right _ (headerOf_mem hb))]
  exact hroom b hb

/-- What a call does to a sound state: it is refused, or it makes a block of the units asked for
live. -/
theorem Sound.malloc_cases (S : Sound fl s rest A) {nbytes : BitVec 32}
    (hg : Grows fl answer s.heap.sbrk nbytes) {fuel : ℕ} {r : Ptr} {h' : Heap SbrkLog}
    (hm : malloc (oracle answer) fuel nbytes s.heap = some (r, h')) :
    (∃ rest' A', Sound fl ⟨h', if r = 0 then s.live else r :: s.live⟩ rest' A') ∧
      (∀ q ∈ s.live.map headerOf, size h'.mem q = size s.heap.mem q) ∧
      (r ≠ 0 → size h'.mem (headerOf r) = units nbytes) := by
  have hexec : exec answer fuel s (.malloc nbytes) =
      some ⟨h', if r = 0 then s.live else r :: s.live⟩ := by rw [exec, hm, Option.map_some]
  obtain ⟨rest', A', -, S'⟩ := S.call_malloc hg hexec
  refine ⟨⟨rest', A', S'⟩, ?_⟩
  rcases malloc_spec S.represents (oracle_eq answer _ _) (hg.fresh S.owned) hm with
    ⟨A'', V, -, -⟩ | ⟨-, rfl, rfl⟩ | ⟨-, A'', V, -, -⟩
  · exact ⟨V.sizes, fun _ => V.size_eq⟩
  · exact ⟨fun _ _ => rfl, fun hz => absurd rfl hz⟩
  · exact ⟨V.sizes, fun _ => V.size_eq⟩

theorem GivenOut.keeps (G : GivenOut fl bs m h) (ha : Fair fl answer) {nbytes : BitVec 32}
    (hn : nbytes.toNat ≤ 2 ^ 31 - 16) {fuel : ℕ} {r : Ptr} {h' : Heap SbrkLog}
    (hm : malloc (oracle answer) fuel nbytes { h with mem := m } = some (r, h')) (hb : b ∈ bs)
    {x : Ptr} (hx : b.Within x) : h'.mem x = m x := by
  obtain ⟨⟨rest, A, S⟩, hroom⟩ := G
  have hexec : exec answer fuel ⟨{ h with mem := m }, bs.map Block.base⟩ (.malloc nbytes) =
      some ⟨h', if r = 0 then bs.map Block.base else r :: bs.map Block.base⟩ := by
    rw [exec, hm, Option.map_some]
  obtain ⟨ws, hconfined⟩ := confined_malloc S (ha.grows hn _) hexec
  have hlive : b.base ∈ bs.map Block.base := List.mem_map_of_mem hb
  have hlive' : b.base ∈ if r = 0 then bs.map Block.base else r :: bs.map Block.base := by
    split_ifs
    · exact hlive
    · exact List.mem_cons_of_mem r hlive
  have P := S.represents.tiling.payload S.represents.below (headerOf_mem hb) (hroom b hb)
  exact hconfined.block_eq hlive hlive' (P.mem_cells hx)

theorem GivenOut.kernelMalloc_eq (G : GivenOut fl bs m h) (ha : Fair fl answer)
    {nbytes : BitVec 32} (hn : nbytes.toNat ≤ 2 ^ 31 - 16) {r : Ptr} {h' : Heap SbrkLog}
    (hcall : kernelMalloc answer nbytes m h = (r, m', h')) :
    malloc (oracle answer) enough nbytes { h with mem := m } = some (r, h') ∧ h'.mem = m' := by
  obtain ⟨⟨rest, A, S⟩, -⟩ := G
  obtain ⟨r', h'', hm⟩ := S.malloc_enough ha hn
  rw [kernelMalloc, hm] at hcall
  obtain ⟨rfl, rfl, rfl⟩ : r' = r ∧ h''.mem = m' ∧ h'' = h' := by simpa using hcall
  exact ⟨hm, rfl⟩

/-- `malloc` meets the contract, for requests up to `2 ^ 31 - 16` bytes. -/
theorem kernelMalloc_contract (ha : Honest fl answer) :
    Contract (kernelMalloc answer) (2 ^ 31 - 16) (GivenOut fl) := by
  constructor
  case disjoint => exact fun G => G.disjoint
  case store => exact fun G hm => G.store hm
  case refuse =>
    intro bs m h n m' h' G hn hcall
    obtain ⟨hm, rfl⟩ := G.kernelMalloc_eq ha.fair hn hcall
    obtain ⟨⟨rest, A, S⟩, hroom⟩ := G
    obtain ⟨⟨rest', A', S'⟩, hsizes, -⟩ := S.malloc_cases (ha.fair.grows hn _) hm
    rw [if_pos rfl] at S'
    refine ⟨⟨rest', A', S'⟩, fun b hb => ?_⟩
    rw [hsizes _ (headerOf_mem hb)]
    exact hroom b hb
  case serve =>
    intro bs m h n r m' h' G hn hcall hr
    obtain ⟨hm, rfl⟩ := G.kernelMalloc_eq ha.fair hn hcall
    obtain ⟨⟨rest, A, S⟩, hroom⟩ := G
    obtain ⟨⟨rest', A', S'⟩, hsizes, hsize⟩ := S.malloc_cases (ha.fair.grows hn _) hm
    rw [if_neg hr] at S'
    refine ⟨⟨rest', A', S'⟩, fun b hb => ?_⟩
    rcases List.mem_cons.mp hb with rfl | hb
    · simp only [hsize hr, units_toNat hn]
      omega
    · rw [hsizes _ (headerOf_mem hb)]
      exact hroom b hb
  case keeps =>
    intro bs m h n r m' h' G hn hcall b hb x hx
    obtain ⟨hm, rfl⟩ := G.kernelMalloc_eq ha.fair hn hcall
    exact G.keeps ha.fair hn hm hb hx

end TinaOS.Malloc
