import TinaOS.AllocatorRuns

/-!
# The words that a call writes

`malloc` and `free` store into headers only, none of which lies in a block that stays live. This
holds also where a region of `sbrk` ends with the address space. The block that `malloc(0)` takes
from its end has its payload at address 0, and is lost when the pointer to it is returned.
-/

namespace TinaOS.Malloc

open ByteMemory Arenas LinkedRing

variable {fl : Ptr} {answer : SbrkLog → BitVec 32 → Ptr} {s s' : Machine} {rest lost : List Ptr}
  {A : Arena}

/-- No byte of the block with header `b` lies in the header at `p`. -/
def Clear (m : Mem) (b p : Ptr) : Prop := ∀ a : Ptr, a.toNat ∈ (extent m b).cells → Apart a 1 p 8

section Clear

variable {σ : Type*} {h h' : Heap σ} {m : Mem} {nodes live ws : List Ptr} {A' : Arena} {b q : Ptr}

theorem Clear.congr {m' : Mem} (hc : Clear m b q) (hsize : size m' b = size m b) :
    Clear m' b q := fun a ha => hc a (extent_congr hsize ▸ ha)

theorem Tiling.clear (T : Tiling fl m nodes live A) (hb : b ∈ live) (hq : q ∈ nodes ++ live)
    (hne : b ≠ q) : Clear m b q := by
  intro a ha
  have hbf : b ≠ fl := fun h => T.freelist_notMem (h ▸ hb)
  have hfoot : foot fl m b = 8 * (size m b).toNat := if_neg hbf
  have hmem := Extent.mem_cells.mp ha
  simp only [extent] at hmem
  exact T.inner_apart (List.mem_append_right _ hb) hq hne (by omega) hmem.1 (by omega)

theorem FreshToEnd.clear {r : Ptr} {n : ℕ} (F : FreshToEnd fl A.owned r n) (hn : 8 ≤ n)
    (T : Tiling fl m nodes live A) (hb : b ∈ live) : Clear m b r := by
  intro a ha
  have hw := F.noWrap
  have hlt := a.isLt
  obtain ⟨e, he, hae⟩ := A.owned_of_mem (T.extent_mem (List.mem_append_right _ hb)) ha
  have hnot : a.toNat ∉ Extent.cells ⟨r.toNat, n⟩ := fun hr =>
    Multiset.disjoint_left.mp (F.disjoint e he) hr hae
  simp only [Extent.mem_cells, not_and, not_lt] at hnot
  exact apart_of_le (by omega) (by omega) (by omega) (by omega) (by omega)

theorem Frame.block_eq (F : Frame h h' ws)
    (hws : ∀ w ∈ ws, ∃ p, InHeader w p ∧ Clear h.mem b p) {a : Ptr}
    (ha : a.toNat ∈ (extent h.mem b).cells) : h'.mem a = h.mem a := by
  apply F.outside a
  intro w hw
  obtain ⟨p, hwp, hclear⟩ := hws w hw
  exact hwp.outside (hclear a ha)

theorem size_eq_of_block_eq (hpos : 0 < (size h.mem b).toNat)
    (hb : b.toNat + 8 * (size h.mem b).toNat ≤ 2 ^ 32)
    (hsame : ∀ a : Ptr, a.toNat ∈ (extent h.mem b).cells → h'.mem a = h.mem a) :
    size h'.mem b = size h.mem b := by
  refine load32_congr fun i hi => hsame _ ?_
  simp only [Extent.mem_cells, extent, BitVec.toNat_add, BitVec.toNat_ofNat, BitVec.reduceToNat]
  omega

theorem Handed.clear {sz : BitVec 32} {r : Ptr} (V : Handed fl sz h h' nodes live A A' r)
    (hb : b ∈ live) : b ≠ r - 8 ∧ Clear h.mem b (r - 8) := by
  obtain ⟨rest', R'⟩ := V.laid
  have hne : b ≠ r - 8 := fun h => (List.nodup_cons.mp R'.live_nodup).1 (h ▸ hb)
  have hclear := R'.tiling.clear (List.mem_cons_of_mem _ hb) (q := r - 8) (by simp) hne
  exact ⟨hne, hclear.congr (V.sizes b hb).symm⟩

end Clear

/-- Where a call may write: into headers of the free list, into the region it obtained, into
the header of the block it allocates, and into the header of the block it frees. The block behind
the last header of the address space is allocated without a trace in the pointers given out. -/
inductive Site (s s' : Machine) : Call → Ptr → Prop
  | freeNode {c p w} (hp : FreeNode s.heap p) (hw : InHeader w p) : Site s s' c w
  | region {c e w} (he : regions s'.heap.sbrk = e :: regions s.heap.sbrk)
      (hw : e.lo ≤ w.toNat ∧ w.toNat + 4 ≤ e.lo + e.len) : Site s s' c w
  | allocated {nbytes ptr w} (hp : s'.live = ptr :: s.live) (hw : InHeader w (headerOf ptr)) :
      Site s s' (.malloc nbytes) w
  | lost {nbytes e w} (he : e ∈ regions s'.heap.sbrk) (hend : e.lo + e.len = 2 ^ 32)
      (hw : InHeader w (headerOf 0)) : Site s s' (.malloc nbytes) w
  | freed {ptr w} (hw : InHeader w (headerOf ptr)) : Site s s' (.free ptr) w

/-- The state lies in memory as an arena that owns exactly the regions obtained, with the headers
`lost` of blocks to which no pointer was given out. -/
structure Kept (fl : Ptr) (s : Machine) (rest lost : List Ptr) (A : Arena) : Prop where
  laid : Laid fl s.heap rest (lost ++ s.live.map headerOf) A
  owned : A.owned = (regions s.heap.sbrk : Multiset Extent)
  zero_notMem : (0 : Ptr) ∉ s.live

theorem Sound.kept (S : Sound fl s rest A) : Kept fl s rest [] A :=
  ⟨S.represents.toLaid, S.owned, S.zero_notMem⟩

/-- A block to which no pointer was given out is lost. -/
theorem Handed.kept {sz : BitVec 32} {h' : Heap SbrkLog} {nodes : List Ptr} {A' : Arena} {r : Ptr}
    (V : Handed fl sz s.heap h' nodes (lost ++ s.live.map headerOf) A A' r)
    (hz : (0 : Ptr) ∉ s.live) (howned : A'.owned = (regions h'.sbrk : Multiset Extent)) :
    ∃ rest' lost', Kept fl ⟨h', if r = 0 then s.live else r :: s.live⟩ rest' lost' A' := by
  obtain ⟨rest', hring, T⟩ := V.laid
  by_cases hr : r = 0
  · rw [if_pos hr]
    exact ⟨rest', (r - 8) :: lost, ⟨hring, T⟩, howned, hz⟩
  · rw [if_neg hr]
    have hperm : ((r - 8) :: (lost ++ s.live.map headerOf)).Perm
        (lost ++ (r :: s.live).map headerOf) := List.perm_middle.symm
    refine ⟨rest', lost, ⟨hring, T.perm (List.Perm.refl _) hperm⟩, howned, ?_⟩
    simp only [List.mem_cons, not_or]
    exact ⟨Ne.symm hr, hz⟩

theorem Kept.call_malloc (K : Kept fl s rest lost A) {nbytes : BitVec 32}
    (hg : GrowsToEnd fl answer s.heap.sbrk nbytes) {fuel : ℕ}
    (hs : exec answer fuel s (.malloc nbytes) = some s') :
    ∃ rest' lost' A', Kept fl s' rest' lost' A' := by
  obtain ⟨⟨r, h'⟩, hm, rfl⟩ := Option.map_eq_some_iff.mp hs
  rcases K.laid.malloc_spec (oracle_eq answer _ _) (hg.fresh K.owned) hm with
    ⟨A', V, howned, hsb⟩ | ⟨hp, rfl, rfl⟩ | ⟨hp, A', V, howned, hsb⟩
  · obtain ⟨rest', lost', K'⟩ := V.kept K.zero_notMem (by rw [howned, K.owned, hsb])
    exact ⟨rest', lost', A', K'⟩
  · refine ⟨rest, lost, A, ⟨K.laid.ring, K.laid.tiling⟩, ?_, K.zero_notMem⟩
    rw [K.owned, regions, if_pos hp]
  · obtain ⟨rest', lost', K'⟩ := V.kept K.zero_notMem (by
      rw [howned, K.owned, hsb, hg.regions hp]
      rfl)
    exact ⟨rest', lost', A', K'⟩

theorem Kept.headerOf_notMem (K : Kept fl s rest lost A) {ptr : Ptr} (hptr : ptr ∈ s.live) :
    headerOf ptr ∉ lost := by
  intro hlost
  exact (List.nodup_append.mp K.laid.live_nodup).2.2 _ hlost _ (List.mem_map_of_mem hptr) rfl

theorem Kept.mem_headers (_ : Kept fl s rest lost A) {ptr : Ptr} (hptr : ptr ∈ s.live) :
    headerOf ptr ∈ lost ++ s.live.map headerOf :=
  List.mem_append_right lost (List.mem_map_of_mem hptr)

theorem Kept.call_free (K : Kept fl s rest lost A) {ptr : Ptr} (hptr : ptr = 0 ∨ ptr ∈ s.live)
    {fuel : ℕ} (hs : exec answer fuel s (.free ptr) = some s') :
    ∃ rest' lost' A', Kept fl s' rest' lost' A' := by
  obtain ⟨h', hf, rfl⟩ := Option.map_eq_some_iff.mp hs
  by_cases hz : ptr = 0
  · subst hz
    have hh : s.heap = h' := Option.some.inj ((free_zero fuel s.heap).symm.trans hf)
    refine ⟨rest, lost, A, ?_⟩
    rw [List.erase_of_not_mem K.zero_notMem, ← hh]
    exact K
  · have hlive := hptr.resolve_left hz
    obtain ⟨rest', A', -, -, howned, R', -, -, hsb, -⟩ :=
      K.laid.free_spec hz (K.mem_headers hlive) hf
    refine ⟨rest', lost, A', ?_⟩
    constructor
    case laid =>
      rw [List.map_erase headerOf_injective, ← List.erase_append_right _ (K.headerOf_notMem hlive)]
      exact R'
    case owned => simp only [howned, K.owned, hsb]
    case zero_notMem => exact fun hm => K.zero_notMem (List.mem_of_mem_erase hm)

theorem Kept.freeNode (K : Kept fl s rest lost A) {p : Ptr} (hp : p ∈ s.heap.freep :: rest) :
    FreeNode s.heap p := K.laid.ring.exists_iterate hp

theorem Kept.live_nodup (K : Kept fl s rest lost A) : s.live.Nodup :=
  List.Nodup.of_map headerOf (List.nodup_append.mp K.laid.live_nodup).2.1

theorem Kept.clear (K : Kept fl s rest lost A) {ptr p : Ptr} (hptr : ptr ∈ s.live)
    (hp : p ∈ s.heap.freep :: rest) : Clear s.heap.mem (headerOf ptr) p := by
  have hb := K.mem_headers hptr
  apply K.laid.tiling.clear hb (List.mem_append_left _ hp)
  rintro rfl
  exact K.laid.notMem_list hb hp

/-- A call stores words at sites only, all clear of the blocks that stay live. -/
structure Confined (s s' : Machine) (c : Call) (ws : List Ptr) : Prop where
  frame : Frame s.heap s'.heap ws
  site : ∀ w ∈ ws, Site s s' c w
  clear : ∀ ptr ∈ s.live, ptr ∈ s'.live →
    ∀ w ∈ ws, ∃ p, InHeader w p ∧ Clear s.heap.mem (headerOf ptr) p

theorem Handed.site {sz nbytes : BitVec 32} {h' : Heap SbrkLog} {nodes live : List Ptr}
    {A' : Arena} {r w : Ptr} (V : Handed fl sz s.heap h' nodes live A A' r)
    (howned : A'.owned = (regions h'.sbrk : Multiset Extent)) (hw : InHeader w (r - 8)) :
    Site s ⟨h', if r = 0 then s.live else r :: s.live⟩ (.malloc nbytes) w := by
  by_cases hr : r = 0
  · obtain ⟨e, he, hend⟩ := V.region_ends hr
    rw [howned] at he
    exact .lost (Multiset.mem_coe.mp he) hend (hr ▸ hw)
  · exact .allocated (if_neg hr) hw

theorem Kept.confined_malloc (K : Kept fl s rest lost A) {nbytes : BitVec 32}
    (hg : GrowsToEnd fl answer s.heap.sbrk nbytes) {fuel : ℕ}
    (hs : exec answer fuel s (.malloc nbytes) = some s') :
    ∃ ws, Confined s s' (.malloc nbytes) ws := by
  obtain ⟨⟨r, h'⟩, hm, rfl⟩ := Option.map_eq_some_iff.mp hs
  have hfresh := hg.fresh K.owned
  rcases K.laid.malloc_spec (oracle_eq answer _ _) hfresh hm with
    ⟨A', V, howned, hsb⟩ | ⟨-, rfl, rfl⟩ | ⟨hne, A', V, howned, hsb⟩
  · obtain ⟨ws, F, hloc⟩ := V.frame
    have howned' : A'.owned = (regions h'.sbrk : Multiset Extent) := by rw [howned, K.owned, hsb]
    refine ⟨ws, F, fun w hw => ?_, fun ptr hptr _ w hw => ?_⟩
    · rcases hloc w hw with ⟨p, hp, hwp⟩ | hwr
      · exact .freeNode (K.freeNode hp) hwp
      · exact V.site howned' hwr
    · rcases hloc w hw with ⟨p, hp, hwp⟩ | hwr
      · exact ⟨p, hwp, K.clear hptr hp⟩
      · exact ⟨r - 8, hwr, (V.clear (K.mem_headers hptr)).2⟩
  · exact ⟨[], .congr (.refl _) rfl rfl, by simp, by simp⟩
  · obtain ⟨ws, F, hloc⟩ := V.frame
    have hpos := growth_pos (units nbytes)
    have hbytes : 8 ≤ 8 * (growth (units nbytes)).toNat := by omega
    have R := hfresh.resolve_left hne
    have hregion := hg.regions hne
    have howned' : A'.owned = (regions h'.sbrk : Multiset Extent) := by
      rw [howned, K.owned, hsb, hregion]
      rfl
    refine ⟨ws, F, fun w hw => ?_, fun ptr hptr _ w hw => ?_⟩
    · rcases hloc w hw with ⟨p, hp, hwp⟩ | hwr
      · rcases List.mem_cons.mp hp with rfl | hp
        · exact .region ((congrArg regions hsb).trans hregion) (hwp.within hbytes R.noWrap)
        · exact .freeNode (K.freeNode hp) hwp
      · exact V.site howned' hwr
    · rcases hloc w hw with ⟨p, hp, hwp⟩ | hwr
      · rcases List.mem_cons.mp hp with rfl | hp
        · exact ⟨_, hwp, R.clear hbytes K.laid.tiling (K.mem_headers hptr)⟩
        · exact ⟨p, hwp, K.clear hptr hp⟩
      · exact ⟨r - 8, hwr, (V.clear (K.mem_headers hptr)).2⟩

theorem Kept.confined_free (K : Kept fl s rest lost A) {ptr : Ptr} (hptr : ptr = 0 ∨ ptr ∈ s.live)
    {fuel : ℕ} (hs : exec answer fuel s (.free ptr) = some s') :
    ∃ ws, Confined s s' (.free ptr) ws := by
  obtain ⟨h', hf, rfl⟩ := Option.map_eq_some_iff.mp hs
  by_cases hz : ptr = 0
  · subst hz
    have hh : s.heap = h' := Option.some.inj ((free_zero fuel s.heap).symm.trans hf)
    exact ⟨[], .congr (.refl _) (by rw [hh]) (by rw [hh]), by simp, by simp⟩
  · have hlive := hptr.resolve_left hz
    have hheader := K.mem_headers hlive
    obtain ⟨-, -, ws, -, -, -, -, F, -, hloc⟩ := K.laid.free_spec hz hheader hf
    refine ⟨ws, F, fun w hw => ?_, fun ptr' hp hp' w hw => ?_⟩
    · rcases hloc w hw with ⟨p, hp, hwp⟩ | hwr
      · exact .freeNode (K.freeNode hp) hwp
      · exact .freed hwr
    · rcases hloc w hw with ⟨p, hq, hwp⟩ | hwr
      · exact ⟨p, hwp, K.clear hp hq⟩
      · have hne : ptr' ≠ ptr := by
          rintro rfl
          exact K.live_nodup.not_mem_erase hp'
        refine ⟨ptr - 8, hwr, K.laid.tiling.clear (K.mem_headers hp) ?_ ?_⟩
        · exact List.mem_append_right _ hheader
        · exact fun h => hne (headerOf_injective h)

theorem confined_malloc (S : Sound fl s rest A) {nbytes : BitVec 32}
    (hg : Grows fl answer s.heap.sbrk nbytes) {fuel : ℕ}
    (hs : exec answer fuel s (.malloc nbytes) = some s') :
    ∃ ws, Confined s s' (.malloc nbytes) ws := S.kept.confined_malloc hg.toEnd hs

theorem confined_free (S : Sound fl s rest A) {ptr : Ptr} (hptr : ptr = 0 ∨ ptr ∈ s.live)
    {fuel : ℕ} (hs : exec answer fuel s (.free ptr) = some s') :
    ∃ ws, Confined s s' (.free ptr) ws := S.kept.confined_free hptr hs

theorem Sound.call_confined (S : Sound fl s rest A) (ha : Fair fl answer) {c : Call}
    (hc : c.Allowed s) {fuel : ℕ} (hs : exec answer fuel s c = some s') :
    ∃ ws, Confined s s' c ws := by
  cases c with
  | malloc nbytes => exact confined_malloc S (ha.grows hc _) hs
  | free ptr => exact confined_free S hc hs

theorem Confined.block_eq {c : Call} {ws : List Ptr} (C : Confined s s' c ws) {ptr a : Ptr}
    (hp : ptr ∈ s.live) (hp' : ptr ∈ s'.live)
    (ha : a.toNat ∈ (extent s.heap.mem (headerOf ptr)).cells) : s'.heap.mem a = s.heap.mem a :=
  C.frame.block_eq (C.clear ptr hp hp') ha

theorem Kept.size_eq (K : Kept fl s rest lost A) {c : Call} {ws : List Ptr}
    (C : Confined s s' c ws) {ptr : Ptr} (hp : ptr ∈ s.live) (hp' : ptr ∈ s'.live) :
    size s'.heap.mem (headerOf ptr) = size s.heap.mem (headerOf ptr) := by
  have T := K.laid.tiling
  have hlive := K.mem_headers hp
  have hmem := List.mem_append_right (s.heap.freep :: rest) hlive
  have hne : headerOf ptr ≠ fl := fun h => T.freelist_notMem (h ▸ hlive)
  exact size_eq_of_block_eq (T.size_pos _ hmem hne) (T.block_bound hmem hne).2
    fun a ha => C.block_eq hp hp' ha

theorem Confined.size_eq {c : Call} {ws : List Ptr} (C : Confined s s' c ws)
    (S : Sound fl s rest A) {ptr : Ptr} (hp : ptr ∈ s.live) (hp' : ptr ∈ s'.live) :
    size s'.heap.mem (headerOf ptr) = size s.heap.mem (headerOf ptr) := S.kept.size_eq C hp hp'

/-- Every answer is `-1` or a fresh region: 8-byte aligned, above the static header and disjoint
from all earlier regions. It may end with the address space. -/
def HonestToEnd (fl : Ptr) (answer : SbrkLog → BitVec 32 → Ptr) : Prop :=
  ∀ log nbytes, answer log nbytes = -1 ∨
    (answer log nbytes).toNat % 8 = 0 ∧
      FreshToEnd fl (regions log : Multiset Extent) (answer log nbytes) nbytes.toNat

theorem HonestToEnd.grows (ha : HonestToEnd fl answer) {nbytes : BitVec 32}
    (hn : nbytes.toNat ≤ 2 ^ 31 - 16) (log : SbrkLog) : GrowsToEnd fl answer log nbytes := by
  have hbytes := (growth_bytes hn).1
  refine (ha log (growth (units nbytes) * 8)).imp_right fun F => ⟨hbytes, ?_⟩
  rw [← hbytes]
  exact F.2

theorem Reachable.kept (hr : Reachable fl answer s) (ha : HonestToEnd fl answer) :
    ∃ rest lost A, Kept fl s rest lost A := by
  induction hr with
  | boot h => exact ⟨[], [], _, (sound_boot h).kept⟩
  | @call s s' c fuel _ hc hs ih =>
    obtain ⟨rest, lost, A, K⟩ := ih
    cases c with
    | malloc nbytes => exact K.call_malloc (ha.grows hc _) hs
    | free ptr => exact K.call_free hc hs

/-- A call leaves the blocks that stay live alone, header and payload, and writes at its
sites only. -/
theorem call_keeps_live (ha : HonestToEnd fl answer) (hr : Reachable fl answer s) {c : Call}
    (hc : c.Allowed s) {fuel : ℕ} (hs : exec answer fuel s c = some s') :
    (∀ ptr ∈ s.live, ptr ∈ s'.live →
      size s'.heap.mem (headerOf ptr) = size s.heap.mem (headerOf ptr) ∧
      ∀ a : Ptr, a.toNat ∈ (extent s.heap.mem (headerOf ptr)).cells →
        s'.heap.mem a = s.heap.mem a) ∧
    ∃ ws, s'.heap.writes = ws ++ s.heap.writes ∧ ∀ w ∈ ws, Site s s' c w := by
  obtain ⟨rest, lost, A, K⟩ := hr.kept ha
  have hconfined : ∃ ws, Confined s s' c ws := by
    cases c with
    | malloc nbytes => exact K.confined_malloc (ha.grows hc _) hs
    | free ptr => exact K.confined_free hc hs
  obtain ⟨ws, C⟩ := hconfined
  exact ⟨fun ptr hp hp' => ⟨K.size_eq C hp hp', fun a ha => C.block_eq hp hp' ha⟩, ws,
    C.frame.writes, C.site⟩

/-- An `sbrk` that gives the last 8192 bytes of the address space once. -/
def endAnswer : SbrkLog → BitVec 32 → Ptr
  | [], nbytes => if nbytes = 8192 then 0xFFFFE000 else -1
  | _ :: _, _ => -1

theorem honestToEnd_endAnswer : HonestToEnd 16 endAnswer := by
  intro log nbytes
  cases log with
  | cons _ _ => exact .inl rfl
  | nil =>
    by_cases hn : nbytes = 8192
    · subst hn
      exact .inr ⟨by decide, by decide, by decide, by simp [regions]⟩
    · exact .inl (if_neg hn)

/-- The block of the first call is lost; the last call leaves the block of the second one alone. -/
theorem call_keeps_live_endAnswer :
    ∃ s₁ s s' : Machine, exec endAnswer 4 bootMachine (.malloc 0) = some s₁ ∧ s₁.live = [] ∧
      exec endAnswer 4 s₁ (.malloc 100) = some s ∧ s.live = [0xFFFFFF90] ∧
      exec endAnswer 4 s (.malloc 50) = some s' ∧ s'.live = [0xFFFFFF50, 0xFFFFFF90] ∧
      size s'.heap.mem 0xFFFFFF88 = size s.heap.mem 0xFFFFFF88 ∧
      ∀ a : Ptr, a.toNat ∈ (extent s.heap.mem 0xFFFFFF88).cells → s'.heap.mem a = s.heap.mem a := by
  have hrun : (do
      let s₁ ← exec endAnswer 4 bootMachine (.malloc 0)
      let s ← exec endAnswer 4 s₁ (.malloc 100)
      let s' ← exec endAnswer 4 s (.malloc 50)
      pure (s₁.live, s.live, s'.live)) =
        some ([], [0xFFFFFF90], [0xFFFFFF50, 0xFFFFFF90]) := by decide
  simp only [Option.bind_eq_bind, Option.bind_eq_some_iff, Option.pure_def, Option.some.injEq,
    Prod.mk.injEq] at hrun
  obtain ⟨s₁, hs₁, s, hs, s', hs', hlive₁, hlive, hlive'⟩ := hrun
  have hr₁ : Reachable 16 endAnswer s₁ :=
    .call (.boot boot_bootMachine) (c := .malloc 0) (by decide) hs₁
  have hr : Reachable 16 endAnswer s := .call hr₁ (c := .malloc 100) (by decide : _ ≤ _) hs
  have hsmall : (50 : BitVec 32).toNat ≤ 2 ^ 31 - 16 := by decide
  have hkeep := (call_keeps_live honestToEnd_endAnswer hr (c := .malloc 50) hsmall hs').1
    0xFFFFFF90 (by simp [hlive]) (by simp [hlive'])
  exact ⟨s₁, s, s', hs₁, hlive₁, hs, hlive, hs', hlive', hkeep⟩

end TinaOS.Malloc
