import TinaOS.Calloc
import TinaOS.Memcpy
import TinaOS.StringComparison

/-!
# `strdup`

`strdup` of `sys/string.c` asks `malloc` for the bytes of a string and copies them to what
`malloc` answered, a block or 0.
-/

namespace TinaOS.Malloc

open ByteMemory Arenas Allocators LinkedRing Strings Strsep

variable {σ : Type*}

def strdup (sbrk : BitVec 32 → σ → Ptr × σ) (fuel : ℕ) (source : Ptr) (h : Heap σ) :
    Option (Ptr × Heap σ) :=
  (strlen fuel fun k => h.mem (source + BitVec.ofNat 32 k)).bind fun len =>
    let length := BitVec.ofNat 32 (len + 1)
    (malloc sbrk fuel length h).map fun (destination, h) =>
      (destination, { h with mem := (memcpy h.mem destination source length).2 })

/-- Every answer is `-1` or a fresh region that is not empty, for counts from `2 ^ 31` on as well,
which `sbrk` would take for negative ones. -/
def Granting (fl : Ptr) (answer : SbrkLog → BitVec 32 → Ptr) : Prop :=
  ∀ log nbytes, answer log nbytes = -1 ∨
    nbytes ≠ 0 ∧ Fresh fl (regions log : Multiset Extent) (answer log nbytes) nbytes.toNat

/-- The byte at `x` is in no header, in no free block, and not in the region that `sbrk` would give
for the request. -/
structure Used (answer : SbrkLog → BitVec 32 → Ptr) (s : Machine) (nbytes : BitVec 32) (x : Ptr) :
    Prop where
  header : ¬ HeaderByte s x
  free : ∀ p, FreeNode s.heap p → x.toNat ∉ (extent s.heap.mem p).cells
  ungiven : answer s.heap.sbrk (growth (units nbytes) * 8) = -1 ∨
    x.toNat ∉ Extent.cells
      ⟨(answer s.heap.sbrk (growth (units nbytes) * 8)).toNat, 8 * (growth (units nbytes)).toNat⟩

/-- The request of `strdup` for a string. -/
def roomFor (cs : List Byte) : BitVec 32 := BitVec.ofNat 32 (cs.length + 1)

/-- The string `cs` stands at `source`, in memory that is used. -/
structure Source (answer : SbrkLog → BitVec 32 → Ptr) (s : Machine) (source : Ptr)
    (cs : List Byte) : Prop where
  stands : Stands s.heap.mem source cs
  length : cs.length < 2 ^ 31 - 1
  noWrap : source.toNat + cs.length < 2 ^ 32
  used : ∀ k ≤ cs.length, Used answer s (roomFor cs) (source + BitVec.ofNat 32 k)

/-- What `strdup` is for: a copy in a block of its own, or 0 when none can be had. -/
structure Duplicates (fl : Ptr) (answer : SbrkLog → BitVec 32 → Ptr) (source : Ptr) (cs : List Byte)
    (s : Machine) : Prop where
  returns : ∃ fuel r h', strdup (oracle answer) fuel source s.heap = some (r, h')
  served : ∀ fuel r h', strdup (oracle answer) fuel source s.heap = some (r, h') → r ≠ 0 →
    (∃ rest A, Sound fl ⟨h', r :: s.live⟩ rest A) ∧
    cs.length + 1 + 8 ≤ 8 * (size h'.mem (headerOf r)).toNat ∧
    (∀ j ≤ cs.length, ∀ k ≤ cs.length, r + BitVec.ofNat 32 j ≠ source + BitVec.ofNat 32 k) ∧
    Stands h'.mem r cs ∧
    (∃ fuel reads, strcmp fuel h'.mem r source = some (0, reads)) ∧
    ∀ x, h'.mem x ≠ s.heap.mem x →
      (x - r).toNat < cs.length + 1 ∨ HeaderByte ⟨h', r :: s.live⟩ x
  refused_iff : ∀ fuel r h', strdup (oracle answer) fuel source s.heap = some (r, h') →
    (r = 0 ↔ ¬ CanServe answer s (roomFor cs))
  refused : ∀ fuel h', strdup (oracle answer) fuel source s.heap = some (0, h') →
    ∀ x, h'.mem x ≠ s.heap.mem x → HeaderByte s x

variable {fl : Ptr} {answer : SbrkLog → BitVec 32 → Ptr} {s : Machine} {rest : List Ptr} {A : Arena}
  {h' : Heap SbrkLog} {r x source : Ptr} {nbytes : BitVec 32} {cs : List Byte} {fuel : ℕ}

theorem Granting.grows (hs : Granting fl answer) (log : SbrkLog) (nbytes : BitVec 32) :
    Grows fl answer log nbytes := by
  refine (hs log (growth (units nbytes) * 8)).imp_right fun ⟨hne, F⟩ => ?_
  have hbytes : (growth (units nbytes) * 8).toNat = 8 * (growth (units nbytes)).toNat := by
    have hlt := (nbytes + 8 - 1).isLt
    have hgrowth := growth_toNat (units nbytes)
    have hpos : (growth (units nbytes) * 8).toNat ≠ 0 := fun h0 => hne (BitVec.eq_of_toNat_eq h0)
    simp only [units, BitVec.toNat_mul, BitVec.toNat_add, BitVec.toNat_udiv,
      BitVec.reduceToNat] at *
    omega
  exact ⟨hbytes, by rwa [hbytes] at F⟩

/-- A call that returns a block has the regions of before, or one more. -/
theorem Sound.malloc_regions (S : Sound fl s rest A) (hg : Grows fl answer s.heap.sbrk nbytes)
    (hm : malloc (oracle answer) fuel nbytes s.heap = some (r, h')) (hr : r ≠ 0) {e : Extent}
    (he : e ∈ regions h'.sbrk) : e ∈ regions s.heap.sbrk ∨
      answer s.heap.sbrk (growth (units nbytes) * 8) ≠ -1 ∧
      e = ⟨(answer s.heap.sbrk (growth (units nbytes) * 8)).toNat,
        8 * (growth (units nbytes)).toNat⟩ := by
  rcases malloc_spec S.represents (oracle_eq answer _ _) (hg.fresh S.owned) hm with
    ⟨A', -, -, hsb⟩ | ⟨-, hz, -⟩ | ⟨hne, A', -, -, hsb⟩
  · exact .inl (hsb ▸ he)
  · exact absurd hz hr
  · rw [hsb, hg.regions hne] at he
    exact (List.mem_cons.mp he).symm.imp_right fun h => ⟨hne, h⟩

/-- Among the blocks after a call, a used byte is in one that was live before. -/
theorem Used.live (hx : Used answer s nbytes x) (S : Sound fl s rest A)
    (hg : Grows fl answer s.heap.sbrk nbytes)
    (hm : malloc (oracle answer) fuel nbytes s.heap = some (r, h')) (hr : r ≠ 0) {nodes : List Ptr}
    (D' : Divided fl ⟨h', r :: s.live⟩ nodes) {p : Ptr}
    (hp : p ∈ nodes ++ (r :: s.live).map headerOf) (hin : x.toNat ∈ (extent h'.mem p).cells) :
    p ∈ s.live.map headerOf := by
  obtain ⟨e, he, hxe⟩ := (D'.covers x.toNat).mp ⟨p, hp, hin⟩
  have hold : ∃ e ∈ regions s.heap.sbrk, x.toNat ∈ e.cells := by
    rcases S.malloc_regions hg hm hr he with hreg | ⟨hne, rfl⟩
    · exact ⟨e, hreg, hxe⟩
    · exact absurd hxe (hx.ungiven.resolve_left hne)
  obtain ⟨q, hq, hxq⟩ := (S.divided.covers x.toNat).mpr hold
  rcases List.mem_append.mp hq with hfree | hlive
  · exact absurd hxq (hx.free q (S.freeNode hfree))
  · have hsize := (S.malloc_cases hg hm).2.1 q hlive
    have hxq' : x.toNat ∈ (extent h'.mem q).cells := by rwa [extent_congr hsize]
    have hq' : q ∈ nodes ++ (r :: s.live).map headerOf :=
      List.mem_append_right _ (List.mem_cons_of_mem _ hlive)
    by_cases heq : p = q
    · exact heq ▸ hlive
    · have _ : Std.Symm fun p q => Disjoint (extent h'.mem p).cells (extent h'.mem q).cells :=
        ⟨fun _ _ h => h.symm⟩
      have hdisjoint := D'.disjoint.forall hp hq' heq
      exact absurd hxq' (Multiset.disjoint_left.mp hdisjoint hin)

/-- A call that returns a block puts no header on a used byte. -/
theorem Used.clear (hx : Used answer s nbytes x) (S : Sound fl s rest A)
    (hg : Grows fl answer s.heap.sbrk nbytes)
    (hm : malloc (oracle answer) fuel nbytes s.heap = some (r, h')) (hr : r ≠ 0) :
    ¬ HeaderByte ⟨h', r :: s.live⟩ x := by
  obtain ⟨⟨rest', A', S'⟩, -⟩ := S.malloc_block hg hm hr
  have D' := S'.divided
  intro hheader
  obtain ⟨p, hp, hlt⟩ := S'.headerByte_iff.mp hheader
  by_cases hpf : p = fl
  · exact hx.header ⟨fl, .inl (S.freeNode S.represents.tiling.freelist_mem), hpf ▸ hlt⟩
  · have hbound : p.toNat + 8 * (size h'.mem p).toNat < 2 ^ 32 :=
      (S'.represents.block_bound hp hpf).2
    have hpos : 0 < (size h'.mem p).toNat := S'.represents.tiling.size_pos p hp hpf
    have hin : x.toNat ∈ (extent h'.mem p).cells := by
      have hxlt := x.isLt
      simp only [Extent.mem_cells, extent]
      rw [BitVec.toNat_sub] at hlt
      omega
    exact hx.header ⟨p, .inr (hx.live S hg hm hr D' hp hin), hlt⟩

/-- A call that returns a block leaves a used byte as it is, and outside the block. -/
theorem Used.kept (hx : Used answer s nbytes x) (S : Sound fl s rest A)
    (hg : Grows fl answer s.heap.sbrk nbytes)
    (hm : malloc (oracle answer) fuel nbytes s.heap = some (r, h')) (hr : r ≠ 0) :
    h'.mem x = s.heap.mem x ∧ x.toNat ∉ (extent h'.mem (headerOf r)).cells := by
  obtain ⟨⟨rest', A', S'⟩, -⟩ := S.malloc_block hg hm hr
  have D' := S'.divided
  constructor
  · by_contra hne
    exact hx.clear S hg hm hr (S.malloc_headerByte hg hm hr hne)
  · intro hin
    have hmem : headerOf r ∈ (r :: s.live).map headerOf := List.mem_cons_self
    have hlive := hx.live S hg hm hr D' (List.mem_append_right _ hmem) hin
    obtain ⟨q, hq, heq⟩ := List.mem_map.mp hlive
    rw [headerOf_injective heq] at hq
    exact (List.nodup_cons.mp S'.live_nodup).1 hq

theorem roomFor_toNat (hlen : cs.length < 2 ^ 31 - 1) : (roomFor cs).toNat = cs.length + 1 := by
  rw [roomFor, BitVec.toNat_ofNat]
  omega

theorem strdup_eq_some (hs : Stands s.heap.mem source cs)
    (hd : strdup (oracle answer) fuel source s.heap = some (r, h')) :
    ∃ h₁, malloc (oracle answer) fuel (roomFor cs) s.heap = some (r, h₁) ∧
      h' = { h₁ with mem := (memcpy h₁.mem r source (roomFor cs)).2 } := by
  obtain ⟨len, hstrlen, hmap⟩ := Option.bind_eq_some_iff.mp hd
  obtain rfl : len = cs.length :=
    BoundedLoop.run_unique hstrlen (hs.1.strlen_eq hs.2 (Nat.lt_succ_self _))
  obtain ⟨⟨r', h₁⟩, hm, heq⟩ := Option.map_eq_some_iff.mp hmap
  obtain ⟨rfl, rfl⟩ := Prod.mk.inj heq
  exact ⟨h₁, hm, rfl⟩

theorem strdup_returns (H : Source answer s source cs) (hs : Granting fl answer)
    (S : Sound fl s rest A) :
    ∃ fuel r h', strdup (oracle answer) fuel source s.heap = some (r, h') := by
  have hg := hs.grows s.heap.sbrk (roomFor cs)
  obtain ⟨r, h₁, hm⟩ := malloc_returns S.represents (oracle_eq answer _ _) (hg.fresh S.owned)
    (Nat.le_add_right _ cs.length)
  have hf : cs.length < rest.length + 3 + cs.length := by omega
  have hstrlen := H.stands.1.strlen_eq H.stands.2 hf
  refine ⟨_, r, _, Option.bind_eq_some_iff.mpr ⟨_, hstrlen, Option.map_eq_some_iff.mpr ⟨_, hm, rfl⟩⟩⟩

/-- A block that `malloc` gives for a string has room for it. -/
theorem Source.room (H : Source answer s source cs) (S : Sound fl s rest A)
    (hg : Grows fl answer s.heap.sbrk (roomFor cs))
    (hm : malloc (oracle answer) fuel (roomFor cs) s.heap = some (r, h')) (hr : r ≠ 0) :
    cs.length + 1 + 8 ≤ 8 * (size h'.mem (headerOf r)).toNat := by
  have hlen := H.length
  have hcount := roomFor_toNat hlen
  have hunits : (units (roomFor cs)).toNat = ((roomFor cs).toNat + 7) / 8 + 1 :=
    units_toNat_of_lt (by omega)
  obtain ⟨-, hsize⟩ := S.malloc_block hg hm hr
  rw [hsize, hunits]
  omega

/-- The block lies apart from the string. -/
theorem Source.apart (H : Source answer s source cs) (S : Sound fl s rest A)
    (hg : Grows fl answer s.heap.sbrk (roomFor cs))
    (hm : malloc (oracle answer) fuel (roomFor cs) s.heap = some (r, h')) (hr : r ≠ 0) :
    ∀ j ≤ cs.length, ∀ k ≤ cs.length, r + BitVec.ofNat 32 j ≠ source + BitVec.ofNat 32 k := by
  intro j hj k hk heq
  have hlen := H.length
  obtain ⟨⟨rest', A', S'⟩, -⟩ := S.malloc_block hg hm hr
  have hpayload : Payload fl h'.mem ⟨r, cs.length + 1⟩ :=
    S'.represents.tiling.payload S'.represents.below List.mem_cons_self (H.room S hg hm hr)
  have hwithin : Block.Within ⟨r, cs.length + 1⟩ (source + BitVec.ofNat 32 k) := by
    rw [← heq]
    exact Block.within_offset (b := ⟨r, cs.length + 1⟩) (Nat.lt_succ_of_le hj)
      (show cs.length + 1 ≤ 2 ^ 32 by omega)
  exact ((H.used k hk).kept S hg hm hr).2 (hpayload.mem_cells hwithin)

/-- A call that returns a block has filled it with the bytes of the string. -/
theorem Source.copied (H : Source answer s source cs) (S : Sound fl s rest A)
    (hg : Grows fl answer s.heap.sbrk (roomFor cs))
    (hd : strdup (oracle answer) fuel source s.heap = some (r, h')) (hr : r ≠ 0) :
    ∃ h₁, malloc (oracle answer) fuel (roomFor cs) s.heap = some (r, h₁) ∧
      h' = { h₁ with
        mem := writeBytes h₁.mem r (cs.length + 1) fun k => h₁.mem (source + BitVec.ofNat 32 k) } := by
  obtain ⟨h₁, hm, rfl⟩ := strdup_eq_some H.stands hd
  have hlen := H.length
  have hapart := H.apart S hg hm hr
  have hfar : cs.length + 1 ≤ (r - source).toNat := by
    apply le_sub_of_ne
    intro k hk
    have hne := hapart 0 (Nat.zero_le _) k (Nat.le_of_lt_succ hk)
    rwa [add_offset_zero] at hne
  refine ⟨h₁, hm, ?_⟩
  simp only [memcpy, roomFor_toNat hlen]
  rw [memcpyLoop_eq (by omega) (.inr hfar)]

/-- A block is filled with the string, which stays where it was. -/
theorem Source.served (H : Source answer s source cs) (S : Sound fl s rest A)
    (hg : Grows fl answer s.heap.sbrk (roomFor cs))
    (hd : strdup (oracle answer) fuel source s.heap = some (r, h')) (hr : r ≠ 0) :
    (∃ rest A, Sound fl ⟨h', r :: s.live⟩ rest A) ∧
    cs.length + 1 + 8 ≤ 8 * (size h'.mem (headerOf r)).toNat ∧
    (∀ j ≤ cs.length, ∀ k ≤ cs.length, r + BitVec.ofNat 32 j ≠ source + BitVec.ofNat 32 k) ∧
    Stands h'.mem r cs ∧ Stands h'.mem source cs ∧
    ∀ x, h'.mem x ≠ s.heap.mem x →
      (x - r).toNat < cs.length + 1 ∨ HeaderByte ⟨h', r :: s.live⟩ x := by
  have hlen := H.length
  obtain ⟨h₁, hm, rfl⟩ := H.copied S hg hd hr
  obtain ⟨⟨rest', A', S₁⟩, -⟩ := S.malloc_block hg hm hr
  have hroom := H.room S hg hm hr
  have hapart := H.apart S hg hm hr
  have hsource : Stands h₁.mem source cs :=
    H.stands.congr fun k hk => ((H.used k hk).kept S hg hm hr).1
  obtain ⟨S', hsize', hheaders⟩ := S₁.fill hroom fun k => h₁.mem (source + BitVec.ofNat 32 k)
  dsimp only
  refine ⟨⟨rest', A', S'⟩, hsize'.symm ▸ hroom, hapart, ?_, ?_, fun x hx => ?_⟩
  · exact stands_writeBytes h₁.mem r H.stands.2 (by omega) hsource.1
  · exact stands_writeBytes_apart hsource _ fun j hj => hapart j (Nat.le_of_lt_succ hj)
  · by_cases hin : (x - r).toNat < cs.length + 1
    · exact .inl hin
    · rw [writeBytes_outside _ (by omega)] at hx
      exact .inr (hheaders x (S.malloc_headerByte hg hm hr hx))

/-- A refused call copies the string to address 0. -/
theorem Source.refused (H : Source answer s source cs) (S : Sound fl s rest A)
    (hg : Grows fl answer s.heap.sbrk (roomFor cs))
    (hd : strdup (oracle answer) fuel source s.heap = some (0, h')) :
    h'.mem = writeBytes s.heap.mem 0 (cs.length + 1) fun k =>
      s.heap.mem (source + BitVec.ofNat 32 k) := by
  obtain ⟨h₁, hm, rfl⟩ := strdup_eq_some H.stands hd
  have hready : 0 = source ∨ cs.length + 1 ≤ (0 - source).toNat := by
    by_cases heq : 0 = source
    · exact .inl heq
    · right
      have hnw := H.noWrap
      have hne : source.toNat ≠ 0 := fun h => heq (BitVec.eq_of_toNat_eq h.symm)
      simp only [BitVec.toNat_sub, BitVec.reduceToNat]
      omega
  have hlen := H.length
  simp only [memcpy, roomFor_toNat hlen]
  rw [memcpyLoop_eq (by omega) hready, S.malloc_refused hg hm]

theorem Source.refused_iff (H : Source answer s source cs) (S : Sound fl s rest A)
    (hg : Grows fl answer s.heap.sbrk (roomFor cs))
    (hd : strdup (oracle answer) fuel source s.heap = some (r, h')) :
    r = 0 ↔ ¬ CanServe answer s (roomFor cs) := by
  obtain ⟨h₁, hm, -⟩ := strdup_eq_some H.stands hd
  exact S.refused_iff hg hm

theorem Duplicates.of_refused (D : Duplicates fl answer source cs s) (hs : Granting fl answer)
    (S : Sound fl s rest A) (H : Source answer s source cs)
    (hcan : ¬ CanServe answer s (roomFor cs)) {k : ℕ} (hk : k ≤ cs.length) :
    s.heap.mem (BitVec.ofNat 32 k) = s.heap.mem (source + BitVec.ofNat 32 k) ∨
      HeaderByte s (BitVec.ofNat 32 k) := by
  have hg := hs.grows s.heap.sbrk (roomFor cs)
  have hlen := H.length
  obtain ⟨fuel, r, h', hd⟩ := D.returns
  obtain rfl := (H.refused_iff S hg hd).mpr hcan
  by_cases heq : s.heap.mem (BitVec.ofNat 32 k) = s.heap.mem (source + BitVec.ofNat 32 k)
  · exact .inl heq
  · right
    apply D.refused fuel h' hd
    have hzero : BitVec.ofNat 32 k = 0 + BitVec.ofNat 32 k := (BitVec.zero_add _).symm
    rw [H.refused S hg hd, hzero, writeBytes_inside _ (by omega) (by omega), ← hzero]
    exact Ne.symm heq

/-- `strdup` duplicates a string exactly if a block can be had, or the first bytes of memory that are
in no header are those of the string already. -/
theorem duplicates_iff (hs : Granting fl answer) (S : Sound fl s rest A)
    (H : Source answer s source cs) :
    Duplicates fl answer source cs s ↔
      (¬ CanServe answer s (roomFor cs) → ∀ k ≤ cs.length,
        s.heap.mem (BitVec.ofNat 32 k) = s.heap.mem (source + BitVec.ofNat 32 k) ∨
          HeaderByte s (BitVec.ofNat 32 k)) := by
  refine ⟨fun D hcan k hk => D.of_refused hs S H hcan hk, fun hcond => ?_⟩
  have hg := hs.grows s.heap.sbrk (roomFor cs)
  have hlen := H.length
  constructor
  case returns => exact strdup_returns H hs S
  case served =>
    intro fuel r h' hd hr
    obtain ⟨hsound, hroom, hapart, hcopy, hsource, hframe⟩ := H.served S hg hd hr
    obtain ⟨reads, hcmp, -⟩ := strcmp_eq hcopy hsource (Nat.lt_succ_self _)
    rw [if_pos rfl] at hcmp
    exact ⟨hsound, hroom, hapart, hcopy, ⟨_, reads, hcmp⟩, hframe⟩
  case refused_iff => exact fun fuel r h' hd => H.refused_iff S hg hd
  case refused =>
    intro fuel h' hd x hx
    have hcan := (H.refused_iff S hg hd).mp rfl
    have hsub : x - 0 = x := BitVec.sub_zero x
    simp only [H.refused S hg hd, writeBytes, hsub] at hx
    split_ifs at hx with hin
    · have hbyte := hcond hcan x.toNat (by omega)
      rw [BitVec.ofNat_toNat, BitVec.setWidth_eq] at hbyte hx
      exact hbyte.resolve_left (Ne.symm hx)
    · exact absurd rfl hx

/-- At boot only the header of `freelist` and what `sbrk` may give are not used. -/
theorem Boot.used (hb : Boot fl s) (hx : 8 ≤ (x - fl).toNat)
    (hgiven : answer [] (growth (units nbytes) * 8) = -1 ∨
      x.toNat ∉ Extent.cells ⟨(answer [] (growth (units nbytes) * 8)).toNat,
        8 * (growth (units nbytes)).toNat⟩) : Used answer s nbytes x := by
  have S := sound_boot hb
  obtain ⟨⟨-, -, hsize, hfreep, hsbrk⟩, hlive⟩ := hb
  have hnodes : ∀ p, FreeNode s.heap p → p = fl := fun p hp =>
    (List.mem_singleton.mp (S.freeNode_iff.mp hp)).trans hfreep
  constructor
  case header =>
    rintro ⟨p, hp | hp, hlt⟩
    · rw [hnodes p hp] at hlt
      omega
    · simp [hlive] at hp
  case free =>
    intro p hp hin
    rw [hnodes p hp, Extent.mem_cells, extent, hsize] at hin
    simp only [BitVec.reduceToNat] at hin
    omega
  case ungiven =>
    rw [hsbrk]
    exact hgiven

/-- The machine at boot with a string of one character at `0x100`. -/
def textMachine : Machine where
  heap := { bootMachine.heap with mem := Function.update bootMachine.heap.mem 0x100 65 }
  live := []

theorem boot_textMachine : Boot 16 textMachine :=
  ⟨⟨by decide, by decide, by decide, rfl, rfl⟩, rfl⟩

theorem source_textMachine (hanswer : answer [] 8192 = -1 ∨ answer [] 8192 = 4096) :
    Source answer textMachine 0x100 [65] := by
  have hbytes : ∀ k ≤ 1, textMachine.heap.mem (0x100 + BitVec.ofNat 32 k) = [65].getD k 0 := by
    decide
  have hgrowth : growth (units (roomFor [65])) * 8 = 8192 ∧
      8 * (growth (units (roomFor [65]))).toNat = 8192 := by decide
  refine ⟨⟨hbytes, by decide⟩, by decide, by decide, fun k hk => boot_textMachine.used ?_ ?_⟩
  · have hk' : k ≤ 1 := hk
    simp only [BitVec.toNat_sub, BitVec.toNat_add, BitVec.toNat_ofNat, BitVec.reduceToNat]
    omega
  · rw [hgrowth.1, hgrowth.2]
    refine hanswer.imp_right fun h4096 => ?_
    have hk' : k ≤ 1 := hk
    rw [h4096, Extent.mem_cells, BitVec.toNat_add, BitVec.toNat_ofNat]
    simp
    omega

theorem granting_onceAnswer : Granting 16 onceAnswer := by
  intro log nbytes
  cases log with
  | cons _ _ => exact .inl rfl
  | nil =>
    by_cases hn : nbytes = 8192
    · subst hn
      exact .inr ⟨by decide, by decide, by decide, by simp [regions]⟩
    · exact .inl (if_neg hn)

theorem duplicates_iff_textMachine : Duplicates 16 onceAnswer 0x100 [65] textMachine := by
  have hserve : CanServe onceAnswer textMachine (roomFor [65]) := .inr (by decide)
  exact (duplicates_iff granting_onceAnswer (sound_boot boot_textMachine)
    (source_textMachine (.inr rfl))).mpr fun hno => absurd hserve hno

/-- Where no block can be had, the string is copied to address 0. -/
theorem not_duplicates : Granting 16 (fun _ _ => -1) ∧ Boot 16 textMachine ∧
    Source (fun _ _ => -1) textMachine 0x100 [65] ∧
    ¬ Duplicates 16 (fun _ _ => -1) 0x100 [65] textMachine := by
  have hs : Granting 16 (fun _ _ => -1) := fun _ _ => .inl rfl
  have S := sound_boot boot_textMachine
  have H : Source (fun _ _ => -1) textMachine 0x100 [65] := source_textMachine (.inl rfl)
  refine ⟨hs, boot_textMachine, H, fun D => ?_⟩
  have hno : ¬ CanServe (fun _ _ => -1) textMachine (roomFor [65]) := by
    rintro (⟨b, hb, hfit⟩ | hgiven)
    · obtain rfl : b = 16 := List.mem_singleton.mp (S.freeNode_iff.mp hb)
      revert hfit
      decide
    · exact hgiven rfl
  rcases D.of_refused hs S H hno (Nat.zero_le _) with hsame | hheader
  · revert hsame
    decide
  · exact S.not_headerByte_zero hheader

end TinaOS.Malloc
