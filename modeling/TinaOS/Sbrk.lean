import TinaOS.Library.Arena
import TinaOS.MallocSteps

/-!
# The heap pointer of `sys/sbrk.c`

`sbrk` moves `g_heap` and then compares it with `stack_bottom`, which the layout of the
kernel image puts below the start of the heap. The comparison therefore holds until the
pointer has gone round the end of the address space.
-/

namespace TinaOS.Sbrk

open ByteMemory Arenas Malloc LinkedRing

/-- The start of the kernel image, `64M` in `linker.ld`. -/
def imageBase : ℕ := 64 * 2 ^ 20

/-- Where `boot.asm` and `linker.ld` place the stack and the end of the image. -/
structure Layout where
  stackBottom : Ptr
  stackTop : Ptr
  kernelEnd : Ptr
  base_le : imageBase ≤ stackBottom.toNat
  stack_eq : stackTop.toNat = stackBottom.toNat + 16384
  top_le : stackTop.toNat ≤ kernelEnd.toNat

/-- The heap pointer from which a call starts: the value 0 stands for `stack_top`. -/
def Layout.start (L : Layout) (gHeap : Ptr) : Ptr := if gHeap = 0 then L.stackTop else gHeap

/-- `sbrk`: the answer and the new `g_heap`. -/
def sbrk (L : Layout) (nbytes : BitVec 32) (gHeap : Ptr) : Ptr × Ptr :=
  let gHeap := L.start gHeap
  let alloc := gHeap
  let gHeap := gHeap + nbytes
  if gHeap ≥ L.stackBottom then (-1, gHeap) else (alloc, gHeap)

variable {L : Layout} {g : Ptr} {n : BitVec 32} {ns : List (BitVec 32)}

theorem sbrk_snd (L : Layout) (n : BitVec 32) (g : Ptr) : (sbrk L n g).2 = L.start g + n := by
  simp only [sbrk]
  split_ifs <;> rfl

theorem sbrk_full (h : L.stackBottom ≤ L.start g + n) : sbrk L n g = (-1, L.start g + n) :=
  if_pos h

theorem sbrk_given (h : L.start g + n < L.stackBottom) :
    sbrk L n g = (L.start g, L.start g + n) := if_neg (BitVec.not_le.mpr h)

theorem start_of_ne_zero (h : g ≠ 0) : L.start g = g := if_neg h

theorem start_of_le (h : L.stackBottom ≤ g) : L.start g = g := by
  have hb := L.base_le
  apply start_of_ne_zero
  rintro rfl
  have h0 : L.stackBottom.toNat ≤ 0 := h
  simp only [imageBase] at hb
  omega

/-- The regions that a sequence of calls obtains, from the given `g_heap` on. -/
def granted (L : Layout) : Ptr → List (BitVec 32) → List Extent
  | _, [] => []
  | g, n :: ns =>
    let (r, g') := sbrk L n g
    if r = -1 then granted L g' ns else ⟨r.toNat, n.toNat⟩ :: granted L g' ns

/-- The calls of a sequence, each with the heap pointer from which it starts. -/
def starts (L : Layout) : Ptr → List (BitVec 32) → List (Ptr × BitVec 32)
  | _, [] => []
  | g, n :: ns => (L.start g, n) :: starts L (L.start g + n) ns

/-- The call takes the heap pointer past the end of the address space, to below the stack. -/
def Laps (L : Layout) (c : Ptr × BitVec 32) : Prop :=
  2 ^ 32 ≤ c.1.toNat + c.2.toNat ∧ c.1 + c.2 < L.stackBottom

/-- Regions of memory that do not wrap, share no byte and stay clear of the kernel image. -/
structure Safe (L : Layout) (es : List Extent) : Prop where
  noWrap : ∀ e ∈ es, e.lo + e.len ≤ 2 ^ 32
  disjoint : es.Pairwise fun e f => Disjoint e.cells f.cells
  clear : ∀ e ∈ es, Disjoint e.cells (Extent.cells ⟨imageBase, L.kernelEnd.toNat - imageBase⟩)

theorem safe_nil : Safe L [] := ⟨by simp, .nil, by simp⟩

theorem le_of_not_laps {s : Ptr} (hs : L.stackBottom ≤ s) (h : ¬ Laps L (s, n)) :
    L.stackBottom ≤ s + n := by
  by_cases hw : 2 ^ 32 ≤ s.toNat + n.toNat
  · exact BitVec.not_lt.mp fun hlt => h ⟨hw, hlt⟩
  · have hs' : L.stackBottom.toNat ≤ s.toNat := hs
    rw [BitVec.le_def, BitVec.toNat_add]
    omega

theorem granted_eq_nil (hg : L.stackBottom ≤ L.start g) (h : ∀ c ∈ starts L g ns, ¬ Laps L c) :
    granted L g ns = [] := by
  induction ns generalizing g with
  | nil => rfl
  | cons n ns ih =>
    have hle := le_of_not_laps hg (h _ List.mem_cons_self)
    have hnext := ih (g := L.start g + n) (by rwa [start_of_le hle])
      fun c hc => h c (List.mem_cons_of_mem _ hc)
    simp only [granted, sbrk_full hle, if_true, hnext]

theorem mem_granted {s : Ptr} (hc : (s, n) ∈ starts L g ns) (hl : Laps L (s, n)) (hs : s ≠ -1) :
    ⟨s.toNat, n.toNat⟩ ∈ granted L g ns := by
  induction ns generalizing g with
  | nil => simp [starts] at hc
  | cons m ns ih =>
    cases List.mem_cons.mp hc with
    | inl heq =>
      obtain ⟨rfl, rfl⟩ := Prod.mk.inj heq
      simp only [granted, sbrk_given hl.2, if_neg hs, List.mem_cons, true_or]
    | inr hc =>
      have hm := ih hc
      rw [← sbrk_snd] at hm
      simp only [granted]
      split_ifs
      · exact hm
      · exact List.mem_cons_of_mem _ hm

theorem start_zero_le (L : Layout) : L.stackBottom ≤ L.start 0 := by
  have h := L.stack_eq
  rw [BitVec.le_def, Layout.start, if_pos rfl]
  omega

/-- As long as no call laps the regions are safe, and a call that laps to an address other
than 0 from another place than the last byte gets a region that is not. -/
theorem granted_safe (L : Layout) (ns : List (BitVec 32)) :
    ((∀ c ∈ starts L 0 ns, ¬ Laps L c) → Safe L (granted L 0 ns)) ∧
    ((∃ c ∈ starts L 0 ns, Laps L c ∧ c.1 ≠ -1 ∧ c.1 + c.2 ≠ 0) → ¬ Safe L (granted L 0 ns)) := by
  constructor
  · intro h
    rw [granted_eq_nil (start_zero_le L) h]
    exact safe_nil
  · rintro ⟨⟨s, n⟩, hc, hl, hs, hz⟩ hsafe
    have hbound := hsafe.noWrap _ (mem_granted hc hl hs)
    have heq : s.toNat + n.toNat = 2 ^ 32 := Nat.le_antisymm hbound hl.1
    refine hz (BitVec.eq_of_toNat_eq ?_)
    rw [BitVec.toNat_add, heq]
    rfl

/-- A kernel image of 128 KiB whose `.bss` holds the stack. -/
def smallLayout : Layout where
  stackBottom := 0x0401C000
  stackTop := 0x04020000
  kernelEnd := 0x04020000
  base_le := by decide
  stack_eq := by decide
  top_le := by decide

/-- The second call gets a region that runs past the end of the address space. -/
theorem not_safe_granted : (∀ n ∈ [0x7FFFFFFF, 0x7C000000], 1 ≤ n ∧ n ≤ 2 ^ 31 - 1) ∧
    ¬ Safe smallLayout (granted smallLayout 0 [0x7FFFFFFF, 0x7C000000]) := by
  refine ⟨by simp, fun h => ?_⟩
  have hg : granted smallLayout 0 [0x7FFFFFFF, 0x7C000000] = [⟨0x8401FFFF, 0x7C000000⟩] := by decide
  rw [hg] at h
  exact absurd (h.noWrap _ List.mem_cons_self) (by decide)

/-- The state of `sbrk` under `malloc`: `g_heap`, and the bytes asked for, the latest first. -/
structure Growth where
  gHeap : Ptr
  asked : List (BitVec 32)

/-- `sbrk`, with its arguments recorded. -/
def sbrkRecorded (L : Layout) (nbytes : BitVec 32) (s : Growth) : Ptr × Growth :=
  let (r, g) := sbrk L nbytes s.gHeap
  (r, ⟨g, nbytes :: s.asked⟩)

def Growth.grown (L : Layout) (n : BitVec 32) (s : Growth) : Growth :=
  ⟨L.start s.gHeap + n, n :: s.asked⟩

theorem sbrkRecorded_snd (L : Layout) (n : BitVec 32) (s : Growth) :
    (sbrkRecorded L n s).2 = s.grown L n := by
  simp only [sbrkRecorded, sbrk_snd, Growth.grown]

def total (asked : List (BitVec 32)) : ℕ := (asked.map BitVec.toNat).sum

/-- A run of requests: the pointers returned, in order, and the heap at the end. -/
def requests (L : Layout) (fuel : ℕ) :
    List (BitVec 32) → Heap Growth → Option (List Ptr × Heap Growth)
  | [], h => some ([], h)
  | n :: ns, h => do
    let (r, h) ← malloc (sbrkRecorded L) fuel n h
    let (rs, h) ← requests L fuel ns h
    pure (r :: rs, h)

/-- Only `freelist`, of size zero, is on the free list, and the heap pointer has advanced by
what was asked for. -/
structure Unserved (L : Layout) (h : Heap Growth) : Prop where
  ring : IsRing (link h.mem) [h.freep]
  size_eq : size h.mem h.freep = 0
  start_eq : (L.start h.sbrk.gHeap).toNat = L.stackTop.toNat + total h.sbrk.asked

variable {h h' : Heap Growth} {rs : List Ptr} {fuel : ℕ} {r : Ptr} {nbytes : BitVec 32}

theorem total_cons (n : BitVec 32) (asked : List (BitVec 32)) :
    total (n :: asked) = n.toNat + total asked := rfl

theorem Unserved.find?_eq_none (U : Unserved L h) (nbytes : BitVec 32) :
    [h.freep].find? (fits h.mem (units nbytes)) = none := by
  have hpos := units_pos nbytes
  have hlink : link h.mem h.freep = h.freep := by simpa using (isRing_cons.mp U.ring).2
  have hfit : fits h.mem (units nbytes) h.freep = false := by
    rw [fits, hlink, U.size_eq]
    exact decide_eq_false (Nat.not_le.mpr hpos)
  simp [hfit]

theorem Unserved.malloc_eq (U : Unserved L h) (fuel : ℕ) {nbytes : BitVec 32}
    (hn : growth (units nbytes) * 8 = n)
    (ht : L.stackTop.toNat + (n.toNat + total h.sbrk.asked) < 2 ^ 32) :
    malloc (sbrkRecorded L) (fuel + 1) nbytes h = some (0, { h with sbrk := h.sbrk.grown L n }) ∧
      Unserved L { h with sbrk := h.sbrk.grown L n } := by
  have hstart := U.start_eq
  have hnew : (L.start h.sbrk.gHeap + n).toNat = (L.start h.sbrk.gHeap).toNat + n.toNat := by
    rw [BitVec.toNat_add]
    omega
  have hle : L.stackBottom ≤ L.start h.sbrk.gHeap + n := by
    have hstack := L.stack_eq
    rw [BitVec.le_def]
    omega
  have hs : sbrkRecorded L (growth (units nbytes) * 8) h.sbrk = (-1, h.sbrk.grown L n) := by
    rw [hn, sbrkRecorded, sbrk_full hle]
    rfl
  rw [malloc_full U.ring (Nat.zero_le _) (U.find?_eq_none nbytes) hs, if_pos rfl]
  refine ⟨rfl, U.ring, U.size_eq, ?_⟩
  simp only [Growth.grown]
  rw [start_of_le hle, hnew, total_cons]
  omega

theorem total_le_malloc (hm : malloc (sbrkRecorded L) fuel nbytes h = some (r, h')) :
    total h.sbrk.asked ≤ total h'.sbrk.asked := by
  refine malloc_sbrk (fun s => total h.sbrk.asked ≤ total s.asked) (fun n s hs => ?_) le_rfl hm
  exact hs.trans (Nat.le_add_left _ _)

theorem Unserved.asked_le (U : Unserved L h)
    (hm : malloc (sbrkRecorded L) fuel nbytes h = some (r, h')) :
    (growth (units nbytes) * 8).toNat + total h.sbrk.asked ≤ total h'.sbrk.asked := by
  rcases malloc_cases U.ring hm with ⟨q, hq, -⟩ | ⟨-, p, s, hs, hend⟩
  · exact absurd ((U.find?_eq_none nbytes).symm.trans hq) (by simp)
  · have hgrown : s = h.sbrk.grown L (growth (units nbytes) * 8) :=
      (congrArg Prod.snd hs).symm.trans (sbrkRecorded_snd _ _ _)
    have hasked : total s.asked = (growth (units nbytes) * 8).toNat + total h.sbrk.asked := by
      rw [hgrown, Growth.grown, total_cons]
    rcases hend with ⟨-, -, rfl⟩ | ⟨-, k, hk⟩
    · exact hasked.ge
    · exact hasked.ge.trans (total_le_malloc hk)

theorem requests_cons (hr : requests L fuel (nbytes :: ns) h = some (rs, h')) :
    ∃ r h₁ rs', malloc (sbrkRecorded L) fuel nbytes h = some (r, h₁) ∧
      requests L fuel ns h₁ = some (rs', h') ∧ rs = r :: rs' := by
  simp only [requests, Option.bind_eq_bind, Option.bind_eq_some_iff, Option.pure_def,
    Option.some.injEq, Prod.mk.injEq, Prod.exists] at hr
  obtain ⟨r, h₁, hm, rs', h₂, hrest, rfl, rfl⟩ := hr
  exact ⟨r, h₁, rs', hm, hrest, rfl⟩

theorem total_le_requests (hr : requests L fuel ns h = some (rs, h')) :
    total h.sbrk.asked ≤ total h'.sbrk.asked := by
  induction ns generalizing h rs with
  | nil =>
    obtain ⟨-, rfl⟩ := Prod.mk.inj (Option.some.inj hr)
    exact le_rfl
  | cons n ns ih =>
    obtain ⟨r, h₁, rs', hm, hrest, -⟩ := requests_cons hr
    exact (total_le_malloc hm).trans (ih hrest)

theorem Unserved.requests_eq_zero (U : Unserved L h) (hr : requests L fuel ns h = some (rs, h'))
    (ht : L.stackTop.toNat + total h'.sbrk.asked < 2 ^ 32) : rs = List.replicate ns.length 0 := by
  induction ns generalizing h rs with
  | nil =>
    obtain ⟨rfl, -⟩ := Prod.mk.inj (Option.some.inj hr)
    rfl
  | cons n ns ih =>
    obtain ⟨r, h₁, rs', hm, hrest, rfl⟩ := requests_cons hr
    obtain ⟨k, rfl⟩ : ∃ k, fuel = k + 1 := by
      cases fuel with
      | zero => cases hm
      | succ k => exact ⟨k, rfl⟩
    have hle := (U.asked_le hm).trans (total_le_requests hrest)
    obtain ⟨heq, U₁⟩ := U.malloc_eq k (n := growth (units n) * 8) rfl (by omega)
    obtain ⟨rfl, rfl⟩ := Prod.mk.inj (Option.some.inj (hm.symm.trans heq))
    rw [ih U₁ hrest]
    rfl

theorem unserved_initial {fl : Ptr} (hi : Initial fl ⟨0, []⟩ h) : Unserved L h := by
  obtain ⟨-, hlink, hsize, hfreep, hsbrk⟩ := hi
  constructor
  case ring =>
    rw [hfreep]
    exact isRing_cons.mpr ⟨by simp, by simp [hlink]⟩
  case size_eq => rw [hfreep, hsize]
  case start_eq =>
    rw [hsbrk, Layout.start, if_pos rfl]
    rfl

/-- With address space to spare, the requests of a run from boot all succeed only if there
are none: each one is refused. -/
theorem requests_served_iff {fl : Ptr} (hi : Initial fl ⟨0, []⟩ h)
    (hr : requests L fuel ns h = some (rs, h'))
    (ht : L.stackTop.toNat + total h'.sbrk.asked < 2 ^ 32) : (∀ r ∈ rs, r ≠ 0) ↔ ns = [] := by
  have hrs := (unserved_initial hi).requests_eq_zero hr ht
  constructor
  · intro h
    by_contra hne
    have hpos : ns.length ≠ 0 := fun h0 => hne (List.length_eq_zero_iff.mp h0)
    exact h 0 (hrs ▸ List.mem_replicate.mpr ⟨hpos, rfl⟩) rfl
  · rintro rfl
    simp [hrs]

/-- A heap at boot with `freelist` in the `.data` of `smallLayout`. -/
def bootHeap : Heap Growth where
  mem := store32 (fun _ => 0) 0x0401A000 0x0401A000
  freep := 0x0401A000
  sbrk := ⟨0, []⟩
  writes := []

theorem initial_bootHeap : Initial 0x0401A000 ⟨0, []⟩ bootHeap :=
  ⟨by decide, by decide, by decide, rfl, rfl⟩

private theorem requests_bootHeap :
    (requests smallLayout 1 [100] bootHeap).map (fun out => (out.1, out.2.sbrk.asked)) =
      some ([0], [8192]) := by decide

theorem requests_refused : Initial 0x0401A000 ⟨0, []⟩ bootHeap ∧
    ∃ rs h', requests smallLayout 1 [100] bootHeap = some (rs, h') ∧
      smallLayout.stackTop.toNat + total h'.sbrk.asked < 2 ^ 32 ∧ ¬ ∀ r ∈ rs, r ≠ 0 := by
  obtain ⟨⟨rs, h'⟩, hr, hout⟩ := Option.map_eq_some_iff.mp requests_bootHeap
  obtain ⟨rfl, hasked⟩ := Prod.mk.inj hout
  refine ⟨initial_bootHeap, _, h', hr, ?_, by simp⟩
  simp only at hasked
  rw [hasked]
  decide

theorem requests_served_iff_bootHeap :
    ∃ rs h', requests smallLayout 1 [100] bootHeap = some (rs, h') ∧
      ((∀ r ∈ rs, r ≠ 0) ↔ ([100] : List (BitVec 32)) = []) := by
  obtain ⟨⟨rs, h'⟩, hr, hout⟩ := Option.map_eq_some_iff.mp requests_bootHeap
  obtain ⟨-, hasked⟩ := Prod.mk.inj hout
  refine ⟨rs, h', hr, requests_served_iff initial_bootHeap hr ?_⟩
  simp only at hasked
  rw [hasked]
  decide

end TinaOS.Sbrk
