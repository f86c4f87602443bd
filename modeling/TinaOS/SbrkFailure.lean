import TinaOS.Sbrk
import TinaOS.MallocSearch

/-!
# Requests that `sbrk` refuses

`sbrk` tests its limit after it has moved `g_heap`. A request that it refuses is answered with 0
and has left its trace in `g_heap`. A request that comes before `sbrk` to an end, or that `sbrk`
grants, is not answered with 0, except where a block ends at the last byte of the address space.
-/

namespace TinaOS.Sbrk

open ByteMemory Malloc LinkedRing

/-- The allocator over `sbrk` itself, whose state is `g_heap`, and the pointers given out. -/
structure Kernel where
  heap : Heap Ptr
  live : List Ptr

def Kernel.Allows (s : Kernel) : Call → Prop
  | .malloc nbytes => nbytes.toNat ≤ 2 ^ 31 - 16
  | .free ptr => ptr = 0 ∨ ptr ∈ s.live

/-- One call, with the pointer that `malloc` returns. -/
def Kernel.exec (L : Layout) (fuel : ℕ) (s : Kernel) : Call → Option (Ptr × Kernel)
  | .malloc nbytes => (malloc (sbrk L) fuel nbytes s.heap).map fun out =>
      (out.1, ⟨out.2, if out.1 = 0 then s.live else out.1 :: s.live⟩)
  | .free ptr => (free fuel ptr s.heap).map fun h => (0, ⟨h, s.live.erase ptr⟩)

/-- The pointers that a sequence of calls is answered with. -/
def Kernel.answers (L : Layout) (fuel : ℕ) : Kernel → List Call → Option (List Ptr)
  | _, [] => some []
  | s, c :: cs => do
    let (r, s) ← s.exec L fuel c
    let rs ← s.answers L fuel cs
    pure (r :: rs)

structure Kernel.Boot (fl : Ptr) (s : Kernel) : Prop where
  initial : Initial fl 0 s.heap
  live_eq : s.live = []

/-- The runs from boot: the calls made, each with the state before it, the latest first, and the
state reached. -/
inductive Kernel.Run (L : Layout) (fl : Ptr) : List (Kernel × Call) → Kernel → Prop
  | boot {s : Kernel} (h : s.Boot fl) : Run L fl [] s
  | call {s s' : Kernel} {steps c r} {fuel : ℕ} (h : Run L fl steps s) (hc : s.Allows c)
      (hs : s.exec L fuel c = some (r, s')) : Run L fl ((s, c) :: steps) s'

/-- `s'` is the state `s` as far as the allocator can tell. -/
structure Kernel.Same (L : Layout) (s s' : Kernel) : Prop where
  start_eq : L.start s'.heap.sbrk = L.start s.heap.sbrk
  freep_eq : s'.heap.freep = s.heap.freep
  link_eq : ∀ p, link s'.heap.mem p = link s.heap.mem p
  size_eq : ∀ p, size s'.heap.mem p = size s.heap.mem p
  answers_eq : ∀ fuel cs, s'.answers L fuel cs = s.answers L fuel cs

/-- If the request is answered with 0, it has changed nothing. -/
def Kernel.Clean (L : Layout) (s : Kernel) (nbytes : BitVec 32) : Prop :=
  ∀ fuel s', s.exec L fuel (.malloc nbytes) = some (0, s') → s.Same L s'

/-- `sbrk`'s test of the limit passes, and its answer is not the one that means a refusal. -/
def Kernel.Granted (L : Layout) (s : Kernel) (nbytes : BitVec 32) : Prop :=
  L.start s.heap.sbrk + growth (units nbytes) * 8 < L.stackBottom ∧ L.start s.heap.sbrk ≠ -1

/-- The state in which the region of a granted request is in the list. -/
def Kernel.grown (L : Layout) (s : Kernel) (nbytes : BitVec 32) : Kernel where
  heap := insertRegion { s.heap with sbrk := L.start s.heap.sbrk + growth (units nbytes) * 8 }
    (L.start s.heap.sbrk) (growth (units nbytes))
  live := s.live

/-- The requests that are not answered with 0, or change nothing. Where the list has no block,
`sbrk` grants the region that serves the request. A region whose header is laid across the one
at `freep` can be too small for it, and `sbrk` is asked once more. -/
structure Kernel.Spared (L : Layout) (s : Kernel) (nbytes : BitVec 32) : Prop where
  found : s.heap.Pays (units nbytes) ∨ s.heap.Idles (units nbytes)
  granted : s.heap.Exhausts (units nbytes) → s.Granted L nbytes
  region : s.heap.Exhausts (units nbytes) → (s.grown L nbytes).heap.Pays (units nbytes)
  again : s.heap.Exhausts (units nbytes) → (s.grown L nbytes).heap.Exhausts (units nbytes) →
    (s.grown L nbytes).Granted L nbytes ∨
      (L.start s.heap.sbrk + growth (units nbytes) * 8 = 0 ∧
        L.stackTop + growth (units nbytes) * 8 = L.start s.heap.sbrk ∧
        (s.grown L nbytes).heap.mem = s.heap.mem)

variable {L : Layout} {fl g : Ptr} {s s' : Kernel} {h h' : Heap Ptr} {rest : List Ptr}
  {nbytes b : BitVec 32} {steps : List (Kernel × Call)}

/-- What the calls can tell of a heap. -/
def view (L : Layout) (h : Heap Ptr) : Heap Ptr :=
  { h with sbrk := L.start h.sbrk, writes := [] }

def Kernel.view (L : Layout) (s : Kernel) : Kernel := ⟨Sbrk.view L s.heap, s.live⟩

theorem start_start (L : Layout) (g : Ptr) : L.start (L.start g) = L.start g := by
  by_cases hg : g = 0
  · rw [hg]
    exact start_of_le (start_zero_le L)
  · rw [start_of_ne_zero hg, start_of_ne_zero hg]

theorem sbrk_start (L : Layout) (b : BitVec 32) (g : Ptr) :
    sbrk L b (L.start g) = sbrk L b g := by
  simp only [sbrk, start_start]

theorem view_eq (hm : h'.mem = h.mem) (hf : h'.freep = h.freep)
    (hs : L.start h'.sbrk = L.start h.sbrk) : view L h' = view L h := by
  simp only [view, hm, hf, hs]

theorem map_take_view (L : Layout) (h : Heap Ptr) (sz : BitVec 32) (q : Ptr) :
    Prod.map id (view L) (take (view L h) sz q) = Prod.map id (view L) (take h sz q) := by
  have hsbrk : L.start (take (view L h) sz q).2.sbrk = L.start (take h sz q).2.sbrk := by
    rw [sbrk_take, sbrk_take]
    exact start_start L h.sbrk
  have hview : (view L h).mem = h.mem := rfl
  obtain ⟨hfst, hmem⟩ := take_congr hview sz q
  have hfreep : (take (view L h) sz q).2.freep = (take h sz q).2.freep := by
    rw [freep_take, freep_take]
  exact Prod.ext hfst (view_eq hmem hfreep hsbrk)

/-- A call on the view of a heap gives the same answer and a heap with the same view. -/
theorem malloc_view (L : Layout) (n : ℕ) (nbytes : BitVec 32) (h : Heap Ptr) :
    (malloc (sbrk L) n nbytes (view L h)).map (Prod.map id (view L)) =
      (malloc (sbrk L) n nbytes h).map (Prod.map id (view L)) := by
  induction n generalizing h with
  | zero => rfl
  | succ n ih =>
    have hsearch : BoundedLoop.run (searchStep (view L h).mem (view L h).freep (units nbytes))
        (n + 1) (view L h).freep =
          BoundedLoop.run (searchStep h.mem h.freep (units nbytes)) (n + 1) h.freep := rfl
    have hsbrk : sbrk L (growth (units nbytes) * 8) (view L h).sbrk =
        sbrk L (growth (units nbytes) * 8) h.sbrk := sbrk_start L _ _
    simp only [malloc, hsearch, hsbrk]
    cases BoundedLoop.run (searchStep h.mem h.freep (units nbytes)) (n + 1) h.freep with
    | none => rfl
    | some found =>
      cases found with
      | some q => exact congrArg some (map_take_view L h (units nbytes) q)
      | none =>
        obtain ⟨p, s⟩ := sbrk L (growth (units nbytes) * 8) h.sbrk
        simp only
        split_ifs with hp
        · rfl
        · have hgrown : view L (insertRegion { view L h with sbrk := s } p
              (growth (units nbytes))) =
                view L (insertRegion { h with sbrk := s } p (growth (units nbytes))) :=
            view_eq rfl rfl rfl
          rw [← ih, hgrown, ih]

theorem joined_congr (hm : h'.mem = h.mem) (bp p : Ptr) :
    (joinLower (joinUpper h' bp p) bp p).mem = (joinLower (joinUpper h bp p) bp p).mem := by
  have hupper : (joinUpper h' bp p).mem = (joinUpper h bp p).mem := by
    simp only [joinUpper, Heap.setSize, Heap.setLink, hm]
    split_ifs <;> rfl
  simp only [joinLower, Heap.setSize, Heap.setLink, hupper]
  split_ifs <;> rfl

theorem sbrk_joined (h : Heap Ptr) (bp p : Ptr) :
    (joinLower (joinUpper h bp p) bp p).sbrk = h.sbrk := by
  have hupper : (joinUpper h bp p).sbrk = h.sbrk := by
    simp only [joinUpper]
    split_ifs <;> rfl
  rw [← hupper]
  simp only [joinLower]
  split_ifs <;> rfl

theorem free_view (L : Layout) (n : ℕ) (ptr : Ptr) (h : Heap Ptr) :
    (free n ptr (view L h)).map (view L) = (free n ptr h).map (view L) := by
  have hsearch : BoundedLoop.run (freeStep (view L h).mem (ptr - 8)) n (view L h).freep =
      BoundedLoop.run (freeStep h.mem (ptr - 8)) n h.freep := rfl
  simp only [free, hsearch]
  split_ifs
  · exact congrArg some (view_eq rfl rfl (start_start L h.sbrk))
  · cases BoundedLoop.run (freeStep h.mem (ptr - 8)) n h.freep with
    | none => rfl
    | some p =>
      have hview : (view L h).mem = h.mem := rfl
      have hmem := joined_congr hview (ptr - 8) p
      have hsbrk : L.start (joinLower (joinUpper (view L h) (ptr - 8) p) (ptr - 8) p).sbrk =
          L.start (joinLower (joinUpper h (ptr - 8) p) (ptr - 8) p).sbrk := by
        rw [sbrk_joined, sbrk_joined]
        exact start_start L h.sbrk
      rw [Option.map_some, Option.map_some]
      exact congrArg some (view_eq hmem rfl hsbrk)

theorem Kernel.exec_view (L : Layout) (n : ℕ) (s : Kernel) (c : Call) :
    ((s.view L).exec L n c).map (Prod.map id (Kernel.view L)) =
      (s.exec L n c).map (Prod.map id (Kernel.view L)) := by
  cases c with
  | malloc nbytes =>
    have hm := congrArg (Option.map fun out => (out.1, Kernel.mk out.2
      (if out.1 = 0 then s.live else out.1 :: s.live))) (malloc_view L n nbytes s.heap)
    rw [Option.map_map, Option.map_map] at hm
    rw [exec, exec, Option.map_map, Option.map_map]
    exact hm
  | free ptr =>
    have hf := congrArg (Option.map fun h => ((0 : Ptr), Kernel.mk h (s.live.erase ptr)))
      (free_view L n ptr s.heap)
    rw [Option.map_map, Option.map_map] at hf
    rw [exec, exec, Option.map_map, Option.map_map]
    exact hf

/-- Every sequence of calls is answered from the view alone. -/
theorem Kernel.answers_view (L : Layout) (n : ℕ) (s : Kernel) (cs : List Call) :
    (s.view L).answers L n cs = s.answers L n cs := by
  induction cs generalizing s with
  | nil => rfl
  | cons c cs ih =>
    have hcons : ∀ s : Kernel, s.answers L n (c :: cs) =
        ((s.exec L n c).map (Prod.map id (Kernel.view L))).bind fun out =>
          (out.2.answers L n cs).map (out.1 :: ·) := by
      intro s
      cases hexec : s.exec L n c with
      | none => simp [answers, hexec]
      | some out => simp [answers, hexec, ih, Option.map_eq_bind]
    rw [hcons, hcons s, Kernel.exec_view]

/-- A request that is answered with 0 has to leave the memory, `freep` and the place from which
`sbrk` starts as they were. -/
theorem Kernel.clean_iff_kept : s.Clean L nbytes ↔
    ∀ n h', malloc (sbrk L) n nbytes s.heap = some (0, h') →
      h'.mem = s.heap.mem ∧ h'.freep = s.heap.freep ∧ L.start h'.sbrk = L.start s.heap.sbrk := by
  constructor
  · intro hclean n h' hm
    have hexec : s.exec L n (.malloc nbytes) = some (0, ⟨h', s.live⟩) := by
      rw [exec, hm]
      rfl
    have S := hclean n _ hexec
    exact ⟨eq_of_load32 S.link_eq, S.freep_eq, S.start_eq⟩
  · intro hkept fuel s' hexec
    rw [exec, Option.map_eq_some_iff] at hexec
    obtain ⟨⟨r, h'⟩, hm, heq⟩ := hexec
    obtain ⟨rfl, rfl⟩ := Prod.mk.inj heq
    obtain ⟨hmem, hfreep, hstart⟩ := hkept fuel h' hm
    constructor
    case start_eq => exact hstart
    case freep_eq => exact hfreep
    case link_eq => exact fun p => congrArg (link · p) hmem
    case size_eq => exact fun p => congrArg (size · p) hmem
    case answers_eq =>
      intro fuel cs
      rw [← Kernel.answers_view, ← Kernel.answers_view L fuel s]
      simp only [Kernel.view, Sbrk.view, hmem, hfreep, hstart, if_true]

/-- `g_heap` does not come back to where it was by one step of less than half of the memory. -/
theorem start_moves (hL : L.stackTop.toNat ≤ 2 ^ 31) (hpos : 0 < b.toNat) (hb : b.toNat < 2 ^ 31)
    (g : Ptr) : L.start (L.start g + b) ≠ L.start g := by
  intro hback
  by_cases h0 : L.start g + b = 0
  · rw [h0, Layout.start, if_pos rfl] at hback
    have hsum := congrArg BitVec.toNat h0
    rw [← hback, BitVec.toNat_add] at hsum
    simp only [BitVec.reduceToNat] at hsum
    omega
  · rw [start_of_ne_zero h0] at hback
    have hsum := congrArg BitVec.toNat hback
    have hlt := (L.start g).isLt
    rw [BitVec.toNat_add] at hsum
    omega

/-- A second step brings `g_heap` back only over the value 0, which stands for `stack_top`. -/
theorem start_returns_iff (hL : L.stackTop.toNat ≤ 2 ^ 31) (hpos : 0 < b.toNat)
    (hb : b.toNat < 2 ^ 31) (hlt : L.start g + b < L.stackBottom) :
    L.start (L.start (L.start g + b) + b) = L.start g ↔
      L.start g + b = 0 ∧ L.stackTop + b = L.start g := by
  have hstack := L.stack_eq
  have hbelow := BitVec.lt_def.mp hlt
  by_cases h0 : L.start g + b = 0
  · have htop : L.start 0 = L.stackTop := if_pos rfl
    have hne : L.stackTop + b ≠ 0 := by
      intro hzero
      have hsum := congrArg BitVec.toNat hzero
      simp only [BitVec.toNat_add, BitVec.reduceToNat] at hsum
      omega
    rw [and_iff_right h0, h0, htop, start_of_ne_zero hne]
  · refine iff_of_false (fun hback => ?_) fun hround => h0 hround.1
    have hstart := start_of_ne_zero (L := L) h0
    rw [hstart] at hback
    by_cases h1 : L.start g + b + b = 0
    · rw [h1, Layout.start, if_pos rfl] at hback
      rw [← hback, BitVec.toNat_add] at hbelow
      omega
    · rw [start_of_ne_zero h1] at hback
      have hsum := congrArg BitVec.toNat hback
      have hg := (L.start g).isLt
      simp only [BitVec.toNat_add] at hsum
      omega

theorem Kernel.Granted.sbrk_eq (G : s.Granted L nbytes) :
    sbrk L (growth (units nbytes) * 8) s.heap.sbrk =
      (L.start s.heap.sbrk, L.start s.heap.sbrk + growth (units nbytes) * 8) := sbrk_given G.1

theorem sbrk_refused (hno : ¬ s.Granted L nbytes) :
    sbrk L (growth (units nbytes) * 8) s.heap.sbrk =
      (-1, L.start s.heap.sbrk + growth (units nbytes) * 8) := by
  by_cases hfull : L.stackBottom ≤ L.start s.heap.sbrk + growth (units nbytes) * 8
  · exact sbrk_full hfull
  · have hlt := BitVec.not_le.mp hfull
    rw [sbrk_given hlt, not_not.mp fun hne => hno ⟨hlt, hne⟩]

theorem malloc_of_granted (E : s.heap.Exhausts (units nbytes)) (G : s.Granted L nbytes) {n : ℕ}
    {out : Ptr × Heap Ptr} (hm : malloc (sbrk L) n nbytes (s.grown L nbytes).heap = some out) :
    ∃ n, malloc (sbrk L) n nbytes s.heap = some out :=
  (malloc_of_exhausts E G.sbrk_eq).2 G.2 n out hm

theorem malloc_of_refused (E : s.heap.Exhausts (units nbytes)) (hno : ¬ s.Granted L nbytes) :
    ∃ n, malloc (sbrk L) n nbytes s.heap =
      some (0, { s.heap with sbrk := L.start s.heap.sbrk + growth (units nbytes) * 8 }) :=
  (malloc_of_exhausts E (sbrk_refused hno)).1 rfl

/-- What a call that returned came from: the list, a region, or a refusal. -/
theorem Kernel.malloc_cases {n : ℕ} {out : Ptr × Heap Ptr}
    (hm : malloc (sbrk L) n nbytes s.heap = some out) :
    (∃ q, s.heap.Finds (units nbytes) q ∧ take s.heap (units nbytes) q = out) ∨
    (s.heap.Exhausts (units nbytes) ∧ s.Granted L nbytes ∧
      ∃ k, malloc (sbrk L) k nbytes (s.grown L nbytes).heap = some out) ∨
    (s.heap.Exhausts (units nbytes) ∧ ¬ s.Granted L nbytes ∧
      (0, { s.heap with sbrk := L.start s.heap.sbrk + growth (units nbytes) * 8 }) = out) := by
  rcases malloc_search hm with hfound | ⟨E, p, g, hs, hend⟩
  · exact .inl hfound
  · right
    by_cases G : s.Granted L nbytes
    · obtain ⟨rfl, rfl⟩ := Prod.mk.inj (hs.symm.trans G.sbrk_eq)
      exact .inl ⟨E, G, (hend.resolve_left fun hfail => G.2 hfail.1).2⟩
    · obtain ⟨rfl, rfl⟩ := Prod.mk.inj (hs.symm.trans (sbrk_refused G))
      exact .inr ⟨E, G, (hend.resolve_right fun hgiven => hgiven.1 rfl).2⟩

/-- Once `sbrk` has moved `g_heap`, the request must not be answered with 0. -/
theorem Kernel.Clean.spared (hL : L.stackTop.toNat ≤ 2 ^ 31) (hn : nbytes.toNat ≤ 2 ^ 31 - 16)
    (hclean : s.Clean L nbytes) : s.Spared L nbytes := by
  rw [Kernel.clean_iff_kept] at hclean
  obtain ⟨hbytes, hlt⟩ := growth_bytes hn
  have hgrowth := growth_toNat (units nbytes)
  have hmoves := start_moves hL (b := growth (units nbytes) * 8) (by omega) (by omega)
    s.heap.sbrk
  have hgranted : s.heap.Exhausts (units nbytes) → s.Granted L nbytes := by
    intro E
    by_contra hno
    obtain ⟨n, hm⟩ := malloc_of_refused E hno
    exact hmoves (hclean n _ hm).2.2
  constructor
  case found =>
    refine or_iff_not_imp_left.mpr fun hno => ?_
    obtain ⟨q, n, F, hm⟩ := malloc_of_not_pays (sbrk L) hno
    obtain ⟨hmem, hfreep, -⟩ := hclean n _ hm
    exact F.idles (units_pos nbytes) hfreep hmem
  case granted => exact hgranted
  case region =>
    intro E
    by_contra hno
    obtain ⟨q, n, F, hm⟩ := malloc_of_not_pays (sbrk L) hno
    obtain ⟨n, hm⟩ := malloc_of_granted E (hgranted E) hm
    have hback := (hclean n _ hm).2.2
    rw [sbrk_take] at hback
    exact hmoves hback
  case again =>
    intro E E'
    refine or_iff_not_imp_left.mpr fun hno => ?_
    obtain ⟨n, hm⟩ := malloc_of_refused E' hno
    obtain ⟨n, hm⟩ := malloc_of_granted E (hgranted E) hm
    obtain ⟨hmem, -, hback⟩ := hclean n _ hm
    have hround := (start_returns_iff hL (by omega) (by omega) (hgranted E).1).mp hback
    exact ⟨hround.1, hround.2, hmem⟩

theorem units_le_growth (sz : BitVec 32) : sz ≤ growth sz := by
  have hgrowth := growth_toNat sz
  rw [BitVec.le_def]
  omega

theorem Kernel.freep_grown (L : Layout) (s : Kernel) (nbytes : BitVec 32) :
    (s.grown L nbytes).heap.freep = s.heap.freep := rfl

theorem cuts_of_grown (E : (s.grown L nbytes).heap.Exhausts (units nbytes)) :
    Cuts s.heap.freep (L.start s.heap.sbrk) := cuts_of_exhausts (units_le_growth _) E

theorem pays_grown_iff (hcut : ¬ Cuts s.heap.freep (L.start s.heap.sbrk)) :
    (s.grown L nbytes).heap.Pays (units nbytes) ↔
      advance (L.start s.heap.sbrk) (growth (units nbytes) - units nbytes) + 8 ≠ 0 :=
  pays_insertRegion_iff hcut (units_le_growth _)

/-- `stack_top` lies above the limit, so a second region begins where the first one ends. -/
theorem start_again (hL : L.stackTop.toNat ≤ 2 ^ 31) (hb : b.toNat < 2 ^ 31)
    (hlt : L.start g + b < L.stackBottom) : g ≠ 0 := by
  rintro rfl
  have hstack := L.stack_eq
  rw [Layout.start, if_pos rfl, BitVec.lt_def, BitVec.toNat_add] at hlt
  omega

/-- The header of a second region stays clear of `freep`, and the region ends below the stack. -/
theorem again_pays (hL : L.stackTop.toNat ≤ 2 ^ 31) (hn : nbytes.toNat ≤ 2 ^ 31 - 16)
    (G : s.Granted L nbytes) (E : (s.grown L nbytes).heap.Exhausts (units nbytes))
    (G' : (s.grown L nbytes).Granted L nbytes) :
    ((s.grown L nbytes).grown L nbytes).heap.Pays (units nbytes) ∧
      ¬ ((s.grown L nbytes).grown L nbytes).heap.Exhausts (units nbytes) := by
  obtain ⟨hbytes, hlt⟩ := growth_bytes hn
  have hgrowth := growth_toNat (units nbytes)
  have hpos := units_pos nbytes
  have hstack := L.stack_eq
  have hcut := cuts_of_grown E
  have hsbrk : (s.grown L nbytes).heap.sbrk = L.start s.heap.sbrk + growth (units nbytes) * 8 := rfl
  have hend : L.start s.heap.sbrk + growth (units nbytes) * 8 ≠ 0 :=
    start_again hL (by omega) G'.1
  have hbelow := BitVec.lt_def.mp G.1
  have hbelow' := BitVec.lt_def.mp G'.1
  rw [hsbrk, start_of_ne_zero hend, BitVec.toNat_add] at hbelow'
  have hcut' : ¬ Cuts (s.grown L nbytes).heap.freep (L.start (s.grown L nbytes).heap.sbrk) := by
    rw [Kernel.freep_grown, hsbrk, start_of_ne_zero hend]
    simp only [Cuts, BitVec.toNat_sub, BitVec.toNat_add] at hcut ⊢
    omega
  have hpays : advance (L.start (s.grown L nbytes).heap.sbrk)
      (growth (units nbytes) - units nbytes) + 8 ≠ 0 := by
    rw [hsbrk, start_of_ne_zero hend, advance]
    intro hzero
    have hsum := congrArg BitVec.toNat hzero
    generalize L.start s.heap.sbrk + growth (units nbytes) * 8 = r at *
    simp only [BitVec.toNat_add, BitVec.toNat_mul, BitVec.toNat_sub, BitVec.reduceToNat] at hsum
    omega
  exact ⟨(pays_grown_iff hcut').mpr hpays, fun E' => hcut' (cuts_of_grown E')⟩

theorem Kernel.Spared.clean (hL : L.stackTop.toNat ≤ 2 ^ 31) (hn : nbytes.toNat ≤ 2 ^ 31 - 16)
    (S : s.Spared L nbytes) : s.Clean L nbytes := by
  rw [Kernel.clean_iff_kept]
  intro n h' hm
  rcases Kernel.malloc_cases hm with ⟨q, F, htake⟩ | ⟨E, G, k, hk⟩ | ⟨E, hno, -⟩
  · have I := S.found.resolve_left fun hpays => hpays.take_fst_ne F (congrArg Prod.fst htake)
    obtain rfl : q = s.heap.freep := F.unique I.1
    obtain ⟨hfreep, hmem⟩ := (take_unchanged_iff (units_pos nbytes) F.fits).mpr ⟨rfl, I.2⟩
    have hsbrk := sbrk_take s.heap (units nbytes) s.heap.freep
    rw [htake] at hfreep hmem hsbrk
    exact ⟨hmem, hfreep, congrArg L.start hsbrk⟩
  · rcases Kernel.malloc_cases hk with ⟨q, F, htake⟩ | ⟨E', G', k', hk'⟩ | ⟨E', hno', heq⟩
    · exact absurd (congrArg Prod.fst htake) ((S.region E).take_fst_ne F)
    · obtain ⟨hpays, hround⟩ := again_pays hL hn G E' G'
      rcases Kernel.malloc_cases hk' with ⟨q, F, htake⟩ | ⟨E'', -⟩ | ⟨E'', -⟩
      · exact absurd (congrArg Prod.fst htake) (hpays.take_fst_ne F)
      · exact absurd E'' hround
      · exact absurd E'' hround
    · obtain ⟨hzero, htop, hmem⟩ := (S.again E E').resolve_left hno'
      obtain ⟨hbytes, hlt⟩ := growth_bytes hn
      have hgrowth := growth_toNat (units nbytes)
      have hback := (start_returns_iff hL (by omega) (by omega) G.1).mpr ⟨hzero, htop⟩
      obtain ⟨-, rfl⟩ := Prod.mk.inj heq
      exact ⟨hmem, rfl, hback⟩
  · exact absurd (S.granted E) hno

/-- In a list whose blocks end below the last byte, with a region clear of `freep`: a request is
answered with 0 only without a trace exactly if some block serves it or `sbrk` grants it, but
for a region whose last header is that of the address space. -/
theorem clean_iff_of_ring (hL : L.stackTop.toNat ≤ 2 ^ 31) (hn : nbytes.toNat ≤ 2 ^ 31 - 16)
    (hring : IsRing (link s.heap.mem) (s.heap.freep :: rest))
    (hends : ∀ p ∈ s.heap.freep :: rest, p.toNat + 8 * (size s.heap.mem p).toNat < 2 ^ 32)
    (hcut : ¬ Cuts s.heap.freep (L.start s.heap.sbrk)) :
    s.Clean L nbytes ↔ (∃ p ∈ s.heap.freep :: rest, units nbytes ≤ size s.heap.mem p) ∨
      (s.Granted L nbytes ∧
        advance (L.start s.heap.sbrk) (growth (units nbytes) - units nbytes) + 8 ≠ 0) := by
  have hround : s.heap.Exhausts (units nbytes) ↔
      ∀ p ∈ s.heap.freep :: rest, size s.heap.mem p < units nbytes := exhausts_iff_of_ring hring
  constructor
  · intro hclean
    have S := hclean.spared hL hn
    refine or_iff_not_imp_left.mpr fun hno => ?_
    have E := hround.mpr fun p hp => BitVec.not_le.mp fun hle => hno ⟨p, hp, hle⟩
    exact ⟨S.granted E, (pays_grown_iff hcut).mp (S.region E)⟩
  · intro hserved
    have hgranted : s.heap.Exhausts (units nbytes) → s.Granted L nbytes ∧
        advance (L.start s.heap.sbrk) (growth (units nbytes) - units nbytes) + 8 ≠ 0 := by
      intro E
      refine hserved.resolve_left fun ⟨p, hp, hle⟩ => ?_
      exact absurd hle (BitVec.not_le.mpr (hround.mp E p hp))
    refine Kernel.Spared.clean hL hn ⟨.inl ?_, fun E => (hgranted E).1,
      fun E => (pays_grown_iff hcut).mpr (hgranted E).2, fun _ E' => absurd (cuts_of_grown E') hcut⟩
    intro q F hzero
    have hend := hends _ (F.mem_ring hring)
    have hfit := BitVec.le_def.mp F.fits
    have hpos := units_pos nbytes
    have hsum := congrArg BitVec.toNat hzero
    simp only [carved, advance, BitVec.toNat_add, BitVec.toNat_mul, BitVec.toNat_sub_of_le F.fits,
      BitVec.reduceToNat] at hsum
    omega

/-- A request that is refused is one that leaves a trace. -/
theorem not_clean_of_refused (hL : L.stackTop.toNat ≤ 2 ^ 31) (hn : nbytes.toNat ≤ 2 ^ 31 - 16)
    (hring : IsRing (link s.heap.mem) (s.heap.freep :: rest))
    (hsmall : ∀ p ∈ s.heap.freep :: rest, size s.heap.mem p < units nbytes)
    (hno : ¬ s.Granted L nbytes) : ¬ s.Clean L nbytes := fun hclean =>
  hno ((hclean.spared hL hn).granted ((exhausts_iff_of_ring hring).mpr hsmall))

/-- At boot, with the image in the lower half of the address space, every request is refused. -/
theorem Kernel.Boot.not_clean (hb : s.Boot fl) (hL : L.stackTop.toNat ≤ 2 ^ 31)
    (hn : nbytes.toNat ≤ 2 ^ 31 - 16) : ¬ s.Clean L nbytes := by
  obtain ⟨-, hlink, hsize, hfreep, hsbrk⟩ := hb.initial
  obtain ⟨hbytes, hlt⟩ := growth_bytes hn
  have hring : IsRing (link s.heap.mem) [s.heap.freep] := by
    rw [hfreep]
    exact isRing_cons.mpr ⟨by simp, by simp [hlink]⟩
  apply not_clean_of_refused hL hn hring
  · intro p hp
    rw [List.mem_singleton.mp hp, hfreep, hsize, BitVec.lt_def]
    exact units_pos nbytes
  · intro G
    exact start_again hL (by omega) G.1 hsbrk

/-- In any state a request is answered with 0 only without a trace exactly if it is spared. -/
theorem clean_iff (hL : L.stackTop.toNat ≤ 2 ^ 31) (hn : nbytes.toNat ≤ 2 ^ 31 - 16) :
    s.Clean L nbytes ↔ s.Spared L nbytes :=
  ⟨fun hclean => hclean.spared hL hn, fun S => S.clean hL hn⟩

/-- The kernel of `smallLayout` at boot. -/
def bootKernel : Kernel where
  heap := { mem := store32 (fun _ => 0) 0x0401A000 0x0401A000, freep := 0x0401A000, sbrk := 0, writes := [] }
  live := []

theorem boot_bootKernel : bootKernel.Boot 0x0401A000 :=
  ⟨⟨by decide, by decide, by decide, rfl, rfl⟩, rfl⟩

/-- The refused request for 100 bytes moves the region that a later request gets. -/
theorem not_clean_bootKernel : bootKernel.Boot 0x0401A000 ∧ ¬ bootKernel.Clean smallLayout 100 ∧
    ∃ cs, bootKernel.answers smallLayout 3 cs = some [0, 0x84020000] ∧
      bootKernel.answers smallLayout 3 (.malloc 100 :: cs) = some [0, 0, 0x84022000] :=
  ⟨boot_bootKernel, boot_bootKernel.not_clean (by decide) (by decide),
    [.malloc 0x7FFFFFF0, .malloc 0x7BFFFFF8], by decide, by decide⟩

private theorem freed_bootKernel : (do
    let (r₁, s₁) ← bootKernel.exec smallLayout 1 (.malloc 0x7FFFFFF0)
    let (r₂, s₂) ← s₁.exec smallLayout 2 (.malloc 0x7BFE0000)
    let (_, s₃) ← s₂.exec smallLayout 1 (.free 0x84020000)
    pure ([r₁, r₂], s₂.live, s₃.heap.freep, link s₃.heap.mem s₃.heap.freep,
      size s₃.heap.mem (link s₃.heap.mem s₃.heap.freep))) =
    some ([0, 0x84020000], [0x84020000], 0x0401A000, 0x8401FFF8, 0x0F7FC001) := by
  decide

/-- After a refused request, a granted one and a call of `free`, the list serves 100 bytes. -/
theorem clean_iff_bootKernel :
    (∃ steps s, Kernel.Run smallLayout 0x0401A000 steps s ∧ steps.map Prod.snd =
      [.free 0x84020000, .malloc 0x7BFE0000, .malloc 0x7FFFFFF0] ∧ s.Clean smallLayout 100) ∧
    ¬ bootKernel.Clean smallLayout 100 := by
  constructor
  · have hfreed := freed_bootKernel
    simp only [Option.bind_eq_bind, Option.bind_eq_some_iff, Option.pure_def, Option.some.injEq,
      Prod.mk.injEq, Prod.exists, List.cons.injEq, and_true] at hfreed
    obtain ⟨r₁, s₁, h₁, r₂, s₂, h₂, r₃, s₃, h₃, ⟨rfl, rfl⟩, hlive, hfreep, hlink, hsize⟩ := hfreed
    have hboot : Kernel.Run smallLayout 0x0401A000 [] bootKernel := .boot boot_bootKernel
    have hrefused := hboot.call (c := .malloc 0x7FFFFFF0) (by decide : _ ≤ _) h₁
    have hgranted := hrefused.call (c := .malloc 0x7BFE0000) (by decide : _ ≤ _) h₂
    have hrun := hgranted.call (c := .free 0x84020000) (.inr (by simp [hlive])) h₃
    refine ⟨_, s₃, hrun, rfl, (clean_iff (by decide) (by decide)).mpr ?_⟩
    have hunits : units 100 = 14 := by decide
    have F : s₃.heap.Finds 14 0x0401A000 := by
      refine ⟨0, fun i hi => absurd hi (Nat.not_lt_zero i), hfreep.symm, ?_⟩
      rw [Heap.block_eq, Function.iterate_zero_apply, hsize]
      decide
    rw [← hunits] at F
    refine ⟨.inl fun q hq => ?_, fun E => absurd E F.not_exhausts,
      fun E => absurd E F.not_exhausts, fun E => absurd E F.not_exhausts⟩
    rw [hq.unique F, carved, ← hfreep, hsize, hlink, hunits]
    decide
  · intro hclean
    have S := (clean_iff (by decide) (by decide)).mp hclean
    have E : bootKernel.heap.Exhausts (units 100) :=
      ⟨0, fun i hi => absurd hi (Nat.not_lt_zero i), by decide, by decide⟩
    exact absurd (S.granted E).1 (by decide)

end TinaOS.Sbrk
