import TinaOS.Library.MaximalRuns
import TinaOS.FreeOrder
import TinaOS.Calloc
import Mathlib.Data.List.Sort

/-!
# The free list as the maximal runs of free memory

A list in order holds its memory in the largest blocks that there can be. So `malloc` finds a
block in it whenever enough free addresses lie in a row, the list depends on nothing but the
free addresses, what `malloc` takes from it `free` brings back, down to the last word, and the
list never gets long.
-/

namespace TinaOS.Malloc

open ByteMemory Arenas LinkedRing

variable {fl : Ptr} {answer answer' : SbrkLog → BitVec 32 → Ptr} {s s' : Machine}
  {rest : List Ptr} {A : Arena} {p q r : Ptr} {h' : Heap SbrkLog} {nbytes : BitVec 32} {fuel a : ℕ}

/-- The address was obtained from `sbrk` and belongs to no live block. -/
def FreeCell (s : Machine) (a : ℕ) : Prop :=
  (∃ e ∈ regions s.heap.sbrk, a ∈ e.cells) ∧
    ∀ ptr ∈ s.live, a ∉ (extent s.heap.mem (headerOf ptr)).cells

theorem freeCell_congr (hsbrk : s'.heap.sbrk = s.heap.sbrk) (hlive : s'.live = s.live)
    (hext : ∀ ptr ∈ s.live,
      extent s'.heap.mem (headerOf ptr) = extent s.heap.mem (headerOf ptr)) :
    FreeCell s' a ↔ FreeCell s a := by
  rw [FreeCell, FreeCell, hsbrk, hlive]
  refine and_congr_right fun _ => forall₂_congr fun ptr hptr => ?_
  rw [hext ptr hptr]

/-- The blocks of the list, `freelist` apart. -/
def freeBlocks (fl : Ptr) (s : Machine) : Set Extent :=
  { e | ∃ p, FreeNode s.heap p ∧ p ≠ fl ∧ extent s.heap.mem p = e }

theorem extent_inj {m m' : ByteMemory.Mem} (heq : extent m p = extent m' q) :
    p = q ∧ size m p = size m' q := by
  simp only [extent, Extent.mk.injEq] at heq
  exact ⟨BitVec.eq_of_toNat_eq heq.1, BitVec.eq_of_toNat_eq (by omega)⟩

theorem Sound.covered_iff (S : Sound fl s rest A) : Covered (freeBlocks fl s) a ↔ FreeCell s a := by
  have D := S.divided
  have hpair := List.pairwise_append.mp D.disjoint
  constructor
  · rintro ⟨e, ⟨p, hp, -, rfl⟩, ha⟩
    have hmem := S.freeNode_iff.mp hp
    refine ⟨(D.covers a).mp ⟨p, List.mem_append_left _ hmem, ha⟩, fun ptr hptr hin => ?_⟩
    have hdisjoint := hpair.2.2 p hmem _ (List.mem_map_of_mem (f := headerOf) hptr)
    exact Multiset.disjoint_left.mp hdisjoint ha hin
  · rintro ⟨howned, hlive⟩
    obtain ⟨p, hp, ha⟩ := (D.covers a).mpr howned
    rcases List.mem_append.mp hp with hp | hp
    · refine ⟨_, ⟨p, S.freeNode hp, ?_, rfl⟩, ha⟩
      rintro rfl
      rw [extent, S.represents.tiling.freelist_size] at ha
      exact Multiset.notMem_zero a (Extent.cells_zero p.toNat ▸ ha)
    · obtain ⟨ptr, hptr, rfl⟩ := List.mem_map.mp hp
      exact absurd ha (hlive ptr hptr)

theorem Sound.spaced (S : Sound fl s rest A) (ho : Ordered fl s.heap.mem) :
    Spaced (freeBlocks fl s) := by
  have R := S.represents
  have T := R.tiling
  obtain ⟨t, hring, -, hapart⟩ := ho
  have hin : ∀ {p}, FreeNode s.heap p → p ∈ fl :: t ∧ p ∈ (s.heap.freep :: rest) ++
      s.live.map headerOf := by
    intro p hp
    have hmem := S.freeNode_iff.mp hp
    exact ⟨R.ring.subset_of_mem hring T.freelist_mem List.mem_cons_self hmem,
      List.mem_append_left _ hmem⟩
  constructor
  case len_pos =>
    rintro e ⟨p, hp, hne, rfl⟩
    have hpos := T.size_pos p (hin hp).2 hne
    simp only [extent]
    omega
  case gap =>
    rintro e ⟨p, hp, hpf, rfl⟩ f ⟨q, hq, hqf, rfl⟩ hne
    have hpq : p ≠ q := fun heq => hne (heq ▸ rfl)
    have hblocks := T.blocks_apart (hin hp).2 (hin hq).2 hpq hpf hqf
    have hpq' := hapart p (hin hp).1 q (hin hq).1 hpq
    have hqp' := hapart q (hin hq).1 p (hin hp).1 hpq.symm
    simp only [Extent.hi, extent]
    omega

theorem Sound.mem_freeBlocks (S : Sound fl s rest A) (ho : Ordered fl s.heap.mem) {e : Extent} :
    e ∈ freeBlocks fl s ↔ MaximalRun (FreeCell s) e := by
  rw [(S.spaced ho).mem_iff]
  exact ⟨fun h => h.congr fun _ => S.covered_iff.symm, fun h => h.congr fun _ => S.covered_iff⟩

theorem Run.ordered (ha : Rising fl answer) {steps : List (Machine × Call)}
    (hr : Run fl answer steps s) (hc : ∀ x ∈ steps, Orderly fl answer x.1 x.2) :
    Ordered fl s.heap.mem := by
  induction hr with
  | boot hb => exact ordered_boot hb
  | call hr hallowed hs ih =>
    obtain ⟨hlast, hsteps⟩ := List.forall_mem_cons.mp hc
    obtain ⟨rest, A, -, S⟩ := hr.reachable.sound ha.fair
    exact (S.ordered_call ha hallowed hs (ih hsteps)).mpr hlast

/-- The blocks of a list in order are the maximal runs of free addresses. -/
theorem free_blocks_maximal (ha : Fair fl answer) (hr : Reachable fl answer s)
    (ho : Ordered fl s.heap.mem) (e : Extent) :
    (∃ p, FreeNode s.heap p ∧ p ≠ fl ∧ extent s.heap.mem p = e) ↔ MaximalRun (FreeCell s) e := by
  obtain ⟨rest, A, -, S⟩ := hr.sound ha
  exact S.mem_freeBlocks ho

/-- A block of 14 units is live at the high end of the first region. -/
theorem run_carved : ∃ s, exec twiceAnswer 4 bootMachine (.malloc 100) = some s ∧
    Run 16 twiceAnswer [(bootMachine, .malloc 100)] s ∧ s.live = [12184] ∧
    link s.heap.mem s.heap.freep = 4096 ∧ size s.heap.mem 4096 = 1010 ∧
    regions s.heap.sbrk = [⟨4096, 8192⟩] ∧ size s.heap.mem 12176 = 14 := by
  have hrun : (exec twiceAnswer 4 bootMachine (.malloc 100)).map (fun s => (s.live,
      link s.heap.mem s.heap.freep, size s.heap.mem 4096, regions s.heap.sbrk,
      size s.heap.mem 12176)) = some ([12184], 4096, 1010, [⟨4096, 8192⟩], 14) := by decide
  obtain ⟨s, hs, hfacts⟩ := Option.map_eq_some_iff.mp hrun
  simp only [Prod.mk.injEq] at hfacts
  have hsmall : (100 : BitVec 32).toNat ≤ 2 ^ 31 - 16 := by decide
  exact ⟨s, hs, .call (.boot boot_bootMachine) hsmall hs, hfacts⟩

theorem orderly_carved : ∀ x ∈ [(bootMachine, Call.malloc 100)], Orderly 16 twiceAnswer x.1 x.2 := by
  intro x hx
  rw [List.mem_singleton.mp hx]
  exact fun _ _ _ => by decide

theorem free_blocks_maximal_carved :
    ∃ s, exec twiceAnswer 4 bootMachine (.malloc 100) = some s ∧ MaximalRun (FreeCell s) ⟨4096, 8080⟩ := by
  obtain ⟨s, hs, hr, -, hlink, hsize, -⟩ := run_carved
  refine ⟨s, hs, (free_blocks_maximal rising_twiceAnswer.fair hr.reachable
    (hr.ordered rising_twiceAnswer orderly_carved) _).mp ⟨4096, ⟨1, hlink⟩, by decide, ?_⟩⟩
  rw [extent, hsize]
  rfl

/-- A call is served without `sbrk` exactly if some block of the list is large enough. -/
theorem Sound.found_iff (S : Sound fl s rest A) (hg : Grows fl answer s.heap.sbrk nbytes)
    (hm : malloc (oracle answer) fuel nbytes s.heap = some (r, h')) :
    (r ≠ 0 ∧ h'.sbrk = s.heap.sbrk) ↔
      ∃ b, FreeNode s.heap b ∧ units nbytes ≤ size s.heap.mem b := by
  have R := S.represents
  have hanswer := oracle_eq answer (growth (units nbytes) * 8) s.heap.sbrk
  have hfresh := hg.fresh S.owned
  constructor
  · rintro ⟨hr, hsbrk⟩
    by_contra hno
    have hnone : (s.heap.freep :: rest).find? (fits s.heap.mem (units nbytes)) = none := by
      rw [← S.noFit_iff]
      intro b hb
      exact BitVec.not_le.mp fun hle => hno ⟨b, hb, hle⟩
    have hne : answer s.heap.sbrk (growth (units nbytes) * 8) ≠ -1 := fun hp =>
      hr ((malloc_eq_zero_iff R hanswer hfresh hm).mpr ⟨hnone, hp⟩)
    obtain ⟨r', h'', hm', -, -, hsbrk', -⟩ :=
      malloc_grows R (Nat.le_refl _) hnone hanswer (hfresh.resolve_left hne)
    obtain ⟨-, rfl⟩ := Prod.mk.inj (malloc_unique hm' hm)
    exact List.cons_ne_self _ _ (hsbrk'.symm.trans hsbrk)
  · rintro ⟨b, hb, hle⟩
    rcases malloc_outcome R hanswer hfresh hm with ⟨q, hq, htake⟩ | ⟨hnone, -⟩
    · obtain ⟨A', V, -, hsbrk⟩ := take_spec R (List.mem_of_find?_eq_some hq) (units_pos nbytes)
        (List.find?_some hq) htake
      exact ⟨V.ne_zero, hsbrk⟩
    · exact absurd (S.noFit_iff.mpr hnone b hb) (BitVec.not_lt.mpr hle)

/-- With a list in order, `malloc` is served without `sbrk` exactly if as many free addresses as
its block needs lie in a row. -/
theorem malloc_found_iff_run (ha : Fair fl answer) (hr : Reachable fl answer s)
    (ho : Ordered fl s.heap.mem) (hn : nbytes.toNat ≤ 2 ^ 31 - 16)
    (hm : malloc (oracle answer) fuel nbytes s.heap = some (r, h')) :
    (r ≠ 0 ∧ h'.sbrk = s.heap.sbrk) ↔
      ∃ lo, ∀ i < 8 * ((nbytes.toNat + 7) / 8 + 1), FreeCell s (lo + i) := by
  obtain ⟨rest, A, -, S⟩ := hr.sound ha
  have hunits := units_toNat hn
  rw [S.found_iff (ha.grows hn _) hm]
  constructor
  · rintro ⟨b, hb, hle⟩
    have hle' : (units nbytes).toNat ≤ (size s.heap.mem b).toNat := hle
    refine ⟨b.toNat, fun i hi => S.covered_iff.mp ⟨_, ⟨b, hb, ?_, rfl⟩, ?_⟩⟩
    · exact ne_freelist_of_size_pos S.represents.tiling (by omega)
    · simp only [Extent.mem_cells, extent]
      omega
  · rintro ⟨lo, hrun⟩
    obtain ⟨-, ⟨p, hp, -, rfl⟩, hlo, hhi⟩ := (S.spaced ho).exists_of_run
      (e := ⟨lo, 8 * ((nbytes.toNat + 7) / 8 + 1)⟩) (Nat.mul_pos (by decide) (Nat.succ_pos _)) (by
        intro a ha
        rw [Extent.mem_cells] at ha
        obtain ⟨i, rfl⟩ := Nat.exists_eq_add_of_le ha.1
        exact S.covered_iff.mpr (hrun i (by simpa using ha.2)))
    simp only [Extent.hi, extent] at hlo hhi
    refine ⟨p, hp, ?_⟩
    rw [BitVec.le_def]
    omega

theorem malloc_found_iff_run_carved : ∃ s r h', exec twiceAnswer 4 bootMachine (.malloc 100) = some s ∧
    malloc (oracle twiceAnswer) 4 8072 s.heap = some (r, h') ∧
    ((r ≠ 0 ∧ h'.sbrk = s.heap.sbrk) ↔ ∃ lo, ∀ i < 8080, FreeCell s (lo + i)) := by
  obtain ⟨s, hs, hr, -⟩ := run_carved
  have hcall : ((exec twiceAnswer 4 bootMachine (.malloc 100)).bind fun s =>
      malloc (oracle twiceAnswer) 4 8072 s.heap).isSome := by decide
  rw [hs] at hcall
  obtain ⟨⟨r, h'⟩, hm⟩ := Option.isSome_iff_exists.mp hcall
  have hsmall : (8072 : BitVec 32).toNat ≤ 2 ^ 31 - 16 := by decide
  exact ⟨s, r, h', hs, hm, malloc_found_iff_run rising_twiceAnswer.fair hr.reachable
    (hr.ordered rising_twiceAnswer orderly_carved) hsmall hm⟩

theorem Sound.freeNode_iff_mem (S : Sound fl s rest A) {t : List Ptr}
    (hring : IsRing (link s.heap.mem) (fl :: t)) : FreeNode s.heap p ↔ p ∈ fl :: t := by
  have R := S.represents
  have hmem := R.tiling.freelist_mem
  rw [S.freeNode_iff]
  exact ⟨fun hp => R.ring.subset_of_mem hring hmem List.mem_cons_self hp,
    fun hp => hring.subset_of_mem R.ring List.mem_cons_self hmem hp⟩

theorem Sound.node_of_blocks {rest' : List Ptr} {A' : Arena} (S : Sound fl s rest A)
    (S' : Sound fl s' rest' A') (hsub : freeBlocks fl s ⊆ freeBlocks fl s')
    (hp : FreeNode s.heap p) : FreeNode s'.heap p ∧ size s'.heap.mem p = size s.heap.mem p := by
  by_cases hpf : p = fl
  · rw [hpf, S.represents.tiling.freelist_size, S'.represents.tiling.freelist_size, S'.freeNode_iff]
    exact ⟨S'.represents.tiling.freelist_mem, rfl⟩
  · obtain ⟨q, hq, -, heq⟩ := hsub ⟨p, hp, hpf, rfl⟩
    obtain ⟨rfl, hsize⟩ := extent_inj heq
    exact ⟨hq, hsize⟩

/-- Lists in order over the same free addresses are the same, word for word. -/
theorem Sound.same_list {rest' : List Ptr} {A' : Arena} (S : Sound fl s rest A)
    (S' : Sound fl s' rest' A') (ho : Ordered fl s.heap.mem) (ho' : Ordered fl s'.heap.mem)
    (hcells : ∀ a, FreeCell s' a ↔ FreeCell s a) :
    ∃ t, IsRing (link s.heap.mem) (fl :: t) ∧ IsRing (link s'.heap.mem) (fl :: t) ∧
      ∀ p ∈ fl :: t, size s'.heap.mem p = size s.heap.mem p := by
  have hblocks : freeBlocks fl s = freeBlocks fl s' := by
    ext e
    rw [S.mem_freeBlocks ho, S'.mem_freeBlocks ho']
    exact ⟨fun h => h.congr hcells, fun h => h.congr fun a => (hcells a).symm⟩
  have hto : ∀ {p}, FreeNode s.heap p → FreeNode s'.heap p ∧
      size s'.heap.mem p = size s.heap.mem p := S.node_of_blocks S' hblocks.subset
  have hfrom : ∀ {p}, FreeNode s'.heap p → FreeNode s.heap p ∧
      size s.heap.mem p = size s'.heap.mem p := S'.node_of_blocks S hblocks.superset
  obtain ⟨t, hring, hsorted, -⟩ := ho
  obtain ⟨t', hring', hsorted', -⟩ := ho'
  have hirrefl : Std.Irrefl fun p q : Ptr => p.toNat < q.toNat := ⟨fun _ => Nat.lt_irrefl _⟩
  have hantisymm : Std.Antisymm fun p q : Ptr => p.toNat < q.toNat :=
    ⟨fun _ _ h h' => absurd h' (Nat.lt_asymm h)⟩
  have hsame : fl :: t = fl :: t' := hsorted.eq_of_mem_iff hsorted' fun p => by
    rw [← S.freeNode_iff_mem hring, ← S'.freeNode_iff_mem hring']
    exact ⟨fun hp => (hto hp).1, fun hp => (hfrom hp).1⟩
  refine ⟨t, hring, hsame ▸ hring', fun p hp => (hto ((S.freeNode_iff_mem hring).mpr hp)).2⟩

/-- A list in order is a function of the regions and of the live blocks: it does not matter which
calls led there. -/
theorem list_of_live (ha : Fair fl answer) (ha' : Fair fl answer') (hr : Reachable fl answer s)
    (hr' : Reachable fl answer' s') (ho : Ordered fl s.heap.mem) (ho' : Ordered fl s'.heap.mem)
    (howned : ∀ a, (∃ e ∈ regions s'.heap.sbrk, a ∈ e.cells) ↔ ∃ e ∈ regions s.heap.sbrk, a ∈ e.cells)
    (hlive : ∀ a, (∃ ptr ∈ s'.live, a ∈ (extent s'.heap.mem (headerOf ptr)).cells) ↔
      ∃ ptr ∈ s.live, a ∈ (extent s.heap.mem (headerOf ptr)).cells) :
    ∃ t, IsRing (link s.heap.mem) (fl :: t) ∧ IsRing (link s'.heap.mem) (fl :: t) ∧
      ∀ p ∈ fl :: t, size s'.heap.mem p = size s.heap.mem p := by
  obtain ⟨rest, A, -, S⟩ := hr.sound ha
  obtain ⟨rest', A', -, S'⟩ := hr'.sound ha'
  apply S.same_list S' ho ho'
  intro a
  have hlive' := not_congr (hlive a)
  push Not at hlive'
  rw [FreeCell, FreeCell, howned a, hlive']

theorem list_of_live_carved : ∃ s s₁ s₂, exec twiceAnswer 4 bootMachine (.malloc 100) = some s ∧
    exec twiceAnswer 4 s (.malloc 50) = some s₁ ∧ exec twiceAnswer 4 s₁ (.free 12120) = some s₂ ∧
    ∃ t, IsRing (link s.heap.mem) (16 :: t) ∧ IsRing (link s₂.heap.mem) (16 :: t) ∧
      ∀ p ∈ (16 : Ptr) :: t, size s₂.heap.mem p = size s.heap.mem p := by
  obtain ⟨s, hs, hr, hlive, hlink, hsize, hregions, hheader⟩ := run_carved
  have hcall : ((exec twiceAnswer 4 bootMachine (.malloc 100)).bind fun s =>
      exec twiceAnswer 4 s (.malloc 50)).map (·.live) = some [12120, 12184] := by decide
  have hcall' : (((exec twiceAnswer 4 bootMachine (.malloc 100)).bind fun s =>
      exec twiceAnswer 4 s (.malloc 50)).bind fun s => exec twiceAnswer 4 s (.free 12120)).map
      (fun s => (s.live, regions s.heap.sbrk, size s.heap.mem 12176)) =
        some ([12184], [⟨4096, 8192⟩], 14) := by decide
  rw [hs, Option.bind_some] at hcall hcall'
  obtain ⟨s₁, hs₁, hlive₁⟩ := Option.map_eq_some_iff.mp hcall
  rw [hs₁, Option.bind_some] at hcall'
  obtain ⟨s₂, hs₂, hfacts⟩ := Option.map_eq_some_iff.mp hcall'
  simp only [Prod.mk.injEq] at hfacts
  obtain ⟨hlive₂, hregions₂, hheader₂⟩ := hfacts
  have hsmall : (50 : BitVec 32).toNat ≤ 2 ^ 31 - 16 := by decide
  have hr₁ := hr.call (c := .malloc 50) hsmall hs₁
  have hr₂ := hr₁.call (c := .free 12120) (.inr (by simp [hlive₁])) hs₂
  have ho := hr.ordered rising_twiceAnswer orderly_carved
  obtain ⟨rest, A, -, S⟩ := hr.reachable.sound rising_twiceAnswer.fair
  obtain ⟨rest₁, A₁, -, S₁⟩ := hr₁.reachable.sound rising_twiceAnswer.fair
  have ho₁ := S.ordered_found (rising_twiceAnswer.fair.grows hsmall _) hs₁ ho
    ⟨4096, ⟨1, hlink⟩, by rw [hsize]; decide⟩
  have ho₂ := S₁.ordered_free (.inr (by simp [hlive₁])) hs₂ ho₁
  refine ⟨s, s₁, s₂, hs, hs₁, hs₂, list_of_live rising_twiceAnswer.fair rising_twiceAnswer.fair
    hr.reachable hr₂.reachable ho ho₂ (fun a => by rw [hregions, hregions₂]) fun a => ?_⟩
  have hextent : extent s₂.heap.mem (headerOf 12184) = extent s.heap.mem (headerOf 12184) :=
    extent_congr (hheader₂.trans hheader.symm)
  simp only [hlive, hlive₂, List.mem_singleton, exists_eq_left, hextent]

/-- What a call of `malloc` takes out of the list, `free` puts back: the list is the one from
before the calls. -/
theorem malloc_free_restores (ha : Fair fl answer) (hr : Reachable fl answer s)
    (ho : Ordered fl s.heap.mem) (hn : nbytes.toNat ≤ 2 ^ 31 - 16)
    {h₁ h₂ : Heap SbrkLog} {n k : ℕ} (hm : malloc (oracle answer) n nbytes s.heap = some (r, h₁))
    (hr₀ : r ≠ 0) (hsbrk : h₁.sbrk = s.heap.sbrk) (hf : free k r h₁ = some h₂) :
    ∃ t, IsRing (link s.heap.mem) (fl :: t) ∧ IsRing (link h₂.mem) (fl :: t) ∧
      ∀ p ∈ fl :: t, size h₂.mem p = size s.heap.mem p := by
  obtain ⟨rest, A, -, S⟩ := hr.sound ha
  have hg := ha.grows hn s.heap.sbrk
  have hfit := (S.found_iff hg hm).mp ⟨hr₀, hsbrk⟩
  have hexec : exec answer n s (.malloc nbytes) = some ⟨h₁, r :: s.live⟩ := by
    rw [exec, hm, Option.map_some, if_neg hr₀]
  have hexec' : exec answer k ⟨h₁, r :: s.live⟩ (.free r) = some ⟨h₂, s.live⟩ := by
    rw [exec, hf, Option.map_some, List.erase_cons_head]
  obtain ⟨rest₁, A₁, -, S₁⟩ := S.call_malloc hg hexec
  have hlive : r = 0 ∨ r ∈ r :: s.live := .inr List.mem_cons_self
  obtain ⟨rest₂, A₂, -, S₂⟩ := S₁.call_free hlive hexec'
  have ho₁ := S.ordered_found hg hexec ho hfit
  have ho₂ := S₁.ordered_free hlive hexec' ho₁
  obtain ⟨ws, C⟩ := confined_malloc S hg hexec
  obtain ⟨ws', C'⟩ := confined_free S₁ hlive hexec'
  have hsize : ∀ ptr ∈ s.live, extent h₂.mem (headerOf ptr) = extent s.heap.mem (headerOf ptr) := by
    intro ptr hptr
    have hptr₁ : ptr ∈ r :: s.live := List.mem_cons_of_mem r hptr
    exact extent_congr ((C'.size_eq S₁ hptr₁ hptr).trans (C.size_eq S hptr hptr₁))
  obtain ⟨-, -, -, -, -, -, -, -, hsbrk', -⟩ :=
    free_spec S₁.represents hr₀ (List.mem_map_of_mem List.mem_cons_self) hf
  have hlist := S.same_list S₂ ho ho₂ fun a => freeCell_congr (hsbrk'.trans hsbrk) rfl hsize
  exact hlist

theorem malloc_free_restores_carved : ∃ s h₁ h₂, exec twiceAnswer 4 bootMachine (.malloc 100) = some s ∧
    malloc (oracle twiceAnswer) 4 50 s.heap = some (12120, h₁) ∧ free 4 12120 h₁ = some h₂ ∧
    ∃ t, IsRing (link s.heap.mem) (16 :: t) ∧ IsRing (link h₂.mem) (16 :: t) ∧
      ∀ p ∈ (16 : Ptr) :: t, size h₂.mem p = size s.heap.mem p := by
  obtain ⟨s, hs, hr, -, hlink, hsize, -⟩ := run_carved
  have hcall : ((exec twiceAnswer 4 bootMachine (.malloc 100)).bind fun s =>
      malloc (oracle twiceAnswer) 4 50 s.heap).map Prod.fst = some 12120 := by decide
  have hcall' : (((exec twiceAnswer 4 bootMachine (.malloc 100)).bind fun s =>
      malloc (oracle twiceAnswer) 4 50 s.heap).bind fun out => free 4 12120 out.2).isSome := by decide
  rw [hs, Option.bind_some] at hcall hcall'
  obtain ⟨⟨r, h₁⟩, hm, hbase⟩ := Option.map_eq_some_iff.mp hcall
  obtain rfl : r = 12120 := hbase
  rw [hm, Option.bind_some] at hcall'
  obtain ⟨h₂, hf⟩ := Option.isSome_iff_exists.mp hcall'
  have hsmall : (50 : BitVec 32).toNat ≤ 2 ^ 31 - 16 := by decide
  obtain ⟨rest, A, -, S⟩ := hr.reachable.sound rising_twiceAnswer.fair
  have hfound := (S.found_iff (rising_twiceAnswer.fair.grows hsmall _) hm).mpr
    ⟨4096, ⟨1, hlink⟩, by rw [hsize]; decide⟩
  exact ⟨s, h₁, h₂, hs, hm, hf, malloc_free_restores rising_twiceAnswer.fair hr.reachable
    (hr.ordered rising_twiceAnswer orderly_carved) hsmall hm hfound.1 hfound.2 hf⟩

theorem freeCell_iff_outside : FreeCell s a ↔ Outside (regions s.heap.sbrk)
    (s.live.map fun ptr => extent s.heap.mem (headerOf ptr)) a := by
  rw [FreeCell, Outside, List.forall_mem_map]

theorem Sound.length_le (S : Sound fl s rest A) (ho : Ordered fl s.heap.mem) {t : List Ptr}
    (hring : IsRing (link s.heap.mem) (fl :: t)) :
    t.length ≤ (regions s.heap.sbrk).length + s.live.length := by
  obtain ⟨hfl, hnodup⟩ := List.nodup_cons.mp hring.nodup
  have hextents : (t.map (extent s.heap.mem)).Nodup :=
    hnodup.map_on fun p _ q _ heq => (extent_inj heq).1
  have hmax : ∀ e ∈ t.map (extent s.heap.mem), MaximalRun (Outside (regions s.heap.sbrk)
      (s.live.map fun ptr => extent s.heap.mem (headerOf ptr))) e := by
    intro e he
    obtain ⟨p, hp, rfl⟩ := List.mem_map.mp he
    have hnode := (S.freeNode_iff_mem hring).mpr (List.mem_cons_of_mem fl hp)
    have hblock := (S.mem_freeBlocks ho).mp ⟨p, hnode, fun heq => hfl (heq ▸ hp), rfl⟩
    exact hblock.congr fun _ => freeCell_iff_outside.symm
  have hlength := length_le_of_maximalRun hextents hmax
  rwa [List.length_map, List.length_map] at hlength

/-- A list in order has no more blocks than there are regions and live blocks. So this number
bounds the rounds of every loop of a call, however many calls there were before. -/
theorem calls_bounded (ha : Fair fl answer) (hr : Reachable fl answer s)
    (ho : Ordered fl s.heap.mem) :
    (∃ t, IsRing (link s.heap.mem) (fl :: t) ∧
      t.length ≤ (regions s.heap.sbrk).length + s.live.length) ∧
    ∀ c : Call, c.Allowed s →
      ∃ s', exec answer ((regions s.heap.sbrk).length + s.live.length + 3) s c = some s' := by
  obtain ⟨rest, A, -, S⟩ := hr.sound ha
  have R := S.represents
  have hordered := ho
  obtain ⟨t, hring, -⟩ := hordered
  have hlength := S.length_le ho hring
  refine ⟨⟨t, hring, hlength⟩, fun c hc => S.returns_within ha hc ?_⟩
  -- both lists name the nodes of one ring
  have hsub : s.heap.freep :: rest ⊆ fl :: t := fun p hp =>
    R.ring.subset_of_mem hring R.tiling.freelist_mem List.mem_cons_self hp
  have hrest := (R.ring.nodup.subperm hsub).length_le
  simp only [List.length_cons] at hrest
  omega

theorem calls_bounded_carved : ∃ s s', exec twiceAnswer 4 bootMachine (.malloc 100) = some s ∧
    exec twiceAnswer 5 s (.malloc 9000) = some s' := by
  obtain ⟨s, hs, hr, hlive, -, -, hregions, -⟩ := run_carved
  have hsmall : (9000 : BitVec 32).toNat ≤ 2 ^ 31 - 16 := by decide
  obtain ⟨s', hs'⟩ := (calls_bounded rising_twiceAnswer.fair hr.reachable
    (hr.ordered rising_twiceAnswer orderly_carved)).2 (.malloc 9000) hsmall
  rw [hregions, hlive] at hs'
  exact ⟨s, s', hs, hs'⟩

end TinaOS.Malloc
