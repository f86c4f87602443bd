import TinaOS.FreeSteps

/-!
# Runs of the allocator

A machine is the allocator's heap together with the pointers that `malloc` has returned
and that are not freed. `sbrk` is an arbitrary function of the history of its calls, so
one theorem covers every behaviour of it. In every reachable state the free blocks and
the live blocks divide the memory obtained from `sbrk`.
-/

namespace TinaOS.Malloc

open ByteMemory Arenas LinkedRing

structure SbrkCall where
  nbytes : BitVec 32
  answer : Ptr

/-- The calls of `sbrk` so far, the latest first. -/
abbrev SbrkLog := List SbrkCall

def regions : SbrkLog → List Extent
  | [] => []
  | c :: log => if c.answer = -1 then regions log
      else ⟨c.answer.toNat, c.nbytes.toNat⟩ :: regions log

theorem regions_cons {log : SbrkLog} {r : Ptr} (nbytes : BitVec 32) (hr : r ≠ -1) :
    regions (⟨nbytes, r⟩ :: log) = ⟨r.toNat, nbytes.toNat⟩ :: regions log := if_neg hr

/-- `sbrk` answering as a function of all earlier calls. -/
def oracle (answer : SbrkLog → BitVec 32 → Ptr) (nbytes : BitVec 32) (log : SbrkLog) :
    Ptr × SbrkLog :=
  (answer log nbytes, ⟨nbytes, answer log nbytes⟩ :: log)

theorem oracle_eq (answer : SbrkLog → BitVec 32 → Ptr) (nbytes : BitVec 32) (log : SbrkLog) :
    oracle answer nbytes log = (answer log nbytes, ⟨nbytes, answer log nbytes⟩ :: log) := rfl

/-- Every answer is `-1` or a fresh region: 8-byte aligned, above the static header, ending
below the end of the address space and disjoint from all earlier regions. -/
def Honest (fl : Ptr) (answer : SbrkLog → BitVec 32 → Ptr) : Prop :=
  ∀ log nbytes, answer log nbytes = -1 ∨
    (answer log nbytes).toNat % 8 = 0 ∧
      Fresh fl (regions log : Multiset Extent) (answer log nbytes) nbytes.toNat

/-- Every answer is `-1` or a fresh region. -/
def Fair (fl : Ptr) (answer : SbrkLog → BitVec 32 → Ptr) : Prop :=
  ∀ log nbytes, answer log nbytes = -1 ∨
    Fresh fl (regions log : Multiset Extent) (answer log nbytes) nbytes.toNat

structure Machine where
  heap : Heap SbrkLog
  live : List Ptr

structure Boot (fl : Ptr) (s : Machine) : Prop where
  initial : Initial fl [] s.heap
  live_eq : s.live = []

inductive Call where
  | malloc (nbytes : BitVec 32)
  | free (ptr : Ptr)

/-- The calls the kernel may make. -/
def Call.Allowed (s : Machine) : Call → Prop
  | .malloc nbytes => nbytes.toNat ≤ 2 ^ 31 - 16
  | .free ptr => ptr = 0 ∨ ptr ∈ s.live

instance (s : Machine) (c : Call) : Decidable (c.Allowed s) :=
  match c with
  | .malloc _ => inferInstanceAs (Decidable (_ ≤ _))
  | .free _ => inferInstanceAs (Decidable (_ ∨ _))

def exec (answer : SbrkLog → BitVec 32 → Ptr) (fuel : ℕ) (s : Machine) : Call → Option Machine
  | .malloc nbytes => (malloc (oracle answer) fuel nbytes s.heap).map fun out =>
      ⟨out.2, if out.1 = 0 then s.live else out.1 :: s.live⟩
  | .free ptr => (free fuel ptr s.heap).map fun h => ⟨h, s.live.erase ptr⟩

/-- The states of all runs from boot. -/
inductive Reachable (fl : Ptr) (answer : SbrkLog → BitVec 32 → Ptr) : Machine → Prop
  | boot {s} (h : Boot fl s) : Reachable fl answer s
  | call {s s'} {c : Call} {fuel : ℕ} (h : Reachable fl answer s) (hc : c.Allowed s)
      (hs : exec answer fuel s c = some s') : Reachable fl answer s'

/-- The header of the block whose payload starts at `ptr`. -/
def headerOf (ptr : Ptr) : Ptr := ptr - 8

theorem headerOf_injective : Function.Injective headerOf := by
  intro a b h
  exact (BitVec.sub_add_cancel a 8).symm.trans ((congrArg (· + 8) h).trans (BitVec.sub_add_cancel b 8))

/-- The state lies in memory as an arena that owns exactly the regions obtained. -/
structure Sound (fl : Ptr) (s : Machine) (rest : List Ptr) (A : Arena) : Prop where
  represents : Represents fl s.heap rest (s.live.map headerOf) A
  owned : A.owned = (regions s.heap.sbrk : Multiset Extent)
  zero_notMem : (0 : Ptr) ∉ s.live

variable {fl : Ptr} {answer : SbrkLog → BitVec 32 → Ptr} {s s' : Machine} {rest : List Ptr}
  {A : Arena}

theorem sound_boot (h : Boot fl s) : Sound fl s [] (Arena.vacant fl.toNat) := by
  obtain ⟨⟨hplaced, hlink, hsize, hfreep, hsbrk⟩, hlive⟩ := h
  constructor
  case owned => simp [hsbrk, regions, Arena.vacant]
  case zero_notMem => simp [hlive]
  case represents =>
    refine ⟨⟨?_, ?_⟩, by simp [Below, Arena.vacant]⟩
    · rw [hfreep]
      exact isRing_cons.mpr ⟨by simp, by simp [hlink]⟩
    · rw [hfreep, hlive]
      constructor
      case header => exact hplaced
      case freelist_mem => simp
      case freelist_size => exact hsize
      case freelist_notMem => simp
      case size_pos => simp
      case free_eq => simp [Arena.vacant, extents, extent, hsize]
      case live_eq => rfl
      case owned => simp [Arena.vacant]

theorem Honest.fair (ha : Honest fl answer) : Fair fl answer := fun log nbytes =>
  (ha log nbytes).imp_right And.right

/-- `sbrk` refuses the growth for a request, or gives a fresh region of all its units. -/
def Grows (fl : Ptr) (answer : SbrkLog → BitVec 32 → Ptr) (log : SbrkLog) (nbytes : BitVec 32) :
    Prop :=
  answer log (growth (units nbytes) * 8) = -1 ∨
    (growth (units nbytes) * 8).toNat = 8 * (growth (units nbytes)).toNat ∧
      Fresh fl (regions log : Multiset Extent) (answer log (growth (units nbytes) * 8))
        (8 * (growth (units nbytes)).toNat)

theorem Fair.grows (ha : Fair fl answer) {nbytes : BitVec 32} (hn : nbytes.toNat ≤ 2 ^ 31 - 16)
    (log : SbrkLog) : Grows fl answer log nbytes := by
  have hbytes := (growth_bytes hn).1
  refine (ha log (growth (units nbytes) * 8)).imp_right fun F => ⟨hbytes, ?_⟩
  rwa [hbytes] at F

theorem Grows.fresh {log : SbrkLog} {nbytes : BitVec 32} (hg : Grows fl answer log nbytes)
    {A : Arena} (hA : A.owned = (regions log : Multiset Extent)) :
    answer log (growth (units nbytes) * 8) = -1 ∨
      Fresh fl A.owned (answer log (growth (units nbytes) * 8))
        (8 * (growth (units nbytes)).toNat) := by
  rw [hA]
  exact hg.imp_right And.right

/-- `sbrk` refuses the growth for a request, or gives a region of all its units, which may end with
the address space. -/
def GrowsToEnd (fl : Ptr) (answer : SbrkLog → BitVec 32 → Ptr) (log : SbrkLog)
    (nbytes : BitVec 32) : Prop :=
  answer log (growth (units nbytes) * 8) = -1 ∨
    (growth (units nbytes) * 8).toNat = 8 * (growth (units nbytes)).toNat ∧
      FreshToEnd fl (regions log : Multiset Extent) (answer log (growth (units nbytes) * 8))
        (8 * (growth (units nbytes)).toNat)

theorem Grows.toEnd {log : SbrkLog} {nbytes : BitVec 32} (hg : Grows fl answer log nbytes) :
    GrowsToEnd fl answer log nbytes := hg.imp_right fun hgiven => ⟨hgiven.1, hgiven.2.toEnd⟩

theorem GrowsToEnd.fresh {log : SbrkLog} {nbytes : BitVec 32} (hg : GrowsToEnd fl answer log nbytes)
    (hA : A.owned = (regions log : Multiset Extent)) :
    answer log (growth (units nbytes) * 8) = -1 ∨
      FreshToEnd fl A.owned (answer log (growth (units nbytes) * 8))
        (8 * (growth (units nbytes)).toNat) := by
  rw [hA]
  exact hg.imp_right And.right

theorem GrowsToEnd.regions {log : SbrkLog} {nbytes : BitVec 32}
    (hg : GrowsToEnd fl answer log nbytes)
    (hp : answer log (growth (units nbytes) * 8) ≠ -1) :
    regions (⟨growth (units nbytes) * 8, answer log (growth (units nbytes) * 8)⟩ :: log) =
      ⟨(answer log (growth (units nbytes) * 8)).toNat, 8 * (growth (units nbytes)).toNat⟩ ::
        regions log := by
  rw [regions_cons _ hp, (hg.resolve_left hp).1]

theorem Grows.regions {log : SbrkLog} {nbytes : BitVec 32} (hg : Grows fl answer log nbytes)
    (hp : answer log (growth (units nbytes) * 8) ≠ -1) :
    regions (⟨growth (units nbytes) * 8, answer log (growth (units nbytes) * 8)⟩ :: log) =
      ⟨(answer log (growth (units nbytes) * 8)).toNat, 8 * (growth (units nbytes)).toNat⟩ ::
        regions log := hg.toEnd.regions hp

theorem Served.sound {sz : BitVec 32} {h' : Heap SbrkLog} {nodes : List Ptr} {A' : Arena} {r : Ptr}
    (V : Served fl sz s.heap h' nodes (s.live.map headerOf) A A' r) (hz : (0 : Ptr) ∉ s.live)
    (howned : A'.owned = (regions h'.sbrk : Multiset Extent)) :
    ∃ rest', Sound fl ⟨h', if r = 0 then s.live else r :: s.live⟩ rest' A' := by
  obtain ⟨rest', R'⟩ := V.represents
  rw [if_neg V.ne_zero]
  refine ⟨rest', R', howned, ?_⟩
  simp only [List.mem_cons, not_or]
  exact ⟨V.ne_zero.symm, hz⟩

theorem Sound.call_malloc (S : Sound fl s rest A) {nbytes : BitVec 32}
    (hg : Grows fl answer s.heap.sbrk nbytes) {fuel : ℕ}
    (hs : exec answer fuel s (.malloc nbytes) = some s') :
    ∃ rest' A', A.Steps A' ∧ Sound fl s' rest' A' := by
  obtain ⟨⟨r, h'⟩, hm, rfl⟩ := Option.map_eq_some_iff.mp hs
  rcases malloc_spec S.represents (oracle_eq answer _ _) (hg.fresh S.owned) hm with
    ⟨A', V, howned, hsb⟩ | ⟨hp, rfl, rfl⟩ | ⟨hp, A', V, howned, hsb⟩
  · obtain ⟨rest', S'⟩ := V.sound S.zero_notMem (by rw [howned, S.owned, hsb])
    exact ⟨rest', A', V.steps, S'⟩
  · refine ⟨rest, A, .refl, S.represents.congr rfl rfl, ?_, S.zero_notMem⟩
    rw [S.owned, regions, if_pos hp]
  · obtain ⟨rest', S'⟩ := V.sound S.zero_notMem (by
      rw [howned, S.owned, hsb, hg.regions hp]
      rfl)
    exact ⟨rest', A', V.steps, S'⟩

theorem Sound.call_free (S : Sound fl s rest A) {ptr : Ptr} (hptr : ptr = 0 ∨ ptr ∈ s.live)
    {fuel : ℕ} (hs : exec answer fuel s (.free ptr) = some s') :
    ∃ rest' A', A.Steps A' ∧ Sound fl s' rest' A' := by
  obtain ⟨h', hf, rfl⟩ := Option.map_eq_some_iff.mp hs
  by_cases hz : ptr = 0
  · subst hz
    have hh : s.heap = h' := Option.some.inj ((free_zero fuel s.heap).symm.trans hf)
    refine ⟨rest, A, .refl, ?_⟩
    rw [List.erase_of_not_mem S.zero_notMem, ← hh]
    exact S
  · have hlive : ptr - 8 ∈ s.live.map headerOf := List.mem_map_of_mem (hptr.resolve_left hz)
    obtain ⟨rest', A', ws, hsteps, howned, R', -, -, hsb, -⟩ := free_spec S.represents hz hlive hf
    refine ⟨rest', A', hsteps, ?_⟩
    constructor
    case represents =>
      rw [List.map_erase headerOf_injective]
      exact R'
    case owned => simp only [howned, S.owned, hsb]
    case zero_notMem => exact fun hm => S.zero_notMem (List.mem_of_mem_erase hm)

theorem Sound.call (S : Sound fl s rest A) (ha : Fair fl answer) {c : Call} (hc : c.Allowed s)
    {fuel : ℕ} (hs : exec answer fuel s c = some s') :
    ∃ rest' A', A.Steps A' ∧ Sound fl s' rest' A' := by
  cases c with
  | malloc nbytes => exact S.call_malloc (ha.grows hc _) hs
  | free ptr => exact S.call_free hc hs

/-- Every reachable state is sound: the run is a sequence of arena moves. -/
theorem Reachable.sound (hr : Reachable fl answer s) (ha : Fair fl answer) :
    ∃ rest A, (Arena.vacant fl.toNat).Steps A ∧ Sound fl s rest A := by
  induction hr with
  | boot h => exact ⟨[], _, .refl, sound_boot h⟩
  | call _ hc hs ih =>
    obtain ⟨rest, A, hsteps, S⟩ := ih
    obtain ⟨rest', A', hsteps', S'⟩ := S.call ha hc hs
    exact ⟨rest', A', hsteps.trans hsteps', S'⟩

/-- A budget of one round of the list and two is enough for any call. -/
theorem Sound.returns_within (S : Sound fl s rest A) (ha : Fair fl answer) {c : Call}
    (hc : c.Allowed s) {n : ℕ} (hn : rest.length + 3 ≤ n) : ∃ s', exec answer n s c = some s' := by
  cases c with
  | malloc nbytes =>
    have hfresh := (ha.grows hc s.heap.sbrk).fresh S.owned
    obtain ⟨r, h', hm⟩ := malloc_returns S.represents (oracle_eq answer _ _) hfresh hn
    exact ⟨_, Option.map_eq_some_iff.mpr ⟨_, hm, rfl⟩⟩
  | free ptr =>
    rcases hc with rfl | hlive
    · exact ⟨⟨s.heap, s.live.erase 0⟩, by simp only [exec, free_zero, Option.map_some]⟩
    · obtain ⟨h', hf⟩ :=
        free_returns S.represents (List.mem_map_of_mem (f := headerOf) hlive) (n := n) (by omega)
      exact ⟨_, Option.map_eq_some_iff.mpr ⟨_, hf, rfl⟩⟩

/-- No allowed call hangs. -/
theorem Sound.returns (S : Sound fl s rest A) (ha : Fair fl answer) {c : Call}
    (hc : c.Allowed s) : ∃ fuel s', exec answer fuel s c = some s' :=
  ⟨_, S.returns_within ha hc (Nat.le_refl _)⟩

/-- The free list `nodes` and the live blocks divide what `sbrk` gave: links lead from `freep`
round `nodes` and back, and every byte obtained is in exactly one block. -/
structure Divided (fl : Ptr) (s : Machine) (nodes : List Ptr) : Prop where
  first : nodes.head? = some s.heap.freep
  ring : IsRing (link s.heap.mem) nodes
  freelist_mem : fl ∈ nodes
  nodup : (nodes ++ s.live.map headerOf).Nodup
  disjoint : (nodes ++ s.live.map headerOf).Pairwise fun p q =>
    Disjoint (extent s.heap.mem p).cells (extent s.heap.mem q).cells
  covers : ∀ a, (∃ p ∈ nodes ++ s.live.map headerOf, a ∈ (extent s.heap.mem p).cells) ↔
    ∃ e ∈ regions s.heap.sbrk, a ∈ e.cells

theorem Sound.divided (S : Sound fl s rest A) : Divided fl s (s.heap.freep :: rest) := by
  obtain ⟨⟨hring, T⟩, -⟩ := S.represents
  have hblocks : A.free + A.live =
      (((s.heap.freep :: rest) ++ s.live.map headerOf).map (extent s.heap.mem) : List Extent) := by
    rw [T.free_eq, T.live_eq, ← extents_append]
    rfl
  constructor
  case first => rfl
  case ring => exact hring
  case freelist_mem => exact T.freelist_mem
  case nodup => exact T.nodup hring.nodup
  case disjoint =>
    have hpair := nodup_cover.mp (hblocks ▸ A.nodup_blocks)
    rwa [List.pairwise_map] at hpair
  case covers =>
    intro a
    have hleft : a ∈ cover (A.free + A.live) ↔
        ∃ p ∈ (s.heap.freep :: rest) ++ s.live.map headerOf, a ∈ (extent s.heap.mem p).cells := by
      rw [hblocks, mem_cover]
      simp only [Multiset.mem_coe, List.mem_map, exists_exists_and_eq_and, Extent.mem_cells]
    have hright : a ∈ cover A.owned ↔ ∃ e ∈ regions s.heap.sbrk, a ∈ e.cells := by
      rw [S.owned, mem_cover]
      simp only [Multiset.mem_coe, Extent.mem_cells]
    rw [← hleft, ← hright, A.tiles]

/-- In every reachable state the memory is divided, and every allowed call returns. -/
theorem memory_divided (ha : Honest fl answer) (hr : Reachable fl answer s) :
    (∃ nodes, Divided fl s nodes) ∧
      ∀ c : Call, c.Allowed s → ∃ fuel s', exec answer fuel s c = some s' := by
  obtain ⟨rest, A, -, S⟩ := hr.sound ha.fair
  exact ⟨⟨_, S.divided⟩, fun _ hc => S.returns ha.fair hc⟩

/-- A machine at boot with `freelist` at address 16. -/
def bootMachine : Machine where
  heap := { mem := store32 (fun _ => 0) 16 16, freep := 16, sbrk := [], writes := [] }
  live := []

/-- An `sbrk` that gives 8192 bytes at 4096 once. -/
def onceAnswer : SbrkLog → BitVec 32 → Ptr
  | [], nbytes => if nbytes = 8192 then 4096 else -1
  | _ :: _, _ => -1

theorem boot_bootMachine : Boot 16 bootMachine :=
  ⟨⟨by decide, by decide, by decide, rfl, rfl⟩, rfl⟩

theorem honest_onceAnswer : Honest 16 onceAnswer := by
  intro log nbytes
  cases log with
  | cons _ _ => exact .inl rfl
  | nil =>
    by_cases hn : nbytes = 8192
    · subst hn
      exact .inr ⟨by decide, by decide, by decide, by simp [regions]⟩
    · exact .inl (if_neg hn)

theorem memory_divided_onceAnswer :
    ∃ s, s.live = [12184] ∧ (∃ nodes, Divided 16 s nodes) ∧
      ∀ c : Call, c.Allowed s → ∃ fuel s', exec onceAnswer fuel s c = some s' := by
  have hrun : (exec onceAnswer 4 bootMachine (.malloc 100)).map (·.live) = some [12184] := by decide
  obtain ⟨s, hs, hlive⟩ := Option.map_eq_some_iff.mp hrun
  have hr : Reachable 16 onceAnswer s :=
    .call (.boot boot_bootMachine) (c := .malloc 100) (by decide) hs
  exact ⟨s, hlive, memory_divided honest_onceAnswer hr⟩

/-- `p` is met on the way from `freep` along the links. -/
def FreeNode (h : Heap SbrkLog) (p : Ptr) : Prop := ∃ k, (link h.mem)^[k] h.freep = p

theorem Sound.freeNode (S : Sound fl s rest A) {p : Ptr} (hp : p ∈ s.heap.freep :: rest) :
    FreeNode s.heap p := S.represents.ring.exists_iterate hp

theorem Sound.live_nodup (S : Sound fl s rest A) : s.live.Nodup :=
  List.Nodup.of_map headerOf S.represents.live_nodup

end TinaOS.Malloc
