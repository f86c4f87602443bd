import TinaOS.FirstFit
import Mathlib.Tactic.Push

/-!
# The sizes that `malloc` computes with

The rounding of a request, the product with eight and the signed argument of `sbrk` are
32-bit words. Up to `2 ^ 31 - 16` bytes none of them overflows. Beyond, the argument turns
negative or zero, and in the last seven sizes the rounding itself wraps to nothing.
-/

namespace TinaOS.Malloc

open ByteMemory Arenas LinkedRing

/-- The memory that the calls so far reserved, each the signed count that it was passed. -/
def reserved : SbrkLog → List Extent
  | [] => []
  | c :: log => if c.answer = -1 then reserved log
      else ⟨c.answer.toNat, c.nbytes.toInt.toNat⟩ :: reserved log

/-- A call is refused, or reserves a fresh region of the count if that is not negative. -/
def Reserving (fl : Ptr) (answer : SbrkLog → BitVec 32 → Ptr) : Prop :=
  ∀ log nbytes, answer log nbytes = -1 ∨ (0 ≤ nbytes.toInt →
    Fresh fl (reserved log : Multiset Extent) (answer log nbytes) nbytes.toInt.toNat)

/-- The list and the live blocks divide the memory that was reserved. -/
structure WellFormed (fl : Ptr) (h : Heap SbrkLog) (rest live : List Ptr) (A : Arena) : Prop where
  represents : Represents fl h rest live A
  owned : A.owned = (reserved h.sbrk : Multiset Extent)

/-- What a caller relies on. Every product and difference here is one of numbers. -/
structure Honours (answer : SbrkLog → BitVec 32 → Ptr) (nbytes : BitVec 32) (h : Heap SbrkLog) :
    Prop where
  payload : ∀ n r h', malloc (oracle answer) n nbytes h = some (r, h') → r ≠ 0 →
    nbytes.toNat + 8 ≤ 8 * (size h'.mem (r - 8)).toNat
  inside : ∀ n r h', malloc (oracle answer) n nbytes h = some (r, h') → r ≠ 0 →
    ∀ a ∈ (extent h'.mem (r - 8)).cells, ∃ e ∈ reserved h'.sbrk, a ∈ e.cells
  linked : ∀ n, ∀ g ∈ grown (oracle answer) n nbytes h, 8 * (g.size.toNat : ℤ) = g.count.toInt

variable {σ : Type*} {fl : Ptr} {answer : SbrkLog → BitVec 32 → Ptr} {h h' : Heap SbrkLog}
  {rest live : List Ptr} {A A' : Arena} {r : Ptr} {nbytes : BitVec 32} {n : ℕ}

theorem reserved_cons {log : SbrkLog} (nbytes : BitVec 32) (hr : r ≠ -1) :
    reserved (⟨nbytes, r⟩ :: log) = ⟨r.toNat, nbytes.toInt.toNat⟩ :: reserved log := if_neg hr

theorem units_of_wrap (h : 2 ^ 32 - 7 ≤ nbytes.toNat) : units nbytes = units 0 := by
  have hlt := nbytes.isLt
  have hround : (nbytes + 8 - 1) / 8 = (0 + 8 - 1) / 8 := by
    apply BitVec.eq_of_toNat_eq
    simp only [BitVec.toNat_udiv, BitVec.toNat_sub, BitVec.toNat_add, BitVec.reduceToNat]
    omega
  rw [units, units, hround]

theorem count_toInt (h : nbytes.toNat ≤ 2 ^ 31 - 16) :
    (growth (units nbytes) * 8).toInt = 8 * (growth (units nbytes)).toNat := by
  obtain ⟨heq, hlt⟩ := growth_bytes h
  rw [BitVec.toInt_eq_toNat_of_lt (by rw [heq]; omega), heq]
  rfl

/-- `malloc` sees of a request only its units. -/
theorem malloc_congr {sbrk : BitVec 32 → σ → Ptr × σ} {nbytes' : BitVec 32}
    (hu : units nbytes = units nbytes') (n : ℕ) (h : Heap σ) :
    malloc sbrk n nbytes h = malloc sbrk n nbytes' h := by
  induction n generalizing h with
  | zero => rfl
  | succ n ih => simp only [malloc, hu, ih]

theorem grown_eq {sbrk : BitVec 32 → σ → Ptr × σ} {h : Heap σ} {g : Grown}
    (hg : g ∈ grown sbrk n nbytes h) :
    g.size = growth (units nbytes) ∧ g.count = growth (units nbytes) * 8 := by
  induction n generalizing h with
  | zero => simp [grown] at hg
  | succ n ih =>
    simp only [grown] at hg
    split at hg
    · simp at hg
    · simp at hg
    · split_ifs at hg
      · simp at hg
      · cases List.mem_cons.mp hg with
        | inl heq =>
          rw [heq]
          exact ⟨rfl, rfl⟩
        | inr hg => exact ih hg

theorem Served.inside {sz : BitVec 32} {nodes : List Ptr} (V : Served fl sz h h' nodes live A A' r)
    (howned : A'.owned = (reserved h'.sbrk : Multiset Extent)) :
    ∀ a ∈ (extent h'.mem (r - 8)).cells, ∃ e ∈ reserved h'.sbrk, a ∈ e.cells := by
  intro a ha
  obtain ⟨rest', R'⟩ := V.represents
  have hmem : r - 8 ∈ (h'.freep :: rest') ++ (r - 8) :: live := by simp
  obtain ⟨e, he, hea⟩ := A'.owned_of_mem (R'.tiling.extent_mem hmem) ha
  rw [howned] at he
  exact ⟨e, Multiset.mem_coe.mp he, hea⟩

theorem Served.payload {nodes : List Ptr} (V : Served fl (units nbytes) h h' nodes live A A' r)
    (hn : nbytes.toNat + 7 < 2 ^ 32) : nbytes.toNat + 8 ≤ 8 * (size h'.mem (r - 8)).toNat := by
  rw [V.size_eq, units_toNat_of_lt hn]
  omega

theorem Reserving.fresh (hs : Reserving fl answer) (W : WellFormed fl h rest live A)
    (hn : nbytes.toNat ≤ 2 ^ 31 - 16) :
    answer h.sbrk (growth (units nbytes) * 8) = -1 ∨
      Fresh fl A.owned (answer h.sbrk (growth (units nbytes) * 8))
        (8 * (growth (units nbytes)).toNat) := by
  have hcount := count_toInt hn
  cases hs h.sbrk (growth (units nbytes) * 8) with
  | inl hrefused => exact .inl hrefused
  | inr hfresh =>
    have F := hfresh (by omega)
    have htoNat : (growth (units nbytes) * 8).toInt.toNat = 8 * (growth (units nbytes)).toNat := by
      omega
    rw [htoNat, ← W.owned] at F
    exact .inr F

theorem honours_of_le (hs : Reserving fl answer) (W : WellFormed fl h rest live A)
    (hn : nbytes.toNat ≤ 2 ^ 31 - 16) : Honours answer nbytes h := by
  have hcount := count_toInt hn
  have hserved : ∀ n r h', malloc (oracle answer) n nbytes h = some (r, h') → r ≠ 0 →
      ∃ nodes A', Served fl (units nbytes) h h' nodes live A A' r ∧
        A'.owned = (reserved h'.sbrk : Multiset Extent) := by
    intro n r h' hm hr
    rcases malloc_spec W.represents (oracle_eq answer _ _) (hs.fresh W hn) hm with
      ⟨A', V, howned, hsbrk⟩ | ⟨-, hzero, -⟩ | ⟨hp, A', V, howned, hsbrk⟩
    · exact ⟨_, A', V, by rw [howned, W.owned, hsbrk]⟩
    · exact absurd hzero hr
    · refine ⟨_, A', V, ?_⟩
      rw [howned, hsbrk, reserved_cons _ hp, hcount, W.owned]
      rfl
  constructor
  case payload =>
    intro n r h' hm hr
    obtain ⟨nodes, A', V, -⟩ := hserved n r h' hm hr
    exact V.payload (by omega)
  case inside =>
    intro n r h' hm hr
    obtain ⟨nodes, A', V, howned⟩ := hserved n r h' hm hr
    exact V.inside howned
  case linked =>
    intro n g hg
    obtain ⟨hsize, hcount'⟩ := grown_eq hg
    rw [hsize, hcount', hcount]

theorem honours_of_found (W : WellFormed fl h rest live A) (hn : nbytes.toNat < 2 ^ 32 - 7) {q : Ptr}
    (hq : (h.freep :: rest).find? (fits h.mem (units nbytes)) = some q) :
    Honours answer nbytes h := by
  have hunits : (units nbytes).toNat = (nbytes.toNat + 7) / 8 + 1 := units_toNat_of_lt (by omega)
  have hserved : ∀ n r h', malloc (oracle answer) n nbytes h = some (r, h') →
      ∃ A', Served fl (units nbytes) h h' (h.freep :: rest) live A A' r ∧
        A'.owned = (reserved h'.sbrk : Multiset Extent) := by
    intro n r h' hm
    rcases malloc_cases W.represents.ring hm with ⟨q', hq', htake⟩ | ⟨hnone, -⟩
    · obtain ⟨A', V, howned, hsbrk⟩ := take_spec W.represents (List.mem_of_find?_eq_some hq')
        (by omega) (List.find?_some hq') htake
      exact ⟨A', V, by rw [howned, W.owned, hsbrk]⟩
    · exact absurd (hq.symm.trans hnone) (by simp)
  constructor
  case payload =>
    intro n r h' hm _
    obtain ⟨A', V, -⟩ := hserved n r h' hm
    exact V.payload (by omega)
  case inside =>
    intro n r h' hm _
    obtain ⟨A', V, howned⟩ := hserved n r h' hm
    exact V.inside howned
  case linked =>
    intro n g hg
    rw [grown_found W.represents.ring hq n] at hg
    simp at hg

theorem honours_of_refused (W : WellFormed fl h rest live A)
    (hnone : (h.freep :: rest).find? (fits h.mem (units nbytes)) = none)
    (hrefused : answer h.sbrk (growth (units nbytes) * 8) = -1) : Honours answer nbytes h := by
  have hzero : ∀ n r h', malloc (oracle answer) n nbytes h = some (r, h') → r = 0 := by
    intro n r h' hm
    exact (malloc_eq_zero_iff W.represents (oracle_eq answer _ _) (.inl hrefused) hm).mpr
      ⟨hnone, hrefused⟩
  constructor
  case payload => exact fun n r h' hm hr => absurd (hzero n r h' hm) hr
  case inside => exact fun n r h' hm hr => absurd (hzero n r h' hm) hr
  case linked =>
    intro n g hg
    exact absurd hrefused (grown_ne_nil W.represents.ring (List.ne_nil_of_mem hg)).2

/-- A request whose rounding wraps gets a block without payload, if it gets one. -/
theorem not_honours_of_wrap (hs : Reserving fl answer) (W : WellFormed fl h rest live A)
    (hn : 2 ^ 32 - 7 ≤ nbytes.toNat)
    (hsome : (h.freep :: rest).find? (fits h.mem (units nbytes)) ≠ none ∨
      answer h.sbrk (growth (units nbytes) * 8) ≠ -1) : ¬ Honours answer nbytes h := by
  intro H
  have hwrap := units_of_wrap hn
  have hzero : (0 : BitVec 32).toNat ≤ 2 ^ 31 - 16 := by decide
  have hfresh := hs.fresh W hzero
  obtain ⟨r, h', hm⟩ :=
    malloc_returns W.represents (oracle_eq answer _ _) hfresh (Nat.le_refl _)
  have hr : r ≠ 0 := by
    rw [ne_eq, malloc_eq_zero_iff W.represents (oracle_eq answer _ _) hfresh hm, not_and_or, ← hwrap]
    exact hsome
  have hserved : ∃ nodes A', Served fl (units 0) h h' nodes live A A' r := by
    rcases malloc_spec W.represents (oracle_eq answer _ _) hfresh hm with
      ⟨A', V, -, -⟩ | ⟨-, hz, -⟩ | ⟨-, A', V, -, -⟩
    · exact ⟨_, A', V⟩
    · exact absurd hz hr
    · exact ⟨_, A', V⟩
  obtain ⟨nodes, A', V⟩ := hserved
  have hpayload := H.payload _ r h' ((malloc_congr hwrap _ h).trans hm) V.ne_zero
  rw [V.size_eq] at hpayload
  have hone : (units 0).toNat = 1 := by decide
  omega

/-- A request from `2 ^ 31 - 15` bytes on makes the count negative, or zero. -/
theorem not_honours_of_count (W : WellFormed fl h rest live A)
    (hlo : 2 ^ 31 - 16 < nbytes.toNat) (hhi : nbytes.toNat < 2 ^ 32 - 7)
    (hnone : (h.freep :: rest).find? (fits h.mem (units nbytes)) = none)
    (hp : answer h.sbrk (growth (units nbytes) * 8) ≠ -1) : ¬ Honours answer nbytes h := by
  intro H
  have hunits : (units nbytes).toNat = (nbytes.toNat + 7) / 8 + 1 := units_toNat_of_lt (by omega)
  have hgrowth := growth_toNat (units nbytes)
  have hgrown := grown_full W.represents.ring (Nat.le_refl rest.length) hnone
    (oracle_eq answer (growth (units nbytes) * 8) h.sbrk)
  rw [if_neg hp] at hgrown
  have hlinked := H.linked (rest.length + 1) _ (hgrown ▸ List.mem_cons_self)
  have hlt := BitVec.toInt_lt (x := growth (units nbytes) * 8)
  simp only at hlinked
  omega

/-- A call honours its request exactly if the request is at most `2 ^ 31 - 16` bytes, or it is
below `2 ^ 32 - 7` bytes and a free block is large enough, or no free block is and `sbrk`
refuses. -/
theorem honours_iff (hs : Reserving fl answer) (W : WellFormed fl h rest live A)
    (nbytes : BitVec 32) :
    Honours answer nbytes h ↔ nbytes.toNat ≤ 2 ^ 31 - 16 ∨
      (nbytes.toNat < 2 ^ 32 - 7 ∧ ∃ b ∈ h.freep :: rest, units nbytes ≤ size h.mem b) ∨
      ((∀ b ∈ h.freep :: rest, size h.mem b < units nbytes) ∧
        answer h.sbrk (growth (units nbytes) * 8) = -1) := by
  rw [← find?_fits_eq_none W.represents.ring]
  have hsome : (∃ b ∈ h.freep :: rest, units nbytes ≤ size h.mem b) ↔
      (h.freep :: rest).find? (fits h.mem (units nbytes)) ≠ none := by
    rw [ne_eq, find?_fits_eq_none W.represents.ring]
    push Not
    simp only [BitVec.not_lt]
  rw [hsome]
  constructor
  · intro H
    by_contra hno
    simp only [not_or, not_and, not_le, ne_eq, not_not] at hno
    obtain ⟨hlo, hfound, hrefused⟩ := hno
    by_cases hhi : nbytes.toNat < 2 ^ 32 - 7
    · have hnone := hfound hhi
      exact not_honours_of_count W hlo hhi hnone (hrefused hnone) H
    · refine not_honours_of_wrap hs W (by omega) ?_ H
      by_cases hnone : (h.freep :: rest).find? (fits h.mem (units nbytes)) = none
      · exact .inr (hrefused hnone)
      · exact .inl hnone
  · rintro (hn | ⟨hn, hfound⟩ | ⟨hnone, hrefused⟩)
    · exact honours_of_le hs W hn
    · obtain ⟨q, hq⟩ := Option.ne_none_iff_exists'.mp hfound
      exact honours_of_found W hn hq
    · exact honours_of_refused W hnone hrefused

theorem reserving_onceAnswer : Reserving 16 onceAnswer := by
  intro log nbytes
  cases log with
  | cons _ _ => exact .inl rfl
  | nil =>
    by_cases hn : nbytes = 8192
    · subst hn
      exact .inr fun _ => ⟨by decide, by decide, by simp [reserved]⟩
    · exact .inl (if_neg hn)

theorem wellFormed_bootMachine :
    WellFormed 16 bootMachine.heap [] [] (Arena.vacant (16 : Ptr).toNat) :=
  ⟨(sound_boot boot_bootMachine).represents, rfl⟩

/-- The largest request gets a block without payload. -/
theorem not_honours_max : Reserving 16 onceAnswer ∧
    WellFormed 16 bootMachine.heap [] [] (Arena.vacant (16 : Ptr).toNat) ∧
    ¬ Honours onceAnswer 0xFFFFFFFF bootMachine.heap :=
  ⟨reserving_onceAnswer, wellFormed_bootMachine, not_honours_of_wrap reserving_onceAnswer
    wellFormed_bootMachine (by decide) (.inr (by decide))⟩

theorem honours_iff_bootMachine : Honours onceAnswer 100 bootMachine.heap :=
  (honours_iff reserving_onceAnswer wellFormed_bootMachine 100).mpr (.inl (by decide))

end TinaOS.Malloc
