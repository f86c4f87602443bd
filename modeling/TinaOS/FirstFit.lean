import TinaOS.AllocatorRuns

/-!
# Which block `malloc` takes

The search follows the links from the block behind `freep` round to `freep` itself and
takes the first block that is large enough. If there is none, the region that `sbrk`
gives is the first candidate of the one recursive call.
-/

namespace TinaOS.Malloc

open ByteMemory Arenas LinkedRing

variable {σ : Type*}

/-- A region that `malloc` has put into the list: `size` units for `count` bytes from `sbrk`. -/
structure Grown where
  base : Ptr
  size : BitVec 32
  count : BitVec 32
  deriving DecidableEq, Repr

/-- The regions that a call puts into the list. A recursive call follows each of them. -/
def grown (sbrk : BitVec 32 → σ → Ptr × σ) : ℕ → BitVec 32 → Heap σ → List Grown
  | 0, _, _ => []
  | fuel + 1, nbytes, h =>
    match BoundedLoop.run (searchStep h.mem h.freep (units nbytes)) (fuel + 1) h.freep with
    | none => []
    | some (some _) => []
    | some none =>
      let sz := growth (units nbytes)
      let (p, s) := sbrk (sz * 8) h.sbrk
      let h := { h with sbrk := s }
      if p = -1 then []
      else ⟨p, sz, sz * 8⟩ :: grown sbrk fuel nbytes (insertRegion h p sz)

/-- The blocks of the list in the order of the search. -/
def searched (h : Heap σ) (rest : List Ptr) : List Ptr := rest ++ [h.freep]

/-- From `h` to `h'` the block at `r` with `sz` units came out of the free block `b`: all of
`b`, which then left the list, or the high end of `b`, whose rest then kept its place. -/
structure Takes (sz : BitVec 32) (h h' : Heap σ) (nodes : List Ptr) (b r : Ptr) : Prop where
  place : r.toNat + 8 * sz.toNat = b.toNat + 8 * (size h.mem b).toNat + 8
  size_eq : size h'.mem (r - 8) = sz
  list : ∃ t, h'.freep :: b :: t ~r nodes ∧
    IsRing (link h'.mem) (if size h.mem b = sz then h'.freep :: t else h'.freep :: b :: t)
  rest_eq : size h.mem b ≠ sz → size h'.mem b = size h.mem b - sz
  others : ∀ q ∈ nodes, q ≠ b → size h'.mem q = size h.mem q

variable {fl : Ptr} {h h' : Heap σ} {rest live t : List Ptr} {A : Arena} {p q r : Ptr}
  {sz nbytes : BitVec 32} {sbrk : BitVec 32 → σ → Ptr × σ} {n : ℕ} {s : σ}

theorem searched_isRotated (h : Heap σ) (rest : List Ptr) : h.freep :: rest ~r searched h rest :=
  List.isRotated_append (l := [h.freep])

/-- The first node whose successor fits comes right before the first block that fits. -/
theorem find?_searched (hring : IsRing (link h.mem) (h.freep :: rest)) (sz : BitVec 32) :
    (searched h rest).find? (fun b => decide (sz ≤ size h.mem b)) =
      ((h.freep :: rest).find? (fits h.mem sz)).map (link h.mem) := by
  have hmap : (h.freep :: rest).map (link h.mem) = searched h rest := (isRing_cons.mp hring).2
  rw [← hmap, List.find?_map]
  rfl

theorem freep_take (h : Heap σ) (sz : BitVec 32) (q : Ptr) : (take h sz q).2.freep = q := by
  simp only [take]
  split_ifs <;> rfl

theorem find?_fits_eq_none (hring : IsRing (link h.mem) (h.freep :: rest)) {sz : BitVec 32} :
    (h.freep :: rest).find? (fits h.mem sz) = none ↔ ∀ b ∈ h.freep :: rest, size h.mem b < sz := by
  have hfind := find?_searched hring sz
  rw [← Option.map_eq_none_iff (f := link h.mem), ← hfind, List.find?_eq_none]
  simp only [decide_eq_true_eq, BitVec.not_le, (searched_isRotated h rest).mem_iff]

theorem take_takes (R : Represents fl h rest live A) (hq : q ∈ h.freep :: rest)
    (hpos : 0 < sz.toNat) (hfit : fits h.mem sz q) (hr : take h sz q = (r, h')) :
    Takes sz h h' (searched h rest) (link h.mem q) r := by
  obtain ⟨u, hrot, hring⟩ := R.ring.exists_cons hq
  have T := R.tiling.perm hrot.perm.symm (List.Perm.refl live)
  have hle : sz ≤ size h.mem (link h.mem q) := of_decide_eq_true hfit
  have hpf : link h.mem q ≠ fl := ne_freelist_of_size_pos T (Nat.lt_of_lt_of_le hpos hle)
  obtain ⟨t, rfl⟩ := T.exists_pair hring hpf
  have hrot' : q :: link h.mem q :: t ~r searched h rest := hrot.trans (searched_isRotated h rest)
  have hbound := T.end_lt_top R.below (p := link h.mem q) (by simp) hpf
  generalize link h.mem q = p at *
  have hold : ∀ y ∈ searched h rest, y ≠ p → y ∈ q :: t := fun y hy hne =>
    List.mem_of_ne_of_mem hne ((List.Perm.swap p q t).mem_iff.mp (hrot'.mem_iff.mpr hy))
  by_cases hsz : size h.mem p = sz
  · obtain ⟨htake, A', -, -, R', hsize, hsame⟩ := take_exact hring T hpos hsz
    rw [htake] at hr R' hsize hsame
    obtain ⟨rfl, rfl⟩ := Prod.mk.inj hr
    rw [hsz] at hbound
    have hplace : (p + 8).toNat = p.toNat + 8 := add_header_toNat (by omega)
    constructor
    case place => rw [hplace, hsz, Nat.add_right_comm]
    case size_eq => rw [add_header_sub]; exact hsize
    case list => exact ⟨t, hrot', by rw [if_pos hsz]; exact R'.ring⟩
    case rest_eq => exact fun hne => absurd hsz hne
    case others =>
      intro y hy hne
      have hy' := hold y hy hne
      exact hsame y (List.mem_append_left _
        ((List.Perm.swap p q t).mem_iff.mpr (List.mem_cons_of_mem _ hy')))
  · have hlt : sz < size h.mem p := BitVec.lt_of_le_ne hle (Ne.symm hsz)
    obtain ⟨htake, hend, A', -, -, R', hsize, hrest, hsame⟩ := take_split hring T hpos hlt
    rw [htake] at hr R' hsize hrest hsame
    obtain ⟨rfl, rfl⟩ := Prod.mk.inj hr
    have hplace : (carved h.mem p sz + 8).toNat = (carved h.mem p sz).toNat + 8 :=
      add_header_toNat (by omega)
    constructor
    case place => rw [hplace, ← hend, Nat.add_right_comm]
    case size_eq => rw [add_header_sub]; exact hsize
    case list => exact ⟨t, hrot', by rw [if_neg hsz]; exact R'.ring⟩
    case rest_eq => exact fun _ => hrest
    case others =>
      intro y hy hne
      exact hsame y (List.mem_append_left _ (hold y hy hne))

/-- A call grows the list only if no block fits and `sbrk` gives a region. -/
theorem grown_ne_nil (hring : IsRing (link h.mem) (h.freep :: rest))
    (hne : grown sbrk n nbytes h ≠ []) :
    (h.freep :: rest).find? (fits h.mem (units nbytes)) = none ∧
      (sbrk (growth (units nbytes) * 8) h.sbrk).1 ≠ -1 := by
  cases n with
  | zero => exact absurd rfl hne
  | succ n =>
    have hlap := run_searchStep hring (units nbytes) (Nat.le_refl _)
    cases hrun : BoundedLoop.run (searchStep h.mem h.freep (units nbytes)) (n + 1) h.freep with
    | none => simp only [grown, hrun, ne_eq, not_true_eq_false] at hne
    | some found =>
      rw [← BoundedLoop.run_unique hrun hlap]
      cases found with
      | some q => simp only [grown, hrun, ne_eq, not_true_eq_false] at hne
      | none =>
        refine ⟨rfl, fun hp => hne ?_⟩
        simp only [grown, hrun]
        exact if_pos hp

theorem grown_found (hring : IsRing (link h.mem) (h.freep :: rest))
    (hq : (h.freep :: rest).find? (fits h.mem (units nbytes)) = some q) (n : ℕ) :
    grown sbrk n nbytes h = [] := by
  by_contra hne
  have hnone := (grown_ne_nil hring hne).1
  exact absurd (hq.symm.trans hnone) (by simp)

theorem grown_full (hring : IsRing (link h.mem) (h.freep :: rest)) (hn : rest.length ≤ n)
    (hnone : (h.freep :: rest).find? (fits h.mem (units nbytes)) = none)
    (hs : sbrk (growth (units nbytes) * 8) h.sbrk = (p, s)) :
    grown sbrk (n + 1) nbytes h = if p = -1 then []
      else ⟨p, growth (units nbytes), growth (units nbytes) * 8⟩ ::
        grown sbrk n nbytes (insertRegion { h with sbrk := s } p (growth (units nbytes))) := by
  have hrun := run_searchStep hring (units nbytes) (n := n + 1) (by simpa using hn)
  simp only [grown, hrun, hnone, hs]

theorem growth_bytes_eq (hn : nbytes.toNat ≤ 2 ^ 31 - 16) :
    growth (units nbytes) * 8 = BitVec.ofNat 32 (max (units nbytes).toNat 1024 * 8) := by
  have hbytes := growth_bytes hn
  have hgrowth := growth_toNat (units nbytes)
  apply BitVec.eq_of_toNat_eq
  rw [BitVec.toNat_ofNat, hbytes.1]
  omega

/-- A call that some block can serve takes the first such block and leaves `sbrk` alone. -/
theorem malloc_takes (R : Represents fl h rest live A) (hfuel : rest.length + 1 ≤ n) {b : Ptr}
    (hb : (searched h rest).find? (fun b => decide (units nbytes ≤ size h.mem b)) = some b) :
    ∃ r h', malloc sbrk n nbytes h = some (r, h') ∧
      Takes (units nbytes) h h' (searched h rest) b r ∧ h'.sbrk = h.sbrk ∧
      grown sbrk n nbytes h = [] := by
  rw [find?_searched R.ring, Option.map_eq_some_iff] at hb
  obtain ⟨q, hq, rfl⟩ := hb
  have hpos := units_pos nbytes
  have hmem := List.mem_of_find?_eq_some hq
  have hfit := List.find?_some hq
  cases htake : take h (units nbytes) q with
  | mk r h' =>
    obtain ⟨A', -, -, hsbrk⟩ := take_spec R hmem hpos hfit htake
    have hm : malloc sbrk n nbytes h = some (take h (units nbytes) q) := malloc_found R.ring hfuel hq
    exact ⟨r, h', hm.trans (congrArg some htake), take_takes R hmem hpos hfit htake, hsbrk,
      grown_found R.ring hq n⟩

/-- A call that no block can serve takes from the region that `sbrk` gives, after one
recursive call. -/
theorem malloc_grows (R : Represents fl h rest live A) (hfuel : rest.length + 3 ≤ n)
    (hnone : (h.freep :: rest).find? (fits h.mem (units nbytes)) = none)
    (hs : sbrk (growth (units nbytes) * 8) h.sbrk = (p, s))
    (F : Fresh fl A.owned p (8 * (growth (units nbytes)).toNat)) :
    ∃ r h', malloc sbrk n nbytes h = some (r, h') ∧
      Takes (units nbytes) (insertRegion { h with sbrk := s } p (growth (units nbytes))) h'
        (p :: searched h rest) p r ∧
      h'.freep = h.freep ∧ h'.sbrk = s ∧
      grown sbrk n nbytes h = [⟨p, growth (units nbytes), growth (units nbytes) * 8⟩] := by
  obtain ⟨n, rfl⟩ : ∃ k, n = k + 1 := ⟨n - 1, by omega⟩
  have hgrowth := growth_toNat (units nbytes)
  have hpos := units_pos nbytes
  have hp : p ≠ -1 := by
    rintro rfl
    have hwrap := F.noWrap
    simp only [BitVec.reduceNeg, BitVec.reduceToNat] at hwrap
    omega
  have R₁ : Represents fl { h with sbrk := s } rest live A := R.congr rfl rfl
  obtain ⟨A₁, -, -, R₂, hsize, -⟩ := insertRegion_spec R₁ (growth_pos _) F
  have hq := find?_insertRegion R₂.ring hsize
  have hlink := (isRing_pair.mp R₂.ring).2.1
  have hfit := List.find?_some hq
  have hsearched : searched (insertRegion { h with sbrk := s } p (growth (units nbytes)))
      (p :: rest) = p :: searched h rest := rfl
  rw [malloc_full R.ring (by omega) hnone hs, if_neg hp, grown_full R.ring (by omega) hnone hs,
    if_neg hp, grown_found R₂.ring hq, malloc_found R₂.ring (by simp; omega) hq]
  cases htake : take (insertRegion { h with sbrk := s } p (growth (units nbytes))) (units nbytes)
      (insertRegion { h with sbrk := s } p (growth (units nbytes))).freep with
  | mk r h' =>
    obtain ⟨A₂, -, -, hsbrk⟩ := take_spec R₂ List.mem_cons_self hpos hfit htake
    have htakes := take_takes R₂ List.mem_cons_self hpos hfit htake
    rw [hlink, hsearched] at htakes
    have hfreep : h'.freep = h.freep :=
      (congrArg (fun out => out.2.freep) htake).symm.trans (freep_take _ _ _)
    exact ⟨r, h', rfl, htakes, hfreep, hsbrk, rfl⟩

/-- What a call that returned did: it took a block of the list, or it failed, or it took from
the region that `sbrk` gave. -/
theorem malloc_outcome (R : Represents fl h rest live A)
    (hs : sbrk (growth (units nbytes) * 8) h.sbrk = (p, s))
    (hfresh : p = -1 ∨ Fresh fl A.owned p (8 * (growth (units nbytes)).toNat))
    (hm : malloc sbrk n nbytes h = some (r, h')) :
    (∃ q, (h.freep :: rest).find? (fits h.mem (units nbytes)) = some q ∧
      take h (units nbytes) q = (r, h')) ∨
    ((h.freep :: rest).find? (fits h.mem (units nbytes)) = none ∧
      (p = -1 ∧ r = 0 ∧ h' = { h with sbrk := s } ∨
        p ≠ -1 ∧ Takes (units nbytes)
          (insertRegion { h with sbrk := s } p (growth (units nbytes))) h' (p :: searched h rest) p r ∧
          h'.freep = h.freep)) := by
  rcases malloc_cases R.ring hm with hfound | ⟨hnone, p', s', hs', hend⟩
  · exact .inl hfound
  · obtain ⟨rfl, rfl⟩ := Prod.mk.inj (hs.symm.trans hs')
    refine .inr ⟨hnone, ?_⟩
    rcases hend with hfail | ⟨hne, -⟩
    · exact .inl hfail
    · obtain ⟨r', h'', hm', htakes, hfreep, -⟩ :=
        malloc_grows R (Nat.le_refl _) hnone hs (hfresh.resolve_left hne)
      obtain ⟨rfl, rfl⟩ := Prod.mk.inj (malloc_unique hm' hm)
      exact .inr ⟨hne, htakes, hfreep⟩

/-- Every call returns. It takes the first block in the order of the search that is large
enough; if there is none, it asks `sbrk` once, and takes from the region after one recursive
call or returns 0. -/
theorem malloc_first_fit (R : Represents fl h rest live A) (hn : nbytes.toNat ≤ 2 ^ 31 - 16)
    (hfuel : rest.length + 3 ≤ n) (sbrk : BitVec 32 → σ → Ptr × σ) :
    (units nbytes).toNat = (nbytes.toNat + 7) / 8 + 1 ∧
    (∀ b, (searched h rest).find? (fun b => decide (units nbytes ≤ size h.mem b)) = some b →
      ∃ r h', malloc sbrk n nbytes h = some (r, h') ∧
        Takes (units nbytes) h h' (searched h rest) b r ∧ h'.sbrk = h.sbrk ∧
        grown sbrk n nbytes h = []) ∧
    ((∀ b ∈ searched h rest, size h.mem b < units nbytes) → ∀ p s,
      sbrk (BitVec.ofNat 32 (max (units nbytes).toNat 1024 * 8)) h.sbrk = (p, s) →
      (p = -1 → malloc sbrk n nbytes h = some (0, { h with sbrk := s }) ∧
        grown sbrk n nbytes h = []) ∧
      (Fresh fl A.owned p (max (units nbytes).toNat 1024 * 8) → ∃ sz r h',
        sz.toNat = max (units nbytes).toNat 1024 ∧ malloc sbrk n nbytes h = some (r, h') ∧
        Takes (units nbytes) (insertRegion { h with sbrk := s } p sz) h' (p :: searched h rest) p r ∧
        h'.sbrk = s ∧ grown sbrk n nbytes h = [⟨p, sz, sz * 8⟩])) := by
  refine ⟨units_toNat hn, fun b hb => malloc_takes R (by omega) hb, fun hsmall p s hs => ?_⟩
  have hnone : (h.freep :: rest).find? (fits h.mem (units nbytes)) = none := by
    apply (find?_fits_eq_none R.ring).mpr
    intro b hb
    exact hsmall b ((searched_isRotated h rest).mem_iff.mp hb)
  rw [← growth_bytes_eq hn] at hs
  constructor
  · rintro rfl
    obtain ⟨n, rfl⟩ : ∃ k, n = k + 1 := ⟨n - 1, by omega⟩
    rw [malloc_full R.ring (by omega) hnone hs, grown_full R.ring (by omega) hnone hs]
    exact ⟨if_pos rfl, if_pos rfl⟩
  · intro F
    rw [← growth_toNat, Nat.mul_comm] at F
    obtain ⟨r, h', hm, htakes, -, hsbrk, hgrown⟩ := malloc_grows R hfuel hnone hs F
    exact ⟨_, r, h', growth_toNat _, hm, htakes, hsbrk, hgrown⟩

theorem malloc_first_fit_bootMachine :
    ∃ sz r h', sz.toNat = 1024 ∧ malloc (oracle onceAnswer) 3 100 bootMachine.heap = some (r, h') ∧
      Takes 14 (insertRegion { bootMachine.heap with sbrk := [⟨8192, 4096⟩] } 4096 sz) h' [4096, 16]
        4096 r := by
  have R := (sound_boot boot_bootMachine).represents
  have hn : (100 : BitVec 32).toNat ≤ 2 ^ 31 - 16 := by decide
  have hfuel : ([] : List Ptr).length + 3 ≤ 3 := by decide
  have hsmall : ∀ b ∈ searched bootMachine.heap [], size bootMachine.heap.mem b < units 100 := by
    intro b hb
    obtain rfl : b = 16 := List.mem_singleton.mp hb
    rw [boot_bootMachine.initial.size_eq]
    decide
  have hanswer : oracle onceAnswer (BitVec.ofNat 32 (max (units 100).toNat 1024 * 8))
      bootMachine.heap.sbrk = (4096, [⟨8192, 4096⟩]) := by
    have hcount : BitVec.ofNat 32 (max (units 100).toNat 1024 * 8) = 8192 := by decide
    rw [hcount]
    rfl
  have F : Fresh 16 (Arena.vacant (16 : Ptr).toNat).owned 4096 (max (units 100).toNat 1024 * 8) :=
    ⟨by decide, by decide, by simp [Arena.vacant]⟩
  obtain ⟨-, -, hgrow⟩ := malloc_first_fit R hn hfuel (oracle onceAnswer)
  obtain ⟨sz, r, h', hsz, hm, htakes, -, -⟩ :=
    (hgrow hsmall 4096 [⟨8192, 4096⟩] hanswer).2 F
  exact ⟨sz, r, h', hsz, hm, htakes⟩

end TinaOS.Malloc
