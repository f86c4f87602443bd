import TinaOS.Strsep

/-!
# `strcpy`, `strcmp` and `memcmp` of `sys/string.c`

Each of the three loops finds the end of its arguments in its own way. The results of the
comparisons are of opposite sense: `strcmp` returns 0 for equal strings, and `memcmp`, which
counts past 0, returns 0 for bytes that differ.
-/

namespace TinaOS.Strings

open ByteMemory Strsep

/-- The loop of `strcpy`. It leaves with `i` and memory. -/
def strcpyStep : Mem × Ptr × Ptr × BitVec 32 → (Mem × Ptr × Ptr × BitVec 32) ⊕ (BitVec 32 × Mem)
  | (m, destination, source, i) =>
    let c := m source
    let m := Function.update m destination c
    if c ≠ 0 then .inl (m, destination + 1, source + 1, i + 1) else .inr (i, m)

def strcpy (fuel : ℕ) (m : Mem) (destination source : Ptr) : Option (BitVec 32 × Mem) :=
  BoundedLoop.run strcpyStep fuel (m, destination, source, 0)

/-- The addresses that a comparison has read through its two arguments, the latest first; no code
reads these. -/
structure Reads where
  first : List Ptr
  second : List Ptr

/-- The loop of `strcmp`. Its second test reads the byte of `source` again. -/
def strcmpStep (m : Mem) (destination source : Ptr) :
    BitVec 32 × Reads → (BitVec 32 × Reads) ⊕ (BitVec 32 × Reads)
  | (i, reads) =>
    let reads := ⟨(destination + i) :: reads.first, (source + i) :: reads.second⟩
    if m (destination + i) = m (source + i) then
      let reads := { reads with second := (source + i) :: reads.second }
      if m (source + i) = 0 then .inr (0, reads) else .inl (i + 1, reads)
    else .inr (1, reads)

def strcmp (fuel : ℕ) (m : Mem) (destination source : Ptr) : Option (BitVec 32 × Reads) :=
  BoundedLoop.run (strcmpStep m destination source) fuel (0, ⟨[], []⟩)

/-- The loop of `memcmp`. The test `n--` decrements `n` when it fails, too. -/
def memcmpStep (m : Mem) :
    Ptr × Ptr × BitVec 32 × Reads → (Ptr × Ptr × BitVec 32 × Reads) ⊕ (BitVec 32 × Reads)
  | (first, second, n, reads) =>
    if n ≠ 0 then
      let reads := ⟨first :: reads.first, second :: reads.second⟩
      if m first ≠ m second then .inr (0, reads) else .inl (first + 1, second + 1, n - 1, reads)
    else .inr (n - 1, reads)

def memcmp (fuel : ℕ) (m : Mem) (first second : Ptr) (n : BitVec 32) : Option (BitVec 32 × Reads) :=
  BoundedLoop.run (memcmpStep m) fuel (first, second, n, ⟨[], []⟩)

variable {m : Mem} {p q : Ptr} {c d : Byte} {cs ds : List Byte} {fuel : ℕ} {i n : BitVec 32}
  {reads : Reads} {R R' : Ptr → Prop}

/-- A string ends before it comes round to its own start. -/
theorem length_lt_of_stands (h : Stands m p cs) : cs.length < 2 ^ 32 := by
  by_contra hle
  have hlt : cs.length % 2 ^ 32 < cs.length := by omega
  have hget : cs[cs.length % 2 ^ 32] = 0 := by
    rw [← h.get hlt]
    have hend : m (p + BitVec.ofNat 32 cs.length) = 0 := by
      have hstop := h.1 cs.length (Nat.le_refl _)
      simpa using hstop
    have hround : BitVec.ofNat 32 (cs.length % 2 ^ 32) = BitVec.ofNat 32 cs.length := by
      apply BitVec.eq_of_toNat_eq
      rw [BitVec.toNat_ofNat, BitVec.toNat_ofNat, Nat.mod_mod]
    rw [hround, hend]
  exact h.2 (hget ▸ List.getElem_mem hlt)

/-- All addresses read through the first argument are in `R`, and through the second in `R'`. -/
def Reads.Inside (R R' : Ptr → Prop) (reads : Reads) : Prop :=
  (∀ a ∈ reads.first, R a) ∧ ∀ a ∈ reads.second, R' a

theorem Reads.Inside.read (h : reads.Inside R R') (hp : R p) (hq : R' q) :
    Reads.Inside R R' ⟨p :: reads.first, q :: reads.second⟩ :=
  ⟨List.forall_mem_cons.mpr ⟨hp, h.1⟩, List.forall_mem_cons.mpr ⟨hq, h.2⟩⟩

theorem Reads.Inside.again (h : reads.Inside R R') (hq : R' q) :
    Reads.Inside R R' { reads with second := q :: reads.second } :=
  ⟨h.1, List.forall_mem_cons.mpr ⟨hq, h.2⟩⟩

theorem strcmpStep_differ (h : m (p + i) ≠ m (q + i)) : strcmpStep m p q (i, reads) =
    .inr (1, ⟨(p + i) :: reads.first, (q + i) :: reads.second⟩) := if_neg h

theorem strcmpStep_end (h : m (p + i) = m (q + i)) (h0 : m (q + i) = 0) :
    strcmpStep m p q (i, reads) =
      .inr (0, ⟨(p + i) :: reads.first, (q + i) :: (q + i) :: reads.second⟩) :=
  (if_pos h).trans (if_pos h0)

theorem strcmpStep_next (reads : Reads) (h : m (p + i) = m (q + i)) (h0 : m (q + i) ≠ 0) :
    strcmpStep m p q (i, reads) =
      .inl (i + 1, ⟨(p + i) :: reads.first, (q + i) :: (q + i) :: reads.second⟩) :=
  (if_pos h).trans (if_neg h0)

/-- A first difference ends the comparison. -/
theorem run_strcmpStep_differ (h : m (p + i) ≠ m (q + i)) (hp : R (p + i)) (hq : R' (q + i))
    (hreads : reads.Inside R R') (fuel : ℕ) :
    ∃ reads', BoundedLoop.run (strcmpStep m p q) (fuel + 1) (i, reads) = some (1, reads') ∧
      reads'.Inside R R' :=
  ⟨_, BoundedLoop.run_of_inr (strcmpStep_differ h) fuel, hreads.read hp hq⟩

/-- The strings from index `i` on are compared up to their first difference, or their end. -/
theorem run_strcmpStep (hp : Stands m (p + i) cs) (hq : Stands m (q + i) ds)
    (hf : cs.length < fuel) (hR : ∀ k ≤ cs.length, R (p + i + BitVec.ofNat 32 k))
    (hR' : ∀ k ≤ ds.length, R' (q + i + BitVec.ofNat 32 k)) (hreads : reads.Inside R R') :
    ∃ reads', BoundedLoop.run (strcmpStep m p q) fuel (i, reads) =
      some (if cs = ds then 0 else 1, reads') ∧ reads'.Inside R R' := by
  induction fuel generalizing cs ds i reads with
  | zero => exact absurd hf (Nat.not_lt_zero _)
  | succ fuel ih =>
    have hfirst : R (p + i) := by simpa using hR 0 (Nat.zero_le _)
    have hsecond : R' (q + i) := by simpa using hR' 0 (Nat.zero_le _)
    cases cs with
    | nil =>
      have hpz := hp.terminator
      cases ds with
      | nil =>
        have hqz := hq.terminator
        refine ⟨_, ?_, (hreads.read hfirst hsecond).again hsecond⟩
        exact BoundedLoop.run_of_inr (strcmpStep_end (hpz.trans hqz.symm) hqz) fuel
      | cons d ds =>
        obtain ⟨hhead, hd⟩ := hq.head
        have hne : m (p + i) ≠ m (q + i) := by
          rw [hpz, hhead]
          exact Ne.symm hd
        exact run_strcmpStep_differ hne hfirst hsecond hreads fuel
    | cons c cs =>
      obtain ⟨hhead, hc⟩ := hp.head
      cases ds with
      | nil =>
        have hne : m (p + i) ≠ m (q + i) := by
          rw [hq.terminator, hhead]
          exact hc
        exact run_strcmpStep_differ hne hfirst hsecond hreads fuel
      | cons d ds =>
        obtain ⟨hhead', hd⟩ := hq.head
        by_cases heq : c = d
        · subst heq
          have hnext : ∀ (a : Ptr) (k : ℕ), a + (i + 1) + BitVec.ofNat 32 k =
              a + i + BitVec.ofNat 32 (k + 1) := by
            intro a k
            rw [← BitVec.add_assoc, next_offset]
          have htail := hp.tail
          have htail' := hq.tail
          rw [BitVec.add_assoc] at htail htail'
          obtain ⟨reads', hrun, hin⟩ := ih htail htail' (Nat.lt_of_succ_lt_succ hf)
            (fun k hk => hnext p k ▸ hR (k + 1) (Nat.succ_le_succ hk))
            (fun k hk => hnext q k ▸ hR' (k + 1) (Nat.succ_le_succ hk))
            ((hreads.read hfirst hsecond).again hsecond)
          have hstep := strcmpStep_next reads (hhead.trans hhead'.symm) (hhead' ▸ hd)
          rw [BoundedLoop.run_of_inl hstep]
          exact ⟨reads', by simpa using hrun, hin⟩
        · have hne : m (p + i) ≠ m (q + i) := by
            rw [hhead, hhead']
            exact heq
          rw [if_neg fun h => heq (List.cons.inj h).1]
          exact run_strcmpStep_differ hne hfirst hsecond hreads fuel

theorem strcmp_eq (hp : Stands m p cs) (hq : Stands m q ds) (hf : cs.length < fuel) :
    ∃ reads, strcmp fuel m p q = some (if cs = ds then 0 else 1, reads) ∧
      (∀ a ∈ reads.first, ∃ k ≤ cs.length, a = p + BitVec.ofNat 32 k) ∧
      ∀ a ∈ reads.second, ∃ k ≤ ds.length, a = q + BitVec.ofNat 32 k := by
  have hzero : ∀ a : Ptr, a + 0 = a := BitVec.add_zero
  apply run_strcmpStep
  · rwa [hzero]
  · rwa [hzero]
  · exact hf
  · exact fun k hk => ⟨k, hk, by rw [hzero]⟩
  · exact fun k hk => ⟨k, hk, by rw [hzero]⟩
  · exact ⟨by simp, by simp⟩

theorem strcpyStep_next (h : m q ≠ 0) : strcpyStep (m, p, q, i) =
    .inl (Function.update m p (m q), p + 1, q + 1, i + 1) := if_pos h

theorem strcpyStep_end (h : m q = 0) : strcpyStep (m, p, q, i) =
    .inr (i, Function.update m p (m q)) := if_neg (not_not.mpr h)

theorem run_strcpyStep (hq : Stands m q cs) (hf : cs.length < fuel)
    (hapart : ∀ j ≤ cs.length, ∀ k ≤ cs.length, p + BitVec.ofNat 32 j ≠ q + BitVec.ofNat 32 k) :
    BoundedLoop.run strcpyStep fuel (m, p, q, i) =
      some (i + BitVec.ofNat 32 cs.length, writeBytes m p (cs.length + 1) fun k => cs.getD k 0) := by
  have hlen := length_lt_of_stands hq
  induction cs generalizing m p q i fuel with
  | nil =>
    obtain ⟨fuel, rfl⟩ : ∃ f, fuel = f + 1 := ⟨fuel - 1, by omega⟩
    have hqz := hq.terminator
    rw [BoundedLoop.run_of_inr (strcpyStep_end hqz), hqz, List.length_nil, add_offset_zero,
      writeBytes_one]
    rfl
  | cons c cs ih =>
    obtain ⟨fuel, rfl⟩ : ∃ f, fuel = f + 1 := ⟨fuel - 1, by omega⟩
    obtain ⟨hhead, hc⟩ := hq.head
    rw [List.length_cons] at hf hapart hlen
    have htail : Stands (Function.update m p c) (q + 1) cs := by
      refine hq.tail.congr fun k hk => Function.update_of_ne (fun heq => ?_) _ _
      rw [next_offset] at heq
      exact hapart 0 (Nat.zero_le _) (k + 1) (by omega) (by rw [add_offset_zero, heq])
    have hnext : ∀ j ≤ cs.length, ∀ k ≤ cs.length,
        p + 1 + BitVec.ofNat 32 j ≠ q + 1 + BitVec.ofNat 32 k := by
      intro j hj k hk
      rw [next_offset, next_offset]
      exact hapart (j + 1) (by omega) (k + 1) (by omega)
    have hi : i + 1 + BitVec.ofNat 32 cs.length = i + BitVec.ofNat 32 (cs.length + 1) :=
      next_offset i cs.length
    have hstep := strcpyStep_next (p := p) (i := i) (hhead ▸ hc)
    rw [hhead] at hstep
    rw [BoundedLoop.run_of_inl hstep, ih htail (by omega) hnext (by omega), hi, List.length_cons,
      ← writeBytes_cons m p (fun k => (c :: cs).getD k 0) (by omega)]
    rfl

/-- A copy of a string with its terminator is a string. -/
theorem stands_writeBytes {f : ℕ → Byte} (m : Mem) (p : Ptr) (h0 : 0 ∉ cs)
    (hlen : cs.length < 2 ^ 32) (hf : ∀ k ≤ cs.length, f k = cs.getD k 0) :
    Stands (writeBytes m p (cs.length + 1) f) p cs :=
  ⟨fun k hk => (writeBytes_inside f (Nat.lt_succ_of_le hk) hlen).trans (hf k hk), h0⟩

/-- A string disjoint from the bytes written is still there. -/
theorem stands_writeBytes_apart {k : ℕ} (h : Stands m q cs) (f : ℕ → Byte)
    (hapart : ∀ i < k, ∀ j ≤ cs.length, p + BitVec.ofNat 32 i ≠ q + BitVec.ofNat 32 j) :
    Stands (writeBytes m p k f) q cs := by
  refine h.congr fun j hj => writeBytes_outside f (le_sub_of_ne fun i hi => ?_)
  exact (hapart i hi j hj).symm

/-- Two disjoint ranges fill at most the address space. -/
theorem length_lt_of_disjoint {n : ℕ}
    (h : ∀ j ≤ n, ∀ k ≤ n, p + BitVec.ofNat 32 j ≠ q + BitVec.ofNat 32 k) : n < 2 ^ 31 := by
  have hpq : n + 1 ≤ (p - q).toNat := by
    apply le_sub_of_ne
    intro k hk
    have hne := h 0 (Nat.zero_le n) k (by omega)
    rwa [add_offset_zero] at hne
  have hqp : n + 1 ≤ (q - p).toNat := by
    apply le_sub_of_ne
    intro j hj
    have hne := h j (by omega) 0 (Nat.zero_le n)
    rw [add_offset_zero] at hne
    exact Ne.symm hne
  have hlt := p.isLt
  have hlt' := q.isLt
  rw [BitVec.toNat_sub] at hpq hqp
  omega

/-- `strcpy` copies a string to any room for it that is disjoint from it, as `strlen` and `strcmp`
tell, and writes nowhere else. `strcmp` tells equal strings from others, and reads none behind
its terminator. -/
theorem strcpy_strcmp :
    (∀ (m : Mem) (destination source : Ptr) (cs : List Byte), Stands m source cs →
      (∀ j ≤ cs.length, ∀ k ≤ cs.length,
        destination + BitVec.ofNat 32 j ≠ source + BitVec.ofNat 32 k) →
      ∃ fuel i m' reads, strcpy fuel m destination source = some (i, m') ∧
        i.toInt = cs.length ∧
        strlen fuel (fun k => m (source + BitVec.ofNat 32 k)) = some cs.length ∧
        strlen fuel (fun k => m' (destination + BitVec.ofNat 32 k)) = some cs.length ∧
        strcmp fuel m' destination source = some (0, reads) ∧
        ∀ x, (∀ k ≤ cs.length, x ≠ destination + BitVec.ofNat 32 k) → m' x = m x) ∧
    ∀ (m : Mem) (destination source : Ptr) (cs ds : List Byte), Stands m destination cs →
      Stands m source ds → ∃ fuel r reads, strcmp fuel m destination source = some (r, reads) ∧
        (r = 0 ↔ cs = ds) ∧
        (∀ a ∈ reads.first, ∃ k ≤ cs.length, a = destination + BitVec.ofNat 32 k) ∧
        ∀ a ∈ reads.second, ∃ k ≤ ds.length, a = source + BitVec.ofNat 32 k := by
  constructor
  · intro m destination source cs hs hapart
    have hlen := length_lt_of_disjoint hapart
    have hf : cs.length < cs.length + 1 := Nat.lt_succ_self _
    let m' := writeBytes m destination (cs.length + 1) fun k => cs.getD k 0
    have hcopied : Stands m' destination cs :=
      stands_writeBytes m destination hs.2 (by omega) fun _ _ => rfl
    have hkept : Stands m' source cs :=
      stands_writeBytes_apart hs _ fun j hj => hapart j (Nat.le_of_lt_succ hj)
    obtain ⟨reads, hcmp, -⟩ := strcmp_eq hcopied hkept hf
    rw [if_pos rfl] at hcmp
    refine ⟨cs.length + 1, 0 + BitVec.ofNat 32 cs.length, m', reads, run_strcpyStep hs hf hapart,
      ?_, hs.1.strlen_eq hs.2 hf, hcopied.1.strlen_eq hs.2 hf, hcmp, fun x hx => ?_⟩
    · have hzero : 0 + BitVec.ofNat 32 cs.length = BitVec.ofNat 32 cs.length := BitVec.zero_add _
      have hnat : (BitVec.ofNat 32 cs.length).toNat = cs.length := by
        rw [BitVec.toNat_ofNat]
        omega
      rw [hzero, BitVec.toInt_eq_toNat_of_lt (by omega), hnat]
    · exact writeBytes_outside _ (le_sub_of_ne fun k hk => hx k (by omega))
  · intro m destination source cs ds hp hq
    obtain ⟨reads, hcmp, hfirst, hsecond⟩ := strcmp_eq hp hq (Nat.lt_succ_self _)
    refine ⟨_, _, reads, hcmp, ?_, hfirst, hsecond⟩
    by_cases heq : cs = ds
    · simp [heq]
    · simp [heq]

/-- The memory of one string at `0x100`. -/
def oneString (c : Byte) : Mem := Function.update (fun _ => 0) 0x100 c

theorem stands_oneString (hc : c ≠ 0) : Stands (oneString c) 0x100 [c] := by
  refine ⟨fun k hk => ?_, by simpa using hc.symm⟩
  have hcases : k = 0 ∨ k = 1 := by
    rw [List.length_singleton] at hk
    omega
  rcases hcases with rfl | rfl
  · exact Function.update_self _ _ _
  · exact Function.update_of_ne (by decide) _ _

theorem strcpy_strcmp_one : (∃ fuel i m', strcpy fuel (oneString 65) 0x200 0x100 = some (i, m') ∧
      i.toInt = 1) ∧
    ∃ fuel r reads, strcmp fuel (oneString 65) 0x100 0x101 = some (r, reads) ∧ r ≠ 0 := by
  have hs := stands_oneString (c := 65) (by decide)
  constructor
  · obtain ⟨fuel, i, m', reads, hrun, hi, -⟩ :=
      strcpy_strcmp.1 (oneString 65) 0x200 0x100 [65] hs (by decide)
    exact ⟨fuel, i, m', hrun, hi⟩
  · have hend : Stands (oneString 65) 0x101 [] := hs.tail
    obtain ⟨fuel, r, reads, hrun, hr, -⟩ := strcpy_strcmp.2 _ _ _ _ _ hs hend
    exact ⟨fuel, r, reads, hrun, fun h => by cases hr.mp h⟩

theorem memcmpStep_end : memcmpStep m (p, q, 0, reads) = .inr (-1, reads) := rfl

theorem memcmpStep_differ (hn : n ≠ 0) (h : m p ≠ m q) : memcmpStep m (p, q, n, reads) =
    .inr (0, ⟨p :: reads.first, q :: reads.second⟩) := (if_pos hn).trans (if_pos h)

theorem memcmpStep_next (hn : n ≠ 0) (h : m p = m q) : memcmpStep m (p, q, n, reads) =
    .inl (p + 1, q + 1, n - 1, ⟨p :: reads.first, q :: reads.second⟩) :=
  (if_pos hn).trans (if_neg (not_not.mpr h))

/-- From here on `memcmp` returns `-1` for bytes that agree, and 0 for others. -/
theorem run_memcmpStep {k : ℕ} (hk : n.toNat = k) (hf : k < fuel)
    (hR : ∀ i < k, R (p + BitVec.ofNat 32 i)) (hR' : ∀ i < k, R' (q + BitVec.ofNat 32 i))
    (hreads : reads.Inside R R') :
    ∃ reads', BoundedLoop.run (memcmpStep m) fuel (p, q, n, reads) =
      some (if ∀ i < k, m (p + BitVec.ofNat 32 i) = m (q + BitVec.ofNat 32 i) then -1 else 0,
        reads') ∧ reads'.Inside R R' := by
  induction k generalizing p q n fuel reads with
  | zero =>
    obtain ⟨fuel, rfl⟩ : ∃ f, fuel = f + 1 := ⟨fuel - 1, by omega⟩
    have hn : n = 0 := BitVec.eq_of_toNat_eq hk
    refine ⟨reads, ?_, hreads⟩
    rw [if_pos (by simp), hn]
    exact BoundedLoop.run_of_inr memcmpStep_end fuel
  | succ k ih =>
    obtain ⟨fuel, rfl⟩ : ∃ f, fuel = f + 1 := ⟨fuel - 1, by omega⟩
    have hn : n ≠ 0 := by
      rintro rfl
      simp at hk
    have hread := hreads.read (by simpa using hR 0 (Nat.succ_pos k))
      (by simpa using hR' 0 (Nat.succ_pos k))
    by_cases heq : m p = m q
    · have hpred : (n - 1).toNat = k := by
        have hlt := n.isLt
        simp only [BitVec.toNat_sub, BitVec.reduceToNat]
        omega
      obtain ⟨reads', hrun, hin⟩ := ih (p := p + 1) (q := q + 1) hpred (Nat.lt_of_succ_lt_succ hf)
        (fun i hi => next_offset p i ▸ hR (i + 1) (Nat.succ_lt_succ hi))
        (fun i hi => next_offset q i ▸ hR' (i + 1) (Nat.succ_lt_succ hi)) hread
      refine ⟨reads', ?_, hin⟩
      rw [BoundedLoop.run_of_inl (memcmpStep_next hn heq), hrun]
      simp only [next_offset, Nat.forall_lt_succ_left, add_offset_zero, heq, true_and]
    · have hno : ¬ ∀ i < k + 1, m (p + BitVec.ofNat 32 i) = m (q + BitVec.ofNat 32 i) := by
        intro h
        have h0 := h 0 (Nat.succ_pos k)
        rw [add_offset_zero, add_offset_zero] at h0
        exact heq h0
      refine ⟨_, ?_, hread⟩
      rw [if_neg hno]
      exact BoundedLoop.run_of_inr (memcmpStep_differ hn heq) fuel

theorem memcmp_eq (m : Mem) (p q : Ptr) (n : BitVec 32) (hf : n.toNat < fuel) :
    ∃ reads, memcmp fuel m p q n =
      some (if ∀ i < n.toNat, m (p + BitVec.ofNat 32 i) = m (q + BitVec.ofNat 32 i) then -1 else 0,
        reads) ∧
      (∀ a ∈ reads.first, ∃ i < n.toNat, a = p + BitVec.ofNat 32 i) ∧
      ∀ a ∈ reads.second, ∃ i < n.toNat, a = q + BitVec.ofNat 32 i :=
  run_memcmpStep rfl hf (fun i hi => ⟨i, hi, rfl⟩) (fun i hi => ⟨i, hi, rfl⟩) ⟨by simp, by simp⟩

/-- Strings of one length are the same exactly if their bytes agree up to the terminators. -/
theorem stands_eq_iff (hp : Stands m p cs) (hq : Stands m q ds) (hlen : cs.length = ds.length) :
    cs = ds ↔ ∀ i < cs.length + 1, m (p + BitVec.ofNat 32 i) = m (q + BitVec.ofNat 32 i) := by
  constructor
  · rintro rfl i hi
    exact (hp.1 i (by omega)).trans (hq.1 i (by omega)).symm
  · intro h
    apply List.ext_getElem hlen
    intro i hi hi'
    rw [← hp.get hi, ← hq.get hi', h i (by omega)]

/-- `memcmp` returns 0 exactly if the bytes do not agree, and for strings of one length exactly if
`strcmp` does not. It reads only the bytes that it is given. -/
theorem memcmp_inverted (m : Mem) (first second : Ptr) (n : BitVec 32) :
    (∃ fuel r reads, memcmp fuel m first second n = some (r, reads) ∧
      ¬ (r = 0 ↔
        ∀ i < n.toNat, m (first + BitVec.ofNat 32 i) = m (second + BitVec.ofNat 32 i)) ∧
      (∀ a ∈ reads.first, ∃ i < n.toNat, a = first + BitVec.ofNat 32 i) ∧
      ∀ a ∈ reads.second, ∃ i < n.toNat, a = second + BitVec.ofNat 32 i) ∧
    ∀ cs ds : List Byte, Stands m first cs → Stands m second ds → cs.length = ds.length →
      n.toNat = cs.length + 1 →
      ∃ fuel r reads r' reads', memcmp fuel m first second n = some (r, reads) ∧
        strcmp fuel m first second = some (r', reads') ∧ ¬ (r = 0 ↔ r' = 0) := by
  constructor
  · obtain ⟨reads, hrun, hreads⟩ := memcmp_eq m first second n (Nat.lt_succ_self _)
    refine ⟨_, _, reads, hrun, ?_, hreads⟩
    split_ifs with h
    · exact fun hiff => absurd (hiff.mpr h) (by decide)
    · exact fun hiff => h (hiff.mp rfl)
  · intro cs ds hs ht hlen hn
    obtain ⟨reads, hrun, -⟩ := memcmp_eq m first second n (Nat.lt_succ_self _)
    have hf : cs.length < n.toNat + 1 := by omega
    obtain ⟨reads', hcmp, -⟩ := strcmp_eq hs ht hf
    refine ⟨_, _, reads, _, reads', hrun, hcmp, ?_⟩
    simp only [hn, ← stands_eq_iff hs ht hlen]
    split_ifs
    · decide
    · decide

theorem memcmp_inverted_one : ∃ fuel r reads r' reads',
    memcmp fuel (oneString 65) 0x100 0x100 2 = some (r, reads) ∧
      strcmp fuel (oneString 65) 0x100 0x100 = some (r', reads') ∧ ¬ (r = 0 ↔ r' = 0) :=
  (memcmp_inverted _ _ _ 2).2 [65] [65] (stands_oneString (by decide)) (stands_oneString (by decide))
    rfl rfl

/-- Two bytes that agree compare as `-1`. -/
theorem not_memcmp_zero_iff : ¬ ∀ (m : Mem) (first second : Ptr) (n : BitVec 32), 0 ≤ n.toInt →
    ∃ fuel r reads, memcmp fuel m first second n = some (r, reads) ∧
      (r = 0 ↔ ∀ i < n.toNat, m (first + BitVec.ofNat 32 i) = m (second + BitVec.ofNat 32 i)) := by
  intro h
  obtain ⟨fuel, r, reads, hrun, hr⟩ := h (fun _ => 65) 0x100 0x200 1 (by decide)
  have hone : memcmp 2 (fun _ => 65) 0x100 0x200 1 = some (-1, ⟨[0x100], [0x200]⟩) := rfl
  obtain ⟨rfl, -⟩ := Prod.mk.inj (BoundedLoop.run_unique hrun hone)
  exact absurd (hr.mpr fun _ _ => rfl) (by decide)

end TinaOS.Strings
