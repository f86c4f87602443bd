import TinaOS.Strings
import Mathlib.Data.List.Basic
import Mathlib.Data.Nat.Init
import Mathlib.Logic.Function.Basic

/-!
# `strsep` of `sys/string.c`

Each call cuts one token off the string by a zero in place of the delimiter behind it. The
inner loop runs through the delimiters and their terminator, so the end of the string is
found in the same way as a delimiter. Called again and again, it cuts the string at all its
delimiters.
-/

namespace TinaOS.Strsep

open Strings ByteMemory

/-- Memory, and the addresses of the loads and stores of `strsep`, the latest first; no code reads
these two. -/
structure Store where
  mem : Mem
  loads : List Ptr
  stores : List Ptr

def Store.load (σ : Store) (a : Ptr) : Byte × Store := (σ.mem a, { σ with loads := a :: σ.loads })

def Store.store (σ : Store) (a : Ptr) (v : Byte) : Store :=
  { σ with mem := Function.update σ.mem a v, stores := a :: σ.stores }

/-- The inner loop. It leaves with whether `count` is among the delimiters or their terminator. -/
def spanStep (count : Byte) : Store × Ptr → (Store × Ptr) ⊕ (Store × Bool)
  | (σ, span) =>
    let (subCount, σ) := σ.load span
    let span := span + 1
    if subCount = count then .inr (σ, true)
    else if subCount ≠ 0 then .inl (σ, span)
    else .inr (σ, false)

/-- The outer loop. It leaves with the new `*string`. -/
def strsepStep (fuel : ℕ) (delimiter : Ptr) : Store × Ptr → (Store × Ptr) ⊕ Option (Store × Ptr)
  | (σ, s) =>
    let (count, σ) := σ.load s
    let s := s + 1
    match BoundedLoop.run (spanStep count) fuel (σ, delimiter) with
    | none => .inr none
    | some (σ, true) =>
      if count = 0 then .inr (some (σ, 0)) else .inr (some (σ.store (s - 1) 0, s))
    | some (σ, false) => .inl (σ, s)

/-- `strsep`, with the value of `*string`: the new value and the token. Both loops have the same
budget. -/
def strsep (fuel : ℕ) (delimiter : Ptr) (σ : Store) (string : Ptr) : Option (Store × Ptr × Ptr) :=
  if string = 0 then some (σ, string, 0)
  else
    (BoundedLoop.run (strsepStep fuel delimiter) fuel (σ, string)).join.map fun (σ, s) =>
      (σ, s, string)

/-- The tokens of calls on the same pointer until one returns `NULL`. -/
def tokens (fuel : ℕ) (delimiter : Ptr) : ℕ → Store → Ptr → Option (List Ptr × Store × Ptr)
  | 0, _, _ => none
  | calls + 1, σ, string => do
    let (σ, string, token) ← strsep fuel delimiter σ string
    if token = 0 then some ([], σ, string)
    else
      let (rest, σ, string) ← tokens fuel delimiter calls σ string
      some (token :: rest, σ, string)

/-- The characters `cs` and a terminator stand at `p`, and no character is a terminator. -/
def Stands (m : Mem) (p : Ptr) (cs : List Byte) : Prop :=
  Spells (fun k => m (p + BitVec.ofNat 32 k)) cs ∧ 0 ∉ cs

variable {m m' : Mem} {p q : Ptr} {c : Byte} {cs ds seg rest : List Byte}

theorem Stands.terminator (h : Stands m p []) : m p = 0 := by
  have h0 := h.1 0 (Nat.le_refl 0)
  simpa using h0

theorem Stands.head (h : Stands m p (c :: cs)) : m p = c ∧ c ≠ 0 := by
  have h0 := h.1 0 (Nat.zero_le _)
  refine ⟨by simpa using h0, ?_⟩
  rintro rfl
  exact h.2 List.mem_cons_self

theorem Stands.tail (h : Stands m p (c :: cs)) : Stands m (p + 1) cs := by
  refine ⟨fun k hk => ?_, fun h0 => h.2 (List.mem_cons_of_mem c h0)⟩
  have hnext : m (p + BitVec.ofNat 32 (k + 1)) = (c :: cs).getD (k + 1) 0 :=
    h.1 (k + 1) (Nat.succ_le_succ hk)
  rwa [← next_offset] at hnext

theorem Stands.drop (h : Stands m p (seg ++ rest)) :
    Stands m (p + BitVec.ofNat 32 seg.length) rest := by
  induction seg generalizing p with
  | nil => simpa using h
  | cons c seg ih =>
    have hrest := ih h.tail
    rwa [next_offset] at hrest

/-- The string behind a character of a string. -/
theorem Stands.after {d : Byte} (h : Stands m p (seg ++ d :: rest)) :
    Stands m (p + BitVec.ofNat 32 (seg.length + 1)) rest := by
  have heq : p + BitVec.ofNat 32 seg.length + 1 = p + BitVec.ofNat 32 (seg.length + 1) :=
    offset_offset p seg.length 1
  exact heq ▸ h.drop.tail

theorem Stands.get (h : Stands m p cs) {k : ℕ} (hk : k < cs.length) :
    m (p + BitVec.ofNat 32 k) = cs[k] := by
  have hget : m (p + BitVec.ofNat 32 k) = cs.getD k 0 := h.1 k (Nat.le_of_lt hk)
  rw [hget, List.getD_eq_getElem?_getD, List.getElem?_eq_getElem hk, Option.getD_some]

theorem Stands.congr (h : Stands m p cs)
    (hm : ∀ k ≤ cs.length, m' (p + BitVec.ofNat 32 k) = m (p + BitVec.ofNat 32 k)) :
    Stands m' p cs := ⟨fun k hk => (hm k hk).trans (h.1 k hk), h.2⟩

variable {σ : Store} {R W : Ptr → Prop} {count : Byte} {fuel n : ℕ}

/-- All loads so far are of addresses in `R`, and all stores of addresses in `W`. -/
def Confined (R W : Ptr → Prop) (σ : Store) : Prop := (∀ a ∈ σ.loads, R a) ∧ ∀ a ∈ σ.stores, W a

theorem Confined.load {a : Ptr} (h : Confined R W σ) (ha : R a) : Confined R W (σ.load a).2 :=
  ⟨List.forall_mem_cons.mpr ⟨ha, h.1⟩, h.2⟩

theorem Confined.store {a : Ptr} {v : Byte} (h : Confined R W σ) (ha : W a) :
    Confined R W (σ.store a v) := ⟨h.1, List.forall_mem_cons.mpr ⟨ha, h.2⟩⟩

theorem spanStep_hit (h : σ.mem q = count) : spanStep count (σ, q) = .inr ((σ.load q).2, true) :=
  if_pos h

theorem spanStep_next (h : σ.mem q ≠ count) (h0 : σ.mem q ≠ 0) :
    spanStep count (σ, q) = .inl ((σ.load q).2, q + 1) := (if_neg h).trans (if_pos h0)

theorem spanStep_miss (h : σ.mem q ≠ count) (h0 : σ.mem q = 0) :
    spanStep count (σ, q) = .inr ((σ.load q).2, false) := (if_neg h).trans (if_neg (not_not.mpr h0))

/-- The inner loop finds the delimiters and the terminator. -/
theorem span_spec (count : Byte) (hds : Stands σ.mem q ds) (hf : ds.length < fuel)
    (hR : ∀ j ≤ ds.length, R (q + BitVec.ofNat 32 j)) (hσ : Confined R W σ) :
    ∃ σ', BoundedLoop.run (spanStep count) fuel (σ, q) = some (σ', decide (count = 0 ∨ count ∈ ds)) ∧
      σ'.mem = σ.mem ∧ Confined R W σ' := by
  have hq : R q := by simpa using hR 0 (Nat.zero_le _)
  induction ds generalizing q σ fuel with
  | nil =>
    obtain ⟨fuel, rfl⟩ : ∃ f, fuel = f + 1 := ⟨fuel - 1, by simp at hf; omega⟩
    refine ⟨(σ.load q).2, ?_, rfl, hσ.load hq⟩
    by_cases hc : count = 0
    · rw [BoundedLoop.run_of_inr (spanStep_hit (hds.terminator.trans hc.symm)), hc]
      rfl
    · have hne : σ.mem q ≠ count := fun h => hc (h.symm.trans hds.terminator)
      rw [BoundedLoop.run_of_inr (spanStep_miss hne hds.terminator), decide_eq_false]
      rintro (h | h)
      · exact hc h
      · cases h
  | cons d ds ih =>
    obtain ⟨fuel, rfl⟩ : ∃ f, fuel = f + 1 := ⟨fuel - 1, by simp at hf; omega⟩
    obtain ⟨hd, hd0⟩ := hds.head
    by_cases hc : d = count
    · refine ⟨(σ.load q).2, ?_, rfl, hσ.load hq⟩
      rw [BoundedLoop.run_of_inr (spanStep_hit (hd.trans hc)), hc, decide_eq_true]
      exact .inr List.mem_cons_self
    · have hlen : ds.length < fuel := Nat.lt_of_succ_lt_succ hf
      have hnext : ∀ j ≤ ds.length, R (q + 1 + BitVec.ofNat 32 j) := by
        intro j hj
        rw [next_offset]
        exact hR (j + 1) (Nat.succ_le_succ hj)
      obtain ⟨σ', hrun, hmem, hσ'⟩ := ih (σ := (σ.load q).2) hds.tail hlen hnext (hσ.load hq)
        (by simpa using hnext 0 (Nat.zero_le _))
      refine ⟨σ', ?_, hmem, hσ'⟩
      rw [BoundedLoop.run_of_inl (spanStep_next (hd ▸ hc) (hd ▸ hd0)), hrun]
      simp [Ne.symm hc]

theorem strsepStep_skip {σ' : Store} (h : BoundedLoop.run (spanStep (σ.mem p)) fuel ((σ.load p).2, q) =
    some (σ', false)) : strsepStep fuel q (σ, p) = .inl (σ', p + 1) := by
  simp only [strsepStep, Store.load] at h ⊢
  rw [h]

theorem strsepStep_end {σ' : Store} (h : BoundedLoop.run (spanStep (σ.mem p)) fuel ((σ.load p).2, q) =
    some (σ', true)) (h0 : σ.mem p = 0) : strsepStep fuel q (σ, p) = .inr (some (σ', 0)) := by
  simp only [strsepStep, Store.load] at h ⊢
  rw [h]
  exact if_pos h0

theorem strsepStep_cut {σ' : Store} (h : BoundedLoop.run (spanStep (σ.mem p)) fuel ((σ.load p).2, q) =
    some (σ', true)) (h0 : σ.mem p ≠ 0) :
    strsepStep fuel q (σ, p) = .inr (some (σ'.store p 0, p + 1)) := by
  simp only [strsepStep, Store.load] at h ⊢
  rw [h]
  exact (if_neg h0).trans (by rw [BitVec.add_sub_cancel])

/-- The outer loop skips the characters that are no delimiters. -/
theorem walk_skip (hs : Stands σ.mem p (seg ++ rest)) (hseg : ∀ c ∈ seg, c ∉ ds)
    (hds : Stands σ.mem q ds) (hf : ds.length < fuel)
    (hR : ∀ k ≤ seg.length + rest.length, R (p + BitVec.ofNat 32 k))
    (hRq : ∀ j ≤ ds.length, R (q + BitVec.ofNat 32 j)) (hσ : Confined R W σ) (n : ℕ) :
    ∃ σ', BoundedLoop.run (strsepStep fuel q) (seg.length + n) (σ, p) =
        BoundedLoop.run (strsepStep fuel q) n (σ', p + BitVec.ofNat 32 seg.length) ∧
      σ'.mem = σ.mem ∧ Confined R W σ' := by
  induction seg generalizing p σ with
  | nil => exact ⟨σ, by simp, rfl, hσ⟩
  | cons c seg ih =>
    obtain ⟨hhead, hc0⟩ := hs.head
    have hp : R p := by simpa using hR 0 (Nat.zero_le _)
    obtain ⟨σ₁, hspan, hmem₁, hσ₁⟩ := span_spec (σ := (σ.load p).2) (σ.mem p) hds hf hRq (hσ.load hp)
    have hnot : ¬ (σ.mem p = 0 ∨ σ.mem p ∈ ds) := by
      rw [hhead]
      exact not_or.mpr ⟨hc0, hseg c List.mem_cons_self⟩
    rw [decide_eq_false hnot] at hspan
    have hmem : σ₁.mem = σ.mem := hmem₁
    obtain ⟨σ', hrun, hmem', hσ'⟩ := ih (σ := σ₁) (p := p + 1) (hmem ▸ hs.tail)
      (fun c hc => hseg c (List.mem_cons_of_mem _ hc)) (hmem ▸ hds)
      (fun k hk => by
        rw [next_offset]
        refine hR (k + 1) ?_
        rw [List.length_cons]
        omega) hσ₁
    refine ⟨σ', ?_, hmem'.trans hmem, hσ'⟩
    rw [List.length_cons, Nat.add_right_comm, BoundedLoop.run_of_inl (strsepStep_skip hspan), hrun,
      next_offset]

/-- A string and a delimiter string that a call can run through: they are apart, the budget
suffices, and `R` and `W` allow the loads and the stores. -/
structure Ready (R W : Ptr → Prop) (fuel : ℕ) (q : Ptr) (ds cs : List Byte) (p : Ptr) (m : Mem) :
    Prop where
  nonnull : p ≠ 0
  string : Stands m p cs
  delimiter : Stands m q ds
  nowrap : p.toNat + cs.length < 2 ^ 32
  budget : ds.length < fuel ∧ cs.length < fuel
  apart : ∀ k < cs.length, ∀ j ≤ ds.length, q + BitVec.ofNat 32 j ≠ p + BitVec.ofNat 32 k
  loads : ∀ k ≤ cs.length, R (p + BitVec.ofNat 32 k)
  loads' : ∀ j ≤ ds.length, R (q + BitVec.ofNat 32 j)
  stores : ∀ k (hk : k < cs.length), cs[k] ∈ ds → W (p + BitVec.ofNat 32 k)

/-- Without a delimiter the call takes the whole string and leaves `NULL` behind. -/
theorem strsep_last (h : Ready R W fuel q ds cs p σ.mem) (hcs : ∀ c ∈ cs, c ∉ ds)
    (hσ : Confined R W σ) :
    ∃ σ', strsep fuel q σ p = some (σ', 0, p) ∧ σ'.mem = σ.mem ∧ Confined R W σ' := by
  obtain ⟨hf, hf'⟩ := h.budget
  obtain ⟨n, rfl⟩ : ∃ n, fuel = cs.length + (n + 1) := ⟨fuel - cs.length - 1, by omega⟩
  have hs : Stands σ.mem p (cs ++ []) := by
    rw [List.append_nil]
    exact h.string
  obtain ⟨σ₁, hskip, hmem₁, hσ₁⟩ := walk_skip hs hcs h.delimiter hf h.loads h.loads' hσ (n + 1)
  have hend : σ₁.mem (p + BitVec.ofNat 32 cs.length) = 0 := by
    rw [hmem₁]
    exact hs.drop.terminator
  obtain ⟨σ₂, hspan, hmem₂, hσ₂⟩ := span_spec
    (σ := (σ₁.load (p + BitVec.ofNat 32 cs.length)).2) _ (hmem₁ ▸ h.delimiter) hf h.loads'
    (hσ₁.load (h.loads cs.length (Nat.le_refl _)))
  rw [decide_eq_true (.inl hend)] at hspan
  refine ⟨σ₂, ?_, hmem₂.trans hmem₁, hσ₂⟩
  rw [strsep, if_neg h.nonnull, hskip, BoundedLoop.run_of_inr (strsepStep_end hspan hend)]
  rfl

variable {d : Byte}

theorem length_append_cons (seg rest : List Byte) (d : Byte) :
    (seg ++ d :: rest).length = seg.length + rest.length + 1 := by
  rw [List.length_append, List.length_cons, Nat.add_assoc]

theorem getElem_behind (seg : List Byte) (d : Byte) {k : ℕ} (hk : k < rest.length)
    (hk' : seg.length + 1 + k < (seg ++ d :: rest).length) :
    (seg ++ d :: rest)[seg.length + 1 + k] = rest[k] := by
  grind

/-- A call cuts off the token in front of the first delimiter. -/
theorem strsep_cut (h : Ready R W fuel q ds (seg ++ d :: rest) p σ.mem) (hseg : ∀ c ∈ seg, c ∉ ds)
    (hd : d ∈ ds) (hσ : Confined R W σ) :
    ∃ σ', strsep fuel q σ p = some (σ', p + BitVec.ofNat 32 (seg.length + 1), p) ∧
      σ'.mem = Function.update σ.mem (p + BitVec.ofNat 32 seg.length) 0 ∧ Confined R W σ' := by
  have hlen := length_append_cons seg rest d
  obtain ⟨hf, hf'⟩ := h.budget
  obtain ⟨n, rfl⟩ : ∃ n, fuel = seg.length + (n + 1) := ⟨fuel - seg.length - 1, by omega⟩
  obtain ⟨σ₁, hskip, hmem₁, hσ₁⟩ := walk_skip h.string hseg h.delimiter hf
    (fun k hk => h.loads k (by rw [List.length_cons] at hk; omega)) h.loads' hσ (n + 1)
  obtain ⟨hhead, hd0⟩ := h.string.drop.head
  rw [← hmem₁] at hhead
  obtain ⟨σ₂, hspan, hmem₂, hσ₂⟩ := span_spec
    (σ := (σ₁.load (p + BitVec.ofNat 32 seg.length)).2) _ (hmem₁ ▸ h.delimiter) hf h.loads'
    (hσ₁.load (h.loads seg.length (by omega)))
  have hfound : d = 0 ∨ d ∈ ds := .inr hd
  rw [← hhead] at hfound hd0
  rw [decide_eq_true hfound] at hspan
  have hW : W (p + BitVec.ofNat 32 seg.length) := h.stores seg.length (by omega) (by simpa using hd)
  refine ⟨σ₂.store (p + BitVec.ofNat 32 seg.length) 0, ?_, ?_, hσ₂.store hW⟩
  · rw [strsep, if_neg h.nonnull, hskip, BoundedLoop.run_of_inr (strsepStep_cut hspan hd0),
      ← offset_offset]
    rfl
  · have hmem : σ₂.mem = σ.mem := hmem₂.trans hmem₁
    simp only [Store.store, hmem]

/-- What a cut leaves behind is ready for the next call. -/
theorem Ready.next (h : Ready R W fuel q ds (seg ++ d :: rest) p m) :
    Ready R W fuel q ds rest (p + BitVec.ofNat 32 (seg.length + 1))
      (Function.update m (p + BitVec.ofNat 32 seg.length) 0) := by
  have hlen := length_append_cons seg rest d
  obtain ⟨hp, hs, hds, hend, hf, hapart, hR, hRq, hW⟩ := h
  rw [hlen] at hend hf hapart hR
  have hp₁ : (p + BitVec.ofNat 32 (seg.length + 1)).toNat = p.toNat + (seg.length + 1) := by
    rw [BitVec.toNat_add, BitVec.toNat_ofNat]
    omega
  constructor
  case nonnull =>
    intro h0
    rw [h0] at hp₁
    simp at hp₁
  case string =>
    refine hs.after.congr fun k hk => Function.update_of_ne (fun heq => ?_) _ _
    rw [offset_offset] at heq
    have hinj := offset_inj p (by omega) (by omega) heq
    omega
  case delimiter =>
    exact hds.congr fun j hj => Function.update_of_ne (hapart seg.length (by omega) j hj) _ _
  case nowrap => omega
  case budget => omega
  case apart =>
    intro k hk j hj
    rw [offset_offset]
    exact hapart _ (by omega) j hj
  case loads =>
    intro k hk
    rw [offset_offset]
    exact hR _ (by omega)
  case loads' => exact hRq
  case stores =>
    intro k hk hmem
    rw [offset_offset]
    have hk' : seg.length + 1 + k < (seg ++ d :: rest).length := by omega
    refine hW (seg.length + 1 + k) hk' ?_
    rwa [getElem_behind seg d hk hk']

/-- Where the tokens begin. -/
def starts : Ptr → List (List Byte) → List Ptr
  | _, [] => []
  | p, seg :: segs => p :: starts (p + BitVec.ofNat 32 (seg.length + 1)) segs

theorem tokens_null (fuel calls : ℕ) (q : Ptr) (σ : Store) :
    tokens fuel q (calls + 1) σ 0 = some ([], σ, 0) := rfl

theorem tokens_cons {σ' σ'' : Store} {r r' : Ptr} {ps : List Ptr} {calls : ℕ} (hp : p ≠ 0)
    (hcall : strsep fuel q σ p = some (σ', r, p))
    (hrest : tokens fuel q calls σ' r = some (ps, σ'', r')) :
    tokens fuel q (calls + 1) σ p = some (p :: ps, σ'', r') := by
  simp only [tokens, hcall, hrest, Option.bind_eq_bind, Option.bind_some, if_neg hp]

/-- The string at `p` has been cut at its delimiters and nothing else has changed. -/
structure Cut (ds cs : List Byte) (p : Ptr) (m m' : Mem) : Prop where
  inside : ∀ k (hk : k < cs.length),
    m' (p + BitVec.ofNat 32 k) = if cs[k] ∈ ds then 0 else cs[k]
  outside : ∀ a, (∀ k < cs.length, a ≠ p + BitVec.ofNat 32 k) → m' a = m a

/-- The segments between the delimiters, empty ones included. -/
def segments (ds cs : List Byte) : List (List Byte) := cs.splitOnP (· ∈ ds)

theorem segments_eq_singleton (h : ∀ c ∈ cs, c ∉ ds) : segments ds cs = [cs] :=
  List.splitOnP_eq_singleton fun c hc => decide_eq_false (h c hc)

theorem segments_eq_cons (h : ∀ c ∈ seg, c ∉ ds) (hd : d ∈ ds) :
    segments ds (seg ++ d :: rest) = seg :: segments ds rest :=
  List.splitOnP_append_cons_of_forall_mem (fun c hc => decide_eq_false (h c hc)) d
    (decide_eq_true hd) rest

theorem segments_cons (ds : List Byte) (c : Byte) (cs : List Byte) : segments ds (c :: cs) =
    if c ∈ ds then [] :: segments ds cs else (segments ds cs).modifyHead (c :: ·) := by
  rw [segments, List.splitOnP_cons_eq_if_modifyHead]
  simp [segments]

/-- There is one segment more than delimiters. -/
theorem length_segments (ds cs : List Byte) :
    (segments ds cs).length = cs.countP (· ∈ ds) + 1 := by
  induction cs with
  | nil => rfl
  | cons c cs ih =>
    rw [segments_cons, List.countP_cons]
    by_cases hc : c ∈ ds
    · simp [hc, ih]
    · simp [hc, ih]

theorem notMem_of_mem_segments (h : seg ∈ segments ds cs) : ∀ c ∈ seg, c ∉ ds := by
  induction cs generalizing seg with
  | nil =>
    obtain rfl : seg = [] := by simpa [segments] using h
    simp
  | cons a cs ih =>
    rw [segments_cons] at h
    by_cases ha : a ∈ ds
    · rw [if_pos ha, List.mem_cons] at h
      rcases h with rfl | h
      · simp
      · exact ih h
    · rw [if_neg ha] at h
      cases hsegs : segments ds cs with
      | nil => rw [hsegs] at h; cases h
      | cons first others =>
        rw [hsegs] at h ih
        rcases List.mem_cons.mp h with rfl | h
        · exact List.forall_mem_cons.mpr ⟨ha, ih List.mem_cons_self⟩
        · exact ih (List.mem_cons_of_mem _ h)

/-- The segments with the delimiters put back between them. -/
def rejoin (segs : List (List Byte)) (delimiters : List Byte) : List Byte :=
  (List.zipWith (· ++ ·) segs (delimiters.map ([·]) ++ [[]])).flatten

theorem rejoin_segments (ds cs : List Byte) :
    rejoin (segments ds cs) (cs.filter (· ∈ ds)) = cs := List.splitOnP_spec cs

/-- The cut behind the first token, and then the cuts of the rest. -/
theorem Cut.cons (h : Cut ds rest (p + BitVec.ofNat 32 (seg.length + 1))
      (Function.update m (p + BitVec.ofNat 32 seg.length) 0) m')
    (hs : Stands m p (seg ++ d :: rest)) (hseg : ∀ c ∈ seg, c ∉ ds) (hd : d ∈ ds)
    (hend : seg.length + rest.length + 1 < 2 ^ 32) :
    Cut ds (seg ++ d :: rest) p m m' := by
  have hlen := length_append_cons seg rest d
  constructor
  case inside =>
    intro k hk
    have hk' : k < seg.length + rest.length + 1 := hlen ▸ hk
    have hbefore : k ≤ seg.length → m' (p + BitVec.ofNat 32 k) =
        Function.update m (p + BitVec.ofNat 32 seg.length) 0 (p + BitVec.ofNat 32 k) := by
      intro hle
      apply h.outside
      intro j hj heq
      rw [offset_offset] at heq
      have hinj := offset_inj p (by omega) (by omega) heq
      omega
    rcases Nat.lt_trichotomy k seg.length with hlt | heq | hgt
    · have hne : p + BitVec.ofNat 32 k ≠ p + BitVec.ofNat 32 seg.length := fun heq =>
        Nat.ne_of_lt hlt (offset_inj p (by omega) (by omega) heq)
      have hnot : seg[k] ∉ ds := hseg _ (List.getElem_mem hlt)
      rw [hbefore (Nat.le_of_lt hlt), Function.update_of_ne hne, hs.get hk,
        List.getElem_append_left hlt, if_neg hnot]
    · subst heq
      have hget : (seg ++ d :: rest)[seg.length] = d := by simp
      rw [hbefore (Nat.le_refl _), Function.update_self, hget, if_pos hd]
    · obtain ⟨j, rfl⟩ : ∃ j, k = seg.length + 1 + j := ⟨k - (seg.length + 1), by omega⟩
      have hj : j < rest.length := by omega
      rw [← offset_offset, h.inside j hj, getElem_behind seg d hj hk]
  case outside =>
    intro a ha
    rw [hlen] at ha
    rw [h.outside a, Function.update_of_ne (ha seg.length (by omega))]
    intro j hj
    rw [offset_offset]
    exact ha _ (by omega)

/-- A token in the cut string. -/
theorem Cut.stands_head (h : Cut ds (seg ++ d :: rest) p m m')
    (hs : Stands m p (seg ++ d :: rest)) (hseg : ∀ c ∈ seg, c ∉ ds) (hd : d ∈ ds) :
    Stands m' p seg := by
  constructor
  · intro k hk
    have hlt : k < (seg ++ d :: rest).length := by
      rw [List.length_append, List.length_cons]
      omega
    change m' (p + BitVec.ofNat 32 k) = seg.getD k 0
    rw [h.inside k hlt]
    by_cases hk' : k = seg.length
    · subst hk'
      have hget : (seg ++ d :: rest)[seg.length] = d := by simp
      rw [hget, if_pos hd]
      simp
    · have hks : k < seg.length := Nat.lt_of_le_of_ne hk hk'
      have hnot : seg[k] ∉ ds := hseg _ (List.getElem_mem hks)
      rw [List.getElem_append_left hks, if_neg hnot, List.getD_eq_getElem?_getD,
        List.getElem?_eq_getElem hks, Option.getD_some]
  · exact fun h0 => hs.2 (List.mem_append_left _ h0)

/-- The calls cut the string into its segments. -/
theorem tokens_spec {calls : ℕ} (h : Ready R W fuel q ds cs p σ.mem)
    (hcalls : (segments ds cs).length < calls) (hσ : Confined R W σ) :
    ∃ σ', tokens fuel q calls σ p = some (starts p (segments ds cs), σ', 0) ∧
      List.Forall₂ (Stands σ'.mem) (starts p (segments ds cs)) (segments ds cs) ∧
      Cut ds cs p σ.mem σ'.mem ∧ Confined R W σ' := by
  induction hn : cs.length using Nat.strong_induction_on generalizing cs p σ calls with
  | _ n ih =>
  obtain ⟨calls, rfl⟩ : ∃ c, calls = c + 1 := ⟨calls - 1, by omega⟩
  cases hfind : cs.find? (· ∈ ds) with
  | none =>
    have hcs : ∀ c ∈ cs, c ∉ ds := fun c hc => by simpa using List.find?_eq_none.mp hfind c hc
    rw [segments_eq_singleton hcs] at hcalls ⊢
    obtain ⟨calls, rfl⟩ : ∃ c, calls = c + 1 := ⟨calls - 1, by simp at hcalls; omega⟩
    obtain ⟨σ', hcall, hmem, hσ'⟩ := strsep_last h hcs hσ
    have hstands : Stands σ'.mem p cs := hmem ▸ h.string
    refine ⟨σ', ?_, .cons hstands .nil, ⟨?_, ?_⟩, hσ'⟩
    · exact tokens_cons h.nonnull hcall (tokens_null fuel calls q σ')
    · intro k hk
      rw [hstands.get hk, if_neg (hcs _ (List.getElem_mem hk))]
    · exact fun a _ => congrFun hmem a
  | some d =>
    obtain ⟨hd, seg, rest, rfl, hseg⟩ := List.find?_eq_some_iff_append.mp hfind
    have hd : d ∈ ds := of_decide_eq_true hd
    have hseg : ∀ c ∈ seg, c ∉ ds := fun c hc => by simpa using hseg c hc
    have hlen := length_append_cons seg rest d
    have hnowrap := h.nowrap
    rw [segments_eq_cons hseg hd, List.length_cons] at hcalls
    rw [segments_eq_cons hseg hd]
    obtain ⟨σ₁, hcall, hmem₁, hσ₁⟩ := strsep_cut h hseg hd hσ
    have hready := h.next
    rw [← hmem₁] at hready
    obtain ⟨σ', hrest, htoks, hcut, hσ'⟩ :=
      ih rest.length (by omega) hready (Nat.lt_of_succ_lt_succ hcalls) hσ₁ rfl
    rw [hmem₁] at hcut
    have hcut' := hcut.cons h.string hseg hd (by omega)
    exact ⟨σ', tokens_cons h.nonnull hcall hrest, .cons (hcut'.stands_head h.string hseg hd) htoks,
      hcut', hσ'⟩

/-- Calls on the same pointer until one returns `NULL` come to an end and yield the segments of
the string, in order and one more than there are delimiters. They load from the two strings only,
put zeros in place of the delimiters, and change nothing else; the delimiters put back between the
tokens give the string. -/
theorem tokens_strsep {a b : Ptr} (hs : Stands m a cs) (hds : Stands m b ds) (ha : a ≠ 0)
    (hend : a.toNat + cs.length < 2 ^ 32) (hapart : Apart a (cs.length + 1) b (ds.length + 1)) :
    ∃ N, ∀ fuel ≥ N, ∀ calls ≥ N, ∃ σ',
      tokens fuel b calls ⟨m, [], []⟩ a = some (starts a (segments ds cs), σ', 0) ∧
      List.Forall₂ (Stands σ'.mem) (starts a (segments ds cs)) (segments ds cs) ∧
      (segments ds cs).length = cs.countP (· ∈ ds) + 1 ∧
      (∀ seg ∈ segments ds cs, ∀ c ∈ seg, c ∉ ds) ∧
      rejoin (segments ds cs) (cs.filter (· ∈ ds)) = cs ∧
      Cut ds cs a m σ'.mem ∧
      (∀ x ∈ σ'.loads, (∃ k ≤ cs.length, x = a + BitVec.ofNat 32 k) ∨
        ∃ j ≤ ds.length, x = b + BitVec.ofNat 32 j) ∧
      ∀ x ∈ σ'.stores, ∃ k, ∃ hk : k < cs.length, x = a + BitVec.ofNat 32 k ∧ cs[k] ∈ ds := by
  refine ⟨max ds.length (cs.length + 1) + 1, fun fuel hf calls hcalls => ?_⟩
  let R : Ptr → Prop := fun x => (∃ k ≤ cs.length, x = a + BitVec.ofNat 32 k) ∨
    ∃ j ≤ ds.length, x = b + BitVec.ofNat 32 j
  let W : Ptr → Prop := fun x =>
    ∃ k, ∃ hk : k < cs.length, x = a + BitVec.ofNat 32 k ∧ cs[k] ∈ ds
  have hready : Ready R W fuel b ds cs a m := by
    constructor
    case nonnull => exact ha
    case string => exact hs
    case delimiter => exact hds
    case nowrap => exact hend
    case budget => omega
    case apart =>
      intro k hk j hj heq
      have hout := hapart.outside (Nat.lt_succ_of_le hj)
      rw [heq, offset_sub a (by omega)] at hout
      omega
    case loads => exact fun k hk => .inl ⟨k, hk, rfl⟩
    case loads' => exact fun j hj => .inr ⟨j, hj, rfl⟩
    case stores => exact fun k hk hmem => ⟨k, hk, rfl, hmem⟩
  have hcount : (segments ds cs).length < calls := by
    rw [length_segments]
    have hle := List.countP_le_length (p := (· ∈ ds)) (l := cs)
    omega
  have hstart : Confined R W ⟨m, [], []⟩ := by simp [Confined]
  obtain ⟨σ', htokens, hstands, hcut, hloads, hstores⟩ := tokens_spec hready hcount hstart
  exact ⟨σ', htokens, hstands, length_segments ds cs, fun _ => notMem_of_mem_segments,
    rejoin_segments ds cs, hcut, hloads, hstores⟩

/-- The string `,a` and behind it the delimiter string `,`. -/
def commaMemory : Mem := fun a =>
  [ascii ',', ascii 'a', 0, ascii ',', 0].getD (a.toNat - 16) 0

theorem tokens_strsep_commaMemory :
    ∃ N, ∀ fuel ≥ N, ∀ calls ≥ N, ∃ σ',
      tokens fuel 19 calls ⟨commaMemory, [], []⟩ 16 = some ([16, 17], σ', 0) ∧
      Stands σ'.mem 16 [] ∧ Stands σ'.mem 17 [ascii 'a'] := by
  have hs : Stands commaMemory 16 [ascii ',', ascii 'a'] := ⟨by unfold Spells; decide, by decide⟩
  have hds : Stands commaMemory 19 [ascii ','] := ⟨by unfold Spells; decide, by decide⟩
  have hapart : Apart 16 3 19 2 := by unfold Apart; decide
  obtain ⟨N, hN⟩ := tokens_strsep hs hds (by decide) (by decide) hapart
  refine ⟨N, fun fuel hf calls hcalls => ?_⟩
  obtain ⟨σ', htokens, hstands, -⟩ := hN fuel hf calls hcalls
  refine ⟨σ', htokens, ?_⟩
  cases hstands with
  | cons hfirst hrest =>
    cases hrest with
    | cons hsecond _ => exact ⟨hfirst, hsecond⟩

end TinaOS.Strsep
