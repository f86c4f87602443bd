import TinaOS.Library.BoundedLoop
import Mathlib.Data.List.Rotate
import Mathlib.Data.Finset.Max
import Mathlib.Data.Finset.Dedup
import Mathlib.Logic.Function.Iterate

/-!
# Circular singly linked lists

A ring is a duplicate-free list of nodes together with a link function that sends
every node to the next one and the last node to the first. The list may start at
any node: rings are closed under rotation. The edits of a circular list are local
to one node, so each is a statement about the list that starts at that node.
-/

namespace LinkedRing

variable {α : Type*} {next next' : α → α} {l t : List α} {p q x : α}

/-- The nodes of `l` are distinct and `next` links them in a circle, in list order. -/
structure IsRing (next : α → α) (l : List α) : Prop where
  ne_nil : l ≠ []
  nodup : l.Nodup
  links : l.map next = l.rotate 1

theorem isRing_cons : IsRing next (p :: t) ↔ (p :: t).Nodup ∧ (p :: t).map next = t ++ [p] := by
  constructor
  · intro h
    exact ⟨h.nodup, by simpa using h.links⟩
  · rintro ⟨hn, hl⟩
    exact ⟨by simp, hn, by simpa using hl⟩

theorem isRing_pair : IsRing next (p :: x :: t) ↔
    (p :: x :: t).Nodup ∧ next p = x ∧ (x :: t).map next = t ++ [p] := by
  rw [isRing_cons]
  simp

namespace IsRing

theorem rotated {l' : List α} (h : IsRing next l) (hr : l ~r l') : IsRing next l' := by
  obtain ⟨k, rfl⟩ := hr
  refine ⟨by simpa using h.ne_nil, List.nodup_rotate.mpr h.nodup, ?_⟩
  rw [List.map_rotate, h.links, List.rotate_rotate, List.rotate_rotate, Nat.add_comm]

theorem congr (h : IsRing next l) (heq : ∀ p ∈ l, next' p = next p) : IsRing next' l := by
  refine ⟨h.ne_nil, h.nodup, ?_⟩
  rw [List.map_congr_left heq, h.links]

theorem exists_cons (h : IsRing next l) (hp : p ∈ l) : ∃ t, (p :: t) ~r l ∧ IsRing next (p :: t) := by
  obtain ⟨s, u, rfl⟩ := List.append_of_mem hp
  have hr : (p :: (u ++ s)) ~r (s ++ p :: u) := by
    simpa using (List.isRotated_append : (p :: u) ++ s ~r s ++ p :: u)
  exact ⟨u ++ s, hr, h.rotated hr.symm⟩

theorem next_mem (h : IsRing next l) (hp : p ∈ l) : next p ∈ l := by
  have hm : next p ∈ l.map next := List.mem_map_of_mem hp
  rw [h.links] at hm
  exact List.mem_rotate.mp hm

theorem eq_singleton (h : IsRing next (p :: t)) (hp : next p = p) : t = [] := by
  cases t with
  | nil => rfl
  | cons x t =>
    obtain ⟨hn, hx, -⟩ := isRing_pair.mp h
    simp [← hx, hp] at hn

/-- A node whose successor differs from it is followed by that successor. -/
theorem exists_pair (h : IsRing next (p :: t)) (hp : next p ≠ p) : ∃ u, t = next p :: u := by
  cases t with
  | nil => exact absurd (by simpa using (isRing_cons.mp h).2) hp
  | cons x u => exact ⟨u, by rw [(isRing_pair.mp h).2.1]⟩

theorem insert (h : IsRing next (p :: t)) (hx : x ∉ p :: t) (hpx : next' p = x)
    (hxn : next' x = next p) (heq : ∀ y ∈ t, next' y = next y) : IsRing next' (p :: x :: t) := by
  obtain ⟨hn, hl⟩ := isRing_cons.mp h
  refine isRing_pair.mpr ⟨?_, hpx, ?_⟩
  · exact (List.Perm.swap p x t).nodup_iff.mp (List.nodup_cons.mpr ⟨hx, hn⟩)
  · rw [List.map_cons, hxn, List.map_congr_left heq]
    exact hl

theorem remove (h : IsRing next (p :: x :: t)) (hpx : next' p = next x)
    (heq : ∀ y ∈ t, next' y = next y) : IsRing next' (p :: t) := by
  obtain ⟨hn, -, hl⟩ := isRing_pair.mp h
  refine isRing_cons.mpr ⟨hn.sublist (by simp), ?_⟩
  rw [List.map_cons, hpx, List.map_congr_left heq]
  exact hl

/-- Two functions that link the same list agree on it. -/
theorem next_eq (h : IsRing next l) (h' : IsRing next' l) : ∀ y ∈ l, next' y = next y :=
  List.map_inj_left.mp (h'.links.trans h.links.symm)

/-- Rings over lists that differ in one node differ in the links to and from that node. -/
theorem links_of_insert (h : IsRing next (p :: t)) (h' : IsRing next' (p :: x :: t)) :
    next' p = x ∧ next' x = next p ∧ ∀ y ∈ t, next' y = next y := by
  obtain ⟨-, hp, hl'⟩ := isRing_pair.mp h'
  have hl := (isRing_cons.mp h).2
  obtain ⟨hx, ht⟩ := List.cons.inj (hl'.trans hl.symm)
  exact ⟨hp, hx, List.map_inj_left.mp ht⟩

/-- Induction round the ring: a property of one node that every link keeps holds of all. -/
theorem forall_of_step (h : IsRing next l) (P : α → Prop) (hq : q ∈ l) (hPq : P q)
    (hstep : ∀ p ∈ l, P p → P (next p)) : ∀ p ∈ l, P p := by
  obtain ⟨t, hr, hring⟩ := h.exists_cons hq
  have hl := (isRing_cons.mp hring).2
  suffices hall : ∀ (u : List α) (y e : α), (∀ z ∈ y :: u, z ∈ l) → (y :: u).map next = u ++ [e] →
      P y → ∀ z ∈ y :: u, P z by
    intro z hz
    exact hall t q q (fun z hz => hr.mem_iff.mp hz) hl hPq z (hr.mem_iff.mpr hz)
  intro u
  induction u with
  | nil =>
    intro y e _ _ hy z hz
    simpa [List.mem_singleton.mp hz] using hy
  | cons v u ih =>
    intro y e hsub hmap hy z hz
    obtain ⟨hv, hmap⟩ : next y = v ∧ (v :: u).map next = u ++ [e] := by simpa using hmap
    have hPv : P v := hv ▸ hstep y (hsub y (by simp)) hy
    rcases List.mem_cons.mp hz with rfl | hz
    · exact hy
    · exact ih v e (fun w hw => hsub w (List.mem_cons_of_mem _ hw)) hmap hPv z hz

/-- The nodes of a ring are what following the links from the first one reaches. -/
theorem exists_iterate (h : IsRing next (q :: t)) (hp : p ∈ q :: t) : ∃ k, next^[k] q = p := by
  refine h.forall_of_step (fun p => ∃ k, next^[k] q = p) List.mem_cons_self ⟨0, rfl⟩ ?_ p hp
  rintro y - ⟨k, rfl⟩
  exact ⟨k + 1, Function.iterate_succ_apply' next k q⟩

theorem iterate_mem (h : IsRing next l) (hq : q ∈ l) (k : ℕ) : next^[k] q ∈ l := by
  induction k with
  | zero => exact hq
  | succ k ih =>
    rw [Function.iterate_succ_apply']
    exact h.next_mem ih

/-- Rings of one link function that share a node share all of them. -/
theorem subset_of_mem {l' : List α} (h : IsRing next l) (h' : IsRing next l') (hq : q ∈ l)
    (hq' : q ∈ l') : l ⊆ l' := by
  intro p hp
  obtain ⟨t, hr, hring⟩ := h.exists_cons hq
  obtain ⟨k, rfl⟩ := hring.exists_iterate (hr.mem_iff.mpr hp)
  exact h'.iterate_mem hq' k

private theorem isChain_iff_suffix {β : Type*} [Preorder β] (key : α → β) (e : α) (u : List α) (q : α)
    (hl : (q :: u).map next = u ++ [e]) (he : e ∉ u) :
    (q :: u).IsChain (fun a b => key a < key b) ↔
      ∀ p ∈ q :: u, next p = e ∨ key p < key (next p) := by
  induction u generalizing q with
  | nil =>
    have hq : next q = e := by simpa using hl
    simp [hq]
  | cons v u ih =>
    obtain ⟨hq, hl⟩ : next q = v ∧ (v :: u).map next = u ++ [e] := by simpa using hl
    have hv : v ≠ e := fun h => he (by simp [h])
    rw [List.isChain_cons_cons, List.forall_mem_cons, hq, ih v hl (fun h => he (by simp [h]))]
    simp only [hv, false_or]

/-- The keys ascend along the list exactly if every link but the last one rises. -/
theorem ascending_iff {β : Type*} [Preorder β] (h : IsRing next (q :: t)) (key : α → β) :
    (q :: t).Pairwise (fun a b => key a < key b) ↔
      ∀ p ∈ q :: t, next p = q ∨ key p < key (next p) := by
  have _ : IsTrans α fun a b => key a < key b := ⟨fun _ _ _ => lt_trans⟩
  obtain ⟨hnd, hl⟩ := isRing_cons.mp h
  rw [← List.isChain_iff_pairwise, isChain_iff_suffix key q t q hl (List.nodup_cons.mp hnd).1]

private theorem next_le_suffix {β : Type*} [LinearOrder β] (key : α → β) (e : α) (u : List α)
    (q : α) (hl : (q :: u).map next = u ++ [e])
    (hs : (q :: u).Pairwise fun a b => key a < key b) (hp : p ∈ q :: u) (hx : x ∈ q :: u)
    (hlt : key p < key x) : next p ∈ u ∧ key (next p) ≤ key x := by
  induction u generalizing q with
  | nil =>
    rw [List.mem_singleton.mp hp, List.mem_singleton.mp hx] at hlt
    exact absurd hlt (lt_irrefl _)
  | cons v u ih =>
    obtain ⟨hq, hl⟩ : next q = v ∧ (v :: u).map next = u ++ [e] := by simpa using hl
    obtain ⟨hqu, hvu⟩ := List.pairwise_cons.mp hs
    rcases List.mem_cons.mp hp with rfl | hpu
    · have hxp : x ≠ p := by
        rintro rfl
        exact lt_irrefl _ hlt
      rw [hq]
      refine ⟨List.mem_cons_self, ?_⟩
      rcases List.mem_cons.mp (List.mem_of_ne_of_mem hxp hx) with rfl | hxu
      · exact le_rfl
      · exact ((List.pairwise_cons.mp hvu).1 x hxu).le
    · have hxq : x ≠ q := by
        rintro rfl
        exact lt_asymm hlt (hqu p hpu)
      obtain ⟨hmem, hle⟩ := ih v hl hvu hpu (List.mem_of_ne_of_mem hxq hx)
      exact ⟨List.mem_cons_of_mem _ hmem, hle⟩

/-- In a ring whose keys ascend, the next node is the next one in key order. -/
theorem next_le_of_lt {β : Type*} [LinearOrder β] (h : IsRing next (q :: t)) (key : α → β)
    (hs : (q :: t).Pairwise fun a b => key a < key b) (hp : p ∈ q :: t) (hx : x ∈ q :: t)
    (hlt : key p < key x) : next p ≠ q ∧ key (next p) ≤ key x := by
  obtain ⟨hnd, hl⟩ := isRing_cons.mp h
  obtain ⟨hmem, hle⟩ := next_le_suffix key q t q hl hs hp hx hlt
  refine ⟨?_, hle⟩
  rintro heq
  exact (List.nodup_cons.mp hnd).1 (heq ▸ hmem)

/-- Read round a ring, keys cannot only rise. A key that no node has lies either between
two consecutive nodes or outside a falling link: the place where a sorted insertion goes. -/
theorem exists_gap {β : Type*} [LinearOrder β] (h : IsRing next l) (key : α → β) {k : β}
    (hk : ∀ p ∈ l, key p ≠ k) :
    ∃ p ∈ l, (key p < k ∧ k < key (next p)) ∨
      (key (next p) ≤ key p ∧ (key p < k ∨ k < key (next p))) := by
  by_contra hnone
  push Not at hnone
  have hbelow : ∀ p ∈ l, key p < k → key (next p) < k := fun p hp hlt =>
    lt_of_le_of_ne ((hnone p hp).1 hlt) (hk _ (h.next_mem hp))
  have hfall : ∀ p ∈ l, key (next p) ≤ key p → k < key p ∧ key (next p) < k := fun p hp hle => by
    obtain ⟨h₁, h₂⟩ := (hnone p hp).2 hle
    exact ⟨lt_of_le_of_ne h₁ (hk p hp).symm, lt_of_le_of_ne h₂ (hk _ (h.next_mem hp))⟩
  obtain ⟨m, hm, hmax⟩ : ∃ m ∈ l, ∀ p ∈ l, key p ≤ key m := by
    classical
    obtain ⟨a, ha⟩ := List.exists_mem_of_ne_nil l h.ne_nil
    simpa using l.toFinset.exists_max_image key ⟨a, by simpa using ha⟩
  obtain ⟨hkm, hnm⟩ := hfall m hm (hmax _ (h.next_mem hm))
  have hall := h.forall_of_step (fun p => key p < k) (h.next_mem hm) hnm hbelow m hm
  exact lt_asymm hkm hall

end IsRing

/-- One round of a search that tests the successor of the current node and gives up
when it is back at the start. The value is the predecessor of the node that was hit. -/
def lapStep [DecidableEq α] (next : α → α) (hit : α → Bool) (start q : α) : α ⊕ Option α :=
  if hit (next q) then .inr (some q)
  else if next q = start then .inr none
  else .inl (next q)

private theorem run_lapStep_suffix [DecidableEq α] (hit : α → Bool) (start : α) (u : List α) (q : α)
    {n : ℕ} (hl : (q :: u).map next = u ++ [start]) (hs : start ∉ u) (hn : u.length < n) :
    BoundedLoop.run (lapStep next hit start) n q =
      some ((q :: u).find? (fun p => hit (next p))) := by
  induction u generalizing q n with
  | nil =>
    obtain ⟨n, rfl⟩ : ∃ k, n = k + 1 := ⟨n - 1, by simp at hn; omega⟩
    have hq : next q = start := by simpa using hl
    cases hh : hit start <;> simp [BoundedLoop.run, lapStep, hq, hh]
  | cons v u ih =>
    obtain ⟨n, rfl⟩ : ∃ k, n = k + 1 := ⟨n - 1, by simp at hn; omega⟩
    obtain ⟨hq, hl⟩ : next q = v ∧ (v :: u).map next = u ++ [start] := by simpa using hl
    have hv : v ≠ start := fun h => hs (by simp [h])
    cases hh : hit v with
    | true => simp [BoundedLoop.run, lapStep, hq, hh]
    | false =>
      have hstep : lapStep next hit start q = .inl v := by simp [lapStep, hq, hh, hv]
      rw [BoundedLoop.run_of_inl hstep, ih v hl (fun h => hs (by simp [h])) (by simpa using hn)]
      simp [hq, hh]

/-- The search leaves within one lap, with the first node in ring order whose successor hits. -/
theorem run_lapStep [DecidableEq α] (h : IsRing next (p :: t)) (hit : α → Bool) {n : ℕ}
    (hn : (p :: t).length ≤ n) :
    BoundedLoop.run (lapStep next hit p) n p = some ((p :: t).find? (fun q => hit (next q))) := by
  obtain ⟨hnd, hl⟩ := isRing_cons.mp h
  exact run_lapStep_suffix hit p t p hl (List.nodup_cons.mp hnd).1 (Nat.lt_of_succ_le hn)

/-- One round of a walk that has no lap test: it leaves at a node that passes the test. -/
def walkStep (next : α → α) (stop : α → Bool) (p : α) : α ⊕ α :=
  if stop p then .inr p else .inl (next p)

private theorem run_walkStep_suffix (stop : α → Bool) (e : α) (u : List α) (q : α) {n : ℕ}
    (hl : (q :: u).map next = u ++ [e]) (hs : ∃ p ∈ q :: u, stop p) (hn : u.length < n) :
    BoundedLoop.run (walkStep next stop) n q = (q :: u).find? stop := by
  induction u generalizing q n with
  | nil =>
    obtain ⟨n, rfl⟩ : ∃ k, n = k + 1 := ⟨n - 1, by simp at hn; omega⟩
    have hq : stop q = true := by simpa using hs
    simp [BoundedLoop.run, walkStep, hq]
  | cons v u ih =>
    obtain ⟨n, rfl⟩ : ∃ k, n = k + 1 := ⟨n - 1, by simp at hn; omega⟩
    obtain ⟨hq, hl⟩ : next q = v ∧ (v :: u).map next = u ++ [e] := by simpa using hl
    cases hh : stop q with
    | true => simp [BoundedLoop.run, walkStep, hh]
    | false =>
      have hstep : walkStep next stop q = .inl v := by simp [walkStep, hq, hh]
      have hs' : ∃ p ∈ v :: u, stop p := by simpa [hh] using hs
      rw [BoundedLoop.run_of_inl hstep, ih v hl hs' (by simpa using hn)]
      simp [hh]

/-- A walk from a ring that has a stopping node leaves within one lap, at the first of them. -/
theorem run_walkStep (h : IsRing next (p :: t)) (stop : α → Bool) (hs : ∃ q ∈ p :: t, stop q)
    {n : ℕ} (hn : (p :: t).length ≤ n) :
    BoundedLoop.run (walkStep next stop) n p = (p :: t).find? stop :=
  run_walkStep_suffix stop p t p (isRing_cons.mp h).2 hs (Nat.lt_of_succ_le hn)

end LinkedRing
