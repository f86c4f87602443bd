import Mathlib.Data.List.Induction
import Mathlib.Logic.Function.Basic

/-!
# Logs of writes

A function is changed at one place after the other. What it comes to is told by the log of
the writes: the last write to a place stays, and a place without a write keeps its value.
-/

namespace WriteLog

variable {ι α : Type*} [DecidableEq ι] {f : ι → α} {log : List (ι × α)} {k : ι}

/-- `f` after the writes of a log, which lists the earliest first. -/
def apply (f : ι → α) (log : List (ι × α)) : ι → α :=
  log.foldl (fun f w => Function.update f w.1 w.2) f

@[simp] theorem apply_nil (f : ι → α) : apply f [] = f := rfl

@[simp] theorem apply_cons (f : ι → α) (w : ι × α) (log : List (ι × α)) :
    apply f (w :: log) = apply (Function.update f w.1 w.2) log := rfl

theorem apply_of_notMem (h : k ∉ log.map Prod.fst) : apply f log k = f k := by
  induction log generalizing f with
  | nil => rfl
  | cons w log ih =>
    rw [List.map_cons, List.mem_cons, not_or] at h
    rw [apply_cons, ih h.2, Function.update_of_ne h.1]

/-- A place that has been written holds a value that was written there. -/
theorem exists_mem_apply (h : k ∈ log.map Prod.fst) : ∃ w ∈ log, w.1 = k ∧ apply f log k = w.2 := by
  induction log generalizing f with
  | nil => simp at h
  | cons w log ih =>
    rw [apply_cons]
    by_cases hk : k ∈ log.map Prod.fst
    · obtain ⟨v, hv, heq, hval⟩ := ih (f := Function.update f w.1 w.2) hk
      exact ⟨v, List.mem_cons_of_mem w hv, heq, hval⟩
    · rw [List.map_cons] at h
      have hw : k = w.1 := (List.mem_cons.mp h).resolve_right hk
      refine ⟨w, List.mem_cons_self, hw.symm, ?_⟩
      rw [apply_of_notMem hk, hw, Function.update_self]

/-- The last write to a place stays. -/
theorem apply_getElem {i : ℕ} (hi : i < log.length)
    (hlast : ∀ j (hj : j < log.length), i < j → log[j].1 ≠ log[i].1) :
    apply f log log[i].1 = log[i].2 := by
  induction log generalizing f i with
  | nil => simp at hi
  | cons w log ih =>
    rw [apply_cons]
    cases i with
    | zero =>
      have hno : w.1 ∉ log.map Prod.fst := by
        intro hmem
        obtain ⟨v, hv, heq⟩ := List.mem_map.mp hmem
        obtain ⟨j, hj, rfl⟩ := List.getElem_of_mem hv
        exact hlast (j + 1) (Nat.succ_lt_succ hj) (Nat.succ_pos j) heq
      exact (apply_of_notMem hno).trans (Function.update_self _ _ _)
    | succ i =>
      exact ih (Nat.lt_of_succ_lt_succ hi) fun j hj hij =>
        hlast (j + 1) (Nat.succ_lt_succ hj) (Nat.succ_lt_succ hij)

variable {β : Type*} {p : ℕ → ι} {g : β → α} {l : List β}

theorem apply_mapIdx_getElem {i : ℕ} (hi : i < l.length)
    (hlast : ∀ j < l.length, i < j → p j ≠ p i) :
    apply f (l.mapIdx fun i b => (p i, g b)) (p i) = g l[i] := by
  have hlen : (l.mapIdx fun i b => (p i, g b)).length = l.length := List.length_mapIdx
  have hwrite := apply_getElem (f := f) (hlen ▸ hi) fun j hj hij => by
    rw [List.getElem_mapIdx, List.getElem_mapIdx]
    exact hlast j (hlen ▸ hj) hij
  rwa [List.getElem_mapIdx] at hwrite

theorem apply_mapIdx_of_ne (h : ∀ i < l.length, p i ≠ k) :
    apply f (l.mapIdx fun i b => (p i, g b)) k = f k := by
  apply apply_of_notMem
  intro hmem
  obtain ⟨w, hw, heq⟩ := List.mem_map.mp hmem
  obtain ⟨i, hi, rfl⟩ := List.mem_mapIdx.mp hw
  exact h i hi heq

end WriteLog
