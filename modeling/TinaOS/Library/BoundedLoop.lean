import Mathlib.Data.Nat.Notation
import Mathlib.Logic.Function.Iterate
import Mathlib.Tactic.TypeStar

/-!
# Loops with a bounded number of rounds

A loop body maps a state either to the state of the next round or to the value
the loop leaves with. `run` gives such a loop a budget of rounds; an exhausted
budget is `none`. A loop over a list is a fold, and needs no budget.
-/

namespace BoundedLoop

variable {σ ρ : Type*} {body : σ → σ ⊕ ρ}

/-- Run the body for at most the given number of rounds. -/
def run (body : σ → σ ⊕ ρ) : ℕ → σ → Option ρ
  | 0, _ => none
  | n + 1, s => match body s with
    | .inl s' => run body n s'
    | .inr r => some r

@[simp] theorem run_zero (s : σ) : run body 0 s = none := rfl

theorem run_of_inl {s s' : σ} (h : body s = .inl s') (n : ℕ) :
    run body (n + 1) s = run body n s' := by
  simp [run, h]

theorem run_of_inr {s : σ} {r : ρ} (h : body s = .inr r) (n : ℕ) :
    run body (n + 1) s = some r := by
  simp [run, h]

theorem run_mono {n m : ℕ} {s : σ} {r : ρ} (h : run body n s = some r) (hnm : n ≤ m) :
    run body m s = some r := by
  induction n generalizing m s with
  | zero => simp at h
  | succ n ih =>
    obtain ⟨m, rfl⟩ : ∃ k, m = k + 1 := ⟨m - 1, by omega⟩
    cases hs : body s with
    | inl s' =>
      rw [run_of_inl hs] at h ⊢
      exact ih h (by omega)
    | inr r' => rwa [run_of_inr hs] at h ⊢

theorem run_unique {n m : ℕ} {s : σ} {r r' : ρ} (h : run body n s = some r)
    (h' : run body m s = some r') : r = r' := by
  have hn := run_mono h (Nat.le_max_left n m)
  have hm := run_mono h' (Nat.le_max_right n m)
  exact Option.some.inj (hn.symm.trans hm)

/-- A round that goes on leaves open what the loop comes to. -/
theorem exists_run_of_inl {s s' : σ} (h : body s = .inl s') (Q : ρ → Prop) :
    (∃ n r, run body n s = some r ∧ Q r) ↔ ∃ n r, run body n s' = some r ∧ Q r := by
  constructor
  · rintro ⟨n, r, hrun, hr⟩
    cases n with
    | zero => cases hrun
    | succ n =>
      rw [run_of_inl h] at hrun
      exact ⟨n, r, hrun, hr⟩
  · rintro ⟨n, r, hrun, hr⟩
    exact ⟨n + 1, r, (run_of_inl h n).trans hrun, hr⟩

theorem exists_run_of_inr {s : σ} {r₀ : ρ} (h : body s = .inr r₀) (Q : ρ → Prop) :
    (∃ n r, run body n s = some r ∧ Q r) ↔ Q r₀ := by
  constructor
  · rintro ⟨n, r, hrun, hr⟩
    rwa [run_unique (run_of_inr h 0) hrun]
  · exact fun hr => ⟨1, r₀, run_of_inr h 0, hr⟩

/-- Rounds that go on with `next`, one after the other. -/
theorem run_iterate {next : σ → σ} {k : ℕ} {s : σ}
    (h : ∀ i < k, body (next^[i] s) = .inl (next^[i + 1] s)) (n : ℕ) :
    run body (k + n) s = run body n (next^[k] s) := by
  induction k generalizing s with
  | zero => rw [Nat.zero_add, Function.iterate_zero, id]
  | succ k ih =>
    have hfirst : body s = .inl (next s) := h 0 (Nat.succ_pos k)
    rw [Nat.add_right_comm, run_of_inl hfirst]
    exact ih fun i hi => h (i + 1) (Nat.succ_lt_succ hi)

/-- A loop that only ever goes on with `next` leaves after some rounds of it. -/
theorem exists_iterate_of_run {next : σ → σ} (hnext : ∀ s s', body s = .inl s' → s' = next s) {n : ℕ}
    {s : σ} {r : ρ} (h : run body n s = some r) :
    ∃ k, (∀ i < k, body (next^[i] s) = .inl (next^[i + 1] s)) ∧ body (next^[k] s) = .inr r := by
  induction n generalizing s with
  | zero => cases h
  | succ n ih =>
    cases hb : body s with
    | inl s' =>
      rw [run_of_inl hb] at h
      obtain rfl := hnext s s' hb
      obtain ⟨k, hk, hend⟩ := ih h
      refine ⟨k + 1, fun i hi => ?_, hend⟩
      cases i with
      | zero => exact hb
      | succ i => exact hk i (Nat.lt_of_succ_lt_succ hi)
    | inr r' =>
      rw [run_of_inr hb] at h
      obtain rfl := Option.some.inj h
      exact ⟨0, fun i hi => absurd hi i.not_lt_zero, hb⟩

/-- An invariant of the rounds holds of what the loop leaves with. -/
theorem run_keeps {I : σ → Prop} {J : ρ → Prop} (hl : ∀ s s', I s → body s = .inl s' → I s')
    (hr : ∀ s r, I s → body s = .inr r → J r) {n : ℕ} {s : σ} {r : ρ} (hs : I s)
    (h : run body n s = some r) : J r := by
  induction n generalizing s with
  | zero => cases h
  | succ n ih =>
    cases hb : body s with
    | inl s' =>
      rw [run_of_inl hb] at h
      exact ih (hl s s' hs hb) h
    | inr r' =>
      rw [run_of_inr hb] at h
      obtain rfl := Option.some.inj h
      exact hr s r' hs hb

/-- The rounds that the loop makes within the given budget. -/
def rounds (body : σ → σ ⊕ ρ) : ℕ → σ → ℕ
  | 0, _ => 0
  | n + 1, s => match body s with
    | .inl s' => rounds body n s' + 1
    | .inr _ => 1

theorem rounds_of_inl {s s' : σ} (h : body s = .inl s') (n : ℕ) :
    rounds body (n + 1) s = rounds body n s' + 1 := by
  simp [rounds, h]

theorem rounds_of_inr {s : σ} {r : ρ} (h : body s = .inr r) (n : ℕ) :
    rounds body (n + 1) s = 1 := by
  simp [rounds, h]

/-- A loop that also notes something in every round goes the way of the loop without, and has
noted it once a round in the end. -/
theorem run_noting {τ ρ' : Type*} (body : σ → σ ⊕ ρ) (body' : σ × τ → (σ × τ) ⊕ ρ') (note : τ → τ)
    (leave : ρ → τ → ρ')
    (hl : ∀ s s' t, body s = .inl s' → body' (s, t) = .inl (s', note t))
    (hr : ∀ s r t, body s = .inr r → body' (s, t) = .inr (leave r (note t))) (n : ℕ) (s : σ) (t : τ) :
    run body' n (s, t) = (run body n s).map fun r => leave r (note^[rounds body n s] t) := by
  induction n generalizing s t with
  | zero => rfl
  | succ n ih =>
    cases h : body s with
    | inl s' =>
      rw [run_of_inl (hl s s' t h), run_of_inl h, rounds_of_inl h, ih]
      rfl
    | inr r =>
      rw [run_of_inr (hr s r t h), run_of_inr h, rounds_of_inr h]
      rfl

/-- A loop over a list: when the round of `a` takes care of the items `g a`, the whole loop takes
care of the items of all rounds. -/
theorem foldl_spec {α β : Type*} {f : σ → α → σ} (I : List β → σ → Prop) (g : α → List β)
    {l : List α} (hround : ∀ a ∈ l, ∀ done s, I done s → I (done ++ g a) (f s a))
    {done : List β} {s : σ} (hs : I done s) : I (done ++ l.flatMap g) (l.foldl f s) := by
  induction l generalizing done s with
  | nil => simpa using hs
  | cons a l ih =>
    rw [List.flatMap_cons, ← List.append_assoc]
    apply ih
    · exact fun b hb => hround b (List.mem_cons_of_mem a hb)
    · exact hround a List.mem_cons_self done s hs

end BoundedLoop
