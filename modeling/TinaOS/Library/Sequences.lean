import TinaOS.Library.BoundedLoop
import Mathlib.Data.Nat.Find
import Mathlib.Tactic.ByContra

/-!
# Loops that wait for a value of a sequence

A loop reads an infinite sequence, one element in each round, until an element meets a condition.
It leaves at the first such element, whatever budget it has, and only if there is one.
-/

namespace Sequences

variable {α σ ρ : Type*}

/-- `n` is the first index from `k` on whose element meets the condition. -/
structure FirstFrom (p : α → Prop) (s : ℕ → α) (k n : ℕ) : Prop where
  le : k ≤ n
  holds : p (s n)
  before : ∀ i, k ≤ i → i < n → ¬ p (s i)

variable {p q : α → Prop} {s : ℕ → α} {k n n' : ℕ}

theorem FirstFrom.unique (h : FirstFrom p s k n) (h' : FirstFrom p s k n') : n = n' := by
  by_contra hne
  rcases Nat.lt_or_gt_of_ne hne with hlt | hlt
  · exact h'.before n h.le hlt h.holds
  · exact h.before n' h'.le hlt h'.holds

theorem exists_firstFrom_iff : (∃ n, FirstFrom p s k n) ↔ ∃ i, k ≤ i ∧ p (s i) := by
  classical
  constructor
  · rintro ⟨n, h⟩
    exact ⟨n, h.le, h.holds⟩
  · intro h
    obtain ⟨hle, hp⟩ := Nat.find_spec h
    exact ⟨Nat.find h, hle, hp, fun i hi hlt hpi => Nat.find_min h hlt ⟨hi, hpi⟩⟩

theorem firstFrom_self (h : p (s k)) : FirstFrom p s k k :=
  ⟨Nat.le_refl k, h, fun _ hi hlt => absurd hlt (Nat.not_lt.mpr hi)⟩

theorem FirstFrom.of_succ (h : FirstFrom p s (k + 1) n) (hk : ¬ p (s k)) : FirstFrom p s k n := by
  refine ⟨Nat.le_of_succ_le h.le, h.holds, fun i hi hlt => ?_⟩
  rcases Nat.eq_or_lt_of_le hi with rfl | hgt
  · exact hk
  · exact h.before i hgt hlt

theorem FirstFrom.succ (h : FirstFrom p s k n) (hk : ¬ p (s k)) : FirstFrom p s (k + 1) n := by
  refine ⟨?_, h.holds, fun i hi hlt => h.before i (Nat.le_of_succ_le hi) hlt⟩
  apply Nat.lt_of_le_of_ne h.le
  rintro rfl
  exact hk h.holds

/-- One wait behind the other ends exactly if the second condition is met behind some element that
meets the first. -/
theorem exists_firstFrom_firstFrom_iff :
    (∃ n n', FirstFrom p s k n ∧ FirstFrom q s (n + 1) n') ↔
      ∃ i j, k ≤ i ∧ i < j ∧ p (s i) ∧ q (s j) := by
  constructor
  · rintro ⟨n, n', h, h'⟩
    exact ⟨n, n', h.le, h'.le, h.holds, h'.holds⟩
  · rintro ⟨i, j, hki, hij, hp, hq⟩
    obtain ⟨n, h⟩ := exists_firstFrom_iff.mpr ⟨i, hki, hp⟩
    have hn : n ≤ i := by
      by_contra hlt
      exact h.before i hki (Nat.lt_of_not_le hlt) hp
    obtain ⟨n', h'⟩ := exists_firstFrom_iff.mpr ⟨j, Nat.lt_of_le_of_lt hn hij, hq⟩
    exact ⟨n, n', h, h'⟩

variable {body : σ → σ ⊕ ρ} {r : ρ} {fuel : ℕ}

/-- The loop of one wait, in the state `state k` before it reads the element `s k`. -/
theorem run_iff [DecidablePred p] (state : ℕ → σ) (out : ℕ → ρ)
    (hbody : ∀ k, body (state k) = if p (s k) then .inr (out k) else .inl (state (k + 1))) :
    BoundedLoop.run body fuel (state k) = some r ↔
      ∃ n, FirstFrom p s k n ∧ n < k + fuel ∧ out n = r := by
  induction fuel generalizing k with
  | zero =>
    refine ⟨fun h => ?_, ?_⟩
    · cases h
    · rintro ⟨n, h, hlt, -⟩
      exact absurd h.le (Nat.not_le.mpr hlt)
  | succ fuel ih =>
    by_cases hp : p (s k)
    · have hstep : body (state k) = .inr (out k) := (hbody k).trans (if_pos hp)
      rw [BoundedLoop.run_of_inr hstep, Option.some.injEq]
      constructor
      · exact fun h => ⟨k, firstFrom_self hp, by omega, h⟩
      · rintro ⟨n, h, -, hr⟩
        rwa [h.unique (firstFrom_self hp)] at hr
    · have hstep : body (state k) = .inl (state (k + 1)) := (hbody k).trans (if_neg hp)
      rw [BoundedLoop.run_of_inl hstep, ih]
      constructor
      · rintro ⟨n, h, hlt, hr⟩
        exact ⟨n, h.of_succ hp, by omega, hr⟩
      · rintro ⟨n, h, hlt, hr⟩
        exact ⟨n, h.succ hp, by omega, hr⟩

end Sequences
