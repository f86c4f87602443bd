import TinaOS.Library.BoundedLoop
import TinaOS.Library.ByteMemory
import Mathlib.Data.Nat.Notation

/-!
# Strings

A C string is the list of its bytes before the terminator. Code that indexes a string
sees it as the sequence of bytes from its address on.
-/

namespace TinaOS.Strings

abbrev Byte := BitVec 8

/-- The code of a character of the source text. -/
def ascii (c : Char) : Byte := BitVec.ofNat 8 c.toNat

/-- A string constant or argument: bytes other than 0, and then the terminator. -/
structure CString where
  chars : List Byte
  nonzero : 0 ∉ chars

/-- `s[k]`, with the terminator behind the characters. -/
def CString.bytes (s : CString) (k : ℕ) : Byte := s.chars.getD k 0

def strlenStep (str : ℕ → Byte) (len : ℕ) : ℕ ⊕ ℕ := if str len = 0 then .inr len else .inl (len + 1)

/-- `strlen`, reading at most the given number of bytes. -/
def strlen (fuel : ℕ) (str : ℕ → Byte) : Option ℕ := BoundedLoop.run (strlenStep str) fuel 0

variable {str : ℕ → Byte} {n fuel : ℕ}

private theorem run_strlenStep (hz : str n = 0) {k : ℕ} (hk : k ≤ n)
    (hnz : ∀ i, k ≤ i → i < n → str i ≠ 0) (hf : n - k < fuel) :
    BoundedLoop.run (strlenStep str) fuel k = some n := by
  induction fuel generalizing k with
  | zero => omega
  | succ fuel ih =>
    by_cases heq : k = n
    · subst heq
      have hstep : strlenStep str k = .inr k := if_pos hz
      exact BoundedLoop.run_of_inr hstep fuel
    · have hstep : strlenStep str k = .inl (k + 1) := if_neg (hnz k (Nat.le_refl k) (by omega))
      rw [BoundedLoop.run_of_inl hstep]
      exact ih (by omega) (fun i hi hin => hnz i (by omega) hin) (by omega)

theorem strlen_eq (hz : str n = 0) (hnz : ∀ i < n, str i ≠ 0) (hf : n < fuel) :
    strlen fuel str = some n :=
  run_strlenStep hz (Nat.zero_le n) (fun i _ hi => hnz i hi) (by omega)

/-- The characters `cs` and a terminator stand at `str`. -/
def Spells (str : ℕ → Byte) (cs : List Byte) : Prop := ∀ k ≤ cs.length, str k = cs.getD k 0

theorem Spells.strlen_eq {cs : List Byte} (h : Spells str cs) (hz : 0 ∉ cs) (hf : cs.length < fuel) :
    strlen fuel str = some cs.length := by
  apply Strings.strlen_eq _ _ hf
  · simp [h _ (Nat.le_refl _)]
  · intro i hi heq
    rw [h i (Nat.le_of_lt hi), List.getD_eq_getElem?_getD, List.getElem?_eq_getElem hi] at heq
    exact hz (heq ▸ List.getElem_mem hi)

theorem CString.spells (s : CString) : Spells s.bytes s.chars := fun _ _ => rfl

theorem CString.bytes_length (s : CString) : s.bytes s.chars.length = 0 := by
  simp [CString.bytes]

theorem CString.bytes_ne_zero (s : CString) {k : ℕ} (hk : k < s.chars.length) : s.bytes k ≠ 0 := by
  intro h
  refine s.nonzero (h ▸ ?_)
  rw [CString.bytes, List.getD_eq_getElem?_getD, List.getElem?_eq_getElem hk]
  exact List.getElem_mem hk

theorem CString.strlen_bytes (s : CString) (hf : s.chars.length < fuel) :
    strlen fuel s.bytes = some s.chars.length :=
  strlen_eq s.bytes_length (fun _ hi => s.bytes_ne_zero hi) hf

end TinaOS.Strings
