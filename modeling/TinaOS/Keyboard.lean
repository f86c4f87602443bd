import Mathlib.Algebra.Group.Nat.Defs
import Mathlib.Data.List.Flatten
import Mathlib.Tactic.SplitIfs
import Mathlib.Tactic.TypeStar

/-!
# The keyboard of `drivers/keyboard.c`

The driver polls: it takes a byte from the controller when the status says that one waits.
Bytes come in whenever keys are pressed, also between the two port reads of one call. In every
order of calls and bytes the codes returned are the bytes that came, in their order.
-/

namespace TinaOS.Keyboard

variable {δ : Type*}

/-- `inb`, whose `int` is the byte that the device gives. -/
def inb (input : BitVec 16 → δ → BitVec 8 × δ) (port : BitVec 16) (d : δ) : BitVec 32 × δ :=
  let (ret, d) := input port d
  (ret.setWidth 32, d)

def scanCode (input : BitVec 16 → δ → BitVec 8 × δ) (d : δ) : BitVec 32 × δ :=
  let (status, d) := inb input 0x64 d
  if status &&& 1 ≠ 0 then inb input 0x60 d else (0, d)

def keyPressed (input : BitVec 16 → δ → BitVec 8 × δ) (d : δ) : Bool × δ :=
  let (status, d) := inb input 0x64 d
  (status &&& 1 ≠ 0, d)

/-- The bytes that wait, the earliest first, and the port reads so far. -/
structure Controller where
  waiting : List (BitVec 8)
  reads : ℕ

/-- The bytes `arriving n` come in before the port read `n`. Bit 0 of the status says that a byte
waits, and its other bits are arbitrary. -/
def controller (arriving : ℕ → List (BitVec 8)) (others : ℕ → BitVec 8) (port : BitVec 16)
    (c : Controller) : BitVec 8 × Controller :=
  let waiting := c.waiting ++ arriving c.reads
  if port = 0x60 then (waiting.headD (others c.reads), ⟨waiting.tail, c.reads + 1⟩)
  else if port = 0x64 then
    (others c.reads &&& 0xFE ||| if waiting = [] then 0 else 1, ⟨waiting, c.reads + 1⟩)
  else (0xFF, ⟨waiting, c.reads + 1⟩)

/-- The bytes that come in from read `n` on and before read `k`. -/
def arrived (arriving : ℕ → List (BitVec 8)) (n k : ℕ) : List (BitVec 8) :=
  (List.range' n (k - n)).flatMap arriving

inductive Call where
  | scanCode | keyPressed

/-- The codes that the calls return, and the device after them. -/
def run (input : BitVec 16 → δ → BitVec 8 × δ) : List Call → δ → List (BitVec 32) × δ
  | [], d => ([], d)
  | .scanCode :: calls, d =>
    let (code, d) := scanCode input d
    let (codes, d) := run input calls d
    (code :: codes, d)
  | .keyPressed :: calls, d => run input calls (keyPressed input d).2

/-- What callers can tell: 0 is also the answer when no byte waits. -/
def heard (codes : List (BitVec 32)) : List (BitVec 32) := codes.filter (· ≠ 0)

def codesOf (bytes : List (BitVec 8)) : List (BitVec 32) := heard (bytes.map (·.setWidth 32))

variable {arriving : ℕ → List (BitVec 8)} {others : ℕ → BitVec 8} {c : Controller}

theorem codesOf_append (bytes bytes' : List (BitVec 8)) :
    codesOf (bytes ++ bytes') = codesOf bytes ++ codesOf bytes' := by
  rw [codesOf, List.map_append, heard, List.filter_append]
  rfl

theorem arrived_append {n k l : ℕ} (hn : n ≤ k) (hk : k ≤ l) :
    arrived arriving n k ++ arrived arriving k l = arrived arriving n l := by
  have hrange : List.range' n (k - n) ++ List.range' k (l - k) = List.range' n (l - n) := by
    have happend := List.range'_append_1 (s := n) (m := k - n) (n := l - k)
    rwa [Nat.add_sub_cancel' hn, (by omega : k - n + (l - k) = l - n)] at happend
  rw [arrived, arrived, ← List.flatMap_append, hrange, arrived]

theorem arrived_succ (n : ℕ) : arrived arriving n (n + 1) = arriving n := by
  rw [arrived, Nat.add_sub_cancel_left]
  simp

theorem status_bit (other : BitVec 8) (waits : BitVec 8) (hw : waits = 0 ∨ waits = 1) :
    ((other &&& 0xFE ||| waits).setWidth 32 &&& 1 : BitVec 32) = waits.setWidth 32 := by
  rcases hw with rfl | rfl
  · revert other
    decide
  · revert other
    decide

/-- The status is read once, and nothing is taken. -/
theorem inb_status (arriving : ℕ → List (BitVec 8)) (others : ℕ → BitVec 8) (c : Controller) :
    ((inb (controller arriving others) 0x64 c).1 &&& 1 =
      if c.waiting ++ arriving c.reads = [] then 0 else 1) ∧
    (inb (controller arriving others) 0x64 c).2 = ⟨c.waiting ++ arriving c.reads, c.reads + 1⟩ := by
  have hport : ¬ (0x64 : BitVec 16) = 0x60 := by decide
  refine ⟨?_, by simp only [inb, controller, hport, if_false, if_true]⟩
  simp only [inb, controller, hport, if_false, if_true]
  rw [status_bit _ _ (by split_ifs <;> simp)]
  split_ifs <;> rfl

/-- The earliest byte is taken. -/
theorem inb_data {b : BitVec 8} {bs : List (BitVec 8)} (h : c.waiting ++ arriving c.reads = b :: bs) :
    inb (controller arriving others) 0x60 c = (b.setWidth 32, ⟨bs, c.reads + 1⟩) := by
  simp only [inb, controller, if_true, h, List.headD_cons, List.tail_cons]

theorem keyPressed_eq (c : Controller) : keyPressed (controller arriving others) c =
    (decide (c.waiting ++ arriving c.reads ≠ []), ⟨c.waiting ++ arriving c.reads, c.reads + 1⟩) := by
  obtain ⟨hbit, hstate⟩ := inb_status arriving others c
  rw [keyPressed]
  refine Prod.ext ?_ hstate
  simp only [hbit]
  by_cases hw : c.waiting ++ arriving c.reads = []
  · simp [hw]
  · simp [hw]

theorem scanCode_none (h : c.waiting ++ arriving c.reads = []) :
    scanCode (controller arriving others) c = (0, ⟨[], c.reads + 1⟩) := by
  obtain ⟨hbit, hstate⟩ := inb_status arriving others c
  rw [h, if_pos rfl] at hbit
  rw [h] at hstate
  simp only [scanCode, hbit, hstate, ne_eq, not_true_eq_false, if_false]

/-- Bytes that come in between the two reads go behind the byte that is taken. -/
theorem scanCode_cons {b : BitVec 8} {bs : List (BitVec 8)}
    (h : c.waiting ++ arriving c.reads = b :: bs) :
    scanCode (controller arriving others) c =
      (b.setWidth 32, ⟨bs ++ arriving (c.reads + 1), c.reads + 2⟩) := by
  obtain ⟨hbit, hstate⟩ := inb_status arriving others c
  rw [h, if_neg (List.cons_ne_nil b bs)] at hbit
  rw [h] at hstate
  have hset : (1 : BitVec 32) ≠ 0 := by decide
  simp only [scanCode, hbit, hstate, hset, ne_eq, not_false_eq_true, if_true]
  exact inb_data rfl

/-- What `codes` and the bytes left make up: the bytes that waited, and those that came. -/
structure Delivers (arriving : ℕ → List (BitVec 8)) (c : Controller) (codes : List (BitVec 32))
    (c' : Controller) : Prop where
  reads : c.reads ≤ c'.reads
  heard : heard codes ++ codesOf c'.waiting =
    codesOf (c.waiting ++ arrived arriving c.reads c'.reads)

theorem Delivers.trans {c' c'' : Controller} {codes codes' : List (BitVec 32)}
    (D : Delivers arriving c codes c') (D' : Delivers arriving c' codes' c'') :
    Delivers arriving c (codes ++ codes') c'' := by
  refine ⟨Nat.le_trans D.reads D'.reads, ?_⟩
  have happend : Keyboard.heard (codes ++ codes') = Keyboard.heard codes ++ Keyboard.heard codes' :=
    List.filter_append ..
  rw [happend, List.append_assoc, D'.heard, codesOf_append, ← List.append_assoc, D.heard,
    ← codesOf_append, List.append_assoc, arrived_append D.reads D'.reads]

theorem delivers_keyPressed (c : Controller) :
    Delivers arriving c [] (keyPressed (controller arriving others) c).2 := by
  rw [keyPressed_eq]
  refine ⟨Nat.le_succ _, ?_⟩
  rw [arrived_succ]
  rfl

theorem delivers_scanCode (c : Controller) :
    Delivers arriving c [(scanCode (controller arriving others) c).1]
      (scanCode (controller arriving others) c).2 := by
  cases h : c.waiting ++ arriving c.reads with
  | nil =>
    rw [scanCode_none h]
    refine ⟨Nat.le_succ _, ?_⟩
    rw [arrived_succ, h]
    rfl
  | cons b bs =>
    rw [scanCode_cons h]
    refine ⟨Nat.le_add_right _ 2, ?_⟩
    have hcame : arrived arriving c.reads (c.reads + 2) =
        arriving c.reads ++ arriving (c.reads + 1) := by
      rw [← arrived_append (Nat.le_succ c.reads) (Nat.le_succ _), arrived_succ, arrived_succ]
    rw [hcame, ← List.append_assoc, h]
    exact (codesOf_append [b] (bs ++ arriving (c.reads + 1))).symm

theorem delivers_run (calls : List Call) (c : Controller) :
    Delivers arriving c (run (controller arriving others) calls c).1
      (run (controller arriving others) calls c).2 := by
  induction calls generalizing c with
  | nil =>
    refine ⟨Nat.le_refl _, ?_⟩
    simp [run, arrived, heard]
  | cons call calls ih =>
    cases call with
    | scanCode => exact (delivers_scanCode c).trans (ih _)
    | keyPressed => exact (delivers_keyPressed c).trans (ih _)

/-- In every order of calls and bytes no byte is lost, doubled or overtaken, as far as a caller can
tell; and a key that is said to be pressed is the next code. -/
theorem codes_in_order (arriving : ℕ → List (BitVec 8)) (others : ℕ → BitVec 8)
    (calls : List Call) (c : Controller) :
    (heard (run (controller arriving others) calls c).1 ++
        codesOf (run (controller arriving others) calls c).2.waiting =
      codesOf (c.waiting ++
        arrived arriving c.reads (run (controller arriving others) calls c).2.reads)) ∧
    ∀ c : Controller, (keyPressed (controller arriving others) c).1 = true →
      ∃ b, (c.waiting ++ arriving c.reads).head? = some b ∧
        (scanCode (controller arriving others) (keyPressed (controller arriving others) c).2).1 =
          b.setWidth 32 := by
  refine ⟨(delivers_run calls c).heard, fun c hpressed => ?_⟩
  rw [keyPressed_eq] at hpressed ⊢
  obtain ⟨b, bs, hw⟩ := List.exists_cons_of_ne_nil (of_decide_eq_true hpressed)
  refine ⟨b, by rw [hw]; rfl, ?_⟩
  have hnext : (⟨c.waiting ++ arriving c.reads, c.reads + 1⟩ : Controller).waiting ++
      arriving (c.reads + 1) = b :: (bs ++ arriving (c.reads + 1)) := by rw [hw]; rfl
  rw [scanCode_cons hnext]

end TinaOS.Keyboard
