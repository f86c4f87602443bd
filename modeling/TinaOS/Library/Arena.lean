import Mathlib.Data.Multiset.Bind
import Mathlib.Logic.Relation
import Mathlib.Order.Interval.Finset.Nat
import Mathlib.Order.Interval.Multiset
import Mathlib.Tactic.Abel

/-!
# Arenas: memory divided into free and live extents

An extent is a run of consecutive addresses, and an arena divides the addresses it
owns into free and live extents. Covers are multisets of addresses, so one equation
says that no address is lost and, with the cover of the owned extents duplicate-free,
that none belongs to two extents. The moves of an allocator (handing an extent out,
carving one, growing, releasing, joining neighbours) build arenas from arenas.
-/

namespace Arenas

/-- The addresses `lo, …, lo + len - 1`. -/
structure Extent where
  lo : ℕ
  len : ℕ
  deriving DecidableEq, Repr

namespace Extent

def hi (e : Extent) : ℕ := e.lo + e.len

def cells (e : Extent) : Multiset ℕ := Multiset.Ico e.lo e.hi

@[simp] theorem mem_cells {e : Extent} {a : ℕ} : a ∈ e.cells ↔ e.lo ≤ a ∧ a < e.lo + e.len := by
  simp [cells, hi]

@[simp] theorem cells_zero (a : ℕ) : cells ⟨a, 0⟩ = 0 := by simp [cells, hi]

theorem nodup_cells (e : Extent) : e.cells.Nodup := Multiset.nodup_Ico

theorem cells_add (lo a b : ℕ) : cells ⟨lo, a⟩ + cells ⟨lo + a, b⟩ = cells ⟨lo, a + b⟩ := by
  simp only [cells, hi, ← Nat.add_assoc]
  exact Multiset.Ico_add_Ico_eq_Ico (Nat.le_add_right lo a) (Nat.le_add_right _ b)

/-- Two nonempty extents without a common address lie one behind the other. -/
theorem apart_of_disjoint {e f : Extent} (he : 0 < e.len) (hf : 0 < f.len)
    (h : Disjoint e.cells f.cells) : e.lo + e.len ≤ f.lo ∨ f.lo + f.len ≤ e.lo := by
  by_contra hne
  obtain ⟨h₁, h₂⟩ := not_or.mp hne
  have hmem : max e.lo f.lo ∈ e.cells ∧ max e.lo f.lo ∈ f.cells := by
    simp only [mem_cells]
    omega
  exact Multiset.disjoint_left.mp h hmem.1 hmem.2

end Extent

/-- All addresses of the extents, each as often as extents contain it. -/
def cover (es : Multiset Extent) : Multiset ℕ := es.bind Extent.cells

@[simp] theorem cover_zero : cover 0 = 0 := rfl

@[simp] theorem cover_cons (e : Extent) (es : Multiset Extent) :
    cover (e ::ₘ es) = e.cells + cover es := Multiset.cons_bind _ _ _

@[simp] theorem cover_add (es fs : Multiset Extent) : cover (es + fs) = cover es + cover fs :=
  Multiset.add_bind _ _ _

theorem mem_cover {es : Multiset Extent} {a : ℕ} :
    a ∈ cover es ↔ ∃ e ∈ es, e.lo ≤ a ∧ a < e.lo + e.len := by
  simp [cover]

/-- A duplicate-free cover is a cover by pairwise disjoint extents. -/
theorem nodup_cover {l : List Extent} :
    (cover (l : Multiset Extent)).Nodup ↔ l.Pairwise (fun e f => Disjoint e.cells f.cells) := by
  have _ : Std.Symm fun e f : Extent => Disjoint e.cells f.cells := ⟨fun _ _ h => h.symm⟩
  rw [cover, Multiset.nodup_bind, ← Multiset.pairwise_coe_iff_pairwise]
  simp only [Extent.nodup_cells, implies_true, true_and]

/-- An arena: the free and the live extents divide the owned addresses among them. -/
structure Arena where
  free : Multiset Extent
  live : Multiset Extent
  owned : Multiset Extent
  tiles : cover (free + live) = cover owned
  separate : (cover owned).Nodup

namespace Arena

variable (A : Arena)

theorem nodup_blocks : (cover (A.free + A.live)).Nodup := A.tiles ▸ A.separate

theorem disjoint_cells {e f : Extent} {s : Multiset Extent} (h : A.free + A.live = e ::ₘ f ::ₘ s) :
    Disjoint e.cells f.cells := by
  have hn := A.nodup_blocks
  rw [h, cover_cons, cover_cons, ← add_assoc] at hn
  exact (Multiset.nodup_add.mp (Multiset.nodup_add.mp hn).1).2.2

theorem owned_of_mem {e : Extent} (he : e ∈ A.free + A.live) {a : ℕ} (ha : a ∈ e.cells) :
    ∃ f ∈ A.owned, a ∈ f.cells := by
  have hm : a ∈ cover (A.free + A.live) := mem_cover.mpr ⟨e, he, Extent.mem_cells.mp ha⟩
  obtain ⟨f, hf, hfa⟩ := mem_cover.mp (A.tiles ▸ hm)
  exact ⟨f, hf, Extent.mem_cells.mpr hfa⟩

/-- Nothing is owned; the one free extent, at `a`, has no addresses. -/
def vacant (a : ℕ) : Arena where
  free := {⟨a, 0⟩}
  live := 0
  owned := 0
  tiles := by simp [cover]
  separate := Multiset.nodup_zero

/-- Hand out a whole free extent. -/
def hand (e : Extent) (F : Multiset Extent) (h : A.free = e ::ₘ F) : Arena where
  free := F
  live := e ::ₘ A.live
  owned := A.owned
  tiles := by
    rw [← A.tiles, h]
    simp [add_comm]
  separate := A.separate

/-- Hand out the high end of a free extent, the rest staying free. -/
def carve (lo a b : ℕ) (F : Multiset Extent) (h : A.free = ⟨lo, a + b⟩ ::ₘ F) : Arena where
  free := ⟨lo, a⟩ ::ₘ F
  live := ⟨lo + a, b⟩ ::ₘ A.live
  owned := A.owned
  tiles := by
    rw [← A.tiles, h]
    simp only [cover_add, cover_cons, ← Extent.cells_add]
    abel
  separate := A.separate

/-- Take a new extent into the arena, as a free one. -/
def grow (e : Extent) (h : ∀ f ∈ A.owned, Disjoint e.cells f.cells) : Arena where
  free := e ::ₘ A.free
  live := A.live
  owned := e ::ₘ A.owned
  tiles := by
    have ht := A.tiles
    simp only [cover_add] at ht
    simp [← ht]
  separate := by
    rw [cover_cons]
    refine Multiset.nodup_add.mpr ⟨e.nodup_cells, A.separate, ?_⟩
    refine Multiset.disjoint_left.mpr fun {a} ha hm => ?_
    obtain ⟨f, hf, hfa⟩ := mem_cover.mp hm
    exact Multiset.disjoint_left.mp (h f hf) ha (Extent.mem_cells.mpr hfa)

/-- Take a live extent back. -/
def release (e : Extent) (L : Multiset Extent) (h : A.live = e ::ₘ L) : Arena where
  free := e ::ₘ A.free
  live := L
  owned := A.owned
  tiles := by
    rw [← A.tiles, h]
    simp [add_left_comm]
  separate := A.separate

/-- Join two neighbouring free extents. -/
def join (lo a b : ℕ) (F : Multiset Extent) (h : A.free = ⟨lo, a⟩ ::ₘ ⟨lo + a, b⟩ ::ₘ F) :
    Arena where
  free := ⟨lo, a + b⟩ ::ₘ F
  live := A.live
  owned := A.owned
  tiles := by
    rw [← A.tiles, h]
    simp [← Extent.cells_add, add_assoc]
  separate := A.separate

inductive Step : Arena → Arena → Prop
  | hand (A e F h) : Step A (A.hand e F h)
  | carve (A lo a b F h) : Step A (A.carve lo a b F h)
  | grow (A e h) : Step A (A.grow e h)
  | release (A e L h) : Step A (A.release e L h)
  | join (A lo a b F h) : Step A (A.join lo a b F h)

abbrev Steps : Arena → Arena → Prop := Relation.ReflTransGen Step

end Arena

end Arenas
