import TinaOS.Library.Arena

/-!
# Maximal runs

Extents with a gap between any two of them are determined by the addresses that they cover:
they are the runs of such addresses that cannot be extended. So a run of covered addresses,
however long, lies in one of them.
-/

namespace Arenas

/-- Nonempty extents, and between any two of them at least one address. -/
structure Spaced (E : Set Extent) : Prop where
  len_pos : ∀ e ∈ E, 0 < e.len
  gap : ∀ e ∈ E, ∀ f ∈ E, e ≠ f → e.hi < f.lo ∨ f.hi < e.lo

def Covered (E : Set Extent) (a : ℕ) : Prop := ∃ e ∈ E, a ∈ e.cells

/-- A nonempty extent of addresses in `P`, with none in `P` right behind it or right before it. -/
structure MaximalRun (P : ℕ → Prop) (e : Extent) : Prop where
  len_pos : 0 < e.len
  cells : ∀ a ∈ e.cells, P a
  above : ¬ P e.hi
  below : ∀ a, a + 1 = e.lo → ¬ P a

variable {E : Set Extent} {P Q : ℕ → Prop} {e f : Extent} {a : ℕ}

theorem MaximalRun.congr (h : MaximalRun P e) (hPQ : ∀ a, Q a ↔ P a) : MaximalRun Q e where
  len_pos := h.len_pos
  cells a ha := (hPQ a).mpr (h.cells a ha)
  above hQ := h.above ((hPQ _).mp hQ)
  below a ha hQ := h.below a ha ((hPQ a).mp hQ)

/-- A run that meets a maximal one lies in it. -/
theorem MaximalRun.le (h : MaximalRun P f) (he : ∀ a ∈ e.cells, P a) (hae : a ∈ e.cells)
    (haf : a ∈ f.cells) : f.lo ≤ e.lo ∧ e.hi ≤ f.hi := by
  simp only [Extent.mem_cells] at he hae haf
  simp only [Extent.hi]
  constructor
  · by_contra hlo
    exact h.below (f.lo - 1) (by omega) (he _ (by omega))
  · by_contra hhi
    have hend := he f.hi
    simp only [Extent.hi] at hend
    exact h.above (hend (by omega))

theorem MaximalRun.eq (he : MaximalRun P e) (hf : MaximalRun P f) (hae : a ∈ e.cells)
    (haf : a ∈ f.cells) : e = f := by
  obtain ⟨hlo, hhi⟩ := hf.le he.cells hae haf
  obtain ⟨hlo', hhi'⟩ := he.le hf.cells haf hae
  obtain ⟨elo, elen⟩ := e
  obtain ⟨flo, flen⟩ := f
  simp only [Extent.hi, Extent.mk.injEq] at *
  omega

theorem Spaced.maximalRun (h : Spaced E) (he : e ∈ E) : MaximalRun (Covered E) e := by
  have happart : ∀ f ∈ E, (∃ a ∈ f.cells, e.lo ≤ a + 1 ∧ a ≤ e.hi) → f = e := by
    rintro f hf ⟨a, haf, hlo, hhi⟩
    by_contra hne
    have hgap := h.gap f hf e he hne
    simp only [Extent.mem_cells, Extent.hi] at *
    omega
  constructor
  case len_pos => exact h.len_pos e he
  case cells => exact fun a ha => ⟨e, he, ha⟩
  case above =>
    rintro ⟨f, hf, haf⟩
    obtain rfl := happart f hf ⟨_, haf, by simp only [Extent.hi]; omega, Nat.le_refl _⟩
    simp only [Extent.mem_cells, Extent.hi] at haf
    omega
  case below =>
    rintro a ha ⟨f, hf, haf⟩
    obtain rfl := happart f hf ⟨a, haf, by omega, by simp only [Extent.hi]; omega⟩
    simp only [Extent.mem_cells] at haf
    omega

/-- Spaced extents are the maximal runs of what they cover. -/
theorem Spaced.mem_iff (h : Spaced E) : e ∈ E ↔ MaximalRun (Covered E) e := by
  refine ⟨h.maximalRun, fun he => ?_⟩
  have hfirst : e.lo ∈ e.cells := Extent.mem_cells.mpr ⟨Nat.le_refl _, by have := he.len_pos; omega⟩
  obtain ⟨f, hf, haf⟩ := he.cells _ hfirst
  rwa [he.eq (h.maximalRun hf) hfirst haf]

/-- A run of covered addresses lies in one extent. -/
theorem Spaced.exists_of_run (h : Spaced E) (hpos : 0 < e.len) (he : ∀ a ∈ e.cells, Covered E a) :
    ∃ f ∈ E, f.lo ≤ e.lo ∧ e.hi ≤ f.hi := by
  have hfirst : e.lo ∈ e.cells := Extent.mem_cells.mpr ⟨Nat.le_refl _, by omega⟩
  obtain ⟨f, hf, haf⟩ := he _ hfirst
  exact ⟨f, hf, (h.maximalRun hf).le he hfirst haf⟩

/-- The addresses of some extents that lie in none of some others. -/
def Outside (rs bs : List Extent) (a : ℕ) : Prop :=
  (∃ r ∈ rs, a ∈ r.cells) ∧ ∀ b ∈ bs, a ∉ b.cells

variable {es rs bs : List Extent}

/-- A maximal run ends where one of the extents around it ends or where one of the others starts. -/
theorem MaximalRun.hi_mem (h : MaximalRun (Outside rs bs) e) :
    e.hi ∈ rs.map Extent.hi ++ bs.map Extent.lo := by
  have hpos := h.len_pos
  have hlast : e.hi - 1 ∈ e.cells := Extent.mem_cells.mpr (by simp only [Extent.hi]; omega)
  obtain ⟨⟨r, hr, hin⟩, hout⟩ := h.cells _ hlast
  rw [Extent.mem_cells] at hin
  by_cases hnext : e.hi ∈ r.cells
  · have hin' : ∃ b ∈ bs, e.hi ∈ b.cells := by
      by_contra hno
      exact h.above ⟨⟨r, hr, hnext⟩, fun b hb hmem => hno ⟨b, hb, hmem⟩⟩
    obtain ⟨b, hb, hmem⟩ := hin'
    have hbefore := hout b hb
    rw [Extent.mem_cells] at hmem hbefore
    have hstart : b.lo = e.hi := by omega
    exact List.mem_append_right _ (hstart ▸ List.mem_map_of_mem hb)
  · rw [Extent.mem_cells] at hnext
    have hend : r.hi = e.hi := by
      simp only [Extent.hi] at *
      omega
    exact List.mem_append_left _ (hend ▸ List.mem_map_of_mem hr)

/-- There are no more maximal runs than extents. -/
theorem length_le_of_maximalRun (hn : es.Nodup) (h : ∀ e ∈ es, MaximalRun (Outside rs bs) e) :
    es.length ≤ rs.length + bs.length := by
  have hinj : ∀ e ∈ es, ∀ f ∈ es, e.hi = f.hi → e = f := by
    intro e he f hf heq
    have hpos := (h e he).len_pos
    have hpos' := (h f hf).len_pos
    apply (h e he).eq (h f hf) (a := e.hi - 1) <;>
      simp only [Extent.mem_cells, Extent.hi] at * <;> omega
  have hends : (es.map Extent.hi).Nodup := List.Nodup.map_on hinj hn
  have hsub : es.map Extent.hi ⊆ rs.map Extent.hi ++ bs.map Extent.lo := by
    intro a ha
    obtain ⟨e, he, rfl⟩ := List.mem_map.mp ha
    exact (h e he).hi_mem
  have hlength := (hends.subperm hsub).length_le
  rwa [List.length_append, List.length_map, List.length_map, List.length_map] at hlength

end Arenas
