import TinaOS.Library.BoundedLoop
import TinaOS.Library.ByteMemory

/-!
# The allocator of `sys/malloc.c`

`malloc` and `free` over byte memory. A `union header` is eight bytes: the link word
and, four bytes up, the size in units of eight bytes. The header `freelist` lies at a
fixed address of that memory; `freep` is a variable of its own. `sbrk` is a parameter
with a state of its own type, so the same `malloc` runs over any behaviour of it.
Both loops get a budget of rounds; `none` is an exhausted budget.
-/

namespace TinaOS.Malloc

open ByteMemory

def BLOCK : BitVec 32 := 1024

/-- `p->s.link` -/
def link (m : Mem) (p : Ptr) : Ptr := load32 m p

/-- `p->s.size` -/
def size (m : Mem) (p : Ptr) : BitVec 32 := load32 m (p + 4)

/-- `p + n` on a `union header *`, whose target has eight bytes. -/
def advance (p : Ptr) (n : BitVec 32) : Ptr := p + n * 8

/-- What the calls read and write. `writes` records the address of every word stored
by the allocator, the latest first; no code reads it. -/
structure Heap (σ : Type*) where
  mem : Mem
  freep : Ptr
  sbrk : σ
  writes : List Ptr

variable {σ : Type*}

/-- `p->s.link = v` -/
def Heap.setLink (h : Heap σ) (p v : Ptr) : Heap σ :=
  { h with mem := store32 h.mem p v, writes := p :: h.writes }

/-- `p->s.size = v` -/
def Heap.setSize (h : Heap σ) (p : Ptr) (v : BitVec 32) : Heap σ :=
  { h with mem := store32 h.mem (p + 4) v, writes := (p + 4) :: h.writes }

/-- The units of a request: its payload rounded up, and one for the header. -/
def units (nbytes : BitVec 32) : BitVec 32 := (nbytes + 8 - 1) / 8 + 1

/-- One round of the search in `malloc`. It leaves with the predecessor of a block that
fits, or with `none` once it is round the list. -/
def searchStep (m : Mem) (freep : Ptr) (sz : BitVec 32) (q : Ptr) : Ptr ⊕ Option Ptr :=
  let p := link m q
  if size m p > sz then .inr (some q)
  else if size m p = sz then .inr (some q)
  else if p = freep then .inr none
  else .inl p

/-- The two branches of the search that return: the high end of a larger block, or the
whole of a block of the right size. -/
def take (h : Heap σ) (sz : BitVec 32) (q : Ptr) : Ptr × Heap σ :=
  let p := link h.mem q
  if size h.mem p > sz then
    let h := h.setSize p (size h.mem p - sz)
    let p := advance p (size h.mem p)
    let h := h.setSize p sz
    (p + 8, { h with freep := q })
  else
    let h := h.setLink q (link h.mem p)
    (p + 8, { h with freep := q })

/-- A region from `sbrk` becomes a free block behind `freep`. -/
def insertRegion (h : Heap σ) (p : Ptr) (sz : BitVec 32) : Heap σ :=
  let h := h.setSize p sz
  let h := h.setLink p (link h.mem h.freep)
  h.setLink h.freep p

/-- The units `malloc` asks of `sbrk` when no block fits. -/
def growth (sz : BitVec 32) : BitVec 32 := if sz < BLOCK then BLOCK else sz

/-- `malloc`. The budget bounds the rounds of each search and the depth of the recursion. -/
def malloc (sbrk : BitVec 32 → σ → Ptr × σ) : ℕ → BitVec 32 → Heap σ → Option (Ptr × Heap σ)
  | 0, _, _ => none
  | fuel + 1, nbytes, h =>
    let sz := units nbytes
    match BoundedLoop.run (searchStep h.mem h.freep sz) (fuel + 1) h.freep with
    | none => none
    | some (some q) => some (take h sz q)
    | some none =>
      let sz := growth sz
      let (p, s) := sbrk (sz * 8) h.sbrk
      let h := { h with sbrk := s }
      if p = -1 then some (0, h)
      else malloc sbrk fuel nbytes (insertRegion h p sz)

/-- One round of the search in `free` for the place of `bp`. -/
def freeStep (m : Mem) (bp p : Ptr) : Ptr ⊕ Ptr :=
  if (bp > p ∧ bp < link m p) ∨ (p ≥ link m p ∧ (bp > p ∨ bp < link m p)) then .inr p
  else .inl (link m p)

/-- The first half of `free`'s update: link `bp` to what follows, joining it if adjacent. -/
def joinUpper (h : Heap σ) (bp p : Ptr) : Heap σ :=
  if advance bp (size h.mem bp) = link h.mem p then
    let h := h.setSize bp (size h.mem bp + size h.mem (link h.mem p))
    h.setLink bp (link h.mem (link h.mem p))
  else h.setLink bp (link h.mem p)

/-- The second half: link `p` to `bp`, joining them if adjacent. -/
def joinLower (h : Heap σ) (bp p : Ptr) : Heap σ :=
  if advance p (size h.mem p) = bp then
    let h := h.setSize p (size h.mem p + size h.mem bp)
    h.setLink p (link h.mem bp)
  else h.setLink p bp

/-- `free`. The header is eight bytes below the pointer that `malloc` returned. -/
def free (fuel : ℕ) (ptr : Ptr) (h : Heap σ) : Option (Heap σ) :=
  let bp := ptr - 8
  if ptr = 0 then some h
  else match BoundedLoop.run (freeStep h.mem bp) fuel h.freep with
    | none => none
    | some p => some { joinLower (joinUpper h bp p) bp p with freep := p }

/-- The variables of `sys/malloc.h` at boot: `freelist` is linked to itself with size zero
and `freep` points at it. The static header is an object, so it has a nonzero address and
lies in memory whole. -/
structure Initial (fl : Ptr) (sbrk₀ : σ) (h : Heap σ) : Prop where
  placed : 0 < fl.toNat ∧ fl.toNat + 8 ≤ 2 ^ 32
  link_eq : link h.mem fl = fl
  size_eq : size h.mem fl = 0
  freep_eq : h.freep = fl
  sbrk_eq : h.sbrk = sbrk₀

variable {m : Mem} {p q : Ptr} {v : BitVec 32}

theorem link_store_link (m : Mem) (p : Ptr) (v : BitVec 32) : link (store32 m p v) p = v :=
  load32_store32_same m p v

theorem size_store_size (m : Mem) (p : Ptr) (v : BitVec 32) : size (store32 m (p + 4) v) p = v :=
  load32_store32_same m (p + 4) v

@[simp] theorem Heap.size_setSize (h : Heap σ) (p : Ptr) (v : BitVec 32) :
    size (h.setSize p v).mem p = v := size_store_size h.mem p v

/-- Words of headers that are apart do not meet. -/
theorem apart_words (h : Apart p 8 q 8) : Apart p 4 q 4 ∧ Apart p 4 (q + 4) 4 ∧
    Apart (p + 4) 4 q 4 ∧ Apart (p + 4) 4 (q + 4) 4 := by
  have hp := p.isLt
  have hq := q.isLt
  simp only [Apart, BitVec.toNat_sub, BitVec.toNat_add, BitVec.reduceToNat, Nat.reducePow] at *
  omega

theorem apart_fields (p : Ptr) : Apart p 4 (p + 4) 4 := by
  have hp := p.isLt
  simp only [Apart, BitVec.toNat_sub, BitVec.toNat_add, BitVec.reduceToNat, Nat.reducePow]
  omega

theorem link_store_link_apart (h : Apart p 8 q 8) (v : BitVec 32) :
    link (store32 m p v) q = link m q := load32_store32_apart v (apart_words h).1

/-- No store to a link changes a size. -/
theorem size_store_link (h : q = p ∨ Apart p 8 q 8) (v : BitVec 32) :
    size (store32 m p v) q = size m q := by
  rcases h with rfl | h
  · exact load32_store32_apart v (apart_fields q)
  · exact load32_store32_apart v (apart_words h).2.1

/-- No store to a size changes a link. -/
theorem link_store_size (h : q = p ∨ Apart p 8 q 8) (v : BitVec 32) :
    link (store32 m (p + 4) v) q = link m q := by
  rcases h with rfl | h
  · exact load32_store32_apart v (apart_fields q).symm
  · exact load32_store32_apart v (apart_words h).2.2.1

theorem size_store_size_apart (h : Apart p 8 q 8) (v : BitVec 32) :
    size (store32 m (p + 4) v) q = size m q := load32_store32_apart v (apart_words h).2.2.2

/-- `w` is one of the two words of the header at `p`. -/
abbrev InHeader (w p : Ptr) : Prop := w = p ∨ w = p + 4

theorem InHeader.outside {w a : Ptr} (hw : InHeader w p) (h : Apart a 1 p 8) :
    4 ≤ (a - w).toNat := by
  have hp := p.isLt
  have ha := a.isLt
  rcases hw with rfl | rfl
  · have h8 : 8 ≤ (a - w).toNat := h.2
    omega
  · simp only [Apart, BitVec.toNat_sub, BitVec.toNat_add, BitVec.reduceToNat, Nat.reducePow] at *
    omega

theorem InHeader.within {w : Ptr} (hw : InHeader w p) {n : ℕ} (hn : 8 ≤ n)
    (hp : p.toNat + n ≤ 2 ^ 32) : p.toNat ≤ w.toNat ∧ w.toNat + 4 ≤ p.toNat + n := by
  rcases hw with rfl | rfl
  · omega
  · simp only [BitVec.toNat_add, BitVec.reduceToNat]
    omega

/-- From `h` to `h'` the allocator stored words at `ws` and changed no other byte. -/
structure Frame (h h' : Heap σ) (ws : List Ptr) : Prop where
  writes : h'.writes = ws ++ h.writes
  outside : ∀ x, (∀ w ∈ ws, 4 ≤ (x - w).toNat) → h'.mem x = h.mem x

namespace Frame

variable {h h' h'' : Heap σ} {ws ws' : List Ptr}

theorem refl (h : Heap σ) : Frame h h [] := ⟨rfl, fun _ _ => rfl⟩

theorem trans (f : Frame h h' ws) (f' : Frame h' h'' ws') : Frame h h'' (ws' ++ ws) := by
  refine ⟨by rw [f'.writes, f.writes, List.append_assoc], fun x hx => ?_⟩
  rw [f'.outside x fun w hw => hx w (by simp [hw]), f.outside x fun w hw => hx w (by simp [hw])]

theorem setLink (h : Heap σ) (p v : Ptr) : Frame h (h.setLink p v) [p] :=
  ⟨rfl, fun _ hx => store32_outside v (hx p (by simp))⟩

theorem setSize (h : Heap σ) (p : Ptr) (v : BitVec 32) : Frame h (h.setSize p v) [p + 4] :=
  ⟨rfl, fun _ hx => store32_outside v (hx (p + 4) (by simp))⟩

/-- The variables `freep` and the state of `sbrk` are not memory. -/
theorem congr {h'' : Heap σ} (f : Frame h h' ws) (hm : h''.mem = h'.mem)
    (hw : h''.writes = h'.writes) : Frame h h'' ws :=
  ⟨by rw [hw, f.writes], fun x hx => by rw [hm, f.outside x hx]⟩

end Frame

end TinaOS.Malloc
