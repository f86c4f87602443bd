import TinaOS.Library.Allocator
import Mathlib.Data.List.Pairwise

/-!
# Object stores

What a program may rely on that keeps objects in the blocks of a heap: an object is found under
its pointer, and a byte of it is the last one stored there. The store says so without memory, and
every run over a heap that keeps its blocks apart is one that the store explains.
-/

namespace ObjectStores

open ByteMemory Allocators

variable {κ α : Type*}

/-- The bytes of an object, where `none` is a byte that nobody has stored. -/
abbrev Object := List (Option (BitVec 8))

abbrev Store := Ptr → Option Object

/-- A call of the program together with its answer. -/
inductive Event (κ : Type*) where
  | alloc (k : κ) (p : Ptr)
  | free (p : Ptr)
  | write (p : Ptr) (i : ℕ) (v : BitVec 8)
  | read (p : Ptr) (i : ℕ) (v : BitVec 8)

/-- The requests of a program: which of them it may make, and for how many bytes each is. -/
structure Requests (κ : Type*) where
  Allowed : κ → Prop
  len : κ → ℕ

namespace Store

variable (R : Requests κ)

def empty : Store := fun _ => none

def Holds (st : Store) (p : Ptr) (i : ℕ) : Prop := ∃ o, st p = some o ∧ i < o.length

def next (st : Store) : Event κ → Store
  | .alloc k p =>
    if p = 0 then st else Function.update st p (some (List.replicate (R.len k) none))
  | .free p => Function.update st p none
  | .write p i v => Function.update st p ((st p).map fun o => o.set i (some v))
  | .read .. => st

/-- The program keeps to its own objects. -/
def Permits (st : Store) : Event κ → Prop
  | .alloc k _ => R.Allowed k
  | .free p => p = 0 ∨ ∃ o, st p = some o
  | .write p i _ => st.Holds p i
  | .read p i _ => st.Holds p i

/-- The answer is one that the store gives: a new object is none of those there are, and a byte
that somebody stored is read back. -/
def Explains (st : Store) : Event κ → Prop
  | .alloc _ p => p = 0 ∨ st p = none
  | .read p i v => ∀ o w, st p = some o → o[i]? = some (some w) → v = w
  | _ => True

def after (st : Store) (es : List (Event κ)) : Store := es.foldl (next R) st

/-- Every event of a run satisfies `P` over the store that the earlier ones lead to. -/
def Along (P : Store → Event κ → Prop) : Store → List (Event κ) → Prop
  | _, [] => True
  | st, e :: es => P st e ∧ Along P (st.next R e) es

end Store

structure Heap (κ α : Type*) where
  alloc : κ → Mem → α → Ptr × Mem × α
  release : Ptr → Mem → α → Mem × α

inductive Heap.Step (H : Heap κ α) : Mem → α → Event κ → Mem → α → Prop
  | alloc {k p m a m' a'} (h : H.alloc k m a = (p, m', a')) : H.Step m a (.alloc k p) m' a'
  | free {p m a m' a'} (h : H.release p m a = (m', a')) : H.Step m a (.free p) m' a'
  | write (p i v m a) :
    H.Step m a (.write p i v) (Function.update m (p + BitVec.ofNat 32 i) v) a
  | read {p i v m a} (h : m (p + BitVec.ofNat 32 i) = v) : H.Step m a (.read p i v) m a

inductive Heap.Run (H : Heap κ α) : Mem → α → List (Event κ) → Mem → α → Prop
  | nil (m a) : H.Run m a [] m a
  | cons {m a e m₁ a₁ es m₂ a₂} (hs : H.Step m a e m₁ a₁) (hr : H.Run m₁ a₁ es m₂ a₂) :
    H.Run m a (e :: es) m₂ a₂

/-- The bytes of the blocks are the same in both memories. -/
def Same (bs : List Block) (m m' : Mem) : Prop := ∀ b ∈ bs, ∀ x, b.Within x → m' x = m x

/-- The blocks of a heap are apart, and their owners may store in them. -/
structure Separate (Given : List Block → Mem → α → Prop) : Prop where
  ne_zero : ∀ {bs m a}, Given bs m a → ∀ b ∈ bs, b.base ≠ 0
  nodup : ∀ {bs m a}, Given bs m a → (bs.map Block.base).Nodup
  bounded : ∀ {bs m a}, Given bs m a → ∀ b ∈ bs, b.len ≤ 2 ^ 32
  disjoint : ∀ {bs m a}, Given bs m a → bs.Pairwise fun b c => ∀ x, b.Within x → ¬ c.Within x
  store : ∀ {bs m a m'}, Given bs m a → (∀ x, (∀ b ∈ bs, ¬ b.Within x) → m' x = m x) →
    Given bs m' a

/-- A request for `len` bytes is refused, or answered with a new block of that length. -/
structure Serves (alloc : Mem → α → Ptr × Mem × α) (len : ℕ)
    (Given : List Block → Mem → α → Prop) : Prop where
  refuse : ∀ {bs m a m' a'}, Given bs m a → alloc m a = (0, m', a') → Given bs m' a'
  serve : ∀ {bs m a p m' a'}, Given bs m a → alloc m a = (p, m', a') → p ≠ 0 →
    Given (⟨p, len⟩ :: bs) m' a'
  keeps : ∀ {bs m a p m' a'}, Given bs m a → alloc m a = (p, m', a') → Same bs m m'

/-- Giving back a block, or nothing, leaves the other blocks alone. -/
structure TakesBack (release : Ptr → Mem → α → Mem × α) (Given : List Block → Mem → α → Prop) :
    Prop where
  nothing : ∀ {bs m a m' a'}, Given bs m a → release 0 m a = (m', a') →
    Given bs m' a' ∧ Same bs m m'
  block : ∀ {bs cs b m a m' a'}, Given (bs ++ b :: cs) m a → release b.base m a = (m', a') →
    Given (bs ++ cs) m' a' ∧ Same (bs ++ cs) m m'

/-- An allocator that meets its contract serves every request within its limit. -/
theorem serves_of_contract {alloc : Allocator α} {limit : ℕ} {Given : List Block → Mem → α → Prop}
    (C : Contract alloc limit Given) {n : BitVec 32} (hn : n.toNat ≤ limit) :
    Serves (alloc n) n.toNat Given where
  refuse := fun G h => C.refuse G hn h
  serve := fun G h hp => C.serve G hn h hp
  keeps := fun G h => C.keeps G hn h

/-- Every object lies in a block of its length, which holds its stored bytes. -/
structure Represents (st : Store) (bs : List Block) (m : Mem) : Prop where
  block : ∀ {p o}, st p = some o → ⟨p, o.length⟩ ∈ bs
  bytes : ∀ {p o i w}, st p = some o → o[i]? = some (some w) → m (p + BitVec.ofNat 32 i) = w

variable {H : Heap κ α} {R : Requests κ} {Given : List Block → Mem → α → Prop} {st : Store}
  {bs cs : List Block} {b : Block} {m m' : Mem} {a a' : α} {p : Ptr} {o : Object}

theorem represents_empty (m : Mem) : Represents .empty [] m :=
  ⟨fun h => absurd h (Option.some_ne_none _).symm, fun h => absurd h (Option.some_ne_none _).symm⟩

theorem getElem?_lt {i : ℕ} {w : Option (BitVec 8)} (h : o[i]? = some w) : i < o.length :=
  (List.getElem?_eq_some_iff.mp h).1

theorem Represents.same (V : Represents st bs m) (hS : Separate Given) (G : Given bs m a)
    (hsame : Same bs m m') : Represents st bs m' := by
  refine ⟨V.block, fun {p o i w} hp hw => ?_⟩
  have hb := V.block hp
  rw [hsame _ hb _ (Block.within_offset (b := ⟨p, o.length⟩) (getElem?_lt hw) (hS.bounded G _ hb))]
  exact V.bytes hp hw

/-- A new block under a new pointer. -/
theorem Represents.alloc (V : Represents st bs m) (len : ℕ) :
    Represents (Function.update st p (some (List.replicate len none))) (⟨p, len⟩ :: bs) m := by
  constructor
  case block =>
    intro q o hq
    by_cases hqp : q = p
    · subst hqp
      rw [Function.update_self] at hq
      obtain rfl := Option.some.inj hq
      rw [List.length_replicate]
      exact List.mem_cons_self
    · rw [Function.update_of_ne hqp] at hq
      exact List.mem_cons_of_mem _ (V.block hq)
  case bytes =>
    intro q o i w hq hw
    by_cases hqp : q = p
    · subst hqp
      rw [Function.update_self] at hq
      obtain rfl := Option.some.inj hq
      -- Nobody has stored a byte of the new object.
      exact nomatch List.eq_of_mem_replicate (List.mem_of_getElem? hw)
    · rw [Function.update_of_ne hqp] at hq
      exact V.bytes hq hw

theorem Represents.free (V : Represents st (bs ++ b :: cs) m) (hp : b.base = p) :
    Represents (Function.update st p none) (bs ++ cs) m := by
  have hne : ∀ {q o}, Function.update st p none q = some o → q ≠ p ∧ st q = some o := by
    intro q o hq
    by_cases hqp : q = p
    · rw [hqp, Function.update_self] at hq
      exact nomatch hq
    · exact ⟨hqp, by rwa [Function.update_of_ne hqp] at hq⟩
  refine ⟨fun {q o} hq => ?_, fun hq hw => V.bytes (hne hq).2 hw⟩
  obtain ⟨hqp, hq⟩ := hne hq
  have hmem := V.block hq
  simp only [List.mem_append, List.mem_cons] at hmem ⊢
  rcases hmem with hmem | heq | hmem
  · exact .inl hmem
  · exact absurd ((congrArg Block.base heq).trans hp) hqp
  · exact .inr hmem

/-- A byte within one block is in no other, so a store changes one byte of one object. -/
theorem Represents.write {i : ℕ} (V : Represents st bs m) (hS : Separate Given) (G : Given bs m a)
    (hp : st p = some o) (hi : i < o.length) (v : BitVec 8) :
    Represents (Function.update st p (some (o.set i (some v)))) bs
      (Function.update m (p + BitVec.ofNat 32 i) v) := by
  have hb := V.block hp
  have hbound : o.length ≤ 2 ^ 32 := hS.bounded G _ hb
  have hin : Block.Within ⟨p, o.length⟩ (p + BitVec.ofNat 32 i) := Block.within_offset hi hbound
  constructor
  case block =>
    intro q o' hq
    by_cases hqp : q = p
    · subst hqp
      rw [Function.update_self] at hq
      obtain rfl := Option.some.inj hq
      rwa [List.length_set]
    · rw [Function.update_of_ne hqp] at hq
      exact V.block hq
  case bytes =>
    intro q o' j w hq hw
    by_cases hqp : q = p
    · subst hqp
      rw [Function.update_self] at hq
      obtain rfl := Option.some.inj hq
      by_cases hji : j = i
      · subst hji
        rw [List.getElem?_set_self hi] at hw
        rw [Function.update_self]
        exact Option.some.inj (Option.some.inj hw)
      · rw [List.getElem?_set_ne (Ne.symm hji)] at hw
        have hj := getElem?_lt hw
        rw [Function.update_of_ne fun heq => hji (offset_inj q (by omega) (by omega) heq)]
        exact V.bytes hp hw
    · rw [Function.update_of_ne hqp] at hq
      have hc := V.block hq
      have hout : ¬ Block.Within ⟨q, o'.length⟩ (p + BitVec.ofNat 32 i) := by
        have hne : (⟨p, o.length⟩ : Block) ≠ ⟨q, o'.length⟩ := fun heq =>
          hqp (congrArg Block.base heq).symm
        have hsymm : Std.Symm fun b c : Block => ∀ x, b.Within x → ¬ c.Within x :=
          ⟨fun _ _ h x hc hb => h x hb hc⟩
        exact (hS.disjoint G).forall hb hc hne _ hin
      have hin' : Block.Within ⟨q, o'.length⟩ (q + BitVec.ofNat 32 j) :=
        Block.within_offset (getElem?_lt hw) (hS.bounded G _ hc)
      have hother : q + BitVec.ofNat 32 j ≠ p + BitVec.ofNat 32 i := fun heq => hout (heq ▸ hin')
      rw [Function.update_of_ne hother]
      exact V.bytes hq hw

/-- One call: the answer is one that the store gives, and the store goes along. -/
theorem step_explained {e : Event κ} (hS : Separate Given)
    (hA : ∀ k, R.Allowed k → Serves (H.alloc k) (R.len k) Given)
    (hF : TakesBack H.release Given) (G : Given bs m a) (V : Represents st bs m)
    (hs : H.Step m a e m' a') (hper : st.Permits R e) :
    st.Explains e ∧ ∃ cs, Given cs m' a' ∧ Represents (st.next R e) cs m' := by
  cases hs with
  | @alloc k p _ _ _ _ h =>
    have hV := V.same hS G ((hA k hper).keeps G h)
    by_cases hp : p = 0
    · subst hp
      refine ⟨.inl rfl, bs, (hA k hper).refuse G h, ?_⟩
      rwa [Store.next, if_pos rfl]
    · have G' := (hA k hper).serve G h hp
      have hnew := (List.nodup_cons.mp (hS.nodup G')).1
      refine ⟨.inr ?_, _, G', ?_⟩
      · by_contra hne
        obtain ⟨o, ho⟩ := Option.ne_none_iff_exists'.mp hne
        exact hnew (List.mem_map.mpr ⟨_, V.block ho, rfl⟩)
      · rw [Store.next, if_neg hp]
        exact hV.alloc (R.len k)
  | @free p _ _ _ _ h =>
    refine ⟨trivial, ?_⟩
    rw [Store.next]
    by_cases hp : p = 0
    · subst hp
      obtain ⟨G', hsame⟩ := hF.nothing G h
      have hnone : st 0 = none := by
        by_contra hne
        obtain ⟨o, ho⟩ := Option.ne_none_iff_exists'.mp hne
        exact hS.ne_zero G _ (V.block ho) rfl
      rw [← hnone, Function.update_eq_self]
      exact ⟨bs, G', V.same hS G hsame⟩
    · obtain ⟨o, ho⟩ := hper.resolve_left hp
      obtain ⟨bs₁, bs₂, rfl⟩ := List.append_of_mem (V.block ho)
      obtain ⟨G', hsame⟩ := hF.block G h
      have V' := V.free rfl
      refine ⟨_, G', V'.block, fun {q o' i w} hq hw => ?_⟩
      have hc := V'.block hq
      have hc' : (⟨q, o'.length⟩ : Block) ∈ bs₁ ++ ⟨p, o.length⟩ :: bs₂ := by
        simp only [List.mem_append, List.mem_cons] at hc ⊢
        exact hc.imp_right .inr
      rw [hsame _ hc _ (Block.within_offset (b := ⟨q, o'.length⟩) (getElem?_lt hw)
        (hS.bounded G _ hc'))]
      exact V'.bytes hq hw
  | write p i v =>
    obtain ⟨o, ho, hi⟩ := hper
    refine ⟨trivial, bs, ?_, ?_⟩
    · apply hS.store G
      intro x hx
      apply Function.update_of_ne
      rintro rfl
      exact hx _ (V.block ho) (Block.within_offset (b := ⟨p, o.length⟩) hi
        (hS.bounded G _ (V.block ho)))
    · rw [Store.next, ho, Option.map_some]
      exact V.write hS G ho hi v
  | read h => exact ⟨fun o w ho hw => h ▸ V.bytes ho hw, bs, G, V⟩

/-- A run of a program that keeps to its objects is one that the store explains. -/
theorem run_explained {es : List (Event κ)} (hS : Separate Given)
    (hA : ∀ k, R.Allowed k → Serves (H.alloc k) (R.len k) Given)
    (hF : TakesBack H.release Given) (G : Given bs m a) (V : Represents st bs m)
    (hr : H.Run m a es m' a') (hper : st.Along R (Store.Permits R) es) :
    st.Along R Store.Explains es ∧
      ∃ cs, Given cs m' a' ∧ Represents (st.after R es) cs m' := by
  induction hr generalizing st bs with
  | nil m a => exact ⟨trivial, bs, G, V⟩
  | cons hs hr ih =>
    obtain ⟨hper₁, hper₂⟩ := hper
    obtain ⟨hex, cs, G', V'⟩ := step_explained hS hA hF G V hs hper₁
    obtain ⟨hrest, hend⟩ := ih G' V' hper₂
    exact ⟨⟨hex, hrest⟩, hend⟩

end ObjectStores
