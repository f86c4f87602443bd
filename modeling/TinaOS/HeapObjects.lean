import TinaOS.Library.ObjectStore
import TinaOS.AllocatorContract
import TinaOS.Calloc

/-!
# Objects in the kernel's heap

What a program sees that gets its memory from `malloc` and `calloc`, gives it back to `free`, and
stores and loads bytes of its own blocks: a store of objects, in every run.
-/

namespace TinaOS.Malloc

open ByteMemory Arenas Allocators LinkedRing ObjectStores

variable {fl p : Ptr} {answer : SbrkLog → BitVec 32 → Ptr} {m m' : Mem} {h h' : Heap SbrkLog}
  {bs cs : List Block} {b : Block}

theorem GivenOut.withMem (G : GivenOut fl bs m h) : GivenOut fl bs m { h with mem := m' } :=
  ⟨G.sound, G.room⟩

theorem GivenOut.payload (G : GivenOut fl bs m h) (hb : b ∈ bs) : Payload fl m b := by
  obtain ⟨⟨rest, A, S⟩, hroom⟩ := G
  exact S.represents.tiling.payload S.represents.below (headerOf_mem hb) (hroom b hb)

theorem GivenOut.free_enough (G : GivenOut fl bs m h) (hb : b ∈ bs) :
    ∃ h', free enough b.base { h with mem := m } = some h' := by
  obtain ⟨⟨rest, A, S⟩, -⟩ := G
  apply free_returns S.represents (headerOf_mem hb)
  have hlen := length_le_of_nodup S.represents.ring.nodup
  rw [List.length_cons] at hlen
  rw [enough]
  omega

theorem GivenOut.free (G : GivenOut fl (bs ++ b :: cs) m h) (ha : Fair fl answer)
    (hf : free enough b.base { h with mem := m } = some h') :
    GivenOut fl (bs ++ cs) h'.mem h' ∧ Same (bs ++ cs) m h'.mem := by
  have hsub : ∀ {c}, c ∈ bs ++ cs → c ∈ bs ++ b :: cs := by
    intro c hc
    simp only [List.mem_append, List.mem_cons] at hc ⊢
    exact hc.imp_right .inr
  have hpayload : ∀ c ∈ bs ++ cs, Payload fl m c := fun c hc => G.payload (hsub hc)
  obtain ⟨⟨rest, A, S⟩, hroom⟩ := G
  have hmem : b.base ∈ (bs ++ b :: cs).map Block.base := List.mem_map_of_mem (by simp)
  have herase : ((bs ++ b :: cs).map Block.base).erase b.base = (bs ++ cs).map Block.base := by
    have hnd := S.live_nodup
    simp only [List.map_append, List.map_cons] at hnd ⊢
    have hnot : b.base ∉ bs.map Block.base := fun hin =>
      (List.nodup_append.mp hnd).2.2 _ hin _ List.mem_cons_self rfl
    rw [List.erase_append_right _ hnot, List.erase_cons_head]
  have hexec : exec answer enough ⟨{ h with mem := m }, (bs ++ b :: cs).map Block.base⟩
      (.free b.base) = some ⟨h', (bs ++ cs).map Block.base⟩ := by
    rw [exec, hf, Option.map_some, herase]
  have hallowed : Call.Allowed ⟨{ h with mem := m }, (bs ++ b :: cs).map Block.base⟩
      (.free b.base) := .inr hmem
  obtain ⟨ws, C⟩ := S.call_confined ha hallowed hexec
  obtain ⟨rest', A', -, S'⟩ := S.call ha hallowed hexec
  refine ⟨⟨⟨rest', A', S'⟩, fun c hc => ?_⟩, fun c hc x hx => ?_⟩
  · rw [C.size_eq S (List.mem_map_of_mem (hsub hc)) (List.mem_map_of_mem hc)]
    exact hroom c (hsub hc)
  · exact C.block_eq (List.mem_map_of_mem (hsub hc)) (List.mem_map_of_mem hc)
      ((hpayload c hc).mem_cells hx)

inductive Request where
  | malloc (nbytes : BitVec 32)
  | calloc (number bytes : BitVec 32)

/-- The bytes that a request is for; a product is one of 32 bits. -/
def Request.bytes : Request → BitVec 32
  | .malloc nbytes => nbytes
  | .calloc number bytes => number * bytes

def Request.call (answer : SbrkLog → BitVec 32 → Ptr) : Request → Heap SbrkLog →
    Option (Except Trap (Ptr × Heap SbrkLog))
  | .malloc nbytes, h => (Malloc.malloc (oracle answer) enough nbytes h).map .ok
  | .calloc number bytes, h => Malloc.calloc (oracle answer) enough number bytes h

/-- The kernel's calls, on memory and on the variables that are not memory. -/
def kernelHeap (answer : SbrkLog → BitVec 32 → Ptr) : ObjectStores.Heap Request (Heap SbrkLog) where
  alloc k m h := match k.call answer { h with mem := m } with
    | some (.ok (r, h')) => (r, h'.mem, h')
    | _ => (0, m, h)
  release ptr m h := match free enough ptr { h with mem := m } with
    | none => (m, h)
    | some h' => (h'.mem, h')

/-- A `malloc` is for at most `2 ^ 31 - 16` bytes, and a `calloc` for none: any other ends in a
trap. -/
def Request.Allowed : Request → Prop
  | .malloc nbytes => nbytes.toNat ≤ 2 ^ 31 - 16
  | .calloc number bytes => number * bytes = 0

def requests : Requests Request where
  Allowed := Request.Allowed
  len k := k.bytes.toNat

theorem Request.Allowed.small {k : Request} (hk : k.Allowed) : k.bytes.toNat ≤ 2 ^ 31 - 16 := by
  cases k with
  | malloc nbytes => exact hk
  | calloc number bytes =>
    have hzero : number * bytes = 0 := hk
    rw [Request.bytes, hzero]
    decide

/-- An allowed request is served as a `malloc` of its bytes. -/
theorem Request.Allowed.call_eq {k : Request} (hk : k.Allowed)
    (hm : Malloc.malloc (oracle answer) enough k.bytes h = some (p, h')) :
    k.call answer h = some (.ok (p, h')) := by
  cases k with
  | malloc nbytes => exact congrArg (Option.map Except.ok) hm
  | calloc number bytes =>
    rw [Request.call, calloc_eq hm]
    exact congrArg some (if_pos hk)

theorem GivenOut.call_enough (G : GivenOut fl bs m h) (ha : Fair fl answer) {k : Request}
    (hk : k.Allowed) : ∃ r h', k.call answer { h with mem := m } = some (.ok (r, h')) := by
  obtain ⟨⟨rest, A, S⟩, -⟩ := G
  obtain ⟨r, h', hm⟩ := S.malloc_enough ha hk.small
  exact ⟨r, h', hk.call_eq hm⟩

theorem GivenOut.alloc_eq (G : GivenOut fl bs m h) (ha : Fair fl answer) {k : Request}
    (hk : k.Allowed) : (kernelHeap answer).alloc k m h = kernelMalloc answer k.bytes m h := by
  obtain ⟨⟨rest, A, S⟩, -⟩ := G
  obtain ⟨r, h', hm⟩ := S.malloc_enough ha hk.small
  simp only [kernelHeap, kernelMalloc, hk.call_eq hm, hm]

theorem separate_givenOut : Separate (GivenOut fl) := by
  constructor
  case ne_zero =>
    intro bs m h G b hb hz
    have hbase := (G.payload hb).base_toNat
    rw [hz] at hbase
    simp only [BitVec.reduceToNat] at hbase
    omega
  case nodup =>
    rintro bs m h ⟨⟨rest, A, S⟩, -⟩
    exact S.live_nodup
  case bounded =>
    intro bs m h G b hb
    have hroom := (G.payload hb).room
    have hbound := (G.payload hb).bound
    omega
  case disjoint => exact fun G => G.disjoint
  case store => exact fun G hm => G.store hm

theorem serves_request (ha : Honest fl answer) (k : Request) (hk : k.Allowed) :
    Serves ((kernelHeap answer).alloc k) k.bytes.toNat (GivenOut fl) := by
  have V := serves_of_contract (kernelMalloc_contract ha) hk.small
  constructor
  case refuse =>
    intro bs m h m' h' G hcall
    exact V.refuse G ((G.alloc_eq ha.fair hk).symm.trans hcall)
  case serve =>
    intro bs m h p m' h' G hcall hp
    exact V.serve G ((G.alloc_eq ha.fair hk).symm.trans hcall) hp
  case keeps =>
    intro bs m h p m' h' G hcall
    exact V.keeps G ((G.alloc_eq ha.fair hk).symm.trans hcall)

theorem takesBack_free (ha : Honest fl answer) :
    TakesBack (kernelHeap answer).release (GivenOut fl) := by
  constructor
  case nothing =>
    intro bs m h m' h' G hcall
    simp only [kernelHeap, free_zero] at hcall
    obtain ⟨rfl, rfl⟩ := hcall
    exact ⟨G.withMem, fun _ _ _ _ => rfl⟩
  case block =>
    intro bs cs b m h m' h' G hcall
    obtain ⟨h₁, hf⟩ := G.free_enough (b := b) (by simp)
    simp only [kernelHeap, hf] at hcall
    obtain ⟨rfl, rfl⟩ := hcall
    exact G.free ha.fair hf

/-- Every run of calls, stores and loads of a program that keeps to its own objects is one of an
object store, and at its end every call returns. -/
theorem heap_is_store (ha : Honest fl answer) (hb : Boot fl ⟨h, []⟩) {es : List (Event Request)}
    (hr : (kernelHeap answer).Run h.mem h es m' h')
    (hper : Store.empty.Along requests (Store.Permits requests) es) :
    Store.empty.Along requests Store.Explains es ∧
      (∀ k : Request, k.Allowed →
        ∃ r h'', k.call answer { h' with mem := m' } = some (.ok (r, h''))) ∧
      ∀ p, p = 0 ∨ (∃ o, Store.empty.after requests es p = some o) →
        ∃ h'', free enough p { h' with mem := m' } = some h'' := by
  obtain ⟨hex, cs, G', V⟩ := run_explained separate_givenOut (serves_request ha)
    (takesBack_free ha) (givenOut_boot hb) (represents_empty h.mem) hr hper
  refine ⟨hex, fun k hk => G'.call_enough ha.fair hk, fun p hp => ?_⟩
  rcases hp with rfl | ⟨o, ho⟩
  · exact ⟨_, free_zero enough _⟩
  · exact G'.free_enough (V.block ho)

/-- Two objects, of which one has no bytes; the other is written, read and given back. -/
def blockUse : List (Event Request) :=
  [.alloc (.malloc 16) 12272, .write 12272 3 7, .alloc (.calloc 0 5) 12264, .read 12272 3 7,
    .free 12264, .free 12272]

theorem heap_is_store_blockUse :
    ∃ m' h', (kernelHeap onceAnswer).Run bootMachine.heap.mem bootMachine.heap blockUse m' h' ∧
      Store.empty.Along requests Store.Explains blockUse := by
  have hvalues : ∀ a b, (kernelHeap onceAnswer).alloc (.malloc 16) bootMachine.heap.mem
        bootMachine.heap = a →
      (kernelHeap onceAnswer).alloc (.calloc 0 5)
        (Function.update a.2.1 (12272 + BitVec.ofNat 32 3) 7) a.2.2 = b →
      a.1 = 12272 ∧ b.1 = 12264 ∧ b.2.1 (12272 + BitVec.ofNat 32 3) = 7 := by
    rintro _ _ rfl rfl
    decide +kernel
  rcases hcall : (kernelHeap onceAnswer).alloc (.malloc 16) bootMachine.heap.mem
    bootMachine.heap with ⟨p, m₁, h₁⟩
  rcases hcall' : (kernelHeap onceAnswer).alloc (.calloc 0 5)
    (Function.update m₁ (12272 + BitVec.ofNat 32 3) 7) h₁ with ⟨q, m₂, h₂⟩
  obtain ⟨rfl, rfl, hread⟩ := hvalues _ _ hcall hcall'
  rcases hfree : (kernelHeap onceAnswer).release 12264 m₂ h₂ with ⟨m₃, h₃⟩
  rcases hfree' : (kernelHeap onceAnswer).release 12272 m₃ h₃ with ⟨m₄, h₄⟩
  have hr : (kernelHeap onceAnswer).Run bootMachine.heap.mem bootMachine.heap blockUse m₄ h₄ :=
    .cons (.alloc hcall) <| .cons (.write _ _ _ _ _) <| .cons (.alloc hcall') <|
      .cons (.read hread) <| .cons (.free hfree) <| .cons (.free hfree') <| .nil _ _
  refine ⟨_, _, hr, (heap_is_store honest_onceAnswer boot_bootMachine hr ?_).1⟩
  have hsmall : Request.Allowed (.malloc 16) := show (16 : BitVec 32).toNat ≤ _ by decide
  have hnone : Request.Allowed (.calloc 0 5) := show (0 : BitVec 32) * 5 = 0 by decide
  exact ⟨hsmall, ⟨_, rfl, by decide⟩, hnone, ⟨_, rfl, by decide⟩, .inr ⟨_, rfl⟩, .inr ⟨_, rfl⟩,
    trivial⟩

end TinaOS.Malloc
