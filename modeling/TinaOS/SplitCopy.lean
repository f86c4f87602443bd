import TinaOS.Strdup
import TinaOS.Strsep

/-!
# A copy cut into tokens

`strsep` writes into the string that it cuts, so a program that still needs the string cuts a copy
made by `strdup` and frees it afterwards. Here the three work together: the tokens are the segments
of the string, and afterwards the heap is as sound as before and all memory in use is as it was.
-/

namespace TinaOS.Malloc

open ByteMemory Arenas Allocators LinkedRing Strings Strsep

variable {fl : Ptr} {answer : SbrkLog → BitVec 32 → Ptr} {s : Machine} {rest : List Ptr} {A : Arena}
  {h h' : Heap SbrkLog} {m : Mem} {r x source delimiter : Ptr} {cs ds : List Byte} {fuel : ℕ}

/-- A delimiter string, in memory that is used. -/
structure Delimiters (answer : SbrkLog → BitVec 32 → Ptr) (s : Machine) (delimiter : Ptr)
    (ds : List Byte) (nbytes : BitVec 32) : Prop where
  stands : Stands s.heap.mem delimiter ds
  used : ∀ j ≤ ds.length, Used answer s nbytes (delimiter + BitVec.ofNat 32 j)

/-- `free` writes only into headers that there were before. -/
theorem Sound.free_kept {live : List Ptr} (S : Sound fl ⟨h, r :: live⟩ rest A)
    (hf : free fuel r h = some h') (hx : ¬ HeaderByte ⟨h, r :: live⟩ x) : h'.mem x = h.mem x := by
  have hheader : r - 8 ∈ (r :: live).map headerOf := List.mem_cons_self
  have hr : r ≠ 0 := fun h0 => S.zero_notMem (h0 ▸ List.mem_cons_self)
  obtain ⟨-, -, ws, -, -, -, -, F, -, hloc⟩ := free_spec S.represents hr hheader hf
  apply F.outside x
  intro w hw
  by_contra hlt
  have hin : (x - w).toNat < 4 := by omega
  apply hx
  rcases hloc w hw with ⟨p, hp, hwp⟩ | hwr
  · exact ⟨p, .inl (S.freeNode hp), hwp.byte hin⟩
  · exact ⟨r - 8, .inr hheader, hwr.byte hin⟩

/-- A used byte lies outside the copy, which leaves it as it is. -/
theorem Used.copied (hx : Used answer s (roomFor cs) x) (S : Sound fl s rest A)
    (H : Source answer s source cs) (hg : Grows fl answer s.heap.sbrk (roomFor cs))
    (hd : strdup (oracle answer) fuel source s.heap = some (r, h')) (hr : r ≠ 0) :
    cs.length + 1 ≤ (x - r).toNat ∧ h'.mem x = s.heap.mem x ∧ ¬ HeaderByte ⟨h', r :: s.live⟩ x := by
  obtain ⟨h₁, hm, rfl⟩ := H.copied S hg hd hr
  obtain ⟨⟨rest', A', S₁⟩, -⟩ := S.malloc_block hg hm hr
  have hroom := H.room S hg hm hr
  obtain ⟨hkept, hcells⟩ := hx.kept S hg hm hr
  have hpayload : Payload fl h₁.mem ⟨r, cs.length + 1⟩ :=
    S₁.represents.tiling.payload S₁.represents.below List.mem_cons_self hroom
  have hout : cs.length + 1 ≤ (x - r).toNat := Nat.not_lt.mp fun hin => hcells (hpayload.mem_cells hin)
  obtain ⟨-, -, hheaders⟩ := S₁.inPayload hroom fun y hy =>
    writeBytes_outside (fun k => h₁.mem (source + BitVec.ofNat 32 k)) hy
  refine ⟨hout, ?_, fun hheader => hx.clear S hg hm hr ((hheaders x).mp hheader)⟩
  exact (writeBytes_outside (fun k => h₁.mem (source + BitVec.ofNat 32 k)) hout).trans hkept

/-- The tokens of a copy are the segments of the string; once the copy is cut and freed, the heap is
sound again with the live blocks from before, and no byte in use has changed. -/
theorem splits_copy (hs : Granting fl answer) (S : Sound fl s rest A) (H : Source answer s source cs)
    (D : Delimiters answer s delimiter ds (roomFor cs)) (hcan : CanServe answer s (roomFor cs)) :
    ∃ fuel r h₁ σ h₂, strdup (oracle answer) fuel source s.heap = some (r, h₁) ∧
      (∃ calls, tokens calls delimiter calls ⟨h₁.mem, [], []⟩ r =
        some (starts r (segments ds cs), σ, 0)) ∧
      List.Forall₂ (Stands σ.mem) (starts r (segments ds cs)) (segments ds cs) ∧
      (∃ fuel', free fuel' r { h₁ with mem := σ.mem } = some h₂) ∧
      (∃ rest' A', Sound fl ⟨h₂, s.live⟩ rest' A') ∧
      ∀ x, Used answer s (roomFor cs) x → h₂.mem x = s.heap.mem x := by
  have hg := hs.grows s.heap.sbrk (roomFor cs)
  have hlen := H.length
  obtain ⟨fuel, r, h₁, hd⟩ := strdup_returns H hs S
  have hr : r ≠ 0 := fun h0 => (H.refused_iff S hg hd).mp h0 hcan
  obtain ⟨⟨rest₁, A₁, S₁⟩, hroom, hapart, hcopy, -, -⟩ := H.served S hg hd hr
  -- the copy is ready to be cut
  let budget := max ds.length (cs.length + 1) + 1
  have hready : Ready (fun _ => True) (fun _ => True) budget delimiter ds cs r h₁.mem := by
    constructor
    case nonnull => exact hr
    case string => exact hcopy
    case delimiter => exact D.stands.congr fun j hj => ((D.used j hj).copied S H hg hd hr).2.1
    case nowrap =>
      have hpayload : Payload fl h₁.mem ⟨r, cs.length + 1⟩ :=
        S₁.represents.tiling.payload S₁.represents.below List.mem_cons_self hroom
      have hbase := hpayload.base_toNat
      have hbound := hpayload.bound
      simp only at hbase hbound
      omega
    case budget => omega
    case apart =>
      intro k hk j hj heq
      have hout := ((D.used j hj).copied S H hg hd hr).1
      rw [heq, offset_sub r (by omega)] at hout
      omega
    case loads => exact fun _ _ => trivial
    case loads' => exact fun _ _ => trivial
    case stores => exact fun _ _ _ => trivial
  have hcalls : (segments ds cs).length < budget := by
    rw [length_segments]
    have hle := List.countP_le_length (p := (· ∈ ds)) (l := cs)
    omega
  obtain ⟨σ, htokens, hstands, hcut, -⟩ :=
    tokens_spec (σ := ⟨h₁.mem, [], []⟩) hready hcalls (by simp [Strsep.Confined])
  have hsame : ∀ x, cs.length + 1 ≤ (x - r).toNat → σ.mem x = h₁.mem x := by
    intro x hx
    apply hcut.outside x
    rintro k hk rfl
    rw [offset_sub r (by omega)] at hx
    omega
  -- the cut copy is still a live block of a sound heap
  obtain ⟨S₂, -, hheaders⟩ := S₁.inPayload hroom hsame
  have hlive : r - 8 ∈ (r :: s.live).map headerOf := List.mem_cons_self
  obtain ⟨h₂, hf⟩ := free_returns S₂.represents hlive (Nat.le_refl _)
  have hexec : exec answer (rest₁.length + 1) ⟨{ h₁ with mem := σ.mem }, r :: s.live⟩ (.free r) =
      some ⟨h₂, s.live⟩ := by
    rw [exec, hf, Option.map_some, List.erase_cons_head]
  obtain ⟨rest₂, A₂, -, S₃⟩ := S₂.call_free (.inr List.mem_cons_self) hexec
  refine ⟨fuel, r, h₁, σ, h₂, hd, ⟨budget, htokens⟩, hstands, ⟨_, hf⟩, ⟨rest₂, A₂, S₃⟩, ?_⟩
  intro x hx
  obtain ⟨hout, hcopied, hclear⟩ := hx.copied S H hg hd hr
  have hfreed := S₂.free_kept hf fun hheader => hclear ((hheaders x).mp hheader)
  exact hfreed.trans ((hsame x hout).trans hcopied)

/-- The machine at boot with the string `,a` at `0x100` and behind it the delimiter string `,`. -/
def commaMachine : Machine where
  heap := { bootMachine.heap with
    mem := writeBytes bootMachine.heap.mem 0x100 5 fun k =>
      [ascii ',', ascii 'a', 0, ascii ',', 0].getD k 0 }
  live := []

theorem boot_commaMachine : Boot 16 commaMachine :=
  ⟨⟨by decide, by decide, by decide, rfl, rfl⟩, rfl⟩

theorem used_commaMachine {nbytes : BitVec 32} (hn : growth (units nbytes) * 8 = 8192)
    (hg : (growth (units nbytes)).toNat = 1024) (hx : 256 ≤ x.toNat ∧ x.toNat < 4096) :
    Used onceAnswer commaMachine nbytes x := by
  refine boot_commaMachine.used ?_ (.inr ?_)
  · simp only [BitVec.toNat_sub, BitVec.reduceToNat]
    omega
  · have hanswer : (onceAnswer [] 8192).toNat = 4096 := by decide
    rw [hn, hg, hanswer, Extent.mem_cells]
    simp only
    omega

theorem splits_copy_commaMachine : ∃ fuel r h₁ σ h₂,
    strdup (oracle onceAnswer) fuel 0x100 commaMachine.heap = some (r, h₁) ∧
    (∃ calls, tokens calls 0x103 calls ⟨h₁.mem, [], []⟩ r = some ([r, r + 1], σ, 0)) ∧
    Stands σ.mem r [] ∧ Stands σ.mem (r + 1) [ascii 'a'] ∧
    (∃ fuel', free fuel' r { h₁ with mem := σ.mem } = some h₂) ∧
    ∀ x : Ptr, 256 ≤ x.toNat ∧ x.toNat < 4096 → h₂.mem x = commaMachine.heap.mem x := by
  have hgrowth : growth (units (roomFor [ascii ',', ascii 'a'])) * 8 = 8192 ∧
      (growth (units (roomFor [ascii ',', ascii 'a']))).toNat = 1024 := by decide
  have hused : ∀ {x : Ptr}, 256 ≤ x.toNat ∧ x.toNat < 4096 →
      Used onceAnswer commaMachine (roomFor [ascii ',', ascii 'a']) x :=
    used_commaMachine hgrowth.1 hgrowth.2
  have hbytes : ∀ k ≤ 2, commaMachine.heap.mem (0x100 + BitVec.ofNat 32 k) =
      [ascii ',', ascii 'a'].getD k 0 := by decide
  have hbytes' : ∀ k ≤ 1, commaMachine.heap.mem (0x103 + BitVec.ofNat 32 k) =
      [ascii ','].getD k 0 := by decide
  have H : Source onceAnswer commaMachine 0x100 [ascii ',', ascii 'a'] := by
    refine ⟨⟨hbytes, by decide⟩, by decide, by decide, fun k hk => hused ?_⟩
    have hk' : k ≤ 2 := hk
    simp only [BitVec.toNat_add, BitVec.toNat_ofNat, BitVec.reduceToNat]
    omega
  have D : Delimiters onceAnswer commaMachine 0x103 [ascii ',']
      (roomFor [ascii ',', ascii 'a']) := by
    refine ⟨⟨hbytes', by decide⟩, fun k hk => hused ?_⟩
    have hk' : k ≤ 1 := hk
    simp only [BitVec.toNat_add, BitVec.toNat_ofNat, BitVec.reduceToNat]
    omega
  have hserve : CanServe onceAnswer commaMachine (roomFor [ascii ',', ascii 'a']) :=
    .inr (by decide)
  obtain ⟨fuel, r, h₁, σ, h₂, hd, htokens, hstands, hf, -, hkept⟩ :=
    splits_copy granting_onceAnswer (sound_boot boot_commaMachine) H D hserve
  refine ⟨fuel, r, h₁, σ, h₂, hd, htokens, ?_, ?_, hf, fun x hx => hkept x (hused hx)⟩
  · cases hstands with
    | cons hfirst _ => exact hfirst
  · cases hstands with
    | cons _ hrest =>
      cases hrest with
      | cons hsecond _ => exact hsecond

end TinaOS.Malloc
