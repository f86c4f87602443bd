import TinaOS.AtaIdentify
import TinaOS.FormatEnd
import TinaOS.Strsep

/-!
# The name of a drive

`get_drive_name` copies the 40 bytes of the model name to a block of 40 bytes, without a
terminator. The name is printed twice, as a format and as an argument of `%s`, and both loops of
`cprintf` run on until they read a 0.
-/

namespace TinaOS.Ata

open ByteMemory Allocators Stdio
open Strings (ascii CString)
open Strsep (Stands)

variable {α δ : Type*}

/-- `get_drive_name` for a drive that is there, up to where it prints the name. -/
def driveName (alloc : Allocator α) (s : Driver α δ) : Ptr × Driver α δ :=
  let (driveBuffer, s) := s.malloc alloc 40
  (driveBuffer, { s with mem := copyName driveBuffer s.mem })

theorem getDriveName_eq (alloc : Allocator α) (P : Ports δ) (fuel : ℕ) (bus drive : Byte)
    (s : Driver α δ) : getDriveName alloc P fuel bus drive s =
      (identifyDrive P fuel bus drive (s.mem, s.ports)).map fun (found, m, d) =>
        if found ≠ 0 then driveName alloc { s with mem := m, ports := d }
        else (NO_DRIVE, { s with mem := m, ports := d }) := by
  cases h : identifyDrive P fuel bus drive (s.mem, s.ports) with
  | none => simp only [getDriveName, h, Option.map_none]
  | some out =>
    obtain ⟨found, m, d⟩ := out
    simp only [getDriveName, h, Option.map_some, driveName]
    split_ifs
    · rfl
    · rfl

/-- Byte `k` of the name: the two bytes of each word of the image change places. -/
def nameByte (m : Mem) (k : ℕ) : Byte :=
  m (ataBuffer + BitVec.ofNat 32 (if k % 2 = 0 then ATA_MODEL + k + 1 else ATA_MODEL + k - 1))

/-- The 40 bytes of the name, with all that follows a terminator. -/
def nameBytes (m : Mem) : List Byte := (List.range 40).map (nameByte m)

/-- The loop of `cprintf` over a format at `p`, with the addresses it has read, the latest first; no
code reads these. The call has no arguments, so the first `va_arg` reads what is not there. -/
def formatStep (m : Mem) : Ptr × List Ptr → (Ptr × List Ptr) ⊕ Except Halt (List Ptr)
  | (p, reads) =>
    let reads := p :: reads
    if m p = 0 then .inr (.ok reads)
    else if m p ≠ ascii '%' then .inl (p + 1, reads)
    else
      let p := p + 1
      let reads := p :: reads
      if takes .cprintf (m p) = none then .inl (p + 1, reads) else .inr (.error .badArgument)

/-- The loop of `%s` over its argument. -/
def argumentStep (m : Mem) : Ptr × List Ptr → (Ptr × List Ptr) ⊕ List Ptr
  | (sval, reads) =>
    let reads := sval :: reads
    if m sval ≠ 0 then .inl (sval + 1, reads) else .inr reads

/-- The loop comes to the end of the format, and has read in `R` alone. -/
def FormatInside (R : Ptr → Prop) : Except Halt (List Ptr) → Prop
  | .ok reads => ∀ a ∈ reads, R a
  | .error _ => False

/-- The block at `p` is a string, its characters those of the name, and the calls that print it read
in the block alone; what else is stored between the two does not matter. -/
structure Printable (m : Mem) (p : Ptr) (name : List Byte) : Prop where
  string : ∃ cs, cs.length < 40 ∧ Stands m p cs ∧ cs = name.takeWhile (· ≠ 0)
  format : ∃ fuel r, BoundedLoop.run (formatStep m) fuel (p, []) = some r ∧
    FormatInside (Block.Within ⟨p, 40⟩) r
  argument : ∀ m', (∀ x, Block.Within ⟨p, 40⟩ x → m' x = m x) →
    ∃ fuel reads, BoundedLoop.run (argumentStep m') fuel (p, []) = some reads ∧
      ∀ a ∈ reads, Block.Within ⟨p, 40⟩ a

/-- Some 0 ends a format in which no directive takes an argument and no `%` is left open. -/
def EndsFormat (bs : List Byte) : Prop :=
  ∃ fmt rest, bs = fmt ++ 0 :: rest ∧ Complete fmt ∧ ∀ d ∈ directives fmt, takes .cprintf d = none

/-- The request for the block is met: the block lies apart from the image, which stays as it is. -/
structure Granted (alloc : Allocator α) (s : Driver α δ) : Prop where
  nonzero : (s.malloc alloc 40).1 ≠ 0
  apart : Apart ataBuffer 512 (s.malloc alloc 40).1 40
  image : ∀ k < 512, (s.malloc alloc 40).2.mem (ataBuffer + BitVec.ofNat 32 k) =
    s.mem (ataBuffer + BitVec.ofNat 32 k)

variable {m m' : Mem} {p : Ptr} {c d : Byte} {bs fmt rest : List Byte} {reads : List Ptr}
  {R : Ptr → Prop} {fuel : ℕ} {alloc : Allocator α} {s : Driver α δ}

theorem nameByte_congr (h : ∀ k < 512, m' (ataBuffer + BitVec.ofNat 32 k) =
    m (ataBuffer + BitVec.ofNat 32 k)) {k : ℕ} (hk : k < 40) : nameByte m' k = nameByte m k := by
  simp only [nameByte, ATA_MODEL]
  apply h
  split_ifs
  · omega
  · omega

/-- The first rounds of the loop write the first bytes of the name. -/
theorem copyName_rounds (h : Apart ataBuffer 512 p 40) (m : Mem) {n : ℕ} (hn : n ≤ 20) :
    (List.range n).foldl (fun m i =>
      let idx := 2 * i
      let m := Function.update m (p + BitVec.ofNat 32 idx)
        (m (ataBuffer + BitVec.ofNat 32 (ATA_MODEL + idx + 1)))
      Function.update m (p + BitVec.ofNat 32 (idx + 1))
        (m (ataBuffer + BitVec.ofNat 32 (ATA_MODEL + idx)))) m =
    writeBytes m p (2 * n) (nameByte m) := by
  induction n with
  | zero => rfl
  | succ n ih =>
    have himage : ∀ {l k : ℕ}, l ≤ 40 → k < 512 →
        writeBytes m p l (nameByte m) (ataBuffer + BitVec.ofNat 32 k) =
          m (ataBuffer + BitVec.ofNat 32 k) := fun hl hk =>
      writeBytes_outside _ (Nat.le_trans hl (h.symm.outside hk))
    have heven : nameByte m (2 * n) = m (ataBuffer + BitVec.ofNat 32 (ATA_MODEL + 2 * n + 1)) := by
      rw [nameByte, if_pos (by omega)]
    have hodd : nameByte m (2 * n + 1) = m (ataBuffer + BitVec.ofNat 32 (ATA_MODEL + 2 * n)) := by
      rw [nameByte, if_neg (by omega)]
      rfl
    have hmodel : ATA_MODEL + 2 * n + 1 < 512 := by
      rw [ATA_MODEL]
      omega
    rw [List.range_succ, List.foldl_append, ih (by omega)]
    simp only [List.foldl_cons, List.foldl_nil]
    rw [himage (by omega) hmodel, ← heven, writeBytes_succ _ _ _ (by omega),
      himage (by omega) (by omega), ← hodd, writeBytes_succ _ _ _ (by omega)]
    rfl

/-- The loop writes the name to a block that is apart from the image. -/
theorem copyName_eq (h : Apart ataBuffer 512 p 40) (m : Mem) :
    copyName p m = writeBytes m p 40 (nameByte m) := copyName_rounds h m (Nat.le_refl 20)

/-- The bytes `bs` lie at `p`. -/
def Holds (m : Mem) (p : Ptr) (bs : List Byte) : Prop :=
  ∀ k (hk : k < bs.length), m (p + BitVec.ofNat 32 k) = bs[k]

theorem Holds.head (h : Holds m p (c :: bs)) : m p = c := by
  simpa using h 0 (Nat.succ_pos _)

theorem Holds.tail (h : Holds m p (c :: bs)) : Holds m (p + 1) bs := by
  intro k hk
  rw [next_offset]
  exact h (k + 1) (Nat.succ_lt_succ hk)

/-- Bytes up to a 0 are a string. -/
theorem Holds.stands (h : Holds m p (fmt ++ 0 :: rest)) (h0 : 0 ∉ fmt) : Stands m p fmt := by
  refine ⟨fun k hk => ?_, h0⟩
  have hbyte := h k (by simp; omega)
  rcases Nat.lt_or_eq_of_le hk with hlt | rfl
  · rw [List.getElem_append_left hlt] at hbyte
    rw [List.getD_eq_getElem _ _ hlt]
    exact hbyte
  · rw [List.getD_eq_default _ _ (Nat.le_refl _)]
    simpa using hbyte

theorem not_endsFormat_nil : ¬ EndsFormat [] := by
  rintro ⟨fmt, rest, h, -⟩
  simp at h

theorem endsFormat_zero : EndsFormat (0 :: bs) := ⟨[], bs, rfl, trivial, List.forall_mem_nil _⟩

theorem endsFormat_char (hc : c ≠ ascii '%') (h0 : c ≠ 0) : EndsFormat (c :: bs) ↔ EndsFormat bs := by
  constructor
  · rintro ⟨fmt, rest, h, hcomplete, hd⟩
    cases fmt with
    | nil => exact absurd (List.cons.inj h).1 h0
    | cons c' fmt =>
      obtain ⟨rfl, hrest⟩ := List.cons.inj h
      rw [complete_char hc] at hcomplete
      rw [directives_char hc] at hd
      exact ⟨fmt, rest, hrest, hcomplete, hd⟩
  · rintro ⟨fmt, rest, rfl, hcomplete, hd⟩
    refine ⟨c :: fmt, rest, rfl, (complete_char hc).mpr hcomplete, ?_⟩
    rwa [directives_char hc]

theorem not_endsFormat_percent : ¬ EndsFormat [ascii '%'] := by
  rintro ⟨fmt, rest, h, -⟩
  cases fmt with
  | nil => exact absurd (List.cons.inj h).1 (by decide)
  | cons c fmt => simp at h

theorem endsFormat_percent : EndsFormat (ascii '%' :: d :: bs) ↔
    takes .cprintf d = none ∧ EndsFormat bs := by
  constructor
  · rintro ⟨fmt, rest, h, hcomplete, hd⟩
    match fmt with
    | [] => exact absurd (List.cons.inj h).1 (by decide)
    | [c] =>
      obtain ⟨rfl, -⟩ := List.cons.inj h
      exact absurd hcomplete not_complete_percent
    | c :: d' :: fmt =>
      obtain ⟨rfl, htail⟩ := List.cons.inj h
      obtain ⟨rfl, hrest⟩ := List.cons.inj htail
      rw [directives_percent, List.forall_mem_cons] at hd
      exact ⟨hd.1, fmt, rest, hrest, complete_percent.mp hcomplete, hd.2⟩
  · rintro ⟨htakes, fmt, rest, rfl, hcomplete, hd⟩
    refine ⟨ascii '%' :: d :: fmt, rest, rfl, complete_percent.mpr hcomplete, ?_⟩
    rw [directives_percent, List.forall_mem_cons]
    exact ⟨htakes, hd⟩

theorem EndsFormat.zero_mem (h : EndsFormat bs) : 0 ∈ bs := by
  obtain ⟨fmt, rest, rfl, -⟩ := h
  simp

theorem formatStep_end (h : m p = 0) : formatStep m (p, reads) = .inr (.ok (p :: reads)) := if_pos h

theorem formatStep_char (h : m p = c) (hc : c ≠ ascii '%') (h0 : c ≠ 0) :
    formatStep m (p, reads) = .inl (p + 1, p :: reads) := by
  subst h
  exact (if_neg h0).trans (if_pos hc)

theorem formatStep_percent (reads : List Ptr) (h : m p = ascii '%') (hd : m (p + 1) = d) :
    formatStep m (p, reads) =
      if takes .cprintf d = none then .inl (p + 1 + 1, (p + 1) :: p :: reads)
      else .inr (.error .badArgument) := by
  subst hd
  have h0 : m p ≠ 0 := by
    rw [h]
    decide
  exact (if_neg h0).trans (if_neg (not_not.mpr h))

/-- What was read stays among the reads. -/
theorem FormatInside.of_run {r : Except Halt (List Ptr)}
    (h : BoundedLoop.run (formatStep m) fuel (p, reads) = some r) (hr : FormatInside R r) :
    R p ∧ ∀ a ∈ reads, R a := by
  induction fuel generalizing p reads with
  | zero => cases h
  | succ fuel ih =>
    by_cases h0 : m p = 0
    · rw [BoundedLoop.run_of_inr (formatStep_end h0)] at h
      obtain rfl := Option.some.inj h
      exact List.forall_mem_cons.mp hr
    · by_cases hc : m p = ascii '%'
      · have hstep := formatStep_percent reads hc rfl
        split_ifs at hstep with htakes
        · rw [BoundedLoop.run_of_inl hstep] at h
          obtain ⟨-, hin⟩ := ih h
          exact List.forall_mem_cons.mp (List.forall_mem_cons.mp hin).2
        · rw [BoundedLoop.run_of_inr hstep] at h
          obtain rfl := Option.some.inj h
          exact hr.elim
      · rw [BoundedLoop.run_of_inl (formatStep_char rfl hc h0)] at h
        obtain ⟨-, hin⟩ := ih h
        exact List.forall_mem_cons.mp hin

/-- The loop passes a `%` exactly if the directive takes no argument. -/
theorem exists_run_percent (h : m p = ascii '%') (hd : m (p + 1) = d) :
    (∃ fuel r, BoundedLoop.run (formatStep m) fuel (p, reads) = some r ∧ FormatInside R r) ↔
      takes .cprintf d = none ∧ ∃ fuel r, BoundedLoop.run (formatStep m) fuel
        (p + 1 + 1, (p + 1) :: p :: reads) = some r ∧ FormatInside R r := by
  have hstep := formatStep_percent reads h hd
  split_ifs at hstep with htakes
  · rw [BoundedLoop.exists_run_of_inl hstep, and_iff_right htakes]
  · rw [BoundedLoop.exists_run_of_inr hstep]
    exact iff_of_false id fun hnone => htakes hnone.1

/-- The loop reads inside the bytes at `p` exactly if these end a format. -/
theorem run_formatStep_iff (h : Holds m p bs) (hin : ∀ k < bs.length, R (p + BitVec.ofNat 32 k))
    (hend : ¬ R (p + BitVec.ofNat 32 bs.length)) (hreads : ∀ a ∈ reads, R a) :
    (∃ fuel r, BoundedLoop.run (formatStep m) fuel (p, reads) = some r ∧ FormatInside R r) ↔
      EndsFormat bs := by
  induction bs using directives.induct generalizing p reads with
  | case1 =>
    refine iff_of_false ?_ not_endsFormat_nil
    rintro ⟨fuel, r, hrun, hr⟩
    exact hend (by simpa using (FormatInside.of_run hrun hr).1)
  | case2 c bs hc ih =>
    have hread := List.forall_mem_cons.mpr ⟨by simpa using hin 0 (Nat.succ_pos _), hreads⟩
    by_cases h0 : c = 0
    · subst h0
      rw [BoundedLoop.exists_run_of_inr (formatStep_end h.head)]
      exact iff_of_true hread endsFormat_zero
    · rw [BoundedLoop.exists_run_of_inl (formatStep_char h.head hc h0), endsFormat_char hc h0]
      apply ih h.tail _ _ hread
      · intro k hk
        rw [next_offset]
        exact hin (k + 1) (Nat.succ_lt_succ hk)
      · rwa [next_offset]
  | case3 c hc =>
    obtain rfl := not_not.mp hc
    -- the directive would be the byte behind the block
    rw [exists_run_percent h.head rfl]
    refine iff_of_false ?_ not_endsFormat_percent
    rintro ⟨-, fuel, r, hrun, hr⟩
    exact hend ((FormatInside.of_run hrun hr).2 _ List.mem_cons_self)
  | case4 c hc d bs ih =>
    obtain rfl := not_not.mp hc
    have hread := List.forall_mem_cons.mpr ⟨by simpa using hin 0 (Nat.succ_pos _), hreads⟩
    have hread' := List.forall_mem_cons.mpr ⟨hin 1 (by simp), hread⟩
    have hnext : ∀ k, p + 1 + 1 + BitVec.ofNat 32 k = p + BitVec.ofNat 32 (k + 2) := by
      intro k
      rw [next_offset, next_offset]
    rw [exists_run_percent h.head h.tail.head, endsFormat_percent]
    apply and_congr_right'
    apply ih h.tail.tail _ _ hread'
    · intro k hk
      rw [hnext]
      exact hin (k + 2) (by simpa using hk)
    · rwa [hnext]

/-- The loop of `%s` reads a string and its terminator. -/
theorem run_argumentStep (h : Stands m p bs) (hin : ∀ k ≤ bs.length, R (p + BitVec.ofNat 32 k))
    (hreads : ∀ a ∈ reads, R a) :
    ∃ fuel reads', BoundedLoop.run (argumentStep m) fuel (p, reads) = some reads' ∧
      ∀ a ∈ reads', R a := by
  induction bs generalizing p reads with
  | nil =>
    have hread := List.forall_mem_cons.mpr ⟨by simpa using hin 0 (Nat.le_refl _), hreads⟩
    have hstep : argumentStep m (p, reads) = .inr (p :: reads) := if_neg (not_not.mpr h.terminator)
    exact (BoundedLoop.exists_run_of_inr hstep _).mpr hread
  | cons c bs ih =>
    have hread := List.forall_mem_cons.mpr ⟨by simpa using hin 0 (Nat.zero_le _), hreads⟩
    obtain ⟨hhead, hc⟩ := h.head
    have hstep : argumentStep m (p, reads) = .inl (p + 1, p :: reads) := if_pos (hhead ▸ hc)
    refine (BoundedLoop.exists_run_of_inl hstep _).mpr (ih h.tail (fun k hk => ?_) hread)
    rw [next_offset]
    exact hin (k + 1) (Nat.succ_le_succ hk)

theorem scan_missing {k : Formatter} {type : ArgType} (htakes : takes k d = some type)
    (above : BitVec 32) (nested : Arg → Vga.Terminal → Except Halt Vga.Terminal) (fmt : List Byte)
    (t : Vga.Terminal) :
    scan k above nested (ascii '%' :: d :: fmt) [] t = .error .badArgument := by
  simp only [takes] at htakes
  split_ifs at htakes with hint hf hs
  · rcases hint with rfl | rfl | ⟨rfl, rfl⟩
    · rfl
    · rfl
    · rfl
  · subst hf
    rfl
  · subst hs
    rfl

theorem run_formatStep_iff_scan (h : Holds m p (fmt ++ 0 :: rest)) (h0 : 0 ∉ fmt)
    (hc : Complete fmt) (above : BitVec 32)
    (nested : Arg → Vga.Terminal → Except Halt Vga.Terminal) (t : Vga.Terminal) :
    (∃ fuel r, BoundedLoop.run (formatStep m) fuel (p, reads) = some r ∧
        FormatInside (fun _ => True) r) ↔
      ∃ out, scan .cprintf above nested fmt [] t = .ok out := by
  induction fmt using directives.induct generalizing p reads t with
  | case1 =>
    rw [BoundedLoop.exists_run_of_inr (formatStep_end h.head)]
    exact iff_of_true (fun _ _ => trivial) ⟨_, rfl⟩
  | case2 c fmt hne ih =>
    have hnz : c ≠ 0 := fun heq => h0 (heq ▸ List.mem_cons_self)
    rw [BoundedLoop.exists_run_of_inl (formatStep_char h.head hne hnz), scan_char hne]
    exact ih h.tail (fun hmem => h0 (List.mem_cons_of_mem c hmem)) ((complete_char hne).mp hc) _
  | case3 c hne =>
    obtain rfl := not_not.mp hne
    exact absurd hc not_complete_percent
  | case4 c hne d fmt ih =>
    obtain rfl := not_not.mp hne
    have hrest : 0 ∉ fmt := fun hmem => h0 (List.mem_cons_of_mem _ (List.mem_cons_of_mem d hmem))
    rw [exists_run_percent h.head h.tail.head]
    cases htakes : takes .cprintf d with
    | none =>
      rw [and_iff_right rfl, scan_plain htakes]
      exact ih h.tail.tail hrest (complete_percent.mp hc) _
    | some type =>
      rw [scan_missing htakes]
      refine iff_of_false (fun hnone => ?_) ?_
      · cases hnone.1
      · rintro ⟨out, hout⟩
        cases hout

/-- On a string without an open `%` the loop comes to the end exactly if `cprintf` returns. -/
theorem run_formatStep_iff_cprintf {f : CString} (h : Holds m p (f.chars ++ 0 :: rest))
    (hc : Complete f.chars) (above : BitVec 32) (n : ℕ) (color : Byte) (t : Vga.Terminal) :
    (∃ fuel r, BoundedLoop.run (formatStep m) fuel (p, []) = some r ∧
        FormatInside (fun _ => True) r) ↔
      ∃ t', cprintf above n color f [] t = .ok t' := by
  rw [run_formatStep_iff_scan h f.nonzero hc above (fun a t => printf above n percentF [a] t)
    (recolor t color)]
  cases hscan : scan .cprintf above (fun a t => printf above n percentF [a] t) f.chars []
    (recolor t color) with
  | error e =>
    rw [cprintf_of_error hscan]
    refine iff_of_false ?_ ?_
    · rintro ⟨out, hout⟩
      cases hout
    · rintro ⟨t', ht'⟩
      cases ht'
  | ok out => exact iff_of_true ⟨out, rfl⟩ ⟨_, cprintf_of_ok hscan⟩

/-- Forty bytes are a string that prints inside their block exactly if they end a format. -/
theorem Holds.printable_iff (h : Holds m p bs) (hlen : bs.length = 40) :
    Printable m p bs ↔ EndsFormat bs := by
  have hin : ∀ k < 40, Block.Within ⟨p, 40⟩ (p + BitVec.ofNat 32 k) := fun k hk =>
    Block.within_offset (b := ⟨p, 40⟩) hk (show 40 ≤ 2 ^ 32 by omega)
  have hend : ¬ Block.Within ⟨p, 40⟩ (p + BitVec.ofNat 32 bs.length) := by
    rw [hlen, Block.Within, offset_sub p (by omega)]
    exact Nat.lt_irrefl 40
  have hnone : ∀ a ∈ ([] : List Ptr), Block.Within ⟨p, 40⟩ a := List.forall_mem_nil _
  have hformat := run_formatStep_iff h (fun k hk => hin k (hlen ▸ hk)) hend hnone
  refine ⟨fun P => hformat.mp P.format, fun hends => ?_⟩
  obtain ⟨cs, rest, rfl, h0⟩ := List.eq_append_cons_of_mem hends.zero_mem
  have hlt : cs.length < 40 := by
    rw [List.length_append, List.length_cons] at hlen
    omega
  have hstands := h.stands h0
  constructor
  case string =>
    have hne : ∀ c ∈ cs, decide (c ≠ 0) = true :=
      fun c hc => decide_eq_true (ne_of_mem_of_not_mem hc h0)
    refine ⟨cs, hlt, hstands, ?_⟩
    rw [List.takeWhile_append_of_pos hne, List.takeWhile_cons_of_neg (by simp), List.append_nil]
  case format => exact hformat.mpr hends
  case argument =>
    intro m' hm
    have hin' := fun k (hk : k ≤ cs.length) => hin k (Nat.lt_of_le_of_lt hk hlt)
    exact run_argumentStep (hstands.congr fun k hk => hm _ (hin' k hk)) hin' hnone

theorem nameBytes_length (m : Mem) : (nameBytes m).length = 40 := by
  rw [nameBytes, List.length_map, List.length_range]

/-- A block that was granted holds the name. -/
theorem Granted.holds (G : Granted alloc s) :
    Holds (driveName alloc s).2.mem (driveName alloc s).1 (nameBytes s.mem) := by
  intro k hk
  rw [nameBytes_length] at hk
  simp only [driveName, copyName_eq G.apart, nameBytes, List.getElem_map, List.getElem_range]
  rw [writeBytes_inside _ hk (by omega), nameByte_congr G.image hk]

/-- The name that `get_drive_name` makes is a string in its block, and prints from there, exactly if
the 40 bytes of the name end a format that takes no argument. -/
theorem driveName_printable_iff (G : Granted alloc s) :
    Printable (driveName alloc s).2.mem (driveName alloc s).1 (nameBytes s.mem) ↔
      EndsFormat (nameBytes s.mem) := G.holds.printable_iff (nameBytes_length s.mem)

/-- An image in memory, and blocks from `0x300000` on. -/
def imaged (image : Ptr → Byte) : Driver Ptr Unit := ⟨image, 0x300000, (), 0, 0⟩

theorem granted_imaged (image : Ptr → Byte) : Granted bump (imaged image) := by
  have hbase : ((imaged image).malloc bump 40).1 = 0x300000 := rfl
  constructor
  case nonzero =>
    rw [hbase]
    decide
  case apart =>
    rw [hbase]
    exact ⟨by decide, by decide⟩
  case image => exact fun _ _ => rfl

/-- The name is `A`. -/
theorem driveName_printable_letterA :
    Printable (driveName bump (imaged fun x => if x = 55 then ascii 'A' else 0)).2.mem
      (driveName bump (imaged fun x => if x = 55 then ascii 'A' else 0)).1
      (nameBytes (imaged fun x => if x = 55 then ascii 'A' else 0).mem) := by
  refine (driveName_printable_iff (granted_imaged _)).mpr ?_
  exact ⟨[ascii 'A'], List.replicate 38 0, by decide, trivial, List.forall_mem_nil _⟩

/-- A name of 40 characters has no terminator. -/
theorem not_driveName_printable : Granted bump (imaged fun _ => ascii 'A') ∧
    ¬ Printable (driveName bump (imaged fun _ => ascii 'A')).2.mem
      (driveName bump (imaged fun _ => ascii 'A')).1
      (nameBytes (imaged fun _ => ascii 'A').mem) := by
  have G := granted_imaged fun _ => ascii 'A'
  refine ⟨G, fun P => ?_⟩
  have hzero := ((G.holds.printable_iff (nameBytes_length _)).mp P).zero_mem
  revert hzero
  decide

end TinaOS.Ata
