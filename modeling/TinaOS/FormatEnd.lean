import TinaOS.Stdio

/-!
# The end of a format

The loop tests for the terminator where it steps on, but not behind a `%`. A `%` that ends
a format takes the terminator for its directive, and the loop then reads what lies beyond.
-/

namespace TinaOS.Stdio

open Strings Vga

/-- Every `%` that begins a directive has a character behind it. -/
def Complete : List Byte → Prop
  | [] => True
  | c :: fmt =>
    if c ≠ ascii '%' then Complete fmt
    else match fmt with
      | [] => False
      | _ :: fmt => Complete fmt

/-- A call of `printf` or of `cprintf`. -/
def Formatter.call (k : Formatter) (above : BitVec 32) (n : ℕ) (color : Byte) (f : CString)
    (ap : List Arg) (t : Terminal) : Except Halt Terminal :=
  match k with
  | .printf => Stdio.printf above n f ap t
  | .cprintf => Stdio.cprintf above n color f ap t

/-- No call reads the format beyond its terminator. -/
def ReadsInside (k : Formatter) (f : CString) : Prop :=
  ∀ above n color ap t, k.call above n color f ap t ≠ .error .overrun

/-- With arguments of the types that the directives take, every call comes to the terminator. -/
def ComesToEnd (k : Formatter) (f : CString) : Prop :=
  ∀ ap, ap.map Arg.type = (directives f.chars).filterMap (takes k) →
    ∀ above color t, ∃ n t', k.call above n color f ap t = .ok t'

variable {k : Formatter} {fmt : List Byte} {ap ap' : List Arg} {above : BitVec 32} {d : Byte}
  {nested : Arg → Terminal → Except Halt Terminal} {t t' : Terminal} {f : CString} {e : Halt}

theorem complete_char {c : Byte} (hc : c ≠ ascii '%') : Complete (c :: fmt) ↔ Complete fmt := by
  rw [Complete.eq_def]
  exact iff_of_eq (if_pos hc)

theorem complete_percent : Complete (ascii '%' :: d :: fmt) ↔ Complete fmt := Iff.rfl

theorem not_complete_percent : ¬ Complete [ascii '%'] := id

theorem Matches.complete (h : Matches k fmt ap) : Complete fmt := by
  induction h with
  | nil => trivial
  | char hc _ ih => exact (complete_char hc).mpr ih
  | arg _ _ ih => exact ih
  | plain _ _ ih => exact ih

theorem Matches.types (h : Matches k fmt ap) :
    ap.map Arg.type = (directives fmt).filterMap (takes k) := by
  induction h with
  | nil => rfl
  | char hc _ ih => rwa [directives_char hc]
  | arg hd _ ih => rw [directives_percent, List.filterMap_cons_some hd, List.map_cons, ih]
  | plain hd _ ih => rwa [directives_percent, List.filterMap_cons_none hd]

/-- Arguments of the right types match a complete format. -/
theorem matches_of_types (hc : Complete fmt)
    (h : ap.map Arg.type = (directives fmt).filterMap (takes k)) : Matches k fmt ap := by
  induction fmt using directives.induct generalizing ap with
  | case1 =>
    obtain rfl := List.map_eq_nil_iff.mp h
    exact .nil
  | case2 c fmt hne ih =>
    rw [directives_char hne] at h
    exact .char hne (ih ((complete_char hne).mp hc) h)
  | case3 c hne =>
    obtain rfl := not_not.mp hne
    exact absurd hc not_complete_percent
  | case4 c hne d fmt ih =>
    obtain rfl := not_not.mp hne
    rw [directives_percent] at h
    cases hd : takes k d with
    | none =>
      rw [List.filterMap_cons_none hd] at h
      exact .plain hd (ih (complete_percent.mp hc) h)
    | some type =>
      rw [List.filterMap_cons_some hd] at h
      cases ap with
      | nil => cases h
      | cons a rest =>
        obtain ⟨htype, hrest⟩ := List.cons.inj h
        exact .arg (hd.trans (congrArg some htype.symm)) (ih (complete_percent.mp hc) hrest)

theorem matches_iff : Matches k fmt ap ↔
    Complete fmt ∧ ap.map Arg.type = (directives fmt).filterMap (takes k) :=
  ⟨fun h => ⟨h.complete, h.types⟩, fun h => matches_of_types h.1 h.2⟩

def ArgType.default : ArgType → Arg
  | .int => .int 0
  | .double => .double 0
  | .str => .str ⟨[], by decide⟩

/-- There are arguments of any types. -/
theorem exists_types (types : List ArgType) : ∃ ap : List Arg, ap.map Arg.type = types := by
  refine ⟨types.map ArgType.default, ?_⟩
  rw [List.map_map]
  refine (List.map_congr_left fun type _ => ?_).trans (List.map_id _)
  cases type <;> rfl

/-- A format that is not complete ends in a `%` of its own. -/
theorem exists_open (h : ¬ Complete fmt) :
    ∃ pre, fmt = pre ++ [ascii '%'] ∧ Complete pre ∧ directives pre = directives fmt := by
  induction fmt using directives.induct with
  | case1 => exact absurd trivial h
  | case2 c fmt hne ih =>
    obtain ⟨pre, rfl, hpre, hdirs⟩ := ih (mt (complete_char hne).mpr h)
    refine ⟨c :: pre, rfl, (complete_char hne).mpr hpre, ?_⟩
    rw [directives_char hne, directives_char hne, hdirs]
  | case3 c hne =>
    obtain rfl := not_not.mp hne
    exact ⟨[], rfl, trivial, rfl⟩
  | case4 c hne d fmt ih =>
    obtain rfl := not_not.mp hne
    obtain ⟨pre, rfl, hpre, hdirs⟩ := ih (mt complete_percent.mpr h)
    refine ⟨ascii '%' :: d :: pre, rfl, complete_percent.mpr hpre, ?_⟩
    rw [directives_percent, directives_percent, hdirs]

/-- A recursive directive stops the loop, if nothing stops it before. -/
theorem scan_recursive (above : BitVec 32)
    (hn : ∀ a t, a.type ≠ .str → nested a t = .error .depth)
    (hd : ∃ d ∈ directives fmt, Recursive d) (ap : List Arg) (t : Terminal) :
    ∃ e, e ≠ .overrun ∧ scan k above nested fmt ap t = .error e := by
  induction fmt using directives.induct generalizing ap t with
  | case1 => simp [directives] at hd
  | case2 c fmt hne ih =>
    rw [directives_char hne] at hd
    rw [scan_char hne]
    exact ih hd ap _
  | case3 c hne =>
    obtain rfl := not_not.mp hne
    simp [directives] at hd
  | case4 c hne d fmt ih =>
    obtain rfl := not_not.mp hne
    rcases scan_percent hn d fmt ap t with herr | ⟨hrec, ap', t', heq⟩
    · exact herr
    · rw [directives_percent, List.exists_mem_cons_iff] at hd
      rw [heq]
      exact ih (hd.resolve_left hrec) ap' t'

/-- The loop leaves a format only through a `%` at its end. -/
theorem scan_ne_overrun (above : BitVec 32)
    (hn : ∀ a t, a.type ≠ .str → nested a t = .error .depth)
    (h : Complete fmt) (ap : List Arg) (t : Terminal) :
    scan k above nested fmt ap t ≠ .error .overrun := by
  induction fmt using directives.induct generalizing ap t with
  | case1 => exact nofun
  | case2 c fmt hne ih =>
    rw [scan_char hne]
    exact ih ((complete_char hne).mp h) ap _
  | case3 c hne =>
    obtain rfl := not_not.mp hne
    exact absurd h not_complete_percent
  | case4 c hne d fmt ih =>
    obtain rfl := not_not.mp hne
    rcases scan_percent hn d fmt ap t with ⟨e, he, herr⟩ | ⟨-, ap', t', heq⟩
    · rw [herr]
      exact fun hover => he (Except.error.inj hover)
    · rw [heq]
      exact ih (complete_percent.mp h) ap' t'

/-- A `%` at the end leads the loop out of the format, unless a directive before it calls the
formatter again. -/
theorem scan_open (hd : ∀ d ∈ directives fmt, ¬ Recursive d) (h : ¬ Complete fmt) :
    ∃ ap, ∀ above nested t, scan k above nested fmt ap t = .error .overrun := by
  obtain ⟨pre, rfl, hpre, hdirs⟩ := exists_open h
  obtain ⟨ap, hap⟩ := exists_types ((directives pre).filterMap (takes k))
  refine ⟨ap, fun above nested t => ?_⟩
  rw [← hdirs] at hd
  obtain ⟨t', hscan⟩ :=
    scan_prefix above nested (matches_iff.mpr ⟨hpre, hap⟩) hd [ascii '%'] [] t
  rw [List.append_nil] at hscan
  rw [hscan]
  rfl

/-- A call that its budget lets begin comes to what its loop comes to. -/
theorem Formatter.call_eq_map (k : Formatter) (above : BitVec 32) {n : ℕ}
    (hn : k = .printf → n ≠ 0) (color : Byte) (f : CString) (ap : List Arg) (t : Terminal) :
    ∃ m t₀, ∃ finish : List Arg × Terminal → Terminal, k.call above n color f ap t =
      (scan k above (fun a t => Stdio.printf above m percentF [a] t) f.chars ap t₀).map finish := by
  cases k with
  | printf =>
    obtain ⟨m, rfl⟩ := Nat.exists_eq_succ_of_ne_zero (hn rfl)
    refine ⟨m, t, fun out => endLine out.2, ?_⟩
    cases hscan : scan .printf above (fun a t => Stdio.printf above m percentF [a] t) f.chars ap t with
    | error e => exact printf_of_error hscan
    | ok out => exact printf_of_ok hscan
  | cprintf =>
    refine ⟨n, recolor t color,
      fun out => { endLine out.2 with terminalColor := t.terminalColor }, ?_⟩
    cases hscan : scan .cprintf above (fun a t => Stdio.printf above n percentF [a] t) f.chars ap
      (recolor t color) with
    | error e => exact cprintf_of_error hscan
    | ok out => exact cprintf_of_ok hscan

theorem readsInside_of (h : Complete f.chars ∨ ∃ d ∈ directives f.chars, Recursive d) :
    ReadsInside k f := by
  intro above n color ap t
  by_cases hn : k = .printf → n ≠ 0
  · obtain ⟨m, t₀, finish, hcall⟩ := k.call_eq_map above hn color f ap t
    rw [hcall]
    have hnested := printf_percentF above m
    rcases h with hc | hd
    · have hscan := scan_ne_overrun (k := k) above hnested hc ap t₀
      intro hover
      cases hout : scan k above (fun a t => Stdio.printf above m percentF [a] t) f.chars ap t₀ with
      | error e =>
        rw [hout] at hscan hover
        exact hscan (congrArg Except.error (Except.error.inj hover))
      | ok out =>
        rw [hout] at hover
        cases hover
    · obtain ⟨e, he, hscan⟩ := scan_recursive (k := k) above hnested hd ap t₀
      rw [hscan]
      exact fun hover => he (Except.error.inj hover)
  · obtain ⟨rfl, h0⟩ := Classical.not_imp.mp hn
    rw [not_not.mp h0]
    exact nofun

theorem not_readsInside (h : ¬ Complete f.chars) (hd : ∀ d ∈ directives f.chars, ¬ Recursive d) :
    ¬ ReadsInside k f := by
  intro hreads
  obtain ⟨ap, hscan⟩ := scan_open (k := k) hd h
  obtain ⟨m, t₀, finish, hcall⟩ := k.call_eq_map 0 (fun _ => one_ne_zero) 0 f ap zeroTerminal
  rw [hscan] at hcall
  exact hreads 0 1 0 ap zeroTerminal hcall

theorem comesToEnd (h : Complete f.chars) (hd : ∀ d ∈ directives f.chars, ¬ Recursive d) :
    ComesToEnd k f := by
  intro ap hap above color t
  obtain ⟨m, t₀, finish, hcall⟩ := k.call_eq_map above (fun _ => one_ne_zero) color f ap t
  obtain ⟨out, hscan⟩ := scan_returns above (fun a t => Stdio.printf above m percentF [a] t)
    (matches_iff.mpr ⟨h, hap⟩) hd t₀
  rw [hscan] at hcall
  exact ⟨1, finish out, hcall⟩

theorem not_comesToEnd (hd : ∃ d ∈ directives f.chars, Recursive d) : ¬ ComesToEnd k f := by
  intro hends
  obtain ⟨ap, hap⟩ := exists_types ((directives f.chars).filterMap (takes k))
  obtain ⟨n, t', hok⟩ := hends ap hap 0 0 zeroTerminal
  by_cases hn : k = .printf → n ≠ 0
  · obtain ⟨m, t₀, finish, hcall⟩ := k.call_eq_map 0 hn 0 f ap zeroTerminal
    obtain ⟨e, -, hscan⟩ := scan_recursive (k := k) 0 (printf_percentF 0 m) hd ap t₀
    rw [hcall, hscan] at hok
    cases hok
  · obtain ⟨rfl, h0⟩ := Classical.not_imp.mp hn
    rw [not_not.mp h0] at hok
    cases hok

/-- A call reads inside its format exactly if no `%` stands alone at its end, or if a directive
that calls the formatter again keeps the loop from getting there. It also comes to the
terminator exactly if it has neither. -/
theorem readsInside_iff (k : Formatter) (f : CString) :
    (ReadsInside k f ↔ Complete f.chars ∨ ∃ d ∈ directives f.chars, Recursive d) ∧
    (ReadsInside k f ∧ ComesToEnd k f ↔
      Complete f.chars ∧ ∀ d ∈ directives f.chars, ¬ Recursive d) := by
  have hreads : ReadsInside k f ↔ Complete f.chars ∨ ∃ d ∈ directives f.chars, Recursive d := by
    refine ⟨fun h => ?_, readsInside_of⟩
    by_contra hnot
    obtain ⟨hopen, hd⟩ := not_or.mp hnot
    exact not_readsInside hopen (fun d hmem hrec => hd ⟨d, hmem, hrec⟩) h
  refine ⟨hreads, ?_⟩
  constructor
  · rintro ⟨hin, hends⟩
    have hd : ¬ ∃ d ∈ directives f.chars, Recursive d := fun hd => not_comesToEnd hd hends
    exact ⟨(hreads.mp hin).resolve_right hd, fun d hmem hrec => hd ⟨d, hmem, hrec⟩⟩
  · rintro ⟨hc, hd⟩
    exact ⟨readsInside_of (.inl hc), comesToEnd hc hd⟩

/-- `%` -/
def percent : CString := ⟨[ascii '%'], by decide⟩

theorem not_readsInside_percent : ¬ ReadsInside .printf percent ∧ ¬ ReadsInside .cprintf percent :=
  ⟨not_readsInside not_complete_percent nofun, not_readsInside not_complete_percent nofun⟩

end TinaOS.Stdio
