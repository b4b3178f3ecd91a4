import Mathlib.Data.List.TakeWhile
import FilesKernel.Output.Bounded

/-! The listing of names.

    `print_dir_names_list` passes each name to `printf` as the format, so that a `%` in a name starts
    a directive. Without arguments, a directive prints less than it is long, or reads an argument
    that is not there. -/

namespace FilesKernel.Output
open CExec CWord FileSystem Stdlib

variable {console console' name fmt : CString} {names : List CString} {n : ℕ} {rc rc' : ℤ}

/-- What the listing should be. -/
def listing (names : List CString) : CString := names.flatMap (fun name => name ++ [44, 32]) ++ [10]

/-- The name is printed as it is. -/
def Plain (name : CString) : Prop := 37 ∉ name ∧ name.length < 2 ^ 31

/-! ### Names without directives -/

theorem segments_run : ∀ (c : Literal) (s : List Literal),
    segments ((c :: s).map Item.lit) = [.run (c :: s)]
  | _, [] => rfl
  | c, d :: s => by
      rw [List.map_cons, segments, segments_run d s]
      rfl

theorem render_run : ∀ s : List Literal, render (s.map Item.lit) = s.map Subtype.val
  | [] => rfl
  | c :: s => by
      have := render_run s
      rw [render] at this ⊢
      rw [List.map_cons, List.flatMap_cons, this]
      rfl

theorem exists_literals (hnul : 0 ∉ name) (hpercent : 37 ∉ name) :
    ∃ s : List Literal, s.map Subtype.val = name :=
  ⟨name.attach.map fun c => ⟨c.1, fun h => hnul (h ▸ c.2), fun h => hpercent (h ▸ c.2)⟩, by simp⟩

theorem printf_plain (hnul : 0 ∉ name) (h : Plain name) (console : CString) :
    printf console name [] = .ok (name.length, console ++ name) := by
  obtain ⟨s, rfl⟩ := exists_literals hnul h.1
  have hall : ∃ us, pieces Length.bitsRead (segments (s.map Item.lit)) [] = some (us, []) ∧
      us.flatten = s.map Subtype.val := by
    cases s with
    | nil => exact ⟨[], rfl, rfl⟩
    | cons c s =>
      rw [segments_run]
      exact ⟨[(c :: s).map Subtype.val], rfl, List.flatten_singleton⟩
  obtain ⟨us, hp, htext⟩ := hall
  have hprint := vprintf_eq hp (by rw [total, htext]; exact h.2) console
  rw [render_run, total, htext] at hprint
  rw [printf, hprint]
  rfl

/-! ### All names -/

theorem readBytes_length {buf bytes : CString} {size : ℤ} (h : readBytes buf size = .ok bytes) :
    bytes.length = size := by
  rw [readBytes] at h
  split at h
  · cases h
    rw [List.length_take]
    omega
  · cases h

/-- The console gets as many bytes as the size says. -/
theorem print_length {ctx : PrintCtx CString} {buf : CString} {size : ℤ}
    {r : ℤ × PrintCtx CString} (h : print serialOut ctx buf size = .ok r) :
    (r.2.sink.length : ℤ) = ctx.sink.length + size := by
  have hrc := print_rc serialOut_accepts h
  rw [print, serialOut, bind_eq_ok] at h
  obtain ⟨⟨rc, sink⟩, hsink, h⟩ := h
  obtain ⟨bytes, hbytes, hsink⟩ := bind_eq_ok.mp hsink
  cases hsink
  have hlen := readBytes_length hbytes
  dsimp only at h
  rw [if_neg (Int.lt_irrefl 0)] at h
  split at h
  · cases h
  · cases h
    rw [List.length_append, Int.natCast_add, hlen]

theorem decodeFormat_text : ∀ fmt : CString,
    decodeFormat FMT_NONE fmt = (FMT_NONE, fmt.dropWhile (· ≠ 37))
  | [] => rfl
  | c :: fmt => by
      by_cases hc : c = 37
      · rw [decodeFormat, if_pos ⟨hc, by decide⟩, List.dropWhile_cons_of_neg (by simp [hc])]
      · rw [decodeFormat, if_neg fun h => hc h.1, if_pos hc, decodeFormat_text fmt,
          List.dropWhile_cons_of_pos (by simp [hc])]

/-- Without arguments, a directive ends the output, or prints a single byte. -/
theorem vprintfPiece_bare {ctx ctx' : PrintCtx CString} {type : ℕ} (hnone : type &&& 0xff ≠ FMT_NONE)
    {start : CString} {args' : List Arg}
    (hpiece : vprintfPiece serialOut ctx [] type start = .ok (rc, ctx', args')) :
    args' = [] ∧ (rc < 0 ∧ ctx' = ctx ∨
      rc = 0 ∧ ctx'.sink.length = ctx.sink.length + 1 ∧ type &&& 0xff = FMT_PERCENT) := by
  rw [vprintfPiece] at hpiece
  split_ifs at hpiece with hstr hchar hint hpercent
  · cases hpiece
  · cases hpiece
  · cases hpiece
  · obtain ⟨⟨rc₁, ctx₁⟩, hprint, hpiece⟩ := bind_eq_ok.mp hpiece
    cases hpiece
    have hlen : (ctx'.sink.length : ℤ) = ctx.sink.length + 1 := print_length hprint
    have hone : ctx'.sink.length = ctx.sink.length + 1 := by omega
    exact ⟨rfl, Or.inr ⟨print_rc serialOut_accepts hprint, hone, hpercent⟩⟩
  · cases hpiece
    exact ⟨rfl, Or.inl ⟨by decide, rfl⟩⟩

/-- After an error, the loop ends. -/
theorem vprintfLoop_error {ctx : PrintCtx CString} (hrc : rc < 0) {args : List Arg}
    {r : ℤ × PrintCtx CString × List Arg}
    (h : vprintfLoop serialOut n rc ctx fmt args = .ok r) : r = (rc, ctx, args) := by
  cases n with
  | zero => cases h
  | succ n =>
    rw [vprintfLoop, if_neg fun hc => absurd hc.1 (by omega)] at h
    exact (Except.ok.inj h).symm

/-- Without arguments, the output is not longer than the format, and shorter if there is a `%`. -/
theorem vprintfLoop_length : ∀ {n : ℕ} {ctx ctx' : PrintCtx CString} {fmt : CString}
    {args' : List Arg}, vprintfLoop serialOut n 0 ctx fmt [] = .ok (rc, ctx', args') →
    ctx'.sink.length ≤ ctx.sink.length + fmt.length ∧
      (ctx'.sink.length = ctx.sink.length + fmt.length → Plain fmt)
  | n + 1, ctx, ctx', [], args', h => by
      rw [vprintfLoop, if_neg fun hne => hne.2 rfl] at h
      cases h
      exact ⟨Nat.le_refl _, fun _ => ⟨List.not_mem_nil, Nat.two_pow_pos 31⟩⟩
  | n + 1, ctx, ctx', c :: fmt, args', h => by
      rw [vprintfLoop, if_pos ⟨Int.le_refl 0, List.cons_ne_nil _ _⟩, decodeFormat,
        if_neg fun hc => hc.2 rfl] at h
      by_cases hc : c = 37
      · -- a directive
        obtain ⟨hnone, -, hshort⟩ := decodeDirective_spec fmt
        rw [if_neg (not_not.mpr hc)] at h
        generalize decodeDirective fmt = e at hnone hshort h
        obtain ⟨type, rest⟩ := e
        obtain ⟨⟨rc₁, ctx₁, args₁⟩, hpiece, hloop⟩ := bind_eq_ok.mp h
        rw [List.length_cons]
        obtain ⟨rfl, ⟨hneg, rfl⟩ | ⟨rfl, hlen, hpercent⟩⟩ := vprintfPiece_bare hnone hpiece
        · cases vprintfLoop_error hneg hloop
          omega
        · have hlt : rest.length < fmt.length := hshort (by
            dsimp only
            rw [hpercent]
            decide)
          have hle := (vprintfLoop_length hloop).1
          omega
      · -- text, up to the next directive
        rw [if_pos hc, decodeFormat_text fmt] at h
        have hsplit : c :: fmt.takeWhile (· ≠ 37) ++ fmt.dropWhile (· ≠ 37) = c :: fmt := by
          rw [List.cons_append, List.takeWhile_append_dropWhile]
        have hparts := congrArg List.length hsplit
        rw [List.length_append] at hparts
        have htake : (c :: fmt).take ((c :: fmt).length - (fmt.dropWhile (· ≠ 37)).length) =
            c :: fmt.takeWhile (· ≠ 37) := by
          rw [← hparts, Nat.add_sub_cancel, ← hsplit, List.take_left]
        obtain ⟨⟨rc₁, ctx₁, args₁⟩, hpiece, hloop⟩ := bind_eq_ok.mp h
        rw [htake, vprintfPiece_run] at hpiece
        obtain ⟨⟨rc₂, ctx₂⟩, hprint, hpiece⟩ := bind_eq_ok.mp hpiece
        cases hpiece
        obtain rfl : rc₁ = 0 := print_rc serialOut_accepts hprint
        have hlen : (ctx₁.sink.length : ℤ) =
            ctx.sink.length + toInt (c :: fmt.takeWhile (· ≠ 37)).length := print_length hprint
        have hint := toInt_le (c :: fmt.takeWhile (· ≠ 37)).length
        obtain ⟨hle, hplain⟩ := vprintfLoop_length hloop
        refine ⟨by omega, fun heq => ?_⟩
        have hrest : 37 ∉ fmt.dropWhile (· ≠ 37) := (hplain (by omega)).1
        have hnil : fmt.dropWhile (· ≠ 37) = [] := by
          have hhead := List.head?_dropWhile_not (fun x : UInt8 => decide (x ≠ 37)) fmt
          cases hd : fmt.dropWhile (· ≠ 37) with
          | nil => rfl
          | cons d rest =>
            rw [hd] at hhead hrest
            exact absurd (List.mem_cons.mpr (Or.inl (of_decide_eq_false hhead |> not_not.mp).symm))
              hrest
        rw [hnil, List.append_nil] at hsplit
        rw [hnil] at hle
        refine ⟨fun hmem => ?_, ?_⟩
        · rcases List.mem_cons.mp (hsplit ▸ hmem) with he | hm
          · exact hc he.symm
          · have hne := List.mem_takeWhile_imp hm
            exact absurd hne (by decide)
        · rw [hsplit] at hlen hint
          exact lt_of_toInt (by rw [List.length_nil] at hle; omega)

/-! ### The listing -/

theorem printf_length {r : ℤ × CString} (h : printf console name [] = .ok r) :
    r.2.length ≤ console.length + name.length ∧
      (r.2.length = console.length + name.length → Plain name) := by
  obtain ⟨⟨rc, console', args⟩, hprint, h⟩ := bind_eq_ok.mp h
  cases h
  obtain ⟨⟨rc', ctx, args'⟩, hloop, hprint⟩ := bind_eq_ok.mp hprint
  cases hprint
  exact vprintfLoop_length hloop

theorem printf_separator (console : CString) :
    printf console [44, 32] [] = .ok (2, console ++ [44, 32]) :=
  printf_plain (by decide) ⟨by decide, by decide⟩ console

theorem printNames_plain : ∀ {names : List CString} (console : CString),
    (∀ name ∈ names, 0 ∉ name ∧ Plain name) →
    printNames console names = .ok (console ++ names.flatMap fun name => name ++ [44, 32])
  | [], console, _ => by
      rw [List.flatMap_nil, List.append_nil]
      rfl
  | name :: names, console, h => by
      obtain ⟨⟨hnul, hname⟩, hnames⟩ := List.forall_mem_cons.mp h
      rw [printNames, printf_plain hnul hname, ok_bind]
      dsimp only
      rw [printf_separator, ok_bind]
      dsimp only
      rw [printNames_plain _ hnames, List.flatMap_cons]
      simp only [List.append_assoc]

theorem printNames_length : ∀ {names : List CString} {console console' : CString},
    printNames console names = .ok console' →
    console'.length ≤ console.length + (names.flatMap fun name => name ++ [44, 32]).length ∧
      (console'.length = console.length + (names.flatMap fun name => name ++ [44, 32]).length →
        ∀ name ∈ names, Plain name)
  | [], console, console', h => by
      cases h
      exact ⟨Nat.le_refl _, fun _ => nofun⟩
  | name :: names, console, console', h => by
      rw [printNames] at h
      obtain ⟨⟨rc, console₁⟩, hname, h⟩ := bind_eq_ok.mp h
      dsimp only at h
      rw [printf_separator, ok_bind] at h
      obtain ⟨hle, hplain⟩ := printf_length hname
      obtain ⟨hle', hplain'⟩ := printNames_length h
      dsimp only at hle hplain
      rw [List.length_append, List.length_cons, List.length_singleton] at hle' hplain'
      rw [List.flatMap_cons, List.length_append, List.length_append, List.length_cons,
        List.length_singleton]
      exact ⟨by omega, fun heq => List.forall_mem_cons.mpr ⟨hplain (by omega), hplain' (by omega)⟩⟩

/-- The listing is faithful if and only if no name has a `%`, and each one has a length that is an
    `int`. -/
theorem printDirNamesList_iff (console : CString) (hnul : ∀ name ∈ names, 0 ∉ name) :
    printDirNamesList console names = .ok (console ++ listing names) ↔
      ∀ name ∈ names, 37 ∉ name ∧ name.length < 2 ^ 31 := by
  have hnewline : ∀ console, printf console [10] [] = .ok (1, console ++ [10]) :=
    printf_plain (by decide) ⟨by decide, by decide⟩
  constructor
  · intro h
    rw [printDirNamesList] at h
    obtain ⟨console', hnames, h⟩ := bind_eq_ok.mp h
    rw [hnewline, ok_bind] at h
    have hlen := congrArg List.length (Except.ok.inj h)
    rw [listing, List.length_append, List.length_append, List.length_append] at hlen
    exact (printNames_length hnames).2 (by omega)
  · intro h
    rw [printDirNamesList, printNames_plain console fun name hname => ⟨hnul name hname, h name hname⟩,
      ok_bind, hnewline, ok_bind, listing, List.append_assoc]

/-- Two names, one of them with a space. -/
def twoNames : List CString := [[97], [98, 32, 99]]

theorem twoNames_listed : printDirNamesList [] twoNames = .ok ([] ++ listing twoNames) :=
  (printDirNamesList_iff [] (by decide)).mpr (by decide)

/-- `100%` loses its last byte, which starts a directive that is not complete. -/
theorem percent_not_listed : (∀ name ∈ ([[49, 48, 48, 37]] : List CString), 0 ∉ name) ∧
    printDirNamesList [] [[49, 48, 48, 37]] ≠ .ok ([] ++ listing [[49, 48, 48, 37]]) := by
  refine ⟨by decide, fun h => ?_⟩
  have hrun : (printDirNamesList [] [[49, 48, 48, 37]]).toOption =
      some [49, 48, 48, 44, 32, 10] := by
    decide +kernel
  rw [h] at hrun
  exact absurd hrun (by decide)

end FilesKernel.Output
