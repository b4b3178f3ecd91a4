import FilesKernel.Output.Bounded

/-! What `printf` takes from its caller (`print.c`).

    Where only the format is passed, it is not the output that matters but which arguments are taken,
    and whether there is something to print. Of the loop of `__vprintf` is left here what decides
    that; how much is printed is left out, and with it `written`. -/

namespace FilesKernel.Print
open CExec CWord FileSystem Output

inductive Format where | invalid | none | str | char | int | percent
  deriving DecidableEq, Repr

/-- The `switch` of `__vprintf` over the low byte of a type. -/
def kind (type : ℕ) : Format :=
  if type &&& 0xff = FMT_STR then .str
  else if type &&& 0xff = FMT_CHAR then .char
  else if type &&& 0xff = FMT_INT then .int
  else if type &&& 0xff = FMT_NONE then .none
  else if type &&& 0xff = FMT_PERCENT then .percent
  else .invalid

/-- What `decode_format` makes of the front of a format. -/
def decode (fmt : CString) : Format × CString :=
  let (type, rest) := decodeFormat FMT_INVALID fmt
  (kind type, rest)

/-- Where a variadic call was given no arguments, `va_arg` yields what the registers and the stack
    happen to hold; a string can be read from there or not. -/
structure Junk where
  arg : ℕ → ℕ
  readable : ℕ → Bool

/-- The loop of `__vprintf`, with at most `n` iterations, from the argument `i` on. -/
def vprintf (junk : Junk) : ℕ → ℕ → CString → Exec Unit
  | 0, _, _ => .error .fuel
  | _ + 1, _, [] => .ok ()
  | n + 1, i, c :: fmt =>
    match decode (c :: fmt) with
    | (.str, fmt) =>
      let str := junk.arg i
      if str ≠ 0 ∧ junk.readable str then vprintf junk n (i + 1) fmt else .error .fault
    | (.char, fmt) | (.int, fmt) => vprintf junk n (i + 1) fmt
    | (.none, fmt) | (.percent, fmt) => vprintf junk n i fmt
    | (.invalid, _) => .ok ()

/-- `printf(fmt)` -/
def printf (junk : Junk) (fmt : CString) : Exec Unit := vprintf junk (fmt.length + 1) 0 fmt

variable {σ : Type} {out : Sink σ} {junk : Junk}

/-! ### Where it is the whole loop -/

/-- What is taken of the arguments for a piece of the output. -/
inductive Takes : Format → List Arg → List Arg → Prop
  | str (s : CString) (args : List Arg) : Takes .str (.str s :: args) args
  | char (w : ℕ) (args : List Arg) : Takes .char (.word w :: args) args
  | int (w : ℕ) (args : List Arg) : Takes .int (.word w :: args) args
  | none (args : List Arg) : Takes .none args args
  | percent (args : List Arg) : Takes .percent args args

theorem eq_of_vaStr {args rest : List Arg} {s : CString} (h : vaStr args = .ok (s, rest)) :
    args = .str s :: rest := by
  cases args with
  | nil => cases h
  | cons a args => cases a <;> cases h; rfl

theorem eq_of_vaWord {args rest : List Arg} {w : ℕ} (h : vaWord args = .ok (w, rest)) :
    args = .word w :: rest := by
  cases args with
  | nil => cases h
  | cons a args => cases a <;> cases h; rfl

theorem vprintfPiece_takes (hout : Accepts out) {ctx : PrintCtx σ} {args : List Arg} {type : ℕ}
    {start : CString} {r : ℤ × PrintCtx σ × List Arg} (hvalid : kind type ≠ .invalid)
    (h : vprintfPiece out ctx args type start = .ok r) : r.1 = 0 ∧ Takes (kind type) args r.2.2 := by
  rw [vprintfPiece] at h
  rw [kind] at hvalid ⊢
  split_ifs at h hvalid ⊢
  · obtain ⟨⟨s, rest⟩, hva, h⟩ := bind_eq_ok.mp h
    obtain ⟨p, hprint, h⟩ := bind_eq_ok.mp h
    cases h
    rw [eq_of_vaStr hva]
    exact ⟨print_rc hout hprint, .str s rest⟩
  · obtain ⟨⟨w, rest⟩, hva, h⟩ := bind_eq_ok.mp h
    obtain ⟨p, hprint, h⟩ := bind_eq_ok.mp h
    cases h
    rw [eq_of_vaWord hva]
    exact ⟨print_rc hout hprint, .char w rest⟩
  · obtain ⟨⟨w, rest⟩, hva, h⟩ := bind_eq_ok.mp h
    obtain ⟨text, -, h⟩ := bind_eq_ok.mp h
    obtain ⟨p, hprint, h⟩ := bind_eq_ok.mp h
    cases h
    rw [eq_of_vaWord hva]
    exact ⟨print_rc hout hprint, .int w rest⟩
  · obtain ⟨p, hprint, h⟩ := bind_eq_ok.mp h
    cases h
    exact ⟨print_rc hout hprint, .none args⟩
  · obtain ⟨p, hprint, h⟩ := bind_eq_ok.mp h
    cases h
    exact ⟨print_rc hout hprint, .percent args⟩
  · exact absurd rfl hvalid

/-- The arguments from the `i`-th on may be these: where one is a string, it can be read. -/
def Junk.MayHold (junk : Junk) (i : ℕ) (args : List Arg) : Prop :=
  ∀ j s, args[j]? = some (.str s) → junk.arg (i + j) ≠ 0 ∧ junk.readable (junk.arg (i + j))

theorem Junk.MayHold.tail {i : ℕ} {a : Arg} {args : List Arg} (h : junk.MayHold i (a :: args)) :
    junk.MayHold (i + 1) args := by
  intro j s hj
  have hnext := h (j + 1) s (by rwa [List.getElem?_cons_succ])
  rwa [Nat.add_left_comm, Nat.add_comm j] at hnext

/-- Where the whole loop comes to its end with some arguments, so does what is left of it. -/
theorem vprintf_of_vprintfLoop (hout : Accepts out) : ∀ {n i : ℕ} {ctx : PrintCtx σ} {fmt : CString}
    {args : List Arg} {r : ℤ × PrintCtx σ × List Arg}, junk.MayHold i args →
    vprintfLoop out n 0 ctx fmt args = .ok r → vprintf junk n i fmt = .ok ()
  | _ + 1, _, _, [], _, _, _, _ => rfl
  | n + 1, i, ctx, c :: fmt, args, r, hargs, h => by
      rw [vprintfLoop, if_pos ⟨Int.le_refl 0, List.cons_ne_nil _ _⟩] at h
      rw [vprintf, decode]
      generalize decodeFormat FMT_INVALID (c :: fmt) = d at h ⊢
      obtain ⟨type, rest⟩ := d
      obtain ⟨⟨rc, ctx', args'⟩, hpiece, hloop⟩ := bind_eq_ok.mp h
      by_cases hvalid : kind type = .invalid
      · dsimp only
        rw [hvalid]
      · obtain ⟨hrc, htakes⟩ := vprintfPiece_takes hout hvalid hpiece
        dsimp only at hrc htakes hloop ⊢
        rw [hrc] at hloop
        generalize kind type = k at htakes ⊢
        cases htakes with
        | str s =>
          have hread := hargs 0 s rfl
          dsimp only
          rw [Nat.add_zero] at hread
          rw [if_pos hread]
          exact vprintf_of_vprintfLoop hout hargs.tail hloop
        | char | int => exact vprintf_of_vprintfLoop hout hargs.tail hloop
        | none | percent => exact vprintf_of_vprintfLoop hout hargs hloop

theorem Junk.MayHold.cons {i : ℕ} {a : Arg} {args : List Arg}
    (ha : ∀ s, a = .str s → junk.arg i ≠ 0 ∧ junk.readable (junk.arg i))
    (h : junk.MayHold (i + 1) args) : junk.MayHold i (a :: args) := by
  intro j s hj
  cases j with
  | zero => exact ha s (Option.some.inj hj)
  | succ j =>
    have hnext := h j s (by rwa [List.getElem?_cons_succ] at hj)
    rwa [Nat.add_assoc, Nat.add_comm 1] at hnext

/-- Arguments that print no more than one byte each. -/
def shortArgs : Format → List Arg
  | .str => [.str []]
  | .char | .int => [.word 0]
  | .none | .percent | .invalid => []

theorem numberText_zero (type : ℕ) : numberText type 0 = .ok [48] := by
  rw [numberText]
  split_ifs <;> decide

/-- The console takes what fits into the `int`. -/
theorem print_serialOut {ctx : PrintCtx CString} {text : CString}
    (hlt : ctx.written + text.length < 2 ^ 31) : print serialOut ctx text text.length =
      .ok (0, ⟨ctx.written + text.length, ctx.sink ++ text⟩) := by
  rw [print, serialOut, readBytes_all, ok_bind, ok_bind]
  dsimp only
  rw [if_neg (Int.lt_irrefl 0), if_neg (Int.not_le.mpr hlt)]

/-- A piece with such arguments prints no more than it is long. -/
theorem vprintfPiece_short (ctx : PrintCtx CString) {type : ℕ} {start : CString}
    (hvalid : kind type ≠ .invalid) (hpos : 0 ≤ ctx.written) (hstart : 0 < start.length)
    (hlt : ctx.written + start.length < 2 ^ 31) : ∃ text : CString, text.length ≤ start.length ∧
      ∀ args, vprintfPiece serialOut ctx (shortArgs (kind type) ++ args) type start =
        .ok (0, ⟨ctx.written + text.length, ctx.sink ++ text⟩, args) := by
  have hprint : ∀ text : CString, text.length ≤ start.length →
      print serialOut ctx text text.length =
        .ok (0, ⟨ctx.written + text.length, ctx.sink ++ text⟩) := by
    intro text hle
    exact print_serialOut (by omega)
  simp only [vprintfPiece]
  rw [kind] at hvalid ⊢
  split_ifs at hvalid ⊢
  · refine ⟨[], Nat.zero_le _, fun args => ?_⟩
    rw [shortArgs, List.singleton_append, vaStr, ok_bind]
    dsimp only
    rw [List.length_nil, toInt_of_lt (by decide)]
    exact bind_of_ok (hprint [] (Nat.zero_le _)) _
  · refine ⟨[UInt8.ofNat 0], hstart, fun args => ?_⟩
    rw [shortArgs, List.singleton_append, vaWord, ok_bind]
    exact bind_of_ok (hprint [UInt8.ofNat 0] hstart) _
  · refine ⟨[48], hstart, fun args => ?_⟩
    rw [shortArgs, List.singleton_append, printNumber, vaWord, ok_bind]
    dsimp only
    rw [numberText_zero, ok_bind, List.length_singleton, toInt_of_lt (by decide)]
    exact bind_of_ok (hprint [48] hstart) _
  · refine ⟨start, Nat.le_refl _, fun args => ?_⟩
    rw [shortArgs, List.nil_append, toInt_of_lt (by omega)]
    exact bind_of_ok (hprint start (Nat.le_refl _)) _
  · refine ⟨[37], hstart, fun args => ?_⟩
    rw [shortArgs, List.nil_append]
    exact bind_of_ok (hprint [37] hstart) _
  · exact absurd rfl hvalid

theorem vprintfPiece_invalid {ctx : PrintCtx σ} {type : ℕ} (h : kind type = .invalid)
    (args : List Arg) (start : CString) :
    vprintfPiece out ctx args type start = .ok (-1, ctx, args) := by
  rw [vprintfPiece]
  rw [kind] at h
  split_ifs at h ⊢
  rfl

/-- Where what is left of the loop comes to its end, the whole loop does, with some arguments that may
    be there. -/
theorem exists_vprintfLoop : ∀ {n i : ℕ} (ctx : PrintCtx CString) {fmt : CString},
    vprintf junk n i fmt = .ok () → fmt.length < n → 0 ≤ ctx.written →
    ctx.written + fmt.length < 2 ^ 31 →
    ∃ args, junk.MayHold i args ∧ ∃ r, vprintfLoop serialOut n 0 ctx fmt args = .ok r
  | n + 1, _, ctx, [], _, _, _, _ => ⟨[], by rintro j s ⟨⟩, (0, ctx, []), rfl⟩
  | n + 1, i, ctx, c :: fmt, h, hn, hpos, hlt => by
      have hne : c :: fmt ≠ [] := List.cons_ne_nil c fmt
      have hlen := decodeFormat_shorter c fmt
      rw [vprintf, decode] at h
      simp only [vprintfLoop, if_pos (And.intro (Int.le_refl 0) hne)]
      generalize decodeFormat FMT_INVALID (c :: fmt) = d at h hlen ⊢
      obtain ⟨type, rest⟩ := d
      have hstart : ((c :: fmt).take ((c :: fmt).length - rest.length)).length =
          (c :: fmt).length - rest.length := by
        rw [List.length_take]
        omega
      generalize (c :: fmt).take ((c :: fmt).length - rest.length) = start at hstart ⊢
      rw [List.length_cons] at hlt hn hstart
      dsimp only at h hlen ⊢
      by_cases hvalid : kind type = .invalid
      · obtain ⟨k, rfl⟩ : ∃ k, n = k + 1 := ⟨n - 1, by omega⟩
        refine ⟨[], by rintro j s ⟨⟩, (-1, ctx, []), ?_⟩
        rw [vprintfPiece_invalid hvalid, ok_bind, vprintfLoop]
        exact if_neg fun hrc => absurd hrc.1 (show ¬ (0 : ℤ) ≤ -1 by decide)
      · have hnext : ∃ i', vprintf junk n i' rest = .ok () ∧ ∀ args, junk.MayHold i' args →
            junk.MayHold i (shortArgs (kind type) ++ args) := by
          generalize kind type = k at h hvalid ⊢
          cases k with
          | invalid => exact absurd rfl hvalid
          | str =>
            dsimp only at h
            split at h
            · rename_i hread
              exact ⟨i + 1, h, fun args hargs => .cons (fun _ _ => hread) hargs⟩
            · cases h
          | char | int => exact ⟨i + 1, h, fun args hargs => .cons (by rintro s ⟨⟩) hargs⟩
          | none | percent => exact ⟨i, h, fun args hargs => hargs⟩
        obtain ⟨i', hloop, hhold⟩ := hnext
        obtain ⟨text, hle, hpiece⟩ :=
          vprintfPiece_short ctx hvalid hpos (show 0 < start.length by omega) (by omega)
        obtain ⟨args, hargs, r, hr⟩ := exists_vprintfLoop
          ⟨ctx.written + text.length, ctx.sink ++ text⟩ hloop (by omega) (by dsimp only; omega)
          (by dsimp only; omega)
        exact ⟨_, hhold args hargs, r, by rw [hpiece, ok_bind]; exact hr⟩

/-- Of a format of ordinary length, `printf` returns exactly when the whole of it does, with some
    arguments that may be there. -/
theorem printf_iff_output {fmt : CString} (hlen : fmt.length < 2 ^ 31) (console : CString) :
    printf junk fmt = .ok () ↔
      ∃ args, junk.MayHold 0 args ∧ ∃ r, Output.printf console fmt args = .ok r := by
  constructor
  · intro h
    obtain ⟨args, hargs, r, hr⟩ := exists_vprintfLoop ⟨0, console⟩ h (Nat.lt_succ_self _)
      (Int.le_refl 0) (by dsimp only; omega)
    refine ⟨args, hargs, ?_⟩
    rw [Output.printf, Output.vprintf, vprintfTo, hr]
    exact ⟨_, rfl⟩
  · rintro ⟨args, hargs, r, hr⟩
    obtain ⟨t, hprint, -⟩ := bind_eq_ok.mp hr
    obtain ⟨u, hloop, -⟩ := bind_eq_ok.mp hprint
    exact vprintf_of_vprintfLoop serialOut_accepts hargs hloop

/-! ### Which arguments are taken -/

/-- What `__vprintf` decodes, up to the first invalid directive. -/
def formatsIn : ℕ → CString → List Format
  | 0, _ | _ + 1, [] => []
  | n + 1, c :: fmt =>
    match decode (c :: fmt) with
    | (.invalid, _) => [.invalid]
    | (type, fmt) => type :: formatsIn n fmt

def formats (fmt : CString) : List Format := formatsIn (fmt.length + 1) fmt

/-- A format without `%s` is printed, whatever is found in place of the arguments. -/
theorem vprintf_ok : ∀ {n i : ℕ} {fmt : CString}, fmt.length < n →
    .str ∉ formatsIn n fmt → vprintf junk n i fmt = .ok ()
  | _ + 1, _, [], _, _ => rfl
  | n + 1, i, c :: fmt, hn, hs => by
      have hlen : (decode (c :: fmt)).2.length ≤ fmt.length := decodeFormat_shorter c fmt
      rw [formatsIn] at hs
      rw [vprintf]
      generalize decode (c :: fmt) = d at hlen hs
      obtain ⟨type, rest⟩ := d
      have hrest : rest.length < n := Nat.lt_of_le_of_lt hlen (Nat.lt_of_succ_lt_succ hn)
      cases type with
      | invalid => rfl
      | str => exact absurd List.mem_cons_self hs
      | none | char | int | percent => exact vprintf_ok hrest fun hm => hs (List.mem_cons_of_mem _ hm)

/-- A `%s` that finds a null pointer is the end. -/
theorem vprintf_null (hj : ∀ i, junk.arg i = 0) : ∀ {n i : ℕ} {fmt : CString},
    .str ∈ formatsIn n fmt → vprintf junk n i fmt = .error .fault
  | _ + 1, _, [], hs => nomatch hs
  | n + 1, i, c :: fmt, hs => by
      rw [formatsIn] at hs
      rw [vprintf]
      generalize decode (c :: fmt) = d at hs
      obtain ⟨type, rest⟩ := d
      cases type with
      | invalid => cases hs; contradiction
      | str => exact if_neg fun h => h.1 (hj i)
      | none | char | int | percent =>
        exact vprintf_null hj ((List.mem_cons.mp hs).resolve_left nofun)

/-- No assertion stops it. -/
theorem vprintf_of_ends : ∀ {n i : ℕ} {fmt : CString},
    Ends (vprintf junk n i fmt) → vprintf junk n i fmt = .ok ()
  | 0, _, _, h => h.elim
  | _ + 1, _, [], _ => rfl
  | n + 1, i, c :: fmt, h => by
      rw [vprintf] at h ⊢
      generalize decode (c :: fmt) = d at h
      obtain ⟨type, rest⟩ := d
      cases type with
      | invalid => rfl
      | str =>
        simp only at h ⊢
        split at h
        · rename_i hread
          rw [if_pos hread]
          exact vprintf_of_ends h
        · exact h.elim
      | none | char | int | percent => exact vprintf_of_ends h

theorem printf_of_ends {fmt : CString} (h : Ends (printf junk fmt)) :
    printf junk fmt = .ok () := vprintf_of_ends h

theorem printf_ok {fmt : CString} (hs : .str ∉ formats fmt) :
    printf junk fmt = .ok () := vprintf_ok (Nat.lt_succ_self _) hs

theorem printf_null {fmt : CString} (hj : ∀ i, junk.arg i = 0)
    (hs : .str ∈ formats fmt) : printf junk fmt = .error .fault := vprintf_null hj hs

end FilesKernel.Print
