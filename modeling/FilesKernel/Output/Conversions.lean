import FilesKernel.Output.Directives

/-! What is printed for a format.

    Each segment is one piece of the output, and `__vprintf` hands the pieces to the sink one after
    the other. -/

namespace FilesKernel.Output
open CExec CWord FileSystem Stdlib Numeral

variable {σ : Type} {out : Sink σ} {width : Length → ℕ} {n : ℕ} {args rest : List Arg}
  {ts : List CString}

/-- How many bits the number of a directive has, by its modifier. -/
def Length.bits : Length → ℕ
  | hh => 8 | h => 16 | int => 32 | l => 64 | ll => 64

/-- How many of them `print_number` reads. -/
def Length.bitsRead : Length → ℕ
  | hh => 32 | h => 32 | int => 32 | l => 64 | ll => 64

/-- The text for the lower bits of a slot; a pointer is printed with all bits. -/
def Conv.number (bits w : ℕ) : Conv → CString
  | d | i => signed 10 (Int.bmod w (2 ^ bits))
  | u => numeral 10 (w % 2 ^ bits)
  | o => numeral 8 (w % 2 ^ bits)
  | x | X => numeral 16 (w % 2 ^ bits)
  | p => numeral 16 (w % 2 ^ 64)
  | s | c | percent => []

/-- The text for the next argument, and the arguments behind it, where it is one of the right kind. -/
def Conv.text (bits : ℕ) : Conv → List Arg → Option (CString × List Arg)
  | percent, args => some ([37], args)
  | s, .str text :: args => some (text, args)
  | c, .word w :: args => some ([UInt8.ofNat w], args)
  | s, _ | c, _ => none
  | conv, .word w :: args => some (conv.number bits w, args)
  | _, _ => none

/-- The pieces of the output, and the arguments that are left. -/
def pieces (width : Length → ℕ) : List Segment → List Arg → Option (List CString × List Arg)
  | [], args => some ([], args)
  | .run s :: segs, args => do
    let (ts, rest) ← pieces width segs args
    some (s.map Subtype.val :: ts, rest)
  | .conv d :: segs, args => do
    let (t, args) ← d.conv.text (width d.length) args
    let (ts, rest) ← pieces width segs args
    some (t :: ts, rest)

/-! ### Numbers -/

def Conv.IsNumber (conv : Conv) : Prop := conv ≠ s ∧ conv ≠ c ∧ conv ≠ percent

def Conv.base : Conv → ℕ
  | x | X | p => 16
  | o => 8
  | _ => 10

/-- The bits that `print_number` looks at. -/
structure TypeBits (length : Length) (conv : Conv) : Prop where
  base : (if typeOf length conv &&& FMT_HEX ≠ 0 then 16
    else if typeOf length conv &&& FMT_OCT ≠ 0 then 8 else 10) = conv.base
  signed : ¬ typeOf length conv &&& FMT_UNSIGNED ≠ 0 ↔ conv = .d ∨ conv = .i
  wide : typeOf length conv &&& FMT_LONG ≠ 0 ∨ typeOf length conv &&& FMT_LLONG ≠ 0 ↔
    length.bitsRead = 64 ∨ conv = .p
  kind : typeOf length conv &&& 0xff = FMT_INT

theorem typeBits (length : Length) {conv : Conv} (h : conv.IsNumber) : TypeBits length conv := by
  obtain ⟨hs, hc, hp⟩ := h
  cases length <;> cases conv <;>
    first | contradiction | exact ⟨by decide, by decide, by decide, by decide⟩

theorem bitsRead_eq (length : Length) : length.bitsRead = 64 ∨ length.bitsRead = 32 := by
  cases length <;> decide

theorem bmod_bounds (w : ℕ) {m : ℕ} (h : m = 2 ^ 64 ∨ m = 2 ^ 32) :
    -2 ^ 63 ≤ Int.bmod w m ∧ Int.bmod w m < 2 ^ 63 := by
  rcases h with rfl | rfl
  · have h₁ := Int.le_bmod (x := w) (m := 2 ^ 64) (by decide)
    have h₂ := Int.bmod_lt (x := w) (m := 2 ^ 64) (by decide)
    omega
  · have h₁ := Int.le_bmod (x := w) (m := 2 ^ 32) (by decide)
    have h₂ := Int.bmod_lt (x := w) (m := 2 ^ 32) (by decide)
    omega

theorem numberText_eq {length : Length} {conv : Conv} (h : conv.IsNumber) (w : ℕ) :
    numberText (typeOf length conv) w = .ok (conv.number length.bitsRead w) := by
  have hbits := typeBits length h
  have hbase : 1 < conv.base ∧ conv.base ≤ 36 := by cases conv <;> decide
  have hwide : ∀ {α : Type} (a b : α), (if typeOf length conv &&& FMT_LONG ≠ 0 then a
      else if typeOf length conv &&& FMT_LLONG ≠ 0 then a else b) =
        if length.bitsRead = 64 ∨ conv = .p then a else b := fun a b => by
    have := hbits.wide
    split_ifs <;> first | rfl | (exfalso; tauto)
  rw [numberText]
  simp only [hbits.base, hwide]
  by_cases hsigned : conv = .d ∨ conv = .i
  · have hten : conv.base = 10 := by rcases hsigned with rfl | rfl <;> rfl
    have hp : ¬ conv = .p := by rcases hsigned with rfl | rfl <;> decide
    have hnum : conv.number length.bitsRead w = signed 10 (Int.bmod w (2 ^ length.bitsRead)) := by
      rcases hsigned with rfl | rfl <;> rfl
    have hvalue : (if length.bitsRead = 64 ∨ conv = .p then asLong w else asInt w) =
        Int.bmod w (2 ^ length.bitsRead) := by
      rcases bitsRead_eq length with h64 | h32
      · rw [if_pos (Or.inl h64), h64]
        rfl
      · rw [if_neg (not_or.mpr ⟨by omega, hp⟩), h32]
        rfl
    have hbounds := bmod_bounds w (m := 2 ^ length.bitsRead)
      ((bitsRead_eq length).imp (fun e => by rw [e]) (fun e => by rw [e]))
    rw [if_neg (hbits.signed.mpr hsigned), hvalue, hnum, hten,
      lltoa_eq (by decide) (by decide) hbounds.1 hbounds.2]
  · have hnum : conv.number length.bitsRead w =
        numeral conv.base (w % 2 ^ (if length.bitsRead = 64 ∨ conv = .p then 64 else 32)) := by
      obtain ⟨hs, hc, hp⟩ := h
      rcases bitsRead_eq length with hb | hb <;> cases conv <;>
        first | contradiction | (rw [hb]; rfl)
    have hvalue : (if length.bitsRead = 64 ∨ conv = .p then w % 2 ^ 64 else w % 2 ^ 32) =
        w % 2 ^ (if length.bitsRead = 64 ∨ conv = .p then 64 else 32) := by
      split <;> rfl
    rw [if_pos (not_not.mp fun hn => hsigned (hbits.signed.mp hn)), hvalue, hnum,
      ulltoa_eq hbase.1 hbase.2 (by split <;> omega)]

/-! ### One piece -/

theorem toInt_one : toInt 1 = 1 := toInt_of_lt (by decide)

/-- The arguments behind those of a number. -/
theorem text_number {conv : Conv} (h : conv.IsNumber) {bits : ℕ} {t : CString}
    (ht : conv.text bits args = some (t, rest)) :
    ∃ w, args = .word w :: rest ∧ t = conv.number bits w := by
  obtain ⟨hs, hc, hp⟩ := h
  cases args with
  | nil => cases conv <;> contradiction
  | cons a args =>
    cases a with
    | word w => cases conv <;> first | contradiction | (cases ht; exact ⟨w, rfl, rfl⟩)
    | str s => cases conv <;> contradiction

/-- A directive prints the text for its argument. -/
theorem vprintfPiece_conv (ctx : PrintCtx σ) (d : Directive) (start : CString) {t : CString}
    (ht : d.conv.text d.length.bitsRead args = some (t, rest)) :
    vprintfPiece out ctx args d.type start = (do
      let (rc, ctx) ← print out ctx t (toInt t.length)
      .ok (rc, ctx, rest)) := by
  obtain ⟨flag, width, precision, length, conv⟩ := d
  rw [Directive.type]
  by_cases hnum : conv.IsNumber
  · obtain ⟨w, rfl, rfl⟩ := text_number hnum ht
    have hkind := (typeBits length hnum).kind
    rw [vprintfPiece, hkind, if_neg (by decide), if_neg (by decide), if_pos rfl, printNumber, vaWord,
      ok_bind]
    dsimp only
    rw [numberText_eq hnum, ok_bind]
  · have hkinds : conv = .s ∨ conv = .c ∨ conv = .percent := by
      rw [Conv.IsNumber] at hnum
      tauto
    rcases hkinds with rfl | rfl | rfl
    · have hkind : typeOf length .s &&& 0xff = FMT_STR := by cases length <;> decide
      cases args with
      | nil => cases ht
      | cons a args =>
        cases a with
        | word w => cases ht
        | str s =>
          cases ht
          rw [vprintfPiece, hkind, if_pos rfl, vaStr, ok_bind]
    · have hkind : typeOf length .c &&& 0xff = FMT_CHAR := by cases length <;> decide
      cases args with
      | nil => cases ht
      | cons a args =>
        cases a with
        | str s => cases ht
        | word w =>
          cases ht
          rw [vprintfPiece, hkind, if_neg (by decide), if_pos rfl, vaWord, ok_bind,
            List.length_singleton, toInt_one]
    · have hkind : typeOf length .percent &&& 0xff = FMT_PERCENT := by cases length <;> decide
      cases ht
      rw [vprintfPiece, hkind, if_neg (by decide), if_neg (by decide), if_neg (by decide),
        if_neg (by decide), if_pos rfl, List.length_singleton, toInt_one]

/-- Text is printed as it is. -/
theorem vprintfPiece_run (ctx : PrintCtx σ) (args : List Arg) (start : CString) :
    vprintfPiece out ctx args FMT_NONE start = (do
      let (rc, ctx) ← print out ctx start (toInt start.length)
      .ok (rc, ctx, args)) := by
  rw [vprintfPiece, if_neg (by decide), if_neg (by decide), if_neg (by decide), if_pos (by decide)]

/-! ### All pieces -/

/-- The sink does not report errors. -/
def Accepts (out : Sink σ) : Prop :=
  ∀ {written sink buf size r}, out written sink buf size = .ok r → 0 ≤ r.1

/-- The pieces are printed one after the other. -/
def printAll (out : Sink σ) (ctx : PrintCtx σ) : List CString → Exec (PrintCtx σ)
  | [] => .ok ctx
  | t :: ts => do
    let (_, ctx) ← print out ctx t (toInt t.length)
    printAll out ctx ts

theorem print_rc (hout : Accepts out) {ctx : PrintCtx σ} {buf : CString} {size : ℤ}
    {r : ℤ × PrintCtx σ} (h : print out ctx buf size = .ok r) : r.1 = 0 := by
  rw [print, bind_eq_ok] at h
  obtain ⟨a, ha, h⟩ := h
  have hrc := hout ha
  dsimp only at h
  rw [if_neg (by omega)] at h
  split at h
  · cases h
  · rw [← Except.ok.inj h]

theorem segment_ne_nil {seg : Segment} {segs : List Segment} (h : Apart (seg :: segs)) :
    seg.bytes ≠ [] := by
  cases seg with
  | run s => exact fun hs => h.1 (List.map_eq_nil_iff.mp hs)
  | conv d => exact List.cons_ne_nil _ _

/-- The loop goes from a segment to the next. -/
theorem vprintfLoop_cons {seg : Segment} {segs : List Segment} (h : Apart (seg :: segs))
    (hout : Accepts out) {ctx : PrintCtx σ} {t : CString} {args' : List Arg} {type : ℕ}
    (htype : decodeFormat FMT_INVALID (seg.bytes ++ segs.flatMap Segment.bytes) =
      (type, segs.flatMap Segment.bytes))
    (hpiece : vprintfPiece out ctx args type seg.bytes = (do
      let (rc, ctx) ← print out ctx t (toInt t.length)
      .ok (rc, ctx, args')))
    (hrest : ∀ ctx, vprintfLoop out n 0 ctx (segs.flatMap Segment.bytes) args' = (do
      let ctx ← printAll out ctx ts
      .ok (0, ctx, rest))) :
    vprintfLoop out (n + 1) 0 ctx (seg.bytes ++ segs.flatMap Segment.bytes) args = (do
      let ctx ← printAll out ctx (t :: ts)
      .ok (0, ctx, rest)) := by
  have hne : seg.bytes ++ segs.flatMap Segment.bytes ≠ [] := fun hnil =>
    segment_ne_nil h (List.append_eq_nil_iff.mp hnil).1
  have htake : (seg.bytes ++ segs.flatMap Segment.bytes).take
      ((seg.bytes ++ segs.flatMap Segment.bytes).length - (segs.flatMap Segment.bytes).length) =
        seg.bytes := by
    rw [List.length_append, Nat.add_sub_cancel, List.take_left]
  rw [vprintfLoop, if_pos ⟨Int.le_refl 0, hne⟩, htype]
  dsimp only
  rw [htake, hpiece, printAll]
  cases hprint : print out ctx t (toInt t.length) with
  | error e => rfl
  | ok r =>
    obtain ⟨rc, ctx'⟩ := r
    have hrc : rc = 0 := print_rc hout hprint
    rw [ok_bind, ok_bind, ok_bind, hrc]
    exact hrest ctx'

/-- The loop prints the pieces of the segments. -/
theorem vprintfLoop_eq (hout : Accepts out) : ∀ {segs : List Segment} {n : ℕ} {ctx : PrintCtx σ}
    {args : List Arg} {ts : List CString}, Apart segs →
    pieces Length.bitsRead segs args = some (ts, rest) → (segs.flatMap Segment.bytes).length < n →
    vprintfLoop out n 0 ctx (segs.flatMap Segment.bytes) args = (do
      let ctx ← printAll out ctx ts
      .ok (0, ctx, rest))
  | [], n + 1, ctx, args, ts, _, hp, _ => by
      cases hp
      rw [vprintfLoop, if_neg fun h => h.2 rfl]
      rfl
  | .run s :: segs, n + 1, ctx, args, ts, h, hp, hn => by
      rw [List.flatMap_cons, List.length_append] at hn
      have hpos := List.length_pos_of_ne_nil (segment_ne_nil h)
      rw [pieces] at hp
      obtain ⟨⟨ts', rest'⟩, hp', hts⟩ := Option.bind_eq_some_iff.mp hp
      cases hts
      exact vprintfLoop_cons h hout (decodeFormat_eq h) (vprintfPiece_run ctx args _)
        fun ctx => vprintfLoop_eq hout h.2.2 hp' (by omega)
  | .conv d :: segs, n + 1, ctx, args, ts, h, hp, hn => by
      rw [List.flatMap_cons, List.length_append] at hn
      have hpos := List.length_pos_of_ne_nil (segment_ne_nil h)
      rw [pieces] at hp
      obtain ⟨⟨t, args'⟩, ht, hp⟩ := Option.bind_eq_some_iff.mp hp
      obtain ⟨⟨ts', rest'⟩, hp', hts⟩ := Option.bind_eq_some_iff.mp hp
      cases hts
      exact vprintfLoop_cons h hout (decodeFormat_eq h) (vprintfPiece_conv ctx d _ ht)
        fun ctx => vprintfLoop_eq hout h hp' (by omega)

/-- `__vprintf` prints the pieces of the format. -/
theorem vprintfTo_eq (hout : Accepts out) {items : List Item} {ts : List CString} (sink : σ)
    (hp : pieces Length.bitsRead (segments items) args = some (ts, rest)) :
    vprintfTo out sink (render items) args = (do
      let ctx ← printAll out ⟨0, sink⟩ ts
      .ok (ctx.written, ctx.sink, rest)) := by
  rw [vprintfTo, ← segments_bytes items, vprintfLoop_eq hout (segments_apart items) hp
    (Nat.lt_succ_self _)]
  cases printAll out ⟨0, sink⟩ ts with
  | error e => rfl
  | ok ctx => rfl

/-! ### The sinks -/

/-- The number of bytes in all pieces. -/
def total (ts : List CString) : ℕ := ts.flatten.length

theorem total_cons (t : CString) (ts : List CString) : total (t :: ts) = t.length + total ts := by
  rw [total, List.flatten_cons, List.length_append, total]

theorem total_append (ts us : List CString) : total (ts ++ us) = total ts + total us := by
  rw [total, List.flatten_append, List.length_append, total, total]

/-- After the pieces `ts`, the sink is in the state `f ts`. -/
def Follows (out : Sink σ) (f : List CString → σ) : Prop :=
  ∀ ts t, total ts + t.length < 2 ^ 31 → out (total ts) (f ts) t t.length = .ok (0, f (ts ++ [t]))

/-- Where the output fits into an `int`, all pieces get to the sink. -/
theorem printAll_follows {f : List CString → σ} (hf : Follows out f) :
    ∀ {us : List CString} (ts : List CString), total (ts ++ us) < 2 ^ 31 →
      printAll out ⟨total ts, f ts⟩ us = .ok ⟨total (ts ++ us), f (ts ++ us)⟩
  | [], ts, _ => by
      rw [List.append_nil]
      rfl
  | u :: us, ts, h => by
      have hsum := total_append ts (u :: us)
      rw [total_cons] at hsum
      have hnext : ((total ts : ℤ) + (u.length : ℤ)) = (total (ts ++ [u]) : ℕ) := by
        rw [total_append, total_cons, total, total, List.flatten_nil, List.length_nil, Nat.add_zero]
        exact (Int.natCast_add _ _).symm
      have hprint : print out ⟨total ts, f ts⟩ u (toInt u.length) =
          .ok (0, ⟨total (ts ++ [u]), f (ts ++ [u])⟩) := by
        rw [toInt_of_lt (by omega), print]
        dsimp only
        rw [hf ts u (by omega), ok_bind]
        dsimp only
        rw [if_neg (Int.lt_irrefl 0), if_neg (by omega), hnext]
      rw [printAll, hprint, ok_bind]
      dsimp only
      rw [List.append_cons ts u us] at h ⊢
      exact printAll_follows hf _ h

/-- `__vprintf` hands over all of the output, and returns its length. -/
theorem vprintfTo_follows (hout : Accepts out) {f : List CString → σ} (hf : Follows out f)
    {items : List Item} {us : List CString}
    (hp : pieces Length.bitsRead (segments items) args = some (us, rest)) (hlt : total us < 2 ^ 31) :
    vprintfTo out (f []) (render items) args = .ok (total us, f us, rest) := by
  have hall : printAll out ⟨0, f []⟩ us = .ok ⟨total us, f us⟩ := printAll_follows hf [] hlt
  rw [vprintfTo_eq hout (f []) hp, hall, ok_bind]

/-- The sum is checked at every piece. -/
theorem printAll_written (hout : Accepts out) : ∀ {us : List CString} {ctx ctx' : PrintCtx σ},
    printAll out ctx us = .ok ctx' → us ≠ [] → ctx'.written < 2 ^ 31
  | [], _, _, _, hne => absurd rfl hne
  | u :: us, ctx, ctx', h, _ => by
      rw [printAll] at h
      obtain ⟨⟨rc, ctx₁⟩, hprint, h⟩ := bind_eq_ok.mp h
      cases us with
      | cons u' us => exact printAll_written hout h (List.cons_ne_nil u' us)
      | nil =>
        cases h
        rw [print] at hprint
        obtain ⟨r, hr, hprint⟩ := bind_eq_ok.mp hprint
        dsimp only at hprint
        rw [if_neg (Int.not_lt.mpr (hout hr))] at hprint
        split at hprint
        · cases hprint
        · cases hprint
          dsimp only
          omega

end FilesKernel.Output
