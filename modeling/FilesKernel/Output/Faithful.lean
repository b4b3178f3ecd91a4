import FilesKernel.Output.Conversions

/-! Which formats `__vprintf` interprets as C does.

    `decode_format` reads the modifiers `hh` and `h`, but `print_number` prints the `int` that was
    passed, and so a number that does not fit into a `char` or a `short`. -/

namespace FilesKernel.Output
open CExec CWord FileSystem Stdlib Numeral

variable {σ : Type} {width width' : Length → ℕ} {segs : List Segment} {items : List Item}
  {args rest : List Arg} {ts us : List CString} {b : CString}

/-! ### A sink that keeps the pieces -/

/-- The pieces that `out` was called with. -/
def recordOut : Sink (List CString) := fun _ calls buf size => do
  let bytes ← readBytes buf size
  .ok (0, calls ++ [bytes])

theorem recordOut_accepts : Accepts recordOut := by
  intro written sink buf size r h
  obtain ⟨bytes, -, h⟩ := bind_eq_ok.mp h
  rw [← Except.ok.inj h]

/-- What `out` gets of a piece. -/
def handed (t : CString) : CString := t.take (toInt t.length).toNat

theorem handed_eq (h : b.length < 2 ^ 31) : handed b = b := by
  rw [handed, toInt_of_lt h, Int.toNat_natCast, List.take_length]

theorem recordOut_follows : Follows recordOut id := fun ts t _ => by
  rw [recordOut, readBytes, if_pos ⟨Int.natCast_nonneg _, Int.le_refl _⟩, ok_bind, Int.toNat_natCast,
    List.take_length]
  rfl

/-- The pieces that were handed over. -/
theorem printAll_record : ∀ {us : List CString} {ctx ctx' : PrintCtx (List CString)},
    printAll recordOut ctx us = .ok ctx' → ctx'.sink = ctx.sink ++ us.map handed
  | [], ctx, ctx', h => by
      cases h
      rw [List.map_nil, List.append_nil]
  | u :: us, ctx, ctx', h => by
      rw [printAll] at h
      obtain ⟨⟨rc, ctx₁⟩, hprint, h⟩ := bind_eq_ok.mp h
      rw [print, recordOut, readBytes] at hprint
      split at hprint
      · rw [ok_bind, ok_bind] at hprint
        dsimp only at hprint
        rw [if_neg (Int.lt_irrefl 0)] at hprint
        split at hprint
        · cases hprint
        · cases hprint
          rw [printAll_record h, List.append_assoc]
          rfl
      · cases hprint

/-! ### Numbers that fit -/

/-- The number that is printed is the one converted to the type that the modifier names. -/
def Directive.Fits (d : Directive) : Arg → Prop
  | .word w =>
    match d.conv with
    | .d | .i => Int.bmod w (2 ^ d.length.bits) = Int.bmod w (2 ^ d.length.bitsRead)
    | .u | .x | .X | .o => w % 2 ^ d.length.bits = w % 2 ^ d.length.bitsRead
    | .p | .s | .c | .percent => True
  | .str _ => True

/-- The directives with the arguments that they take. -/
def taken : List Segment → List Arg → List (Directive × Arg)
  | [], _ => []
  | .run _ :: segs, args => taken segs args
  | .conv d :: segs, args =>
    if d.conv = .percent then taken segs args
    else match args with
      | [] => []
      | a :: args => (d, a) :: taken segs args

theorem taken_percent {d : Directive} (h : d.conv = .percent) (segs : List Segment)
    (args : List Arg) : taken (.conv d :: segs) args = taken segs args := by
  cases args <;> exact if_pos h

theorem length_number_lt (conv : Conv) (length : Length) (w : ℕ) :
    (conv.number length.bitsRead w).length < 2 ^ 31 := by
  have hbits : 2 ^ length.bitsRead ≤ 2 ^ 64 :=
    Nat.pow_le_pow_right (by decide) (by cases length <;> decide)
  have hmod := Nat.mod_lt w (Nat.two_pow_pos length.bitsRead)
  have hnum : ∀ base n, 1 < base → n < 2 ^ 64 → (numeral base n).length < 65 := fun base n hb hn =>
    Nat.lt_succ_of_le (length_numeral_le hb (by decide)
      (Nat.lt_of_lt_of_le hn (Nat.pow_le_pow_left hb 64)))
  have hsigned : ∀ z : ℤ, z.natAbs < 2 ^ 64 → (signed 10 z).length < 66 := fun z hz => by
    have := hnum 10 z.natAbs (by decide) hz
    rw [signed]
    split
    · rw [List.length_cons]
      omega
    · omega
  have hbmod : (Int.bmod w (2 ^ length.bitsRead)).natAbs < 2 ^ 64 := by
    have := bmod_bounds w (m := 2 ^ length.bitsRead)
      ((bitsRead_eq length).imp (fun e => by rw [e]) (fun e => by rw [e]))
    omega
  have hptr := Nat.mod_lt w (Nat.two_pow_pos 64)
  cases conv with
  | d | i => exact Nat.lt_trans (hsigned _ hbmod) (by decide)
  | u | x | X | o => exact Nat.lt_trans (hnum _ _ (by decide) (by omega)) (by decide)
  | p => exact Nat.lt_trans (hnum _ _ (by decide) hptr) (by decide)
  | s | c | percent => exact Nat.two_pow_pos 31

/-- Different numbers have different texts. -/
theorem number_eq_iff (d : Directive) (w : ℕ) :
    d.conv.number d.length.bits w = d.conv.number d.length.bitsRead w ↔ d.Fits (.word w) := by
  rw [Directive.Fits]
  cases d.conv with
  | d | i => exact signed_inj (by decide) (by decide)
  | u | x | X | o => exact numeral_inj (by decide) (by decide)
  | p | s | c | percent => exact iff_of_true rfl trivial

/-- A directive that takes an argument: the text that is printed for it, and when it is right. -/
theorem text_read {d : Directive} (h : d.conv ≠ .percent) {t : CString}
    (ht : d.conv.text d.length.bits args = some (t, rest)) :
    ∃ a u, args = a :: rest ∧ d.conv.text d.length.bitsRead args = some (u, rest) ∧
      (t = u ∨ u.length < 2 ^ 31) ∧ (t = u ↔ d.Fits a) := by
  by_cases hnum : d.conv.IsNumber
  · obtain ⟨w, rfl, rfl⟩ := text_number hnum ht
    refine ⟨.word w, d.conv.number d.length.bitsRead w, rfl, ?_,
      Or.inr (length_number_lt d.conv d.length w), number_eq_iff d w⟩
    obtain ⟨hs, hc, hp⟩ := hnum
    cases hconv : d.conv <;> first | rfl | (exfalso; tauto)
  · have hkinds : d.conv = .s ∨ d.conv = .c := by
      rw [Conv.IsNumber] at hnum
      tauto
    have hfits : ∀ a, d.Fits a := fun a => by
      cases a with
      | word w => rcases hkinds with hc | hc <;> simp [Directive.Fits, hc]
      | str s => trivial
    rcases hkinds with hc | hc <;> rw [hc] at ht ⊢ <;> cases args with
    | nil => cases ht
    | cons a args =>
      cases a <;> cases ht
      exact ⟨_, _, rfl, rfl, Or.inl rfl, iff_of_true rfl (hfits _)⟩

/-- The pieces that are printed, and when they are right. -/
theorem pieces_read : ∀ {segs : List Segment} {args : List Arg} {ts : List CString},
    pieces Length.bits segs args = some (ts, rest) →
    ∃ us, pieces Length.bitsRead segs args = some (us, rest) ∧
      List.Forall₂ (fun t u => t = u ∨ u.length < 2 ^ 31) ts us ∧
      (ts = us ↔ ∀ p ∈ taken segs args, p.1.Fits p.2)
  | [], args, ts, hp => by
      cases hp
      exact ⟨[], rfl, List.Forall₂.nil, iff_of_true rfl fun _ hq => absurd hq List.not_mem_nil⟩
  | .run s :: segs, args, ts, hp => by
      rw [pieces] at hp
      obtain ⟨⟨ts', rest'⟩, hp', hts⟩ := Option.bind_eq_some_iff.mp hp
      cases hts
      obtain ⟨us, hus, hall, hiff⟩ := pieces_read hp'
      refine ⟨s.map Subtype.val :: us, ?_, List.Forall₂.cons (Or.inl rfl) hall, ?_⟩
      · rw [pieces, hus]
        rfl
      · rw [taken, ← hiff, List.cons.injEq, and_iff_right rfl]
  | .conv d :: segs, args, ts, hp => by
      rw [pieces] at hp
      obtain ⟨⟨t, args'⟩, ht, hp⟩ := Option.bind_eq_some_iff.mp hp
      obtain ⟨⟨ts', rest'⟩, hp', hts⟩ := Option.bind_eq_some_iff.mp hp
      cases hts
      obtain ⟨us, hus, hall, hiff⟩ := pieces_read hp'
      by_cases hpercent : d.conv = .percent
      · have hread : d.conv.text d.length.bitsRead args = some (t, args') := by
          rw [hpercent] at ht ⊢
          exact ht
        refine ⟨t :: us, ?_, List.Forall₂.cons (Or.inl rfl) hall, ?_⟩
        · rw [pieces, hread]
          dsimp only [Option.bind_eq_bind, Option.bind_some]
          rw [hus]
          rfl
        · rw [hpercent] at ht
          cases ht
          rw [taken_percent hpercent, ← hiff, List.cons.injEq, and_iff_right rfl]
      · obtain ⟨a, u, rfl, hread, hshort, hfits⟩ := text_read hpercent ht
        refine ⟨u :: us, ?_, List.Forall₂.cons hshort hall, ?_⟩
        · rw [pieces, hread]
          dsimp only [Option.bind_eq_bind, Option.bind_some]
          rw [hus]
          rfl
        · rw [taken, if_neg hpercent, List.cons.injEq, List.forall_mem_cons, hfits, hiff]

/-! ### The format -/

/-- `__vprintf` prints what C says, and returns its length, if and only if the output fits into an
    `int` and each number with `hh` or `h` into its type. -/
theorem vprintf_faithful_iff (hp : pieces Length.bits (segments items) args = some (ts, rest)) :
    vprintfTo recordOut [] (render items) args = .ok ((total ts : ℕ), ts, rest) ↔
      total ts < 2 ^ 31 ∧ ∀ p ∈ taken (segments items) args, p.1.Fits p.2 := by
  obtain ⟨us, hus, hall, hiff⟩ := pieces_read hp
  rw [← hiff]
  constructor
  · intro h
    rw [vprintfTo_eq recordOut_accepts [] hus] at h
    obtain ⟨ctx, hprint, hctx⟩ := bind_eq_ok.mp h
    have hresult := Prod.mk.inj (Except.ok.inj hctx)
    have hsink := (Prod.mk.inj hresult.2).1
    have hcalls := printAll_record hprint
    have hbound := printAll_written recordOut_accepts hprint
    rw [hsink, List.nil_append] at hcalls
    rw [hresult.1] at hbound
    -- every piece was handed over as a whole
    have hhanded : us.map handed = us := by
      rw [hcalls, List.forall₂_map_left_iff, List.forall₂_same] at hall
      refine (List.map_congr_left fun u hu => ?_).trans (List.map_id us)
      rcases hall u hu with heq | hshort
      · exact heq
      · exact handed_eq hshort
    refine ⟨?_, hcalls.trans hhanded⟩
    rcases us with _ | ⟨u, us⟩
    · rw [hcalls]
      decide
    · have := hbound (List.cons_ne_nil u us)
      omega
  · rintro ⟨hlt, rfl⟩
    exact vprintfTo_follows recordOut_accepts recordOut_follows hus hlt

/-- `%u` and a letter. -/
def plainItems : List Item := [.conv (plain .int .u), .lit ⟨97, by decide⟩]

theorem plainItems_pieces : pieces Length.bits (segments plainItems) [.word 7] =
    some ([[55], [97]], []) :=
  rfl

/-- A plain conversion and a letter. -/
theorem plain_faithful :
    vprintfTo recordOut [] (render plainItems) [.word 7] = .ok ((2 : ℕ), [[55], [97]], []) :=
  (vprintf_faithful_iff plainItems_pieces).mpr ⟨by decide, fun p hp => by
    rw [show p = _ from List.mem_singleton.mp hp]
    rfl⟩

/-- `%hhu` prints 300, which is 44 as an `unsigned char`. -/
theorem narrow_not_faithful :
    pieces Length.bits (segments [.conv (plain .hh .u)]) [.word 300] = some ([[52, 52]], []) ∧
    vprintfTo recordOut [] (render [.conv (plain .hh .u)]) [.word 300] ≠
      .ok ((2 : ℕ), [[52, 52]], []) := by
  refine ⟨by decide +kernel, fun h => ?_⟩
  have hrun : (vprintfTo recordOut [] (render [.conv (plain .hh .u)]) [.word 300]).toOption =
      some (3, [[51, 48, 48]], []) := by
    decide +kernel
  rw [h] at hrun
  exact absurd (Option.some.inj hrun) (by decide)

end FilesKernel.Output
