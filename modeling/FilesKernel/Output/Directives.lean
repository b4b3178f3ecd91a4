import FilesKernel.Output.Model

/-! The formats that are understood, and how they are decoded.

    A format is a list of literal bytes and directives. `decode_format` takes the literal bytes up to
    the next directive at once, so that the pieces of the output are those of the segments. -/

namespace FilesKernel.Output
open CExec CWord FileSystem Stdlib

inductive Flag where | minus | plus | space | hash | zero
  deriving DecidableEq, Repr

inductive Length where | int | hh | h | l | ll
  deriving DecidableEq, Repr

inductive Conv where | d | i | u | x | X | o | p | s | c | percent
  deriving DecidableEq, Repr

def Flag.byte : Flag → UInt8
  | minus => 45 | plus => 43 | space => 32 | hash => 35 | zero => 48

def Length.bytes : Length → CString
  | int => [] | hh => [104, 104] | h => [104] | l => [108] | ll => [108, 108]

def Conv.byte : Conv → UInt8
  | d => 100 | i => 105 | u => 117 | x => 120 | X => 88 | o => 111 | p => 112 | s => 115 | c => 99
  | percent => 37

def digitByte (d : Fin 10) : UInt8 := UInt8.ofNat (48 + d)

/-- What stands behind a `%`. -/
structure Directive where
  flag : Option Flag
  width : List (Fin 10)
  precision : Option (List (Fin 10))
  length : Length
  conv : Conv
  deriving DecidableEq, Repr

/-- `%d` and the like. -/
def plain (length : Length) (conv : Conv) : Directive := ⟨none, [], none, length, conv⟩

/-- A byte of the text between the directives. -/
abbrev Literal := { c : UInt8 // c ≠ 0 ∧ c ≠ 37 }

inductive Item where
  | lit (c : Literal)
  | conv (d : Directive)

def flagBytes : Option Flag → CString
  | none => []
  | some f => [f.byte]

def precisionBytes : Option (List (Fin 10)) → CString
  | none => []
  | some ds => 46 :: ds.map digitByte

/-- The bytes of a directive behind its `%`. -/
def Directive.body (d : Directive) : CString :=
  flagBytes d.flag ++ (d.width.map digitByte ++
    (precisionBytes d.precision ++ (d.length.bytes ++ [d.conv.byte])))

def Item.bytes : Item → CString
  | lit c => [c.1]
  | conv d => 37 :: d.body

/-- The format string. -/
def render (items : List Item) : CString := items.flatMap Item.bytes

/-! ### Segments -/

/-- A directive, or the text up to the next one. -/
inductive Segment where
  | run (s : List Literal)
  | conv (d : Directive)

def Segment.bytes : Segment → CString
  | run s => s.map Subtype.val
  | conv d => 37 :: d.body

/-- A byte of text in front. -/
def consLit (c : Literal) : List Segment → List Segment
  | .run s :: segs => .run (c :: s) :: segs
  | segs => .run [c] :: segs

def segments : List Item → List Segment
  | [] => []
  | .lit c :: items => consLit c (segments items)
  | .conv d :: items => .conv d :: segments items

/-- The texts are not empty, and between two of them there is a directive. -/
def Apart : List Segment → Prop
  | [] => True
  | .run s :: segs => s ≠ [] ∧ (∀ t, segs.head? ≠ some (.run t)) ∧ Apart segs
  | .conv _ :: segs => Apart segs

theorem consLit_bytes (c : Literal) : ∀ segs : List Segment,
    (consLit c segs).flatMap Segment.bytes = c.1 :: segs.flatMap Segment.bytes
  | [] => rfl
  | .run _ :: _ => rfl
  | .conv _ :: _ => rfl

theorem consLit_apart (c : Literal) : ∀ {segs : List Segment}, Apart segs → Apart (consLit c segs)
  | [], _ => ⟨List.cons_ne_nil _ _, nofun, trivial⟩
  | .run _ :: _, ⟨_, hhead, hsegs⟩ => ⟨List.cons_ne_nil _ _, hhead, hsegs⟩
  | .conv _ :: _, hsegs => ⟨List.cons_ne_nil _ _, by simp, hsegs⟩

theorem segments_bytes : ∀ items : List Item,
    (segments items).flatMap Segment.bytes = render items
  | [] => rfl
  | .lit c :: items => by
      rw [segments, consLit_bytes, segments_bytes items]
      rfl
  | .conv d :: items => by
      rw [segments, List.flatMap_cons, segments_bytes items]
      rfl

theorem segments_apart : ∀ items : List Item, Apart (segments items)
  | [] => trivial
  | .lit c :: items => consLit_apart c (segments_apart items)
  | .conv _ :: items => segments_apart items

/-! ### Decoding -/

/-- The modifier as a bit. -/
def Length.spec : Length → ℕ
  | int => 0 | hh => FMT_SSHORT | h => FMT_SHORT | l => FMT_LONG | ll => FMT_LLONG

/-- What a directive is decoded to. -/
def typeOf (length : Length) (conv : Conv) : ℕ :=
  letterType conv.byte ||| letterSpec conv.byte length.spec

def Directive.type (d : Directive) : ℕ := typeOf d.length d.conv

theorem digitByte_isDigit : ∀ d : Fin 10, isDigit (digitByte d) = true := by decide

theorem skipDigits_digits {fmt : CString} (h : ∀ c ∈ fmt.head?, isDigit c = false) :
    ∀ ds : List (Fin 10), skipDigits (ds.map digitByte ++ fmt) = fmt
  | [] => by
      cases fmt with
      | nil => rfl
      | cons c fmt =>
        rw [List.map_nil, List.nil_append, skipDigits, List.dropWhile_cons_of_neg]
        rw [h c rfl]
        exact Bool.false_ne_true
  | d :: ds => by
      rw [skipDigits, List.map_cons, List.cons_append, List.dropWhile_cons_of_pos (digitByte_isDigit d)]
      exact skipDigits_digits h ds

/-- A zero in front of the width is taken for the flag. -/
theorem skip_flag_width {fmt : CString} (h : ∀ c ∈ fmt.head?, isDigit c = false)
    (h' : ∀ c ∈ fmt.head?, c ∉ ([45, 43, 32, 35, 48] : CString)) (flag : Option Flag)
    (width : List (Fin 10)) :
    skipDigits (skipFlag (flagBytes flag ++ (width.map digitByte ++ fmt))) = fmt := by
  cases flag with
  | some f =>
    have hskip : skipFlag (flagBytes (some f) ++ (width.map digitByte ++ fmt)) =
        width.map digitByte ++ fmt := by
      cases f <;> rfl
    rw [hskip, skipDigits_digits h]
  | none =>
    cases width with
    | nil =>
      have hskip : skipFlag fmt = fmt := by
        cases fmt with
        | nil => rfl
        | cons c fmt => exact if_neg (h' c rfl)
      rw [flagBytes, List.nil_append, List.map_nil, List.nil_append, hskip]
      exact skipDigits_digits h []
    | cons d width =>
      rw [flagBytes, List.nil_append, List.map_cons, List.cons_append, skipFlag]
      split
      · exact skipDigits_digits h width
      · exact skipDigits_digits h (d :: width)

theorem skip_precision {fmt : CString} (h : ∀ c ∈ fmt.head?, isDigit c = false)
    (h' : ∀ c ∈ fmt.head?, c ≠ 46) (precision : Option (List (Fin 10))) :
    skipPrecision (precisionBytes precision ++ fmt) = fmt := by
  cases precision with
  | some ds =>
    rw [precisionBytes, List.cons_append, skipPrecision, if_pos rfl]
    exact skipDigits_digits h ds
  | none =>
    cases fmt with
    | nil => rfl
    | cons c fmt => exact if_neg (h' c rfl)

theorem lengthSpec_eq (length : Length) (conv : Conv) (fmt : CString) :
    lengthSpec (length.bytes ++ (conv.byte :: fmt)) = (length.spec, conv.byte :: fmt) := by
  cases length <;> cases conv <;> rfl

/-- A directive is decoded as a whole. -/
theorem decodeDirective_eq (d : Directive) (fmt : CString) :
    decodeDirective (d.body ++ fmt) = (d.type, fmt) := by
  have hbody : d.body ++ fmt = flagBytes d.flag ++ (d.width.map digitByte ++
      (precisionBytes d.precision ++ (d.length.bytes ++ (d.conv.byte :: fmt)))) := by
    simp [Directive.body]
  -- behind the digits there is a point or a letter
  have hlength : ∀ c ∈ (d.length.bytes ++ (d.conv.byte :: fmt)).head?,
      isDigit c = false ∧ c ≠ 46 ∧ c ∉ ([45, 43, 32, 35, 48] : CString) := by
    intro c hc
    cases hl : d.length <;> cases hv : d.conv <;> rw [hl, hv] at hc <;> cases hc <;> decide
  have hprecision : ∀ c ∈ (precisionBytes d.precision ++
      (d.length.bytes ++ (d.conv.byte :: fmt))).head?,
      isDigit c = false ∧ c ∉ ([45, 43, 32, 35, 48] : CString) := by
    intro c hc
    cases hp : d.precision with
    | some ds =>
      rw [hp] at hc
      cases hc
      decide
    | none =>
      rw [hp] at hc
      exact ⟨(hlength c hc).1, (hlength c hc).2.2⟩
  rw [hbody, decodeDirective, skip_flag_width (fun c hc => (hprecision c hc).1)
    (fun c hc => (hprecision c hc).2), skip_precision (fun c hc => (hlength c hc).1)
    (fun c hc => (hlength c hc).2.1), lengthSpec_eq]
  rfl

/-- Text is decoded up to the next directive. -/
theorem decodeFormat_run {fmt : CString} (h : ∀ c ∈ fmt.head?, c = 37) :
    ∀ s : List Literal, decodeFormat FMT_NONE (s.map Subtype.val ++ fmt) = (FMT_NONE, fmt)
  | [] => by
      cases fmt with
      | nil => rfl
      | cons c fmt => exact if_pos ⟨h c rfl, by decide⟩
  | c :: s => by
      rw [List.map_cons, List.cons_append, decodeFormat, if_neg fun hc => c.2.2 hc.1,
        if_pos c.2.2]
      exact decodeFormat_run h s

theorem head_segments : ∀ {segs : List Segment}, Apart segs → (∀ t, segs.head? ≠ some (.run t)) →
    ∀ c ∈ (segs.flatMap Segment.bytes).head?, c = 37
  | [], _, _, _, hc => nomatch hc
  | .run t :: _, _, h, _, _ => absurd rfl (h t)
  | .conv _ :: _, _, _, _, hc => (Option.some.inj hc).symm

/-- `decode_format` takes a segment. -/
theorem decodeFormat_eq : ∀ {seg : Segment} {segs : List Segment}, Apart (seg :: segs) →
    decodeFormat FMT_INVALID (seg.bytes ++ segs.flatMap Segment.bytes) =
      (match seg with
        | .run _ => FMT_NONE
        | .conv d => d.type, segs.flatMap Segment.bytes)
  | .run [], _, h => absurd rfl h.1
  | .run (c :: s), segs, h => by
      rw [Segment.bytes, List.map_cons, List.cons_append, decodeFormat, if_neg fun hc => hc.2 rfl,
        if_pos c.2.2]
      exact decodeFormat_run (head_segments h.2.2 h.2.1) s
  | .conv d, segs, _ => by
      rw [Segment.bytes, List.cons_append, decodeFormat, if_neg fun hc => hc.2 rfl,
        if_neg (not_not.mpr rfl), decodeDirective_eq]

/-! ### Without the modifiers -/

theorem lengthSpec_low (fmt : CString) : (lengthSpec fmt).1 &&& 0xff = 0 := by
  rw [lengthSpec]
  split <;> split <;> try split
  all_goals dsimp only; decide

theorem or_low {a b : ℕ} (hb : b &&& 0xff = 0) : (a ||| b) &&& 0xff = a &&& 0xff := by
  rw [Nat.and_or_distrib_right, hb, Nat.or_zero]

theorem ite_or_low {p : Prop} [Decidable p] {a b : ℕ} (ha : a &&& 0xff = 0) (hb : b &&& 0xff = 0) :
    (if p then a ||| b else a) &&& 0xff = 0 := by
  split
  · rw [or_low hb, ha]
  · exact ha

theorem letterSpec_low (c : UInt8) {spec : ℕ} (h : spec &&& 0xff = 0) :
    letterSpec c spec &&& 0xff = 0 := by
  have hbase : (if c = 111 then FMT_OCT else FMT_HEX) &&& 0xff = 0 := by split <;> decide
  exact ite_or_low (ite_or_low (ite_or_low h (by decide)) hbase) (by decide)

theorem letterType_low (c : UInt8) :
    letterType c &&& 0xff = letterType c ∧ letterType c ≠ FMT_NONE := by
  rw [letterType]
  split_ifs <;> decide

/-! ### What is left of a format -/

theorem skipFlag_length : ∀ fmt : CString, (skipFlag fmt).length ≤ fmt.length
  | [] => Nat.le_refl _
  | c :: fmt => by
      rw [skipFlag]
      split <;> simp

theorem skipDigits_length (fmt : CString) : (skipDigits fmt).length ≤ fmt.length :=
  (List.dropWhile_sublist _).length_le

theorem skipPrecision_length : ∀ fmt : CString, (skipPrecision fmt).length ≤ fmt.length
  | [] => Nat.le_refl _
  | c :: fmt => by
      rw [skipPrecision]
      split
      · exact Nat.le_succ_of_le (skipDigits_length fmt)
      · exact Nat.le_refl _

theorem eat_length {c : UInt8} {fmt rest : CString} (h : eat c fmt = some rest) :
    rest.length < fmt.length := by
  cases fmt with
  | nil => cases h
  | cons d fmt =>
    rw [eat] at h
    split at h
    · cases h
      exact Nat.lt_succ_self _
    · cases h

theorem lengthSpec_length (fmt : CString) : (lengthSpec fmt).2.length ≤ fmt.length := by
  rw [lengthSpec]
  split
  · rename_i rest hl
    have hrest := eat_length hl
    split
    · rename_i hll
      exact Nat.le_of_lt (Nat.lt_trans (eat_length hll) hrest)
    · exact Nat.le_of_lt hrest
  · split
    · rename_i rest hh
      have hrest := eat_length hh
      split
      · rename_i hhh
        exact Nat.le_of_lt (Nat.lt_trans (eat_length hhh) hrest)
      · exact Nat.le_of_lt hrest
    · exact Nat.le_refl _

/-- A directive is never taken for text, and only an invalid one can be empty. -/
theorem decodeDirective_spec (fmt : CString) :
    (decodeDirective fmt).1 &&& 0xff ≠ FMT_NONE ∧
      (decodeDirective fmt).2.length ≤ fmt.length ∧
      ((decodeDirective fmt).1 &&& 0xff ≠ FMT_INVALID →
        (decodeDirective fmt).2.length < fmt.length) := by
  have hlow := lengthSpec_low (skipPrecision (skipDigits (skipFlag fmt)))
  have hlen := Nat.le_trans (lengthSpec_length (skipPrecision (skipDigits (skipFlag fmt))))
    (Nat.le_trans (skipPrecision_length _)
      (Nat.le_trans (skipDigits_length _) (skipFlag_length fmt)))
  rw [decodeDirective]
  generalize lengthSpec (skipPrecision (skipDigits (skipFlag fmt))) = r at hlow hlen
  obtain ⟨spec, rest⟩ := r
  cases rest with
  | nil =>
    dsimp only
    rw [or_low hlow]
    exact ⟨by decide, Nat.zero_le _, fun h => absurd rfl h⟩
  | cons c rest =>
    obtain ⟨htype, hnone⟩ := letterType_low c
    dsimp only
    rw [or_low (letterSpec_low c hlow), htype]
    exact ⟨hnone, Nat.le_of_succ_le hlen, fun _ => hlen⟩

theorem decodeFormat_length : ∀ (type : ℕ) (fmt : CString),
    (decodeFormat type fmt).2.length ≤ fmt.length
  | _, [] => Nat.le_refl _
  | type, c :: fmt => by
      rw [decodeFormat]
      split
      · exact Nat.le_refl _
      · split
        · exact Nat.le_succ_of_le (decodeFormat_length FMT_NONE fmt)
        · exact Nat.le_succ_of_le (decodeDirective_spec fmt).2.1

/-- Something is read at every call. -/
theorem decodeFormat_shorter (c : UInt8) (fmt : CString) :
    (decodeFormat FMT_INVALID (c :: fmt)).2.length ≤ fmt.length := by
  rw [decodeFormat, if_neg fun h => h.2 rfl]
  split
  · exact decodeFormat_length FMT_NONE fmt
  · exact (decodeDirective_spec fmt).2.1

end FilesKernel.Output
