import FilesKernel.Stdlib.Strtoul
import Mathlib.Data.List.TakeWhile

/-! `strtoul` and its contract in C.

    The number is a sign and the longest run of digits; what follows is not looked at. The code does
    not look whether a character is a digit, and so it is right only for texts that end with the
    number. -/

namespace FilesKernel.Stdlib
open CWord FileSystem

/-! ### The contract -/

/-- What C reads of a text: the base, the digits, and what is left behind them. -/
structure Number where
  negative : Bool
  base : ℕ
  digits : CString
  rest : CString
  deriving DecidableEq, Repr

/-- `0x` or `0X` in front of a hexadecimal digit -/
def hasHexPrefix (t : CString) : Bool :=
  t.headD 0 == 48 && tolower (t.tail.headD 0) == 120 && isDigitIn 16 (t.tail.tail.headD 0)

/-- The base, and where the digits begin. -/
def contractPrefix (base : ℕ) (t : CString) : ℕ × CString :=
  if (base = 0 ∨ base = 16) ∧ hasHexPrefix t = true then (16, t.drop 2)
  else if base = 0 then (if t.headD 0 = 48 then 8 else 10, t)
  else (base, t)

/-- Behind white space and a sign, the number is in the longest run of digits. -/
def number (s : CString) (base : ℕ) : Number :=
  let (negative, t) := strtoulSign (s.dropWhile isspace)
  let (base, t) := contractPrefix base t
  ⟨negative, base, t.takeWhile (isDigitIn base), t.dropWhile (isDigitIn base)⟩

def Number.value (n : Number) : ℕ := Stdlib.value n.base n.digits

/-- What `strtoul` has to return, and to store in `*endptr` as an offset. -/
def contract (s : CString) (base : ℕ) : ℕ × ℕ :=
  let n := number s base
  (if 2 ^ 64 ≤ n.value then ulongMax else if n.negative then wsub 0 n.value else n.value,
    if n.digits = [] then 0 else s.length - n.rest.length)

/-- The prefix of the text is `0X`. -/
def hasUpperPrefix (s : CString) : Bool :=
  let t := (strtoulSign (s.dropWhile isspace)).2
  hasHexPrefix t && t.tail.headD 0 == 88

/-- The texts that the code reads right: the number fits, nothing follows it unless it is the largest
    one, it is no octal zero, and for base 16 its prefix is no `0X`. -/
structure Readable (s : CString) (base : ℕ) : Prop where
  fits : (number s base).value < 2 ^ 64
  ends : (number s base).rest = [] ∨ (number s base).value = ulongMax
  octal : ¬ ((number s base).base = 8 ∧ (number s base).digits = [48])
  hex : ¬ (base = 16 ∧ hasUpperPrefix s = true)

/-! ### From the digits on -/

variable {s t u : CString} {base b v v' : ℕ} {neg : Bool} {D R : CString}

/-- The result that a number has by the contract. -/
def expected (s : CString) (neg : Bool) (v : ℕ) (D R : CString) : ℕ × ℕ :=
  (if 2 ^ 64 ≤ v then ulongMax else if neg then wsub 0 v else v,
    if D = [] then 0 else s.length - R.length)

theorem negated_inj (hv : v < 2 ^ 64) (hv' : v' < 2 ^ 64)
    (h : (if neg then wsub 0 v else v) = if neg then wsub 0 v' else v') : v = v' := by
  cases neg with
  | false => exact h
  | true =>
    simp only [if_true, wsub_eq] at h
    omega

/-- From the first digit on, the code is right when the number fits and nothing follows it. -/
theorem finish_iff (s : CString) (neg : Bool) (hb : 1 < b) (hb' : b ≤ 36)
    (hD : ∀ c ∈ D, isDigitIn b c = true) (hR : 0 ∉ R) (hlen : D.length + R.length ≤ s.length) :
    finish s neg b (D ++ R) = expected s neg (value b D) D R ↔
      value b D < 2 ^ 64 ∧ (R = [] ∨ value b D = ulongMax) := by
  have hzero : 0 * b ^ D.length + value b D = value b D := by rw [Nat.zero_mul, Nat.zero_add]
  by_cases hfit : value b D < 2 ^ 64
  · have hloop := strtoulLoop_digits (R := R) hb hb' D 0 false hD (by rwa [hzero])
    rw [hzero, Bool.false_or] at hloop
    have hemp : (!D.isEmpty) = true ↔ D ≠ [] := by
      rw [Bool.not_eq_true', ← Bool.not_eq_true, List.isEmpty_iff]
    rw [and_iff_right hfit]
    cases R with
    | nil =>
      rw [finish, hloop, expected, if_neg (Nat.not_le_of_lt hfit)]
      simp only [strtoulLoop, hemp, true_or, iff_true]
      by_cases hDn : D = [] <;> simp [hDn]
    | cons c R =>
      have hc : c ≠ 0 := fun e => hR (by rw [e]; exact List.mem_cons_self)
      rw [or_iff_right (List.cons_ne_nil c R)]
      rw [List.length_cons] at hlen
      rcases strtoulLoop_past hb hc R (value b D) (!D.isEmpty) with ⟨e, hpos⟩ | ⟨hcons, hle, hne⟩
      · have hDn : D ≠ [] := by
          rintro rfl
          exact absurd hpos (Nat.lt_irrefl 0)
        rw [finish, hloop, expected, if_neg (Nat.not_le_of_lt hfit), e]
        simp only [hemp.mpr hDn, if_true, if_neg hDn, Prod.mk.injEq, and_true]
        refine ⟨fun h => (negated_inj (by decide) hfit h).symm, fun h => by rw [h]⟩
      · refine iff_of_false (fun h => ?_) hne
        have hpos := congrArg Prod.snd h
        rw [finish_snd, hloop, if_pos hcons, expected] at hpos
        dsimp only at hpos
        rw [List.length_cons] at hpos
        split_ifs at hpos <;> omega
  · have hDn : D ≠ [] := by
      rintro rfl
      exact hfit (by rw [value_nil]; exact Nat.two_pow_pos 64)
    refine iff_of_false (fun h => ?_) fun h => hfit h.1
    have hover := strtoulLoop_overflow (R := R) hb hb' D 0 false hD (Nat.two_pow_pos 64)
      (by rw [hzero]; exact Nat.le_of_not_lt hfit)
    have hle : (strtoulLoop b (D ++ R) 0 false).2.2.length ≤ (D ++ R).length :=
      strtoulLoop_length _ _ _
    rw [List.length_append] at hle
    have hpos := congrArg Prod.snd h
    rw [finish_snd, expected] at hpos
    dsimp only at hpos
    rw [if_neg hDn] at hpos
    split_ifs at hpos <;> omega

/-! ### Prefixes -/

def IsUpper (t : CString) : Prop := hasHexPrefix t = true ∧ t.tail.headD 0 = 88

/-- How the digits begin for the contract, and for the code. -/
inductive Prefixes (base : ℕ) (t : CString) : ℕ × CString → ℕ × CString → Prop
  | same {b : ℕ} {u : CString} (hb : 1 < b) (hb' : b ≤ 36) (hu : u.Sublist t)
      (hoctal : ¬ (b = 8 ∧ u.headD 0 = 48)) (hupper : ¬ (base = 16 ∧ IsUpper t)) :
      Prefixes base t (b, u) (b, u)
  | octal {u : CString} (ht : t = 48 :: u) (hbase : base ≠ 16) : Prefixes base t (8, t) (8, u)
  | bare {b : ℕ} {x : UInt8} {u : CString} (ht : t = 48 :: x :: u) (hb : 1 < b)
      (hx : isDigitIn b x = false) : Prefixes base t (b, t) (16, u)
  | upper {u : CString} (ht : t = 48 :: 88 :: u) (hd : isDigitIn 16 (u.headD 0) = true)
      (hbase : base = 16) : Prefixes base t (16, u) (16, t)

theorem eq_cons_of_headD {c : UInt8} (hc : c ≠ 0) (h : t.headD 0 = c) : t = c :: t.tail := by
  cases t with
  | nil => exact absurd h.symm hc
  | cons a t => rw [List.headD_cons] at h; rw [h, List.tail_cons]

theorem of_tolower_x : ∀ {x : UInt8}, tolower x = 120 → (x = 120 ∨ x = 88) ∧ digitOf x = 33 := by
  have h : ∀ n : Fin 256, tolower (UInt8.ofNat n) = 120 →
      (UInt8.ofNat n = 120 ∨ UInt8.ofNat n = 88) ∧ digitOf (UInt8.ofNat n) = 33 := by decide +kernel
  intro x hx
  have hn := h ⟨x.toNat, UInt8.toNat_lt x⟩
  rw [UInt8.ofNat_toNat] at hn
  exact hn hx

theorem isDigitIn_x {x : UInt8} (hb : b ≤ 16) (hx : tolower x = 120) : isDigitIn b x = false := by
  rw [isDigitIn, (of_tolower_x hx).2]
  exact decide_eq_false (by omega)

/-- The text begins with `0x` or `0X`, and a hexadecimal digit follows. -/
theorem hasHexPrefix_iff : hasHexPrefix t = true ↔ t.headD 0 = 48 ∧
    tolower (t.tail.headD 0) = 120 ∧ isDigitIn 16 (t.tail.tail.headD 0) = true := by
  rw [hasHexPrefix, Bool.and_eq_true, Bool.and_eq_true, beq_iff_eq, beq_iff_eq, and_assoc]

theorem hexText (h : t.headD 0 = 48) (hx : tolower (t.tail.headD 0) = 120) :
    ∃ x u, t = 48 :: x :: u ∧ tolower x = 120 := by
  have hne : t.tail.headD 0 ≠ 0 := fun e => by
    rw [e] at hx
    exact absurd hx (by decide)
  refine ⟨_, t.tail.tail, ?_, hx⟩
  have ht := eq_cons_of_headD (by decide) h
  rw [eq_cons_of_headD hne rfl] at ht
  exact ht

theorem hasHexPrefix_cons {x : UInt8} (hx : tolower x = 120) (u : CString) :
    hasHexPrefix (48 :: x :: u) = isDigitIn 16 (u.headD 0) := by
  rw [Bool.eq_iff_iff, hasHexPrefix_iff]
  exact ⟨fun h => h.2.2, fun h => ⟨rfl, hx, h⟩⟩

theorem drop_sublist (x y : UInt8) (u : CString) : u.Sublist (x :: y :: u) :=
  (List.sublist_cons_self y u).trans (List.sublist_cons_self x _)

theorem prefixes_zero (t : CString) : Prefixes 0 t (contractPrefix 0 t) (strtoulPrefix 0 t) := by
  by_cases h48 : t.headD 0 = 48
  · by_cases hx : tolower (t.tail.headD 0) = 120
    · obtain ⟨x, u, rfl, hx'⟩ := hexText h48 hx
      have hcode : strtoulPrefix 0 (48 :: x :: u) = (16, u) := if_pos hx
      have hpre := hasHexPrefix_cons hx' u
      rw [hcode, contractPrefix, hpre]
      by_cases hd : isDigitIn 16 (u.headD 0) = true
      · rw [if_pos ⟨Or.inl rfl, hd⟩]
        exact .same (by decide) (by decide) (drop_sublist 48 x u) (by simp) (by simp)
      · rw [if_neg fun h => hd h.2, if_pos rfl, if_pos h48]
        exact .bare rfl (by decide) (isDigitIn_x (by decide) hx')
    · have hcode : strtoulPrefix 0 t = (8, t.tail) := by
        rw [strtoulPrefix, if_pos rfl, if_pos h48]
        exact if_neg hx
      have hpre : ¬ hasHexPrefix t = true := fun h => hx (hasHexPrefix_iff.mp h).2.1
      rw [hcode, contractPrefix, if_neg fun h => hpre h.2, if_pos rfl, if_pos h48]
      exact .octal (eq_cons_of_headD (by decide) h48) (by decide)
  · have hpre : ¬ hasHexPrefix t = true := fun h => h48 (hasHexPrefix_iff.mp h).1
    rw [strtoulPrefix, if_pos rfl, if_neg h48, contractPrefix, if_neg fun h => hpre h.2, if_pos rfl,
      if_neg h48]
    exact .same (by decide) (by decide) (List.Sublist.refl t) (by simp) (by simp)

theorem strtoulPrefix_sixteen (t : CString) : strtoulPrefix 16 t =
    if t.headD 0 = 48 ∧ tolower (if t.tail.headD 0 = 120 then 1 else 0) ≠ 0 then (16, t.drop 2)
    else (16, t) := by
  have h8 : ¬ (16 = 8 ∧ t.headD 0 = 48) := fun h => absurd h.1 (by decide)
  rw [strtoulPrefix, if_neg (by decide)]
  simp only [if_neg h8, true_and]

theorem prefixes_sixteen (t : CString) : Prefixes 16 t (contractPrefix 16 t) (strtoulPrefix 16 t) := by
  have hsame (hupper : ¬ IsUpper t) : Prefixes 16 t (16, t) (16, t) :=
    .same (by decide) (by decide) (List.Sublist.refl t) (by simp) fun h => hupper h.2
  by_cases h48 : t.headD 0 = 48
  · by_cases hx : tolower (t.tail.headD 0) = 120
    · obtain ⟨x, u, rfl, hx'⟩ := hexText h48 hx
      have hpre := hasHexPrefix_cons hx' u
      rcases (of_tolower_x hx').1 with rfl | rfl
      · have hcode : strtoulPrefix 16 (48 :: 120 :: u) = (16, u) :=
          (strtoulPrefix_sixteen _).trans (if_pos ⟨rfl, show tolower 1 ≠ 0 by decide⟩)
        rw [hcode, contractPrefix, hpre]
        by_cases hd : isDigitIn 16 (u.headD 0) = true
        · rw [if_pos ⟨Or.inr rfl, hd⟩]
          exact .same (by decide) (by decide) (drop_sublist 48 120 u) (by simp)
            fun h => absurd (show (120 : UInt8) = 88 from h.2.2) (by decide)
        · rw [if_neg fun h => hd h.2, if_neg (by decide)]
          exact .bare rfl (by decide) (by decide)
      · have hcode : strtoulPrefix 16 (48 :: 88 :: u) = (16, 48 :: 88 :: u) :=
          (strtoulPrefix_sixteen _).trans (if_neg fun h => h.2 (show tolower 0 = 0 by decide))
        rw [hcode, contractPrefix, hpre]
        by_cases hd : isDigitIn 16 (u.headD 0) = true
        · rw [if_pos ⟨Or.inr rfl, hd⟩]
          exact .upper rfl hd rfl
        · rw [if_neg fun h => hd h.2, if_neg (by decide)]
          exact hsame fun h => hd (hpre ▸ h.1)
    · have hpre : ¬ hasHexPrefix t = true := fun h => hx (hasHexPrefix_iff.mp h).2.1
      have hcode : strtoulPrefix 16 t = (16, t) := by
        refine (strtoulPrefix_sixteen t).trans (if_neg fun h => h.2 ?_)
        have h120 : ¬ t.tail.headD 0 = 120 := fun e => hx (by rw [e]; decide)
        exact (congrArg tolower (if_neg h120)).trans (by decide)
      rw [hcode, contractPrefix, if_neg fun h => hpre h.2, if_neg (by decide)]
      exact hsame fun h => hpre h.1
  · have hpre : ¬ hasHexPrefix t = true := fun h => h48 (hasHexPrefix_iff.mp h).1
    have hcode : strtoulPrefix 16 t = (16, t) :=
      (strtoulPrefix_sixteen t).trans (if_neg fun h => h48 h.1)
    rw [hcode, contractPrefix, if_neg fun h => hpre h.2, if_neg (by decide)]
    exact hsame fun h => hpre h.1

theorem prefixes (hbase : base = 0 ∨ 2 ≤ base ∧ base ≤ 36) (t : CString) :
    Prefixes base t (contractPrefix base t) (strtoulPrefix base t) := by
  by_cases h0 : base = 0
  · exact h0 ▸ prefixes_zero t
  by_cases h16 : base = 16
  · exact h16 ▸ prefixes_sixteen t
  obtain ⟨hb, hb'⟩ := hbase.resolve_left h0
  have hcontract : contractPrefix base t = (base, t) := by
    rw [contractPrefix, if_neg fun h => h.1.elim h0 h16, if_neg h0]
  have hskip : ∀ u : CString, (if base = 16 ∧ u.headD 0 = 48 ∧
      tolower (if u.tail.headD 0 = 120 then 1 else 0) ≠ 0 then (base, u.drop 2) else (base, u)) =
        (base, u) := fun u => if_neg fun h => h16 h.1
  rw [hcontract, strtoulPrefix, if_neg h0]
  dsimp only
  rw [hskip]
  by_cases h8 : base = 8 ∧ t.headD 0 = 48
  · rw [if_pos h8, h8.1]
    exact .octal (eq_cons_of_headD (by decide) h8.2) (by decide)
  · rw [if_neg h8]
    exact .same hb hb' (List.Sublist.refl t) h8 fun h => h16 h.1

/-! ### Each prefix -/

/-- The code goes at least one character into a text that is not empty. -/
theorem finish_snd_of_cons {c : UInt8} (hc : c ≠ 0) (s : CString) (neg : Bool) (b : ℕ) (u : CString) :
    s.length - u.length ≤ (finish s neg b (c :: u)).2 := by
  have hle : (strtoulLoop b u (wrap (toUlong (charDigit c))) true).2.2.length ≤ u.length :=
    strtoulLoop_length _ _ _
  rw [finish_snd, strtoulLoop_first hc, strtoulLoop_consumed, if_pos rfl]
  exact Nat.sub_le_sub_left hle _

/-- A leading zero makes no difference, unless it is all there is. -/
theorem finish_zero (s : CString) (neg : Bool) (b : ℕ) {c : UInt8} (hc : c ≠ 0) (u : CString) :
    finish s neg b (48 :: c :: u) = finish s neg b (c :: u) := by
  have hdigit : wrap (toUlong (charDigit 48)) = 0 := by decide +kernel
  have hloop : strtoulLoop b (48 :: c :: u) 0 false = strtoulLoop b (c :: u) 0 false := by
    rw [strtoulLoop_first (by decide), hdigit, strtoulLoop_first hc, strtoulLoop_first hc]
  rw [finish, finish, hloop]

/-- The `X` of a prefix that is not skipped counts as a digit. -/
theorem finish_upper_ne (s : CString) (neg : Bool) (hlen : D.length + R.length ≤ s.length)
    (hD : ∀ c ∈ D, isDigitIn 16 c = true) (hne : D ≠ []) (hR : 0 ∉ R) :
    finish s neg 16 (48 :: 88 :: (D ++ R)) ≠ expected s neg (value 16 D) D R := by
  have hzero : wrap (toUlong (charDigit 48)) = 0 := by decide +kernel
  have hx : wrap (toUlong (charDigit 88)) = 33 := by decide +kernel
  have hstart : strtoulLoop 16 (48 :: 88 :: (D ++ R)) 0 false = strtoulLoop 16 (D ++ R) 33 true := by
    rw [strtoulLoop_first (by decide), hzero, strtoulLoop_first (by decide), hx]
  have hpow : 0 < 16 ^ D.length := Nat.two_pow_pos 0 |>.trans_le (Nat.one_le_pow _ _ (by decide))
  intro h
  have hpos := congrArg Prod.snd h
  rw [finish_snd, hstart, strtoulLoop_consumed, if_pos rfl, expected] at hpos
  dsimp only at hpos
  rw [if_neg hne] at hpos
  by_cases hfit : 33 * 16 ^ D.length + value 16 D < 2 ^ 64
  · have hloop := strtoulLoop_digits (R := R) (by decide) (by decide) D 33 true hD hfit
    rw [Bool.true_or] at hloop
    have hval := congrArg Prod.fst h
    rw [finish, hstart, hloop, expected, if_neg (by omega)] at hval
    rw [hloop] at hpos
    cases R with
    | nil =>
      have heq := negated_inj hfit (by omega) hval
      omega
    | cons c R =>
      have hc : c ≠ 0 := fun e => hR (by rw [e]; exact List.mem_cons_self)
      rw [List.length_cons] at hlen hpos
      rcases strtoulLoop_past (show 1 < 16 by decide) hc R (33 * 16 ^ D.length + value 16 D) true
        with ⟨e, -⟩ | ⟨-, hle, -⟩
      · rw [e] at hval
        have heq := negated_inj (by decide) (by omega) hval
        rw [ulongMax] at heq
        omega
      · omega
  · have hover := strtoulLoop_overflow (R := R) (by decide) (by decide) D 33 true hD (by decide)
      (Nat.le_of_not_lt hfit)
    have hle : (strtoulLoop 16 (D ++ R) 33 true).2.2.length ≤ (D ++ R).length :=
      strtoulLoop_length _ _ _
    rw [List.length_append] at hle
    omega

theorem not_mem_dropWhile {p : UInt8 → Bool} (h0 : 0 ∉ t) : 0 ∉ t.dropWhile p :=
  fun h => h0 ((List.dropWhile_suffix p).subset h)

/-- The code meets the contract from behind the sign on. -/
theorem finish_prefixes_iff (s : CString) (neg : Bool) {u' : CString} {b' : ℕ}
    (hp : Prefixes base t (b, u) (b', u')) (h0 : 0 ∉ t) (hlen : t.length ≤ s.length) :
    finish s neg b' u' = expected s neg (value b (u.takeWhile (isDigitIn b)))
        (u.takeWhile (isDigitIn b)) (u.dropWhile (isDigitIn b)) ↔
      (value b (u.takeWhile (isDigitIn b)) < 2 ^ 64 ∧ (u.dropWhile (isDigitIn b) = [] ∨
        value b (u.takeWhile (isDigitIn b)) = ulongMax)) ∧
      ¬ (b = 8 ∧ u.takeWhile (isDigitIn b) = [48]) ∧ ¬ (base = 16 ∧ IsUpper t) := by
  have hsplit : ∀ w : CString, w.takeWhile (isDigitIn b) ++ w.dropWhile (isDigitIn b) = w :=
    fun w => List.takeWhile_append_dropWhile
  have hdigits : ∀ w : CString, ∀ c ∈ w.takeWhile (isDigitIn b), isDigitIn b c = true :=
    fun w c hc => List.mem_takeWhile_imp hc
  have hlens : ∀ w : CString, (w.takeWhile (isDigitIn b)).length +
      (w.dropWhile (isDigitIn b)).length = w.length := fun w => by
    rw [← List.length_append, hsplit]
  cases hp with
  | same hb hb' hu hoctal hupper =>
    have hule := hu.length_le
    have hbody := finish_iff s neg hb hb' (hdigits u)
      (not_mem_dropWhile fun h => h0 (hu.subset h)) (by rw [hlens]; omega)
    rw [hsplit] at hbody
    rw [hbody]
    refine (and_iff_left ⟨fun ⟨h8, hd⟩ => hoctal ⟨h8, ?_⟩, hupper⟩).symm
    have h := hsplit u
    rw [hd] at h
    rw [← h]
    rfl
  | octal ht hbase =>
    subst ht
    have hone : isDigitIn 8 48 = true := by decide
    rw [and_iff_left fun h => hbase h.1]
    rw [List.length_cons] at hlen
    cases u' with
    | nil =>
      refine iff_of_false (fun h => ?_) fun h => h.2 ⟨rfl, rfl⟩
      have hpos : 0 = s.length - 0 := congrArg Prod.snd h
      rw [List.length_nil] at hlen
      omega
    | cons c u' =>
      have hc : c ≠ 0 := fun e => h0 (by rw [e]; simp)
      have hbody := finish_iff s neg (b := 8) (by decide) (by decide)
        (hdigits (48 :: c :: u')) (not_mem_dropWhile h0) (by rw [hlens]; exact hlen)
      rw [hsplit, finish_zero s neg 8 hc] at hbody
      rw [hbody, iff_self_and]
      rintro ⟨-, hend⟩ ⟨-, hd⟩
      have h := hsplit (48 :: c :: u')
      rw [hd] at h hend
      rcases hend with hend | hend
      · rw [hend] at h
        cases h
      · exact absurd hend (by decide)
  | bare ht hb hx =>
    subst ht
    have hzero : isDigitIn b 48 = true := decide_eq_true (show 0 < b by omega)
    rename_i x
    have hD : (48 :: x :: u').takeWhile (isDigitIn b) = [48] := by
      rw [List.takeWhile_cons_of_pos hzero, List.takeWhile_cons_of_neg (by simp [hx])]
    have hR : (48 :: x :: u').dropWhile (isDigitIn b) = x :: u' := by
      rw [List.dropWhile_cons_of_pos hzero, List.dropWhile_cons_of_neg (by simp [hx])]
    have hval : value b [48] = 0 := by
      rw [value_cons, value_nil]
      exact Nat.zero_mul _
    rw [hD, hR, hval]
    rw [List.length_cons, List.length_cons] at hlen
    refine iff_of_false (fun h => ?_) fun h => ?_
    · have hpos : (finish s neg 16 u').2 = s.length - (x :: u').length := congrArg Prod.snd h
      rw [List.length_cons] at hpos
      cases u' with
      | nil =>
        have hnil : (finish s neg 16 []).2 = 0 := rfl
        rw [hnil, List.length_nil] at hpos
        omega
      | cons c u' =>
        have hc : c ≠ 0 := fun e => h0 (by rw [e]; simp)
        have hfar := finish_snd_of_cons hc s neg 16 u'
        rw [List.length_cons] at hpos hlen
        omega
    · rcases h.1.2 with hnil | hmax
      · cases hnil
      · exact absurd hmax (by decide)
  | upper ht hd hbase =>
    subst ht hbase
    have hupper : IsUpper (48 :: 88 :: u) := ⟨(hasHexPrefix_cons (by decide) u).trans hd, rfl⟩
    refine iff_of_false ?_ fun h => h.2.2 ⟨rfl, hupper⟩
    have hne : u.takeWhile (isDigitIn 16) ≠ [] := by
      cases u with
      | nil => exact absurd hd (by decide)
      | cons c u =>
        rw [List.headD_cons] at hd
        rw [List.takeWhile_cons_of_pos hd]
        exact List.cons_ne_nil c _
    have hno : 0 ∉ u := fun h => h0 (by simp [h])
    rw [List.length_cons, List.length_cons] at hlen
    have h := finish_upper_ne s neg (by rw [hlens]; omega) (hdigits u) hne
      (not_mem_dropWhile hno)
    rwa [hsplit] at h

/-! ### The code and the contract -/

/-- The code meets the contract exactly on the texts that it reads right. -/
theorem strtoul_contract_iff (h0 : 0 ∉ s) (hbase : base = 0 ∨ 2 ≤ base ∧ base ≤ 36) :
    strtoul s base = contract s base ↔ Readable s base := by
  obtain ⟨t, ht⟩ : ∃ t, t = (strtoulSign (s.dropWhile isspace)).2 := ⟨_, rfl⟩
  have hsub : t.Sublist s := by
    rw [ht, strtoulSign]
    split_ifs
    · exact (List.tail_sublist _).trans (List.dropWhile_suffix _).sublist
    · exact (List.dropWhile_suffix _).sublist
  have hno : 0 ∉ t := fun h => h0 (hsub.subset h)
  have hp := prefixes hbase t
  have hcode := strtoul_eq s base
  have hnum : number s base = ⟨(strtoulSign (s.dropWhile isspace)).1, (contractPrefix base t).1,
      (contractPrefix base t).2.takeWhile (isDigitIn (contractPrefix base t).1),
      (contractPrefix base t).2.dropWhile (isDigitIn (contractPrefix base t).1)⟩ := by
    rw [ht]
    rfl
  have hupper : IsUpper t ↔ hasUpperPrefix s = true := by
    rw [ht, hasUpperPrefix, IsUpper]
    simp only [Bool.and_eq_true, beq_iff_eq]
  rw [← ht] at hcode
  generalize (strtoulSign (s.dropWhile isspace)).1 = neg at hcode hnum
  generalize contractPrefix base t = x at hp hnum
  generalize strtoulPrefix base t = y at hp hcode
  obtain ⟨b, u⟩ := x
  obtain ⟨b', u'⟩ := y
  have hiff := finish_prefixes_iff s neg hp hno hsub.length_le
  have hspec : contract s base = expected s neg (value b (u.takeWhile (isDigitIn b)))
      (u.takeWhile (isDigitIn b)) (u.dropWhile (isDigitIn b)) := by
    rw [contract, hnum]
    rfl
  rw [hcode, hspec, hiff, hupper]
  constructor
  · rintro ⟨⟨hfits, hends⟩, hoctal, hhex⟩
    exact ⟨hnum ▸ hfits, hnum ▸ hends, hnum ▸ hoctal, hhex⟩
  · rintro ⟨hfits, hends, hoctal, hhex⟩
    rw [hnum] at hfits hends hoctal
    exact ⟨⟨hfits, hends⟩, hoctal, hhex⟩

/-- `" -0x1F"` -/
def negativeHex : CString := [32, 45, 48, 120, 49, 70]

theorem negativeHex_contract : strtoul negativeHex 16 = contract negativeHex 16 :=
  (strtoul_contract_iff (by decide) (by decide)).mpr
    ⟨by decide +kernel, by decide +kernel, by decide +kernel, by decide +kernel⟩

/-- `"12z"`: the code reads the letter as a digit with the value `35`, and returns `155`. -/
theorem trailingLetter_ne_contract : 0 ∉ ([49, 50, 122] : CString) ∧
    strtoul [49, 50, 122] 10 ≠ contract [49, 50, 122] 10 := by decide +kernel

end FilesKernel.Stdlib
