import FilesKernel.Stdlib.NumberText
import FilesKernel.Stdlib.Strtoul

/-! What `ulltoa` and `lltoa` write, `strtoul` reads back. -/

namespace FilesKernel.Stdlib
open CExec CWord FileSystem Numeral

variable {base v : ℕ} {t s : CString}

/-! ### Numerals -/

/-- The text is the number in positional notation, with lower-case digits and no leading zero but the
    one of zero itself. -/
def IsNumeral (base v : ℕ) (text : CString) : Prop :=
  ∃ ds : List ℕ, text = ds.map digit ∧ ds ≠ [] ∧ (∀ d ∈ ds, d < base) ∧
    Nat.ofDigits base ds.reverse = v ∧ (ds.head? = some 0 → ds = [0])

theorem numeral_isNumeral (hb : 1 < base) (v : ℕ) : IsNumeral base v (numeral base v) := by
  rw [numeral]
  by_cases hv : v = 0
  · rw [if_pos hv]
    exact ⟨[0], rfl, List.cons_ne_nil _ _, by simpa using Nat.zero_lt_of_lt hb, hv.symm, fun _ => rfl⟩
  · have hne : (Nat.digits base v) ≠ [] := Nat.digits_ne_nil_iff_ne_zero.mpr hv
    rw [if_neg hv]
    refine ⟨(Nat.digits base v).reverse, rfl, by simpa using hne, fun d hd => ?_, ?_, fun h => ?_⟩
    · exact Nat.digits_lt_base hb (List.mem_reverse.mp hd)
    · rw [List.reverse_reverse, Nat.ofDigits_digits]
    · rw [List.head?_reverse, List.getLast?_eq_getLast_of_ne_nil hne] at h
      exact absurd (Option.some.inj h) (Nat.getLast_digit_ne_zero base hv)

theorem digitOf_digit : ∀ {d : ℕ}, d < 36 → digitOf (digit d) = d := by decide

theorem digit_first : ∀ {d : ℕ}, d < 36 → isspace (digit d) = false ∧ digit d ≠ 45 ∧ digit d ≠ 43 ∧
    (digit d = 48 → d = 0) := by decide

/-- A text of digits is what `strtoul` takes for them. -/
theorem value_map_digit {ds : List ℕ} (hb : base ≤ 36) (hds : ∀ d ∈ ds, d < base) :
    value base (ds.map digit) = Nat.ofDigits base ds.reverse := by
  have hmap : (ds.map digit).map digitOf = ds := by
    rw [List.map_map]
    refine (List.map_congr_left fun d hd => ?_).trans (List.map_id ds)
    exact digitOf_digit ((hds d hd).trans_le hb)
  rw [value, hmap]

theorem isDigitIn_map {ds : List ℕ} (hb : base ≤ 36) (hds : ∀ d ∈ ds, d < base) :
    ∀ c ∈ ds.map digit, isDigitIn base c = true := by
  intro c hc
  obtain ⟨d, hd, rfl⟩ := List.mem_map.mp hc
  rw [isDigitIn, digitOf_digit ((hds d hd).trans_le hb)]
  exact decide_eq_true (hds d hd)

/-! ### Reading -/

/-- Without a leading zero there is no prefix. -/
theorem strtoulPrefix_of_ne (hb : base ≠ 0) (h : t.headD 0 ≠ 48) : strtoulPrefix base t = (base, t) := by
  have hskip : ¬ (base = 8 ∧ t.headD 0 = 48) := fun hs => h hs.2
  rw [strtoulPrefix, if_neg hb]
  simp only [if_neg hskip]
  exact if_neg fun hs => h hs.2.1

theorem finish_fst_of_zero (hb : 1 < base) (s : CString) (neg : Bool) :
    (finish s neg (strtoulPrefix base [48]).1 (strtoulPrefix base [48]).2).1 = 0 := by
  have hloop : ∀ b, (strtoulLoop b [48] 0 false).1 = 0 := fun b => by
    rw [strtoulLoop_first (by decide), strtoulLoop]
    decide +kernel
  have hnil : ∀ b, (strtoulLoop b [] 0 false).1 = 0 := fun b => rfl
  have hcases : (strtoulPrefix base [48]).2 = [] ∨ (strtoulPrefix base [48]).2 = [48] := by
    have hx : tolower (if ([] : CString).headD 0 = 120 then 1 else 0) = 0 := by decide
    rw [strtoulPrefix, if_neg (by omega)]
    by_cases h8 : base = 8
    · subst h8
      exact Or.inl rfl
    · have hskip : ¬ (base = 8 ∧ ([48] : CString).headD 0 = 48) := fun h => h8 h.1
      simp only [if_neg hskip]
      exact Or.inr (congrArg Prod.snd (if_neg fun h => h.2.2 hx))
  have hzero : (if neg = true then wsub 0 0 else 0) = 0 := by
    cases neg
    · rfl
    · decide +kernel
  rcases hcases with e | e
  · rw [e, finish]
    exact hzero
  · rw [e, finish]
    dsimp only
    rw [hloop, hzero]

/-- A numeral is read as its number, or as the negated one. -/
theorem finish_fst_of_numeral (hb : 1 < base) (hb' : base ≤ 36) (hv : v < 2 ^ 64)
    (ht : IsNumeral base v t) (s : CString) (neg : Bool) :
    (finish s neg (strtoulPrefix base t).1 (strtoulPrefix base t).2).1 =
      if neg then wsub 0 v else v := by
  obtain ⟨ds, rfl, hne, hds, hval, hlead⟩ := ht
  obtain ⟨d, ds, rfl⟩ := List.exists_cons_of_ne_nil hne
  have hd36 : d < 36 := (hds d List.mem_cons_self).trans_le hb'
  by_cases hd : d = 0
  · have hone := hlead (by rw [hd]; rfl)
    rw [hone] at hval ⊢
    have hv0 : v = 0 := hval.symm
    rw [show ([0] : List ℕ).map digit = [48] from rfl, finish_fst_of_zero hb, hv0]
    cases neg
    · rfl
    · decide +kernel
  · have h48 : ((d :: ds).map digit).headD 0 ≠ 48 := fun h => hd ((digit_first hd36).2.2.2 h)
    have hdigits := isDigitIn_map hb' hds
    have hvalue := (value_map_digit hb' hds).trans hval
    have hloop := strtoulLoop_digits (R := []) hb hb' _ 0 false hdigits
      (by rwa [hvalue, Nat.zero_mul, Nat.zero_add])
    rw [List.append_nil, hvalue, Nat.zero_mul, Nat.zero_add] at hloop
    rw [strtoulPrefix_of_ne (by omega) h48, finish]
    dsimp only
    rw [hloop]
    rfl

theorem strtoul_numeral (hb : 1 < base) (hb' : base ≤ 36) (hv : v < 2 ^ 64)
    (ht : IsNumeral base v t) : (strtoul t base).1 = v := by
  have hfin := finish_fst_of_numeral hb hb' hv ht t false
  have hsign : strtoulSign (t.dropWhile isspace) = (false, t) := by
    obtain ⟨ds, rfl, hne, hds, -⟩ := ht
    obtain ⟨d, ds, rfl⟩ := List.exists_cons_of_ne_nil hne
    obtain ⟨hspace, hminus, hplus, -⟩ := digit_first ((hds d List.mem_cons_self).trans_le hb')
    rw [List.map_cons, List.dropWhile_cons_of_neg (by simp [hspace]), strtoulSign]
    exact if_neg fun h => h.elim hminus hplus
  rw [strtoul_eq, hsign, hfin]
  rfl

theorem strtoul_minus (hb : 1 < base) (hb' : base ≤ 36) (hv : v < 2 ^ 64)
    (ht : IsNumeral base v t) : (strtoul (45 :: t) base).1 = wsub 0 v := by
  have hfin := finish_fst_of_numeral hb hb' hv ht (45 :: t) true
  have hsign : strtoulSign ((45 :: t).dropWhile isspace) = (true, t) := by
    rw [List.dropWhile_cons_of_neg (by decide)]
    exact if_pos (Or.inl rfl)
  rw [strtoul_eq, hsign, hfin]
  rfl

/-- Text and number correspond, for unsigned and for signed ones. -/
theorem numberText_roundTrip (hb : 2 ≤ base) (hb' : base ≤ 36) :
    (∀ v < 2 ^ 64, ∃ text, ulltoa v base = .ok text ∧ IsNumeral base v text ∧
      (strtoul text base).1 = v) ∧
    ∀ z : ℤ, -2 ^ 63 ≤ z → z < 2 ^ 63 → ∃ text, lltoa z base = .ok text ∧
      ((strtoul text base).1 : ℤ) = z % 2 ^ 64 := by
  refine ⟨fun v hv => ?_, fun z hz hz' => ?_⟩
  · have hnum := numeral_isNumeral hb v
    exact ⟨_, ulltoa_eq hb hb' hv, hnum, strtoul_numeral hb hb' hv hnum⟩
  · have habs : z.natAbs < 2 ^ 64 := by omega
    have hnum := numeral_isNumeral hb z.natAbs
    refine ⟨_, lltoa_eq hb hb' hz hz', ?_⟩
    rw [signed]
    split_ifs with hneg
    · rw [strtoul_minus hb hb' habs hnum, wsub_eq]
      omega
    · rw [strtoul_numeral hb hb' habs hnum]
      omega

theorem numberText_roundTrip_36 : (∀ v < 2 ^ 64, ∃ text, ulltoa v 36 = .ok text ∧
      IsNumeral 36 v text ∧ (strtoul text 36).1 = v) ∧
    ∀ z : ℤ, -2 ^ 63 ≤ z → z < 2 ^ 63 → ∃ text, lltoa z 36 = .ok text ∧
      ((strtoul text 36).1 : ℤ) = z % 2 ^ 64 :=
  numberText_roundTrip (by decide) (by decide)

end FilesKernel.Stdlib
