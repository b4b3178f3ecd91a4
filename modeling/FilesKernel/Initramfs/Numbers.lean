import FilesKernel.Initramfs.Model

/-! The numbers of a header: what `parse_str_to_hex` makes of 8 bytes.

    Each digit is scaled in an `int` and then widened. Only the first digit reaches the sign bit: from
    8 on, its term is negative, and the sum comes out as the value with the upper 32 bits set. -/

namespace FilesKernel.Initramfs
open CExec CWord FileSystem Print

variable {mem : Mem} {p v : ℕ} {ds : ℕ → ℕ}

/-- `c` is the hex digit `d`, of either case. -/
def IsDigit (c : UInt8) (d : ℕ) : Prop :=
  d < 10 ∧ c.toNat = 48 + d ∨ 10 ≤ d ∧ d < 16 ∧ (c.toNat = 55 + d ∨ c.toNat = 87 + d)

/-- The 8 bytes at `p` are the hex digits of `v`. -/
def HexAt (mem : Mem) (p v : ℕ) : Prop :=
  v < 2 ^ 31 ∧ ∀ i < 8, IsDigit (mem (p + i)) (v / 16 ^ (7 - i) % 16)

/-- What the first `n` digits denote in base 16. -/
def digitsValue (ds : ℕ → ℕ) : ℕ → ℕ
  | 0 => 0
  | n + 1 => digitsValue ds n * 16 + ds n

/-- Eight hex digits are decoded to what they denote in base 16, so that the encoding of a 32-bit
    number gives the number back, and everything else stops in the assertion. -/
structure DecodesRight (mem : Mem) (p : ℕ) : Prop where
  value : ∀ ds : ℕ → ℕ, (∀ i < 8, IsDigit (mem (p + i)) (ds i)) →
    parseStrToHex mem p = .ok (digitsValue ds 8) ∧ digitsValue ds 8 < 2 ^ 32
  inverse : ∀ v < 2 ^ 32, (∀ i < 8, IsDigit (mem (p + i)) (v / 16 ^ (7 - i) % 16)) →
    parseStrToHex mem p = .ok v
  stops : (∃ i < 8, ∀ d, ¬ IsDigit (mem (p + i)) d) →
    ∃ text, parseStrToHex mem p = .error (.bug text)

/-- The bits that the sign of the first term sets. -/
def signBits (d : ℕ) : ℕ := if d < 8 then 0 else 2 ^ 64 - 2 ^ 32

/-! ### Digits -/

theorem hexDigit_eq_some {c : UInt8} {d : ℕ} : hexDigit c = some d ↔ IsDigit c d := by
  rw [IsDigit, hexDigit]
  simp only [UInt8.le_iff_toNat_le, UInt8.reduceToNat]
  split
  · rw [Option.some_inj]; omega
  · split
    · rw [Option.some_inj]; omega
    · split
      · rw [Option.some_inj]; omega
      · refine ⟨nofun, fun h => ?_⟩
        omega

theorem hexDigit_eq_none {c : UInt8} : hexDigit c = none ↔ ∀ d, ¬ IsDigit c d := by
  simp only [← hexDigit_eq_some]
  exact Option.eq_none_iff_forall_ne_some

theorem IsDigit.lt {c : UInt8} {d : ℕ} (h : IsDigit c d) : d < 16 := by
  rcases h with ⟨h, -⟩ | ⟨-, h, -⟩ <;> omega

theorem digitsValue_lt (hds : ∀ i < 8, ds i < 16) : ∀ {n : ℕ}, n ≤ 8 → digitsValue ds n < 16 ^ n
  | 0, _ => Nat.one_pos
  | n + 1, hn => by
      have ih := digitsValue_lt hds (n := n) (by omega)
      have hd := hds n (by omega)
      rw [digitsValue, Nat.pow_succ]
      omega

/-- The first digits of `v` denote what is left of `v` without the others. -/
theorem digitsValue_div (hv : v < 16 ^ 8) : ∀ {n : ℕ}, n ≤ 8 →
    digitsValue (fun i => v / 16 ^ (7 - i) % 16) n = v / 16 ^ (8 - n)
  | 0, _ => (Nat.div_eq_of_lt hv).symm
  | n + 1, hn => by
      have hpow : 16 ^ (8 - n) = 16 ^ (7 - n) * 16 := by
        rw [← Nat.pow_succ]; congr 1; omega
      rw [digitsValue, digitsValue_div hv (by omega), hpow, ← Nat.div_div_eq_div_mul,
        show 8 - (n + 1) = 7 - n by omega]
      omega

/-! ### The loop -/

theorem hexTerm_eq {d i : ℕ} (hd : d * 2 ^ (4 * (8 - i - 1)) < 2 ^ 31) :
    hexTerm d i = d * 2 ^ (4 * (8 - i - 1)) := by
  rw [hexTerm, Nat.mod_eq_of_lt (by omega), if_pos hd]

theorem hexTerm_zero {d : ℕ} (hd : d < 16) : hexTerm d 0 = signBits d + d * 16 ^ 7 := by
  rw [hexTerm, signBits]
  split <;> split <;> omega

/-- Behind the first digit, the loop adds up the others under the bits of the sign. -/
theorem parseLoop_digits {b : ℕ} (hb : b ≤ 2 ^ 64 - 2 ^ 32)
    (hds : ∀ i < 8, IsDigit (mem (p + i)) (ds i)) : ∀ {n i : ℕ}, i + n = 8 → 0 < i →
    parseLoop mem p n i (b + digitsValue ds i * 16 ^ n) = .ok (b + digitsValue ds 8)
  | 0, i, hi, _ => by
      obtain rfl : i = 8 := hi
      rw [parseLoop, Nat.pow_zero, Nat.mul_one]
  | n + 1, i, hi, hpos => by
      have hlt : ∀ j < 8, ds j < 16 := fun j hj => (hds j hj).lt
      have hpow : 2 ^ (4 * (8 - i - 1)) = 16 ^ n := by
        rw [show 8 - i - 1 = n by omega, Nat.pow_mul]
      have hn : 16 ^ n ≤ 16 ^ 6 := Nat.pow_le_pow_right (by decide) (by omega)
      have hscaled : ds i * 16 ^ n < 16 * 16 ^ n :=
        Nat.mul_lt_mul_of_pos_right (hlt i (by omega)) (Nat.pow_pos (by decide))
      have hterm : hexTerm (ds i) i = ds i * 16 ^ n := by
        rw [hexTerm_eq (by rw [hpow]; omega), hpow]
      have hsum : digitsValue ds i * 16 ^ (n + 1) + ds i * 16 ^ n =
          digitsValue ds (i + 1) * 16 ^ n := by
        rw [digitsValue, Nat.pow_succ, Nat.mul_comm (16 ^ n), ← Nat.mul_assoc, Nat.add_mul]
      have hbound : digitsValue ds (i + 1) * 16 ^ n < 2 ^ 32 := by
        have h := Nat.mul_lt_mul_of_pos_right (digitsValue_lt hlt (n := i + 1) (by omega))
          (Nat.pow_pos (n := n) (show 0 < 16 by decide))
        rw [← Nat.pow_add, show i + 1 + n = 8 by omega] at h
        exact h
      rw [parseLoop, hexDigit_eq_some.mpr (hds i (by omega))]
      simp only
      rw [hterm, Nat.add_assoc, hsum, wrap_of_lt (by omega)]
      exact parseLoop_digits hb hds (by omega) (Nat.succ_pos i)

/-- Eight hex digits denote a number below `2 ^ 32`, to which the sign of the first term is added. -/
theorem parseStrToHex_digits (hds : ∀ i < 8, IsDigit (mem (p + i)) (ds i)) :
    parseStrToHex mem p = .ok (signBits (ds 0) + digitsValue ds 8) := by
  have hlt := (hds 0 (by decide)).lt
  have hb : signBits (ds 0) ≤ 2 ^ 64 - 2 ^ 32 := by rw [signBits]; split <;> omega
  have hfirst : digitsValue ds 1 = ds 0 := by rw [digitsValue, digitsValue, Nat.zero_mul, Nat.zero_add]
  have hrest := parseLoop_digits hb hds (n := 7) (i := 1) rfl Nat.one_pos
  rw [hfirst] at hrest
  rw [parseStrToHex, parseLoop, hexDigit_eq_some.mpr (hds 0 (by decide))]
  simp only
  rw [hexTerm_zero hlt, Nat.zero_add (signBits _ + _), wrap_of_lt (by omega)]
  exact hrest

/-- The loop stops at a byte that is no digit. -/
theorem parseLoop_stops : ∀ {n i res : ℕ}, (∃ j, i ≤ j ∧ j < i + n ∧ hexDigit (mem (p + j)) = none) →
    parseLoop mem p n i res = .error (.bug "1")
  | 0, i, res, ⟨j, hi, hj, _⟩ => absurd hj (by omega)
  | n + 1, i, res, ⟨j, hi, hj, hnone⟩ => by
      rw [parseLoop]
      cases hd : hexDigit (mem (p + i)) with
      | none => rfl
      | some d =>
        have hne : i ≠ j := by
          rintro rfl
          rw [hd] at hnone
          cases hnone
        exact parseLoop_stops ⟨j, by omega, by omega, hnone⟩

/-- `parse_str_to_hex` returns only on 8 hex digits. -/
theorem parseStrToHex_cases (mem : Mem) (p : ℕ) :
    (∃ ds : ℕ → ℕ, ∀ i < 8, IsDigit (mem (p + i)) (ds i)) ∨
    ((∃ i < 8, ∀ d, ¬ IsDigit (mem (p + i)) d) ∧ parseStrToHex mem p = .error (.bug "1")) := by
  by_cases hall : ∀ i < 8, ∃ d, IsDigit (mem (p + i)) d
  · have hds : ∀ i : ℕ, ∃ d, i < 8 → IsDigit (mem (p + i)) d := by
      intro i
      by_cases hi : i < 8
      · obtain ⟨d, hd⟩ := hall i hi
        exact ⟨d, fun _ => hd⟩
      · exact ⟨0, fun h => absurd h hi⟩
    obtain ⟨ds, h⟩ := Classical.axiomOfChoice hds
    exact Or.inl ⟨ds, h⟩
  · simp only [not_forall, not_exists] at hall
    obtain ⟨i, hi, hno⟩ := hall
    have hnone := hexDigit_eq_none.mpr hno
    exact Or.inr ⟨⟨i, hi, hno⟩, parseLoop_stops ⟨i, Nat.zero_le i, by omega, hnone⟩⟩

theorem parseStrToHex_ok_or_bug (mem : Mem) (p : ℕ) :
    (∃ v, parseStrToHex mem p = .ok v) ∨ parseStrToHex mem p = .error (.bug "1") := by
  rcases parseStrToHex_cases mem p with ⟨ds, hds⟩ | ⟨-, hbug⟩
  · exact Or.inl ⟨_, parseStrToHex_digits hds⟩
  · exact Or.inr hbug

/-- A number that is read is below `2 ^ 31`, or has the upper bits set. -/
theorem parseStrToHex_range (h : parseStrToHex mem p = .ok v) :
    v < 2 ^ 31 ∨ 2 ^ 64 - 2 ^ 31 ≤ v ∧ v < 2 ^ 64 := by
  rcases parseStrToHex_cases mem p with ⟨ds, hds⟩ | ⟨-, hbug⟩
  · have hlt := fun i hi => (hds i hi).lt
    have h₀ := hlt 0 (by decide)
    have h₁ := hlt 1 (by decide)
    have h₂ := hlt 2 (by decide)
    have h₃ := hlt 3 (by decide)
    have h₄ := hlt 4 (by decide)
    have h₅ := hlt 5 (by decide)
    have h₆ := hlt 6 (by decide)
    have h₇ := hlt 7 (by decide)
    rw [parseStrToHex_digits hds, Except.ok.injEq, signBits] at h
    simp only [digitsValue] at h
    split at h <;> omega
  · rw [hbug] at h
    cases h

theorem parseStrToHex_spec (hv : HexAt mem p v) : parseStrToHex mem p = .ok v := by
  have hlt := hv.1
  have hds : ∀ i < 8, IsDigit (mem (p + i)) ((fun i => v / 16 ^ (7 - i) % 16) i) := hv.2
  have hsign : signBits (v / 16 ^ 7 % 16) = 0 := if_pos (by omega)
  have hval := digitsValue_div (v := v) (n := 8) (by omega) (Nat.le_refl 8)
  rw [parseStrToHex_digits hds, hval]
  simpa using hsign

/-- For every 8 bytes: they are decoded as they should be exactly when one of them is no hex digit or
    the first digit is below 8. -/
theorem decodesRight_iff (mem : Mem) (p : ℕ) : DecodesRight mem p ↔
    (∃ i < 8, ∀ d, ¬ IsDigit (mem (p + i)) d) ∨ ∃ d < 8, IsDigit (mem p) d := by
  constructor
  · intro h
    rcases parseStrToHex_cases mem p with ⟨ds, hds⟩ | ⟨hno, -⟩
    · obtain ⟨hval, hlt⟩ := h.value ds hds
      rw [parseStrToHex_digits hds, Except.ok.injEq, signBits] at hval
      refine Or.inr ⟨ds 0, ?_, hds 0 (by decide)⟩
      by_contra hge
      rw [if_neg hge] at hval
      omega
    · exact Or.inl hno
  · intro h
    have hsmall : ∀ ds : ℕ → ℕ, (∀ i < 8, IsDigit (mem (p + i)) (ds i)) → signBits (ds 0) = 0 := by
      intro ds hds
      rcases h with ⟨i, hi, hno⟩ | ⟨d, hd, hdigit⟩
      · exact absurd (hds i hi) (hno _)
      · have heq := hexDigit_eq_some.mpr (hds 0 (by decide))
        rw [Nat.add_zero, hexDigit_eq_some.mpr hdigit, Option.some_inj] at heq
        rw [signBits, if_pos (by omega)]
    have hvalue : ∀ ds : ℕ → ℕ, (∀ i < 8, IsDigit (mem (p + i)) (ds i)) →
        parseStrToHex mem p = .ok (digitsValue ds 8) := by
      intro ds hds
      rw [parseStrToHex_digits hds, hsmall ds hds, Nat.zero_add]
    refine ⟨fun ds hds => ⟨hvalue ds hds, ?_⟩, fun v hv hds => ?_, fun hno => ?_⟩
    · exact digitsValue_lt (fun i hi => (hds i hi).lt) (Nat.le_refl 8)
    · rw [hvalue _ hds, digitsValue_div hv (Nat.le_refl 8), Nat.sub_self, Nat.pow_zero, Nat.div_one]
    · rcases parseStrToHex_cases mem p with ⟨ds, hds⟩ | ⟨-, hbug⟩
      · obtain ⟨i, hi, hnone⟩ := hno
        exact absurd (hds i hi) (hnone _)
      · exact ⟨_, hbug⟩

/-- `80000000` is decoded with the upper 32 bits set. -/
theorem not_decodesRight_top : ¬ DecodesRight (fun a => if a = 0 then 56 else 48) 0 := by
  intro h
  have hds : ∀ i < 8, IsDigit (if 0 + i = 0 then 56 else 48) (if i = 0 then 8 else 0) := by
    intro i _
    by_cases hi : i = 0
    · exact Or.inl (by simp [hi])
    · exact Or.inl (by simp [hi])
  have hval := (h.value _ hds).1
  have hrun : parseStrToHex (fun a => if a = 0 then 56 else 48) 0 = .ok (2 ^ 64 - 2 ^ 31) := by
    rw [parseStrToHex_digits hds]
    rfl
  rw [hrun] at hval
  exact absurd (Except.ok.inj hval) (by decide)

end FilesKernel.Initramfs
