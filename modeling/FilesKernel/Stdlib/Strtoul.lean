import FilesKernel.FileSystem.Model
import FilesKernel.Lib.Words
import Mathlib.Data.Nat.Digits.Lemmas

/-! Reading a number (`strtoul` of `stdlib.c`, with what it uses of `ctype.c`).

    A pointer into the text is what is left of it; `*ptr` at its end is the NUL. -/

namespace FilesKernel.Stdlib
open CWord FileSystem

/-! ### Characters -/

def isDigit (c : UInt8) : Bool := 48 ≤ c && c ≤ 57
def isspace (c : UInt8) : Bool := (9 ≤ c && c ≤ 13) || c == 32

def toupper (c : UInt8) : UInt8 := if 97 ≤ c ∧ c ≤ 122 then c - 32 else c

def tolower (c : UInt8) : UInt8 := if 65 ≤ c ∧ c ≤ 90 then c + 32 else c

/-- The value of a `char`, which is signed -/
def charValue (c : UInt8) : ℤ := if c < 128 then c.toNat else c.toNat - 256

/-- `digit` in the loop of `strtoul` -/
def charDigit (c : UInt8) : ℤ :=
  if isDigit (toupper c) then charValue (toupper c) - 48 else charValue (toupper c) - 65 + 10

/-- An `int` as an `unsigned long` -/
def toUlong (z : ℤ) : ℕ := (z % 2 ^ 64).toNat

/-- `ULONG_MAX` -/
def ulongMax : ℕ := 2 ^ 64 - 1

/-! ### The code -/

def strtoulSign (ptr : CString) : Bool × CString :=
  if ptr.headD 0 = 45 ∨ ptr.headD 0 = 43 then (decide (ptr.headD 0 = 45), ptr.tail) else (false, ptr)

/-- The base, and where the digits begin. For base 16 it is the comparison with `x` that `tolower` is
    called with. -/
def strtoulPrefix (base : ℕ) (ptr : CString) : ℕ × CString :=
  if base = 0 then
    if ptr.headD 0 = 48 then
      let ptr := ptr.tail
      if tolower (ptr.headD 0) = 120 then (16, ptr.tail) else (8, ptr)
    else (10, ptr)
  else
    let ptr := if base = 8 ∧ ptr.headD 0 = 48 then ptr.tail else ptr
    if base = 16 ∧ ptr.headD 0 = 48 ∧ tolower (if ptr.tail.headD 0 = 120 then 1 else 0) ≠ 0 then
      (base, ptr.drop 2)
    else (base, ptr)

/-- The loop: `ret`, `consumed` and `ptr` at its end. -/
def strtoulLoop (base : ℕ) : CString → ℕ → Bool → ℕ × Bool × CString
  | [], ret, consumed => (ret, consumed, [])
  | c :: ptr, ret, consumed =>
    if c = 0 then (ret, consumed, c :: ptr)
    else if ret > wsub ulongMax (toUlong (charDigit c)) / base then (ulongMax, consumed, c :: ptr)
    else strtoulLoop base ptr (wrap (ret * base + toUlong (charDigit c))) true

/-- What is returned, and `*endptr` as an offset into the text. -/
def strtoul (s : CString) (base : ℕ) : ℕ × ℕ :=
  let (negate, ptr) := strtoulSign (s.dropWhile isspace)
  let (base, ptr) := strtoulPrefix base ptr
  let (ret, consumed, ptr) := strtoulLoop base ptr 0 false
  (if negate then wsub 0 ret else ret, if consumed then s.length - ptr.length else 0)

/-! ### Digits -/

/-- The value of a character as a digit, and `36` where it is none -/
def digitOf (c : UInt8) : ℕ :=
  if 48 ≤ c ∧ c ≤ 57 then c.toNat - 48
  else if 97 ≤ c ∧ c ≤ 122 then c.toNat - 87
  else if 65 ≤ c ∧ c ≤ 90 then c.toNat - 55
  else 36

def isDigitIn (base : ℕ) (c : UInt8) : Bool := digitOf c < base

/-- The number that the digits write -/
def value (base : ℕ) (digits : CString) : ℕ := Nat.ofDigits base (digits.map digitOf).reverse

variable {base ret : ℕ} {c : UInt8} {D R ptr : CString} {consumed : Bool}

theorem value_cons (base : ℕ) (c : UInt8) (D : CString) :
    value base (c :: D) = digitOf c * base ^ D.length + value base D := by
  rw [value, value, List.map_cons, List.reverse_cons, Nat.ofDigits_append, Nat.ofDigits_singleton,
    List.length_reverse, List.length_map, Nat.add_comm, Nat.mul_comm]

theorem value_nil (base : ℕ) : value base [] = 0 := rfl

/-- For a digit, the code has its value. -/
theorem charDigit_eq : ∀ c : UInt8, digitOf c < 36 → toUlong (charDigit c) = digitOf c := by
  have h : ∀ n : Fin 256, digitOf (UInt8.ofNat n) < 36 →
      toUlong (charDigit (UInt8.ofNat n)) = digitOf (UInt8.ofNat n) := by decide +kernel
  intro c
  have hc := h ⟨c.toNat, UInt8.toNat_lt c⟩
  rwa [UInt8.ofNat_toNat] at hc

theorem digit_ne_nul (hb : base ≤ 36) (h : isDigitIn base c = true) : c ≠ 0 := by
  rintro rfl
  have hlt : digitOf 0 < base := of_decide_eq_true h
  rw [show digitOf 0 = 36 from rfl] at hlt
  omega

/-! ### The loop -/

/-- The guard stops the loop before a digit exactly when the number would not fit. -/
theorem guard_iff (hb : 1 < base) {d : ℕ} (hd : d < base) (hbase : base ≤ 36) :
    ret > wsub ulongMax d / base ↔ 2 ^ 64 ≤ ret * base + d := by
  have hsub : wsub ulongMax d = 2 ^ 64 - 1 - d := by
    rw [ulongMax, wsub_of_le (by omega) (by omega)]
  rw [hsub, gt_iff_lt, Nat.div_lt_iff_lt_mul (by omega)]
  omega

/-- A guard that is never reached with nothing read. -/
theorem guard_zero (x : ℕ) : ¬ (0 > x) := Nat.not_lt_zero x

theorem guard_max (hb : 1 < base) (x : ℕ) : ulongMax > wsub ulongMax x / base := by
  have hlt : wsub ulongMax x < 2 ^ 64 := by
    rw [wsub_eq]
    exact Nat.mod_lt _ (Nat.two_pow_pos 64)
  have hmul : (2 ^ 64 - 1) * 2 ≤ ulongMax * base := Nat.mul_le_mul_left _ hb
  rw [gt_iff_lt, Nat.div_lt_iff_lt_mul (by omega)]
  omega

theorem strtoulLoop_length : ∀ (ptr : CString) (ret : ℕ) (consumed : Bool),
    (strtoulLoop base ptr ret consumed).2.2.length ≤ ptr.length
  | [], _, _ => Nat.le_refl 0
  | c :: ptr, ret, consumed => by
      rw [strtoulLoop]
      split_ifs
      · exact Nat.le_refl _
      · exact Nat.le_refl _
      · exact (strtoulLoop_length ptr _ _).trans (Nat.le_succ _)

theorem strtoulLoop_consumed : ∀ (ptr : CString) (ret : ℕ),
    (strtoulLoop base ptr ret true).2.1 = true
  | [], _ => rfl
  | c :: ptr, ret => by
      rw [strtoulLoop]
      split_ifs
      · rfl
      · rfl
      · exact strtoulLoop_consumed ptr _

/-- With nothing read yet, the first character is taken as it is. -/
theorem strtoulLoop_first (hc : c ≠ 0) (ptr : CString) (consumed : Bool) :
    strtoulLoop base (c :: ptr) 0 consumed =
      strtoulLoop base ptr (wrap (toUlong (charDigit c))) true := by
  rw [strtoulLoop, if_neg hc, if_neg (guard_zero _), Nat.zero_mul, Nat.zero_add]

/-- Digits are read as long as the number fits. -/
theorem strtoulLoop_digits (hb : 1 < base) (hbase : base ≤ 36) : ∀ (D : CString) (ret : ℕ)
    (consumed : Bool), (∀ c ∈ D, isDigitIn base c = true) →
    ret * base ^ D.length + value base D < 2 ^ 64 →
    strtoulLoop base (D ++ R) ret consumed =
      strtoulLoop base R (ret * base ^ D.length + value base D) (consumed || !D.isEmpty)
  | [], ret, consumed, _, _ => by
      rw [List.nil_append, value_nil, List.length_nil, Nat.pow_zero, Nat.mul_one, Nat.add_zero,
        List.isEmpty_nil, Bool.not_true, Bool.or_false]
  | c :: D, ret, consumed, hD, hfit => by
      have hc : digitOf c < base := of_decide_eq_true (hD c List.mem_cons_self)
      have hsum : ret * base ^ (c :: D).length + value base (c :: D) =
          (ret * base + digitOf c) * base ^ D.length + value base D := by
        rw [value_cons, List.length_cons, Nat.pow_succ', Nat.add_mul, ← Nat.mul_assoc, Nat.add_assoc]
      rw [hsum] at hfit ⊢
      have hle : ret * base + digitOf c ≤ (ret * base + digitOf c) * base ^ D.length :=
        Nat.le_mul_of_pos_right _ (Nat.pow_pos (by omega))
      have hval := charDigit_eq c (by omega)
      rw [List.cons_append, strtoulLoop, if_neg (digit_ne_nul hbase (hD c List.mem_cons_self)), hval,
        if_neg (fun hg => by have := (guard_iff hb hc hbase).mp hg; omega), wrap_of_lt (by omega),
        strtoulLoop_digits hb hbase D _ true (fun x hx => hD x (List.mem_cons_of_mem c hx)) hfit,
        List.isEmpty_cons, Bool.not_false, Bool.or_true, Bool.true_or]

/-- Where the number does not fit, the loop stops in front of one of its digits. -/
theorem strtoulLoop_overflow (hb : 1 < base) (hbase : base ≤ 36) : ∀ (D : CString) (ret : ℕ)
    (consumed : Bool), (∀ c ∈ D, isDigitIn base c = true) → ret < 2 ^ 64 →
    2 ^ 64 ≤ ret * base ^ D.length + value base D →
    R.length < (strtoulLoop base (D ++ R) ret consumed).2.2.length
  | [], ret, consumed, _, hret, hbig => by
      rw [value_nil, List.length_nil, Nat.pow_zero] at hbig
      omega
  | c :: D, ret, consumed, hD, hret, hbig => by
      have hc : digitOf c < base := of_decide_eq_true (hD c List.mem_cons_self)
      have hsum : ret * base ^ (c :: D).length + value base (c :: D) =
          (ret * base + digitOf c) * base ^ D.length + value base D := by
        rw [value_cons, List.length_cons, Nat.pow_succ', Nat.add_mul, ← Nat.mul_assoc, Nat.add_assoc]
      rw [hsum] at hbig
      have hval := charDigit_eq c (by omega)
      rw [List.cons_append, strtoulLoop, if_neg (digit_ne_nul hbase (hD c List.mem_cons_self)), hval]
      by_cases hg : ret > wsub ulongMax (digitOf c) / base
      · rw [if_pos hg]
        dsimp only
        rw [List.length_cons, List.length_append]
        omega
      · have hfit : ret * base + digitOf c < 2 ^ 64 := by
          by_contra hge
          exact hg ((guard_iff hb hc hbase).mpr (by omega))
        rw [if_neg hg, wrap_of_lt hfit]
        exact strtoulLoop_overflow hb hbase D _ true (fun x hx => hD x (List.mem_cons_of_mem c hx))
          hfit hbig

/-- In front of a character the loop stops with `ULONG_MAX`, or it goes past the character. -/
theorem strtoulLoop_past (hb : 1 < base) (hc : c ≠ 0) (ptr : CString) (ret : ℕ) (consumed : Bool) :
    (strtoulLoop base (c :: ptr) ret consumed = (ulongMax, consumed, c :: ptr) ∧ 0 < ret) ∨
      ((strtoulLoop base (c :: ptr) ret consumed).2.1 = true ∧
        (strtoulLoop base (c :: ptr) ret consumed).2.2.length ≤ ptr.length ∧ ret ≠ ulongMax) := by
  rw [strtoulLoop, if_neg hc]
  by_cases hg : ret > wsub ulongMax (toUlong (charDigit c)) / base
  · rw [if_pos hg]
    exact Or.inl ⟨rfl, Nat.zero_lt_of_lt hg⟩
  · rw [if_neg hg]
    exact Or.inr ⟨strtoulLoop_consumed ptr _, strtoulLoop_length ptr _ _,
      fun hmax => hg (hmax ▸ guard_max hb _)⟩

/-- What `strtoul` returns for the digits from `ptr` on. -/
def finish (s : CString) (negate : Bool) (base : ℕ) (ptr : CString) : ℕ × ℕ :=
  let (ret, consumed, ptr) := strtoulLoop base ptr 0 false
  (if negate then wsub 0 ret else ret, if consumed then s.length - ptr.length else 0)

theorem finish_snd (s : CString) (negate : Bool) (base : ℕ) (ptr : CString) :
    (finish s negate base ptr).2 = if (strtoulLoop base ptr 0 false).2.1
      then s.length - (strtoulLoop base ptr 0 false).2.2.length else 0 := rfl

theorem strtoul_eq (s : CString) (base : ℕ) : strtoul s base =
    finish s (strtoulSign (s.dropWhile isspace)).1
      (strtoulPrefix base (strtoulSign (s.dropWhile isspace)).2).1
      (strtoulPrefix base (strtoulSign (s.dropWhile isspace)).2).2 := rfl

end FilesKernel.Stdlib
