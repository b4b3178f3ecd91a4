import FilesKernel.FileSystem.Model
import FilesKernel.Lib.Numerals

/-! The text of a number (`ulltoa`, `lltoa` of `stdlib.c`).

    The digits are written from the last one on, and the text is then turned around in place. -/

namespace FilesKernel.Stdlib
open CExec CWord FileSystem Numeral

variable {base n value : ℕ} {s : CString}

/-- `digits` -/
def digitTable : CString :=
  [48, 49, 50, 51, 52, 53, 54, 55, 56, 57,
    97, 98, 99, 100, 101, 102, 103, 104, 105, 106, 107, 108, 109, 110, 111, 112, 113, 114, 115, 116,
    117, 118, 119, 120, 121, 122]

/-- An access to a byte of a text. -/
def byteAt (s : CString) (i : ℕ) : Exec UInt8 :=
  match s[i]? with
  | some c => .ok c
  | none => .error .fault

/-- The first loop of `ulltoa`, with at most `n` iterations: the digits in the order of writing. -/
def ulltoaDigits (base : ℕ) : ℕ → ℕ → Exec CString
  | 0, _ => .error .fuel
  | n + 1, value => do
    let r := value % base
    let value := value / base
    let c ← byteAt digitTable r
    if value ≠ 0 then do
      let rest ← ulltoaDigits base n value
      .ok (c :: rest)
    else .ok [c]

/-- The second loop: the bytes at `start` and `ptr` change places. -/
def ulltoaReverse : ℕ → CString → ℕ → ℕ → Exec CString
  | 0, _, _, _ => .error .fuel
  | n + 1, s, start, ptr =>
    if start < ptr then do
      let c ← byteAt s ptr
      let d ← byteAt s start
      ulltoaReverse n ((s.set ptr d).set start c) (start + 1) (ptr - 1)
    else .ok s

/-- The text in `str`; 64 digits are enough for all bases. -/
def ulltoa (value base : ℕ) : Exec CString := do
  let s ← ulltoaDigits base 64 value
  ulltoaReverse 64 s 0 (s.length - 1)

/-- The negation wraps around. -/
def lltoa (value : ℤ) (base : ℕ) : Exec CString :=
  if value < 0 then do
    let s ← ulltoa (wrap (-value).toNat) base
    .ok (45 :: s)
  else ulltoa value.toNat base

/-! ### The digits -/

theorem digitTable_eq : ∀ {d : ℕ}, d < 36 → byteAt digitTable d = .ok (digit d) := by
  decide

theorem ulltoaDigits_eq (hb : 1 < base) (hb' : base ≤ 36) : ∀ {n value : ℕ}, value < base ^ n →
    value ≠ 0 ∨ 0 < n → ulltoaDigits base n value = .ok (numeral base value).reverse
  | 0, value, h, hn => by
      rw [Nat.pow_zero] at h
      omega
  | n + 1, value, h, _ => by
      have hmod := Nat.mod_lt value (show 0 < base by omega)
      rw [ulltoaDigits, digitTable_eq (by omega), ok_bind]
      split
      · rename_i hdiv
        have hle : base ≤ value := Nat.not_lt.mp fun hlt => hdiv (Nat.div_eq_of_lt hlt)
        have hlt : value / base < base ^ n := by
          rw [Nat.div_lt_iff_lt_mul (by omega), ← Nat.pow_succ]
          exact h
        rw [ulltoaDigits_eq hb hb' hlt (Or.inl hdiv), ok_bind, numeral_of_le hb hle,
          List.reverse_append]
        rfl
      · rename_i hdiv
        have hlt : value < base := by
          by_contra hge
          exact hdiv (Nat.div_pos (Nat.not_lt.mp hge) (by omega)).ne'
        rw [numeral_of_lt hlt, Nat.mod_eq_of_lt hlt]
        rfl

/-! ### Turning around -/

theorem byteAt_middle (A B : CString) (c : UInt8) : byteAt (A ++ c :: B) A.length = .ok c := by
  rw [byteAt, List.getElem?_append_right (Nat.le_refl _), Nat.sub_self]
  rfl

theorem set_middle (A B : CString) (c d : UInt8) :
    (A ++ c :: B).set A.length d = A ++ d :: B := by
  rw [List.set_append_right _ _ (Nat.le_refl _), Nat.sub_self]
  rfl

/-- Between the bytes that have changed places, the text is turned around. -/
theorem ulltoaReverse_eq : ∀ {n : ℕ} (A M B : CString), M.length < 2 * n →
    ulltoaReverse n (A ++ M ++ B) A.length (A.length + M.length - 1) = .ok (A ++ M.reverse ++ B)
  | 0, A, M, B, h => absurd h (Nat.not_lt_zero _)
  | n + 1, A, [], B, _ => by
      rw [ulltoaReverse, if_neg (by simp)]
      rfl
  | n + 1, A, [x], B, _ => by
      rw [ulltoaReverse, if_neg (by simp)]
      rfl
  | n + 1, A, x :: y :: M, B, h => by
      -- the last byte of the middle
      obtain ⟨N, z, hz⟩ : ∃ N z, y :: M = N ++ [z] :=
        ⟨_, _, (List.dropLast_append_getLast (List.cons_ne_nil y M)).symm⟩
      have hlen : M.length = N.length := by
        have := congrArg List.length hz
        simpa using this
      have hptr : A.length + (x :: y :: M).length - 1 = (A ++ x :: N).length := by
        rw [hz, List.length_cons, List.length_append, List.length_append, List.length_singleton,
          List.length_cons]
        omega
      have hlast : A ++ x :: y :: M ++ B = (A ++ x :: N) ++ z :: B := by
        rw [hz]
        simp
      have hfirst : ∀ c, (A ++ x :: N) ++ c :: B = A ++ x :: (N ++ c :: B) := fun c => by simp
      have ih := ulltoaReverse_eq (n := n) (A ++ [z]) N (x :: B) (by
        have := congrArg List.length hz
        rw [List.length_append, List.length_singleton] at this
        rw [List.length_cons] at h
        omega)
      rw [ulltoaReverse, if_pos (by rw [hptr, List.length_append, List.length_cons]; omega), hptr,
        hlast, byteAt_middle, ok_bind, hfirst, byteAt_middle, ok_bind, ← hfirst, set_middle, hfirst,
        set_middle]
      have hstart : A.length + 1 = (A ++ [z]).length := by simp
      have hstop : (A ++ x :: N).length - 1 = (A ++ [z]).length + N.length - 1 := by simp
      rw [hstart, hstop, show A ++ z :: (N ++ x :: B) = A ++ [z] ++ N ++ x :: B by simp, ih, hz]
      simp

/-! ### The numerals -/

/-- `ulltoa` writes the numeral. -/
theorem ulltoa_eq (hb : 1 < base) (hb' : base ≤ 36) (h : value < 2 ^ 64) :
    ulltoa value base = .ok (numeral base value) := by
  have hpow : value < base ^ 64 := Nat.lt_of_lt_of_le h (Nat.pow_le_pow_left hb 64)
  have hlen := length_numeral_le hb (by decide) hpow
  have hrev := ulltoaReverse_eq (n := 64) [] (numeral base value).reverse [] (by
    rw [List.length_reverse]
    omega)
  rw [List.nil_append, List.append_nil, List.nil_append, List.append_nil, List.reverse_reverse,
    List.length_nil, Nat.zero_add] at hrev
  rw [ulltoa, ulltoaDigits_eq hb hb' hpow (Or.inr (by decide)), ok_bind, hrev]

/-- `lltoa` writes the numeral with its sign. -/
theorem lltoa_eq (hb : 1 < base) (hb' : base ≤ 36) {z : ℤ} (h : -2 ^ 63 ≤ z) (h' : z < 2 ^ 63) :
    lltoa z base = .ok (signed base z) := by
  rw [lltoa, signed]
  split
  · rw [show wrap (-z).toNat = z.natAbs by rw [wrap_of_lt] <;> omega,
      ulltoa_eq hb hb' (by omega), ok_bind]
  · rw [ulltoa_eq hb hb' (by omega), show z.toNat = z.natAbs by omega]

end FilesKernel.Stdlib
