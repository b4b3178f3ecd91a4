import Mathlib.Data.Nat.Digits.Lemmas

/-! Numerals: a number written in a base, the most significant digit first.

    The digits are `0` to `9` and then the small letters, as bytes of ASCII. -/

namespace Numeral

variable {b m n d : ℕ}

/-- The byte of a digit. -/
def digit (d : ℕ) : UInt8 := UInt8.ofNat (if d < 10 then 48 + d else 87 + d)

/-- The numeral of `n`; the one of zero is a single digit. -/
def numeral (b n : ℕ) : List UInt8 :=
  if n = 0 then [digit 0] else ((Nat.digits b n).reverse).map digit

/-- The numeral of a number with a sign. -/
def signed (b : ℕ) (z : ℤ) : List UInt8 :=
  if z < 0 then 45 :: numeral b z.natAbs else numeral b z.natAbs

/-! ### Digits -/

theorem digit_toNat (hd : d < 36) : (digit d).toNat = if d < 10 then 48 + d else 87 + d := by
  rw [digit, UInt8.toNat_ofNat']
  split <;> omega

theorem digit_inj (hm : m < 36) (hn : n < 36) (h : digit m = digit n) : m = n := by
  have h := congrArg UInt8.toNat h
  rw [digit_toNat hm, digit_toNat hn] at h
  split at h <;> split at h <;> omega

/-- No digit is a minus sign. -/
theorem digit_ne_minus (hd : d < 36) : digit d ≠ 45 := fun h => by
  have h := congrArg UInt8.toNat h
  rw [digit_toNat hd, show (45 : UInt8).toNat = 45 from rfl] at h
  split at h <;> omega

/-! ### The last digit -/

theorem numeral_of_lt (h : n < b) : numeral b n = [digit n] := by
  rw [numeral]
  split
  · rename_i hzero
    rw [hzero]
  · rename_i hne
    rw [Nat.digits_of_lt b n hne h]
    rfl

theorem numeral_of_le (hb : 1 < b) (h : b ≤ n) :
    numeral b n = numeral b (n / b) ++ [digit (n % b)] := by
  have hdiv : n / b ≠ 0 := (Nat.div_pos h (by omega)).ne'
  rw [numeral, numeral, if_neg (by omega), if_neg hdiv, Nat.digits_eq_cons_digits_div hb (by omega),
    List.reverse_cons, List.map_append]
  rfl

theorem numeral_ne_nil : numeral b n ≠ [] := by
  rw [numeral]
  split
  · exact List.cons_ne_nil _ _
  · rename_i h
    rw [Ne, List.map_eq_nil_iff, List.reverse_eq_nil_iff]
    exact Nat.digits_ne_nil_iff_ne_zero.mpr h

/-- A numeral consists of digits. -/
theorem mem_numeral (hb : 1 < b) {c : UInt8} (h : c ∈ numeral b n) : ∃ d < b, c = digit d := by
  rw [numeral] at h
  split at h
  · exact ⟨0, by omega, List.mem_singleton.mp h⟩
  · obtain ⟨d, hd, rfl⟩ := List.mem_map.mp h
    exact ⟨d, Nat.digits_lt_base hb (List.mem_reverse.mp hd), rfl⟩

theorem length_numeral_le (hb : 1 < b) {k : ℕ} (hk : 0 < k) (h : n < b ^ k) :
    (numeral b n).length ≤ k := by
  rw [numeral]
  split
  · exact hk
  · rw [List.length_map, List.length_reverse]
    exact (Nat.digits_length_le_iff hb n).mpr h

/-! ### Different numbers -/

theorem numeral_inj (hb : 1 < b) (hb' : b ≤ 36) : numeral b m = numeral b n ↔ m = n := by
  refine ⟨fun h => ?_, fun h => by rw [h]⟩
  -- from the last digit on, which is the remainder
  induction n using Nat.strongRecOn generalizing m with
  | ind n ih =>
    have hlast : ∀ k, ∃ l, numeral b k = l ++ [digit (k % b)] ∧
        (l = [] ↔ k < b) ∧ (b ≤ k → l = numeral b (k / b)) := fun k => by
      rcases Nat.lt_or_ge k b with hk | hk
      · exact ⟨[], by rw [numeral_of_lt hk, Nat.mod_eq_of_lt hk]; rfl, by simp [hk], by omega⟩
      · exact ⟨_, numeral_of_le hb hk, by simp [numeral_ne_nil, hk], fun _ => rfl⟩
    obtain ⟨l, hl, hshort, hdiv⟩ := hlast m
    obtain ⟨l', hl', hshort', hdiv'⟩ := hlast n
    rw [hl, hl'] at h
    obtain ⟨hinit, hdigit⟩ := List.append_inj' h rfl
    have hm := Nat.mod_lt m (show 0 < b by omega)
    have hn := Nat.mod_lt n (show 0 < b by omega)
    have hmod := digit_inj (by omega) (by omega) (List.singleton_inj.mp hdigit)
    rcases Nat.lt_or_ge n b with hlt | hge
    · have hlt' := hshort.mp (hinit.trans (hshort'.mpr hlt))
      rwa [Nat.mod_eq_of_lt hlt, Nat.mod_eq_of_lt hlt'] at hmod
    · have hge' : b ≤ m := Nat.not_lt.mp fun hlt =>
        absurd (hshort'.mp (hinit.symm.trans (hshort.mpr hlt))) (Nat.not_lt.mpr hge)
      rw [hdiv hge', hdiv' hge] at hinit
      have hquot := ih (n / b) (Nat.div_lt_self (by omega) hb) hinit
      rw [← Nat.div_add_mod m b, ← Nat.div_add_mod n b, hquot, hmod]

theorem signed_inj (hb : 1 < b) (hb' : b ≤ 36) {y z : ℤ} : signed b y = signed b z ↔ y = z := by
  refine ⟨fun h => ?_, fun h => by rw [h]⟩
  have hminus : ∀ {l : List UInt8} {k : ℕ}, 45 :: l ≠ numeral b k := fun {l k} e => by
    obtain ⟨d, hd, he⟩ := mem_numeral hb (e ▸ List.mem_cons_self)
    exact digit_ne_minus (by omega) he.symm
  rw [signed, signed] at h
  split at h <;> split at h
  · have := (numeral_inj hb hb').mp (List.cons_injective h)
    omega
  · exact absurd h hminus
  · exact absurd h.symm hminus
  · have := (numeral_inj hb hb').mp h
    omega

end Numeral
