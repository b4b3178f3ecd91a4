import FilesKernel.Output.Conversions

/-! Printing to a buffer.

    `str_out` cuts the output off at the end of the buffer. `vsnprintf` then stores the NUL at
    `rc - 1`, and so over the last byte of an output that would have had room. -/

namespace FilesKernel.Output
open CExec CWord FileSystem Stdlib

variable {items : List Item} {args rest : List Arg} {us : List CString}
  {buf console text : CString} {size : ℕ}

/-! ### The console -/

theorem serialOut_accepts : Accepts serialOut := by
  intro written sink buf size r h
  obtain ⟨bytes, -, h⟩ := bind_eq_ok.mp h
  rw [← Except.ok.inj h]

theorem readBytes_all (t : CString) : readBytes t t.length = .ok t := by
  rw [readBytes, if_pos ⟨Int.natCast_nonneg _, Int.le_refl _⟩, Int.toNat_natCast, List.take_length]

theorem serialOut_follows (console : CString) :
    Follows serialOut fun ts => console ++ ts.flatten := fun ts t _ => by
  dsimp only
  rw [serialOut, readBytes_all, ok_bind, List.flatten_append, List.flatten_singleton,
    List.append_assoc]

/-- What is printed to the console. -/
theorem vprintf_eq (hp : pieces Length.bitsRead (segments items) args = some (us, rest))
    (hlt : total us < 2 ^ 31) (console : CString) :
    vprintf console (render items) args = .ok (total us, console ++ us.flatten, rest) := by
  have hall := vprintfTo_follows serialOut_accepts (serialOut_follows console) hp hlt
  rwa [List.flatten_nil, List.append_nil] at hall

/-! ### The buffer -/

/-- The buffer after the output `text`. -/
def filled (buf text : CString) : CString := text.take buf.length ++ buf.drop text.length

theorem filled_nil (buf : CString) : filled buf [] = buf := by
  rw [filled, List.take_nil]
  rfl

theorem filled_length (buf text : CString) : (filled buf text).length = buf.length := by
  rw [filled, List.length_append, List.length_take, List.length_drop]
  omega

theorem storeByte_eq {i : ℕ} (h : i < buf.length) (c : UInt8) :
    storeByte buf i c = .ok (buf.set i c) :=
  if_pos ⟨Int.natCast_nonneg _, by omega⟩

/-- `memcpy` into the buffer. -/
theorem storeBytes_eq : ∀ (A bytes B C : CString), B.length = bytes.length →
    storeBytes (A ++ (B ++ C)) A.length bytes = .ok (A ++ (bytes ++ C))
  | A, [], [], C, _ => rfl
  | A, c :: bytes, d :: B, C, h => by
      have hnext := storeBytes_eq (A ++ [c]) bytes B C (Nat.succ.inj h)
      have hset : (A ++ (d :: B ++ C)).set A.length c = A ++ [c] ++ (B ++ C) := by
        rw [List.cons_append, Stdlib.set_middle, List.append_assoc]
        rfl
      have hone : ((A.length : ℕ) : ℤ) + 1 = ((A ++ [c]).length : ℕ) := by
        rw [List.length_append, List.length_singleton]
        exact (Int.natCast_add _ _).symm
      rw [storeBytes, storeByte_eq (by simp), ok_bind, hset, hone, hnext, List.append_assoc]
      rfl

theorem strOut_accepts (size : ℤ) : Accepts (strOut size) := by
  intro written sink buf n r h
  rw [strOut] at h
  split at h
  · rw [← Except.ok.inj h]
  · obtain ⟨bytes, -, h⟩ := bind_eq_ok.mp h
    obtain ⟨buf', -, h⟩ := bind_eq_ok.mp h
    rw [← Except.ok.inj h]

/-- Each piece is put behind those before, as far as there is room. -/
theorem strOut_follows (buf : CString) :
    Follows (strOut buf.length) fun ts => filled buf ts.flatten := fun ts t _ => by
  dsimp only
  generalize htext : ts.flatten = text
  have htotal : total ts = text.length := by rw [total, htext]
  rw [strOut, htotal, List.flatten_append, List.flatten_singleton, htext]
  split
  · rename_i hfull
    have hfull : buf.length < text.length := by omega
    rw [filled, filled, List.take_append_of_le_length (by omega), List.drop_of_length_le (by omega),
      List.drop_of_length_le (by rw [List.length_append]; omega)]
  · rename_i hroom
    have hroom : text.length ≤ buf.length := by omega
    -- the part of the piece that has room
    have hremain : (if (t.length : ℤ) < (buf.length : ℤ) - (text.length : ℤ) then (t.length : ℤ)
        else (buf.length : ℤ) - (text.length : ℤ)) =
          (min t.length (buf.length - text.length) : ℕ) := by
      split <;> omega
    have hread : readBytes t (min t.length (buf.length - text.length) : ℕ) =
        .ok (t.take (buf.length - text.length)) := by
      rw [readBytes, if_pos ⟨Int.natCast_nonneg _, by omega⟩, Int.toNat_natCast, Nat.min_comm,
        ← List.take_take, List.take_length]
    -- it takes the place of the first bytes that are left
    have hbefore : filled buf text = text ++ ((buf.drop text.length).take
        (t.take (buf.length - text.length)).length ++
          (buf.drop text.length).drop (t.take (buf.length - text.length)).length) := by
      rw [filled, List.take_of_length_le hroom, List.take_append_drop]
    have hafter : filled buf (text ++ t) = text ++ (t.take (buf.length - text.length) ++
        (buf.drop text.length).drop (t.take (buf.length - text.length)).length) := by
      rw [filled, List.take_append, List.take_of_length_le hroom, List.append_assoc, List.drop_drop,
        List.length_take, List.length_append]
      congr 2
      rcases Nat.le_total t.length (buf.length - text.length) with hle | hle
      · rw [Nat.min_eq_right hle]
      · rw [Nat.min_eq_left hle, List.drop_of_length_le (by omega),
          List.drop_of_length_le (by omega)]
    rw [hremain]
    dsimp only
    rw [hread, ok_bind, hbefore, storeBytes_eq text _ _ _ (by
      rw [List.length_take, List.length_drop, List.length_take]
      omega), ok_bind, hafter]

/-! ### The result -/

/-- `vsnprintf` keeps the first bytes of the output, as far as there is room, then a NUL, and returns
    the length of the output that `vprintf` prints. -/
structure Bounded (buf fmt : CString) (args : List Arg) (text : CString) (rest : List Arg) : Prop where
  printed : vprintf [] fmt args = .ok (text.length, text, rest)
  kept : ∃ buf', vsnprintf buf buf.length fmt args = .ok (text.length, buf', rest) ∧
    buf'.take (min text.length (buf.length - 1)) = text.take (min text.length (buf.length - 1)) ∧
    buf'[min text.length (buf.length - 1)]? = some 0

/-- What is left in the buffer. -/
theorem vsnprintf_eq (hp : pieces Length.bitsRead (segments items) args = some (us, rest))
    (hlt : total us < 2 ^ 31) (hbuf : buf.length < 2 ^ 31) :
    vsnprintf buf buf.length (render items) args = (do
      let buf' ← storeByte (filled buf us.flatten)
        (if us.flatten.length < buf.length then (us.flatten.length : ℤ) - 1
          else (buf.length : ℤ) - 1) 0
      .ok (us.flatten.length, buf', rest)) := by
  have haccepts : Accepts (strOut buf.length) := strOut_accepts buf.length
  have hall := vprintfTo_follows haccepts (strOut_follows buf) hp hlt
  rw [List.flatten_nil, filled_nil] at hall
  rw [vsnprintf, toInt_of_lt hbuf, hall, ok_bind]
  dsimp only
  rw [if_pos (Int.natCast_nonneg _), total]
  simp only [Int.ofNat_lt]

/-- An output without room is cut off before the NUL. -/
theorem vsnprintf_cut (hp : pieces Length.bitsRead (segments items) args = some (us, rest))
    (hlt : total us < 2 ^ 31) (hsize : 0 < buf.length) (hfull : buf.length ≤ us.flatten.length) :
    vsnprintf buf buf.length (render items) args =
      .ok (us.flatten.length, us.flatten.take (buf.length - 1) ++ [0], rest) := by
  rw [total] at hlt
  have hlast : (buf.length : ℤ) - 1 = (buf.length - 1 : ℕ) := by omega
  have htake : us.flatten.take buf.length =
      us.flatten.take (buf.length - 1) ++ us.flatten[buf.length - 1] :: [] := by
    have h := List.take_concat_get' us.flatten (buf.length - 1) (by omega)
    rwa [Nat.sub_add_cancel hsize, eq_comm] at h
  have hlen : (us.flatten.take (buf.length - 1)).length = buf.length - 1 := by
    rw [List.length_take]
    omega
  have hset := Stdlib.set_middle (us.flatten.take (buf.length - 1)) [] us.flatten[buf.length - 1] 0
  rw [hlen] at hset
  rw [vsnprintf_eq hp hlt (by omega), if_neg (by omega), hlast,
    storeByte_eq (by rw [filled_length]; omega), ok_bind, filled, List.drop_of_length_le hfull,
    List.append_nil, htake, hset]

/-- The last byte of an output with room is lost. -/
theorem vsnprintf_room (hp : pieces Length.bitsRead (segments items) args = some (us, rest))
    (hlt : total us < 2 ^ 31) (hsize : buf.length < 2 ^ 31) {T : CString} {c : UInt8}
    (htext : us.flatten = T ++ [c]) (hroom : us.flatten.length < buf.length) :
    vsnprintf buf buf.length (render items) args =
      .ok (us.flatten.length, T ++ 0 :: buf.drop us.flatten.length, rest) := by
  have hlen : us.flatten.length = T.length + 1 := by
    rw [htext, List.length_append, List.length_singleton]
  have hlast : (us.flatten.length : ℤ) - 1 = (T.length : ℕ) := by omega
  have hfilled : filled buf us.flatten = T ++ c :: buf.drop us.flatten.length := by
    rw [filled, List.take_of_length_le (Nat.le_of_lt hroom), htext, List.append_assoc]
    rfl
  rw [vsnprintf_eq hp hlt hsize, if_pos hroom, hlast,
    storeByte_eq (by rw [filled_length]; omega), ok_bind, hfilled, Stdlib.set_middle]

/-- For an empty output, the NUL is stored before the buffer. -/
theorem vsnprintf_empty (hp : pieces Length.bitsRead (segments items) args = some (us, rest))
    (hsize : 0 < buf.length) (hsize' : buf.length < 2 ^ 31) (htext : us.flatten = []) :
    vsnprintf buf buf.length (render items) args = .error .fault := by
  have hlt : total us < 2 ^ 31 := by
    rw [total, htext]
    exact Nat.two_pow_pos 31
  rw [vsnprintf_eq hp hlt hsize', htext, List.length_nil, if_pos hsize, storeByte,
    if_neg (by omega)]
  rfl

/-- `vsnprintf` does what it should if and only if the output does not fit, or its last byte is a NUL
    and another one was behind it. -/
theorem bounded_iff (hsize : 0 < buf.length) (hsize' : buf.length < 2 ^ 31)
    (hp : pieces Length.bitsRead (segments items) args = some (us, rest)) :
    Bounded buf (render items) args us.flatten rest ↔ us.flatten.length < 2 ^ 31 ∧
      (buf.length ≤ us.flatten.length ∨
        us.flatten.getLast? = some 0 ∧ buf[us.flatten.length]? = some 0) := by
  constructor
  · rintro ⟨hprinted, buf', hkept, htake, hnul⟩
    have hlt : us.flatten.length < 2 ^ 31 := by
      rw [vprintf, vprintfTo_eq serialOut_accepts [] hp] at hprinted
      obtain ⟨ctx, hall, hctx⟩ := bind_eq_ok.mp hprinted
      have hwritten := (Prod.mk.inj (Except.ok.inj hctx)).1
      cases us with
      | nil => exact Nat.two_pow_pos 31
      | cons u us =>
        have hbound := printAll_written serialOut_accepts hall (List.cons_ne_nil u us)
        omega
    refine ⟨hlt, ?_⟩
    rcases Nat.lt_or_ge us.flatten.length buf.length with hroom | hfull
    · rcases List.eq_nil_or_concat us.flatten with htext | ⟨T, c, htext⟩
      · rw [vsnprintf_empty hp hsize hsize' htext] at hkept
        cases hkept
      · rw [List.concat_eq_append] at htext
        have hlen : us.flatten.length = T.length + 1 := by
          rw [htext, List.length_append, List.length_singleton]
        rw [vsnprintf_room hp hlt hsize' htext hroom] at hkept
        obtain rfl := (Prod.mk.inj (Prod.mk.inj (Except.ok.inj hkept)).2).1
        rw [Nat.min_eq_left (by omega)] at htake hnul
        -- the byte before the NUL is the last one of the output
        have hc : c = 0 := by
          rw [List.take_length, hlen, htext, List.take_append, List.take_of_length_le (by omega),
            Nat.add_sub_cancel_left] at htake
          exact (List.singleton_inj.mp (List.append_cancel_left htake)).symm
        have hbehind : buf[us.flatten.length]? = some 0 := by
          rw [hlen, List.getElem?_append_right (by omega), Nat.add_sub_cancel_left, ← hlen] at hnul
          rw [← hnul, List.getElem?_cons_succ, List.getElem?_drop, Nat.add_zero]
        exact Or.inr ⟨by rw [htext, hc, List.getLast?_append]; rfl, hbehind⟩
    · exact Or.inl hfull
  · rintro ⟨hlt, hcond⟩
    refine ⟨vprintf_eq hp hlt [], ?_⟩
    rcases Nat.lt_or_ge us.flatten.length buf.length with hroom | hfull
    · obtain ⟨hlast, hbehind⟩ := hcond.resolve_left (Nat.not_le.mpr hroom)
      obtain ⟨T, htext⟩ : ∃ T, us.flatten = T ++ [0] := List.getLast?_eq_some_iff.mp hlast
      have hlen : us.flatten.length = T.length + 1 := by
        rw [htext, List.length_append, List.length_singleton]
      refine ⟨_, vsnprintf_room hp hlt hsize' htext hroom, ?_, ?_⟩
      · rw [Nat.min_eq_left (by omega), List.take_length, hlen, htext, List.take_append,
          List.take_of_length_le (by omega), Nat.add_sub_cancel_left]
        rfl
      · rw [Nat.min_eq_left (by omega), hlen, List.getElem?_append_right (by omega),
          Nat.add_sub_cancel_left, ← hlen, List.getElem?_cons_succ, List.getElem?_drop, Nat.add_zero,
          hbehind]
    · have hmin : min us.flatten.length (buf.length - 1) = buf.length - 1 := by omega
      have hlen : (us.flatten.take (buf.length - 1)).length = buf.length - 1 := by
        rw [List.length_take]
        omega
      refine ⟨_, vsnprintf_cut hp hlt hsize hfull, ?_, ?_⟩
      · rw [hmin, List.take_append_of_le_length (by omega), List.take_take, Nat.min_self]
      · rw [hmin, List.getElem?_append_right (by omega), hlen, Nat.sub_self]
        rfl

/-- `%u`, and what is printed for 12345 -/
def unsignedItems : List Item := [.conv (plain .int .u)]

def unsignedText : List CString := [[49, 50, 51, 52, 53]]

def smallBuffer : CString := [1, 2, 3]

theorem unsignedItems_pieces :
    pieces Length.bitsRead (segments unsignedItems) [.word 12345] = some (unsignedText, []) :=
  rfl

/-- A number that is cut off. -/
theorem cut_bounded : smallBuffer.length < unsignedText.flatten.length ∧
    Bounded smallBuffer (render unsignedItems) [.word 12345] unsignedText.flatten [] :=
  ⟨by decide, (bounded_iff (by decide) (by decide) unsignedItems_pieces).mpr
    ⟨by decide, Or.inl (by decide)⟩⟩

/-- In a buffer of 16 bytes, the number loses its last digit. -/
theorem room_not_bounded :
    pieces Length.bitsRead (segments unsignedItems) [.word 12345] = some (unsignedText, []) ∧
    ¬ Bounded (List.replicate 16 1) (render unsignedItems) [.word 12345] unsignedText.flatten [] := by
  refine ⟨unsignedItems_pieces, fun h => ?_⟩
  obtain ⟨-, buf', hkept, htake, -⟩ := h
  have hrun : (vsnprintf (List.replicate 16 1) 16 (render unsignedItems) [.word 12345]).toOption.map
      (fun r => r.2.1.take 5) = some [49, 50, 51, 52, 0] := by
    decide +kernel
  rw [List.length_replicate] at hkept
  rw [hkept] at hrun
  have hbuf : buf'.take 5 = [49, 50, 51, 52, 0] := Option.some.inj hrun
  have htext : buf'.take 5 = [49, 50, 51, 52, 53] := htake
  rw [hbuf] at htext
  exact absurd htext (by decide)

end FilesKernel.Output
