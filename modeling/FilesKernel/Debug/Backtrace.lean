import FilesKernel.Lib.Exec
import FilesKernel.Lib.Words

/-! Backtraces (`backtrace.c`).

    A frame is two words on the stack: the address of the frame of the caller, and where to return to.
    Memory is any content, and an address wraps around at 64 bits. -/

namespace FilesKernel.Debug
open CExec CWord

abbrev Memory := ℕ → UInt8

/-- The word at `a`, lowest byte first -/
def word (mem : Memory) (a : ℕ) : ℕ → ℕ
  | 0 => 0
  | n + 1 => word mem a n + 2 ^ (8 * n) * (mem (wrap (a + n))).toNat

/-- An access to a `uint64_t` -/
def read64 (mem : Memory) (a : ℕ) : ℕ := word mem a 8

/-- The walk so far: the words that were read, and the return addresses that were printed. -/
structure Walk where
  reads : List ℕ
  rips : List ℕ
  deriving DecidableEq, Repr

/-- One round of the loop of `__backtrace`. -/
def backtraceBody (mem : Memory) (stackBegin stackEnd : ℕ) :
    ℕ × Walk → Exec ((ℕ × Walk) ⊕ Walk)
  | (rbp, w) =>
    if rbp ≥ stackBegin ∧ wrap (rbp + 16) ≤ stackEnd then
      let prevRbp := read64 mem rbp
      let prevRip := read64 mem (wrap (rbp + 8))
      let reads := w.reads ++ [rbp, wrap (rbp + 8)]
      if prevRbp ≤ rbp then .ok (.inr ⟨reads, w.rips⟩)
      else .ok (.inl (prevRbp, ⟨reads, w.rips ++ [prevRip]⟩))
    else .ok (.inr w)

/-- `__backtrace` -/
def backtrace (mem : Memory) (rbp stackBegin stackEnd : ℕ) : Exec Walk :=
  loop (backtraceBody mem stackBegin stackEnd) maxSteps (rbp, ⟨[], []⟩)

/-! ### What is read -/

variable {mem : Memory} {stackBegin stackEnd rbp x a : ℕ}

theorem word_lt (mem : Memory) (a : ℕ) : ∀ n, word mem a n < 2 ^ (8 * n)
  | 0 => Nat.two_pow_pos _
  | n + 1 => by
      have hn := word_lt mem a n
      have hbyte := (mem (wrap (a + n))).toNat_lt
      have hmul : 2 ^ (8 * n) * (mem (wrap (a + n))).toNat ≤ 2 ^ (8 * n) * 255 :=
        Nat.mul_le_mul_left _ (by omega)
      rw [word, Nat.mul_succ, Nat.pow_add]
      omega

theorem read64_lt (mem : Memory) (a : ℕ) : read64 mem a < 2 ^ 64 := word_lt mem a 8

/-- The code takes `x` for a frame. -/
def Tested (stackBegin stackEnd x : ℕ) : Prop := stackBegin ≤ x ∧ wrap (x + 16) ≤ stackEnd

/-- The walk from `x` on reads the word at `a`. -/
inductive Reads (mem : Memory) (stackBegin stackEnd : ℕ) : ℕ → ℕ → Prop
  | here {x a : ℕ} (h : Tested stackBegin stackEnd x) (ha : a = x ∨ a = wrap (x + 8)) :
      Reads mem stackBegin stackEnd x a
  | later {x a : ℕ} (h : Tested stackBegin stackEnd x) (hx : x < read64 mem x)
      (ha : Reads mem stackBegin stackEnd (read64 mem x) a) : Reads mem stackBegin stackEnd x a

/-- Frames rise, so the walk ends, and it reads what `Reads` says. -/
theorem walk_spec (mem : Memory) (stackBegin stackEnd : ℕ) : ∀ (fuel x : ℕ) (w : Walk),
    2 ^ 64 ≤ x + fuel → x < 2 ^ 64 → ∃ w',
      loop (backtraceBody mem stackBegin stackEnd) fuel (x, w) = .ok w' ∧
        ∀ a, a ∈ w'.reads ↔ a ∈ w.reads ∨ Reads mem stackBegin stackEnd x a
  | 0, x, w, hfuel, hx => absurd hx (by omega)
  | fuel + 1, x, w, hfuel, hx => by
      rw [loop, backtraceBody]
      by_cases ht : x ≥ stackBegin ∧ wrap (x + 16) ≤ stackEnd
      · rw [if_pos ht]
        dsimp only
        have hhere : ∀ a, a ∈ w.reads ++ [x, wrap (x + 8)] ↔
            a ∈ w.reads ∨ a = x ∨ a = wrap (x + 8) := fun a => by
          rw [List.mem_append, List.mem_cons, List.mem_singleton]
        by_cases hprev : read64 mem x ≤ x
        · rw [if_pos hprev, ok_bind]
          refine ⟨_, rfl, fun a => (hhere a).trans (or_congr_right ⟨.here ht, fun h => ?_⟩)⟩
          cases h with
          | here _ ha => exact ha
          | later _ hlt => exact absurd hlt (Nat.not_lt_of_le hprev)
        · have hlt := Nat.lt_of_not_le hprev
          obtain ⟨w', e, hw'⟩ := walk_spec mem stackBegin stackEnd fuel (read64 mem x)
            ⟨w.reads ++ [x, wrap (x + 8)], w.rips ++ [read64 mem (wrap (x + 8))]⟩ (by omega)
            (read64_lt mem x)
          rw [if_neg hprev, ok_bind]
          refine ⟨w', e, fun a => ?_⟩
          rw [hw', hhere, or_assoc]
          refine or_congr_right ⟨fun h => ?_, fun h => ?_⟩
          · exact h.elim (.here ht) (.later ht hlt)
          · cases h with
            | here _ ha => exact Or.inl ha
            | later _ _ ha => exact Or.inr ha
      · rw [if_neg ht, ok_bind]
        refine ⟨w, rfl, fun a => (or_iff_left fun h => ?_).symm⟩
        cases h with
        | here h => exact ht h
        | later h => exact ht h

/-! ### Staying on the stack -/

/-- The walk ends, and has read whole words of the stack only. -/
def StaysOnStack (mem : Memory) (rbp stackBegin stackEnd : ℕ) : Prop :=
  ∃ w, backtrace mem rbp stackBegin stackEnd = .ok w ∧
    ∀ a ∈ w.reads, stackBegin ≤ a ∧ a + 8 ≤ stackEnd

/-- The frames that one comes to over frames on the stack, each above the one before. -/
inductive Frame (mem : Memory) (rbp stackBegin stackEnd : ℕ) : ℕ → Prop
  | start : Frame mem rbp stackBegin stackEnd rbp
  | next {x : ℕ} (h : Frame mem rbp stackBegin stackEnd x) (hbegin : stackBegin ≤ x)
      (hend : x + 16 ≤ stackEnd) (hx : x < read64 mem x) :
      Frame mem rbp stackBegin stackEnd (read64 mem x)

/-- The frame is at the end of the address space, where `rbp + 16` is small again. -/
def WrapsAround (stackBegin stackEnd x : ℕ) : Prop :=
  stackBegin ≤ x ∧ 2 ^ 64 ≤ x + 16 ∧ x + 16 - 2 ^ 64 ≤ stackEnd

theorem tested_iff (hx : x < 2 ^ 64) : Tested stackBegin stackEnd x ↔
    stackBegin ≤ x ∧ x + 16 < 2 ^ 64 ∧ x + 16 ≤ stackEnd ∨ WrapsAround stackBegin stackEnd x := by
  rw [Tested, WrapsAround, wrap_eq]
  omega

/-- What the walk from a frame on reads, it reads from the first one on. -/
theorem Frame.reads (hend : stackEnd < 2 ^ 64) (h : Frame mem rbp stackBegin stackEnd x)
    (ha : Reads mem stackBegin stackEnd x a) : Reads mem stackBegin stackEnd rbp a := by
  induction h with
  | start => exact ha
  | next h hbegin hstop hx ih =>
    exact ih (.later ⟨hbegin, by rw [wrap_of_lt (by omega)]; exact hstop⟩ hx ha)

theorem Frame.lt (hrbp : rbp < 2 ^ 64) (h : Frame mem rbp stackBegin stackEnd x) : x < 2 ^ 64 := by
  cases h with
  | start => exact hrbp
  | next => exact read64_lt mem _

/-- Without a frame at the end of the address space, all words that are read are on the stack. -/
theorem reads_inside (hrbp : rbp < 2 ^ 64)
    (hno : ∀ x, Frame mem rbp stackBegin stackEnd x → ¬ WrapsAround stackBegin stackEnd x)
    (ha : Reads mem stackBegin stackEnd x a) (hx : Frame mem rbp stackBegin stackEnd x) :
    stackBegin ≤ a ∧ a + 8 ≤ stackEnd := by
  induction ha with
  | here h ha =>
    obtain ⟨hbegin, hlt, hstop⟩ := ((tested_iff (hx.lt hrbp)).mp h).resolve_right (hno _ hx)
    rw [wrap_of_lt (by omega)] at ha
    omega
  | later h hlt _ ih =>
    obtain ⟨hbegin, -, hstop⟩ := ((tested_iff (hx.lt hrbp)).mp h).resolve_right (hno _ hx)
    exact ih (.next hx hbegin hstop hlt)

/-- The walk stays on the stack exactly when it comes to no frame where the test wraps around. -/
theorem staysOnStack_iff (hrbp : rbp < 2 ^ 64) (hend : stackEnd < 2 ^ 64) :
    StaysOnStack mem rbp stackBegin stackEnd ↔
      ∀ x, Frame mem rbp stackBegin stackEnd x → ¬ WrapsAround stackBegin stackEnd x := by
  have hfuel : 2 ^ 64 ≤ rbp + maxSteps := by
    unfold maxSteps
    omega
  obtain ⟨w, e, hw⟩ := walk_spec mem stackBegin stackEnd maxSteps rbp ⟨[], []⟩ hfuel hrbp
  have hreads : ∀ a, a ∈ w.reads ↔ Reads mem stackBegin stackEnd rbp a := fun a =>
    (hw a).trans (or_iff_right List.not_mem_nil)
  constructor
  · rintro ⟨w', e', hin⟩ x hx hwrap
    obtain rfl := Except.ok.inj (e.symm.trans e')
    have htest := (tested_iff (hx.lt hrbp)).mpr (Or.inr hwrap)
    have hfirst := hin x ((hreads x).mpr (hx.reads hend (.here htest (Or.inl rfl))))
    have hsecond := hin _ ((hreads _).mpr (hx.reads hend (.here htest (Or.inr rfl))))
    have hbig := hwrap.2.1
    rw [wrap_eq] at hsecond
    omega
  · intro hno
    exact ⟨w, e, fun a ha => reads_inside hrbp hno ((hreads a).mp ha) .start⟩

/-- Frames at `0x1100`, `0x1200` and `0x1300`; the last one has no caller. -/
def threeFrames : Memory
  | 0x1101 => 0x12 | 0x1108 => 5
  | 0x1201 => 0x13 | 0x1208 => 6
  | _ => 0

theorem threeFrames_staysOnStack : StaysOnStack threeFrames 0x1100 0x1000 0x2000 ∧
    (backtrace threeFrames 0x1100 0x1000 0x2000).toOption = some
      ⟨[0x1100, 0x1108, 0x1200, 0x1208, 0x1300, 0x1308], [5, 6]⟩ := by
  have hframes : ∀ x, Frame threeFrames 0x1100 0x1000 0x2000 x →
      x = 0x1100 ∨ x = 0x1200 ∨ x = 0x1300 := by
    intro x hx
    induction hx with
    | start => exact Or.inl rfl
    | next _ _ _ hlt ih =>
      rcases ih with rfl | rfl | rfl
      · exact Or.inr (Or.inl (by decide +kernel))
      · exact Or.inr (Or.inr (by decide +kernel))
      · exact absurd hlt (by decide +kernel)
  refine ⟨(staysOnStack_iff (by decide) (by decide)).mpr fun x hx hwrap => ?_, by decide +kernel⟩
  have hframe := hframes x hx
  have hbig := hwrap.2.1
  omega

/-- From the last sixteen bytes of the address space, two words are read that are not on the stack. -/
theorem lastFrame_not_staysOnStack :
    ¬ StaysOnStack (fun _ => 0) 0xfffffffffffffff0 0xffff800000001000 0xffff800000002000 := by
  rintro ⟨w, e, hin⟩
  have hreads : (backtrace (fun _ => 0) 0xfffffffffffffff0 0xffff800000001000
      0xffff800000002000).toOption.map Walk.reads = some [0xfffffffffffffff0, 0xfffffffffffffff8] := by
    decide +kernel
  rw [e] at hreads
  have hmem := hin 0xfffffffffffffff0 (by
    rw [show w.reads = _ from Option.some.inj hreads]
    exact List.mem_cons_self)
  omega

end FilesKernel.Debug
