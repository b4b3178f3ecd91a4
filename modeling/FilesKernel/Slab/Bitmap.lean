import FilesKernel.Lib.Bits
import FilesKernel.Slab.Layout
import Mathlib.Data.Finset.Card
import Mathlib.Data.Finset.Range

/-! The bitmap of a pool (`mem_pool_bitmap_setup`, `mem_pool_alloc`, `mem_pool_free` of `alloc.c`).

    A bit is set for a slot that is in use, and for the positions of the last word that are no slots.
    A word behind the `mask_words` words of the bitmap is outside the object. -/

namespace FilesKernel.Slab
open CExec CWord CBits

abbrev Word := BitVec 64

/-- `struct mem_pool`, without its list links. -/
structure MemPool where
  page : ℕ
  data : ℕ
  free : ℕ
  bitmask : List Word
  deriving DecidableEq, Repr

/-! ### The code -/

/-- `pool->bitmask[w]` -/
def getWord (mask : List Word) (w : ℕ) : Exec Word :=
  if w < mask.length then .ok (mask.getD w 0#64) else .error .fault

/-- `pool->bitmask[w] = v` -/
def setWord (mask : List Word) (w : ℕ) (v : Word) : Exec (List Word) :=
  if w < mask.length then .ok (mask.set w v) else .error .fault

/-- The loop over the words behind the last one with slots, with `n` rounds left. -/
def fillWords : ℕ → ℕ → List Word → Exec (List Word)
  | 0, _, mask => .ok mask
  | n + 1, w, mask => do
    let mask ← setWord mask w (~~~0#64)
    fillWords n (w + 1) mask

/-- The word with the last slots, where they do not fill it. -/
def fillTail (word pos : ℕ) (mask : List Word) : Exec (List Word) :=
  if pos ≠ 0 then setWord mask word (~~~((1#64 <<< pos) - 1#64)) else .ok mask

def memPoolBitmapSetup (cache : CacheLayout) (pool : MemPool) : Exec MemPool := do
  let words := cache.maskWords
  let pos := cache.objCount % objsPerWord
  let word := cache.objCount / objsPerWord
  let mask ← fillTail word pos (List.replicate words 0#64)
  let mask ← fillWords (words - (word + 1)) (word + 1) mask
  .ok { pool with bitmask := mask }

/-- A loop of `ffs`, from `i` on with `n` rounds left: `mask` moves by `stride` bits a round. -/
def ffsLoop (bitmask : Word) (stride : ℕ) : ℕ → ℕ → Word → ℕ
  | 0, i, _ => i
  | n + 1, i, mask =>
    if bitmask &&& mask ≠ 0#64 then i else ffsLoop bitmask stride n (i + 1) (mask <<< stride)

def ffs (bitmask : Word) : Exec ℕ := do
  let byte := ffsLoop bitmask 8 8 0 0xff#64
  let mask ← shiftOne (byte * 8)
  let bit := ffsLoop bitmask 1 8 0 (BitVec.ofNat 64 mask)
  .ok (byte * 8 + bit)

/-- The loop of `mem_pool_alloc`, from `word` on with `n` rounds left. -/
def memPoolAllocFrom (cache : CacheLayout) (pool : MemPool) : ℕ → ℕ → Exec (MemPool × ℕ)
  | 0, _ => .error (.bug "Failed to find free slot in mem_pool")
  | n + 1, word => do
    let mask ← getWord pool.bitmask word
    if mask = ~~~0#64 then memPoolAllocFrom cache pool n (word + 1)
    else do
      let bit ← ffs (~~~mask)
      let one ← shiftOne bit
      let pos := objsPerWord * word + bit
      let bitmask ← setWord pool.bitmask word (mask ||| BitVec.ofNat 64 one)
      .ok ({ pool with bitmask := bitmask, free := wsub pool.free 1 },
        wrap (pool.data + wrap (pos * cache.objSize)))

def memPoolAlloc (cache : CacheLayout) (pool : MemPool) : Exec (MemPool × ℕ) := do
  bugOn (pool.free = 0) "!pool->free"
  memPoolAllocFrom cache pool cache.maskWords 0

def memPoolFree (cache : CacheLayout) (pool : MemPool) (ptr : ℕ) : Exec MemPool := do
  let offs := wsub ptr pool.data
  let pos ← divide offs cache.objSize
  bugOn (pos ≥ cache.objCount) "pos >= cache->obj_count"
  let word := pos / objsPerWord
  let bit := pos % objsPerWord
  let mask ← getWord pool.bitmask word
  bugOn (mask &&& (1#64 <<< bit) = 0#64) "!(pool->bitmask[word] & (1ull << bit))"
  let bitmask ← setWord pool.bitmask word (mask &&& ~~~(1#64 <<< bit))
  let free := wrap (pool.free + 1)
  bugOn (free > cache.objCount) "pool->free > cache->obj_count"
  .ok { pool with bitmask := bitmask, free := free }

/-! ### Bits -/

section
variable {x m : Word} {i j n : ℕ}

theorem getLsbD_byte (j : ℕ) : (0xff#64).getLsbD j = decide (j < 8) := by
  by_cases hj : j < 64
  · revert j
    decide
  · rw [BitVec.getLsbD_of_ge _ _ (Nat.le_of_not_lt hj)]
    exact (decide_eq_false (by omega)).symm

theorem and_byte_iff : x &&& (0xff#64 <<< (8 * i)) ≠ 0#64 ↔
    ∃ j, 8 * i ≤ j ∧ j < 8 * i + 8 ∧ x.getLsbD j = true := by
  rw [and_ne_zero_iff]
  refine exists_congr fun j => ?_
  rw [BitVec.getLsbD_shiftLeft, getLsbD_byte]
  simp only [Bool.and_eq_true, decide_eq_true_eq, Bool.not_eq_true', decide_eq_false_iff_not]
  constructor
  · rintro ⟨hx, ⟨-, hj⟩, hj'⟩
    exact ⟨by omega, by omega, hx⟩
  · rintro ⟨hj, hj', hx⟩
    have hlt : j < 64 := BitVec.lt_of_getLsbD hx
    exact ⟨hx, ⟨hlt, by omega⟩, by omega⟩

/-- A loop of `ffs` stops at the first place where the mask meets a set bit. -/
theorem ffsLoop_spec (x : Word) (stride : ℕ) : ∀ (n i : ℕ) (m : Word), ∃ k ≤ n,
    ffsLoop x stride n i m = i + k ∧ (∀ j < k, ¬ x &&& (m <<< (stride * j)) ≠ 0#64) ∧
      (k < n → x &&& (m <<< (stride * k)) ≠ 0#64)
  | 0, i, m => ⟨0, Nat.le_refl 0, rfl, fun j hj => absurd hj (Nat.not_lt_zero j),
      fun h => absurd h (Nat.lt_irrefl 0)⟩
  | n + 1, i, m => by
      have hzero : m <<< (stride * 0) = m := BitVec.shiftLeft_zero m
      rw [ffsLoop]
      by_cases h : x &&& m ≠ 0#64
      · refine ⟨0, Nat.zero_le _, if_pos h, fun j hj => absurd hj (Nat.not_lt_zero j), fun _ => ?_⟩
        rwa [hzero]
      · obtain ⟨k, hk, e, hlow, hhit⟩ := ffsLoop_spec x stride n (i + 1) (m <<< stride)
        have hshift : ∀ j, (m <<< stride) <<< (stride * j) = m <<< (stride * (j + 1)) := fun j => by
          rw [← BitVec.shiftLeft_add, Nat.mul_succ, Nat.add_comm]
        refine ⟨k + 1, Nat.succ_le_succ hk, ?_, fun j hj => ?_, fun hk' => ?_⟩
        · rw [if_neg h, e]
          omega
        · cases j with
          | zero => rwa [hzero]
          | succ j => rw [← hshift]; exact hlow j (Nat.lt_of_succ_lt_succ hj)
        · rw [← hshift]
          exact hhit (Nat.lt_of_succ_lt_succ hk')

theorem shiftOne_eq (h : n < 64) : shiftOne n = .ok (2 ^ n) := if_pos h

/-- `ffs` finds the lowest set bit. -/
theorem ffs_spec (hx : x ≠ 0#64) : ∃ b < 64, ffs x = .ok b ∧ x.getLsbD b = true ∧
    ∀ j < b, x.getLsbD j = false := by
  obtain ⟨i, hi, hset⟩ : ∃ i < 64, x.getLsbD i = true := by
    by_contra hno
    refine hx (BitVec.eq_of_getLsbD_eq fun i hi => ?_)
    rw [BitVec.getLsbD_zero, Bool.eq_false_iff]
    exact fun h => hno ⟨i, hi, h⟩
  obtain ⟨byte, hbyte, ebyte, hlow, hhit⟩ := ffsLoop_spec x 8 8 0 0xff#64
  have hlt : byte < 8 := by
    by_contra hge
    exact hlow (i / 8) (by omega) (and_byte_iff.mpr ⟨i, by omega, by omega, hset⟩)
  obtain ⟨b, hb, hb', hbset⟩ := and_byte_iff.mp (hhit hlt)
  obtain ⟨bit, hbit, ebit, hlow', hhit'⟩ := ffsLoop_spec x 1 8 0 (1#64 <<< (byte * 8))
  have hshift : ∀ k, (1#64 <<< (byte * 8)) <<< (1 * k) = 1#64 <<< (byte * 8 + k) := fun k => by
    rw [← BitVec.shiftLeft_add, Nat.one_mul]
  have hlt' : bit < 8 := by
    by_contra hge
    have hno := hlow' (b - byte * 8) (by omega)
    rw [hshift, and_bit_iff (by omega)] at hno
    exact hno (by rwa [Nat.add_sub_cancel' (by omega)])
  refine ⟨byte * 8 + bit, by omega, ?_, ?_, fun j hj => Bool.eq_false_iff.mpr fun hjset => ?_⟩
  · rw [ffs, ebyte, Nat.zero_add, shiftOne_eq (by omega), ok_bind, ofNat_two_pow, ebit, Nat.zero_add]
  · have h := hhit' hlt'
    rwa [hshift, and_bit_iff (by omega)] at h
  · by_cases hjb : j < byte * 8
    · exact hlow (j / 8) (by omega) (and_byte_iff.mpr ⟨j, by omega, by omega, hjset⟩)
    · have hno := hlow' (j - byte * 8) (by omega)
      rw [hshift, and_bit_iff (by omega)] at hno
      exact hno (by rwa [Nat.add_sub_cancel' (by omega)])

end

/-! ### Slots -/

/-- The bit at position `i` -/
def taken (mask : List Word) (i : ℕ) : Bool := (mask.getD (i / 64) 0#64).getLsbD (i % 64)

/-- The positions whose bit is clear, among those of slots. -/
def freeSlots (cache : CacheLayout) (pool : MemPool) : Finset ℕ :=
  (Finset.range cache.objCount).filter fun i => taken pool.bitmask i = false

/-- The bitmap has a bit for each slot, the other bits are set, and the counter counts the clear
    ones. -/
structure MemPool.Counts (cache : CacheLayout) (pool : MemPool) : Prop where
  length : pool.bitmask.length = cache.maskWords
  pad : ∀ i, cache.objCount ≤ i → i < 64 * cache.maskWords → taken pool.bitmask i = true
  free : pool.free = (freeSlots cache pool).card

/-- The numbers of a layout, as far as its bitmaps need them. -/
structure CacheLayout.Bits (cache : CacheLayout) : Prop where
  pos : 0 < cache.objCount
  words : cache.maskWords = Slab.words cache.objCount
  small : cache.objCount < 2 ^ 64

variable {cache : CacheLayout} {pool : MemPool} {mask : List Word} {v : Word} {w i k : ℕ}

theorem getWord_eq (h : w < mask.length) : getWord mask w = .ok (mask.getD w 0#64) := if_pos h

theorem setWord_eq (h : w < mask.length) : setWord mask w v = .ok (mask.set w v) := if_pos h

theorem taken_set (h : w < mask.length) (i : ℕ) : taken (mask.set w v) i =
    if i / 64 = w then v.getLsbD (i % 64) else taken mask i := by
  rw [taken, taken, List.getD_eq_getElem?_getD, List.getD_eq_getElem?_getD, List.getElem?_set]
  by_cases hi : i / 64 = w
  · rw [if_pos hi.symm, if_pos hi, if_pos h, Option.getD_some]
  · rw [if_neg (Ne.symm hi), if_neg hi]

/-- One bit of a word is changed. -/
theorem taken_set_bit (h : w < mask.length) (hw : k / 64 = w) {b : Bool}
    (hv : ∀ j < 64, v.getLsbD j = if j = k % 64 then b else (mask.getD w 0#64).getLsbD j) (i : ℕ) :
    taken (mask.set w v) i = if i = k then b else taken mask i := by
  rw [taken_set h]
  by_cases hi : i / 64 = w
  · have hik : i % 64 = k % 64 ↔ i = k := by omega
    rw [if_pos hi, hv _ (Nat.mod_lt i (by decide)), ← hi]
    simp only [hik]
    rfl
  · have hik : i ≠ k := fun e => hi (e ▸ hw)
    rw [if_neg hi, if_neg hik]

theorem mem_freeSlots : i ∈ freeSlots cache pool ↔
    i < cache.objCount ∧ taken pool.bitmask i = false := by
  rw [freeSlots, Finset.mem_filter, Finset.mem_range]

theorem CacheLayout.Bits.lt_words (h : cache.Bits) (hi : i < cache.objCount) :
    i / 64 < cache.maskWords := by
  rw [h.words, Slab.words]
  omega

/-! ### Setting up -/

theorem getLsbD_highBits {pos j : ℕ} (hpos : pos < 64) (hj : j < 64) :
    (~~~((1#64 <<< pos) - 1#64)).getLsbD j = decide (pos ≤ j) := by
  have hle := Nat.one_le_two_pow (n := pos)
  have hlt : 2 ^ pos < 2 ^ 64 := Nat.pow_lt_pow_right (by decide) hpos
  have hlow : (1#64 <<< pos) - 1#64 = BitVec.ofNat 64 (2 ^ pos - 1) := by
    rw [← ofNat_two_pow]
    refine BitVec.eq_of_toNat_eq ?_
    rw [BitVec.toNat_sub, BitVec.toNat_ofNat, BitVec.toNat_ofNat, BitVec.toNat_ofNat]
    omega
  rw [hlow, BitVec.getLsbD_not, BitVec.getLsbD_ofNat, Nat.testBit_two_pow_sub_one,
    decide_eq_true hj, Bool.true_and, Bool.true_and, ← decide_not]
  exact decide_eq_decide.mpr Nat.not_lt

theorem taken_replicate (n i : ℕ) : taken (List.replicate n 0#64) i = false := by
  have h : (List.replicate n (0#64 : Word)).getD (i / 64) 0#64 = 0#64 := by
    rw [List.getD_eq_getElem?_getD, List.getElem?_replicate]
    split_ifs <;> rfl
  rw [taken, h, BitVec.getLsbD_zero]

theorem fillTail_spec (h : cache.Bits) : ∃ mask,
    fillTail (cache.objCount / 64) (cache.objCount % 64)
      (List.replicate cache.maskWords 0#64) = .ok mask ∧ mask.length = cache.maskWords ∧
      ∀ i < 64 * cache.maskWords, taken mask i = decide (cache.objCount ≤ i) := by
  have hwords := h.words
  rw [words] at hwords
  have hlen : (List.replicate cache.maskWords (0#64 : Word)).length = cache.maskWords :=
    List.length_replicate
  rw [fillTail]
  by_cases hpos : cache.objCount % 64 ≠ 0
  · have hw : cache.objCount / 64 < (List.replicate cache.maskWords (0#64 : Word)).length := by
      rw [hlen]
      omega
    refine ⟨_, by rw [if_pos hpos, setWord_eq hw], by rw [List.length_set, hlen], fun i hi => ?_⟩
    rw [taken_set hw, taken_replicate, getLsbD_highBits (Nat.mod_lt _ (by decide))
      (Nat.mod_lt _ (by decide))]
    split_ifs with hi'
    · exact decide_eq_decide.mpr (by omega)
    · exact (decide_eq_false (by omega)).symm
  · refine ⟨_, if_neg hpos, hlen, fun i hi => ?_⟩
    rw [taken_replicate]
    exact (decide_eq_false (by omega)).symm

/-- The bits that are no slots are set, the others are clear. -/
theorem memPoolBitmapSetup_spec (h : cache.Bits) (pool : MemPool) : ∃ mask,
    memPoolBitmapSetup cache pool = .ok { pool with bitmask := mask } ∧
      mask.length = cache.maskWords ∧
      ∀ i < 64 * cache.maskWords, taken mask i = decide (cache.objCount ≤ i) := by
  have hobjs : objsPerWord = 64 := rfl
  have hwords := h.words
  rw [words] at hwords
  have hnone : cache.maskWords - (cache.objCount / 64 + 1) = 0 := by omega
  obtain ⟨mask, emask, hlen, hmask⟩ := fillTail_spec h
  refine ⟨mask, ?_, hlen, hmask⟩
  simp only [memPoolBitmapSetup, hobjs]
  rw [emask, ok_bind, hnone, fillWords, ok_bind]

/-! ### Taking a slot -/

theorem ones_iff {x : Word} : x = ~~~0#64 ↔ ∀ j < 64, x.getLsbD j = true := by
  constructor
  · rintro rfl j hj
    rw [BitVec.getLsbD_not, BitVec.getLsbD_zero, decide_eq_true hj]
    rfl
  · intro h
    refine BitVec.eq_of_getLsbD_eq fun j hj => ?_
    rw [h j hj, BitVec.getLsbD_not, BitVec.getLsbD_zero, decide_eq_true hj]
    rfl

/-- The search finds the first clear bit, from a word on before which there is none. -/
theorem memPoolAllocFrom_spec (hlen : pool.bitmask.length = cache.maskWords) : ∀ (n word : ℕ),
    word + n = cache.maskWords → (∀ i < 64 * word, taken pool.bitmask i = true) →
    (∃ i < 64 * cache.maskWords, taken pool.bitmask i = false) →
    ∃ k mask, memPoolAllocFrom cache pool n word = .ok
        ({ pool with bitmask := mask, free := wsub pool.free 1 },
          wrap (pool.data + wrap (k * cache.objSize))) ∧
      k < 64 * cache.maskWords ∧ taken pool.bitmask k = false ∧
      (∀ i < k, taken pool.bitmask i = true) ∧ mask.length = cache.maskWords ∧
      ∀ i, taken mask i = if i = k then true else taken pool.bitmask i
  | 0, word, hsum, hbusy, ⟨i, hi, hfree⟩ => by
      rw [hbusy i (by omega)] at hfree
      cases hfree
  | n + 1, word, hsum, hbusy, hex => by
      have hw : word < pool.bitmask.length := by omega
      rw [memPoolAllocFrom, getWord_eq hw, ok_bind]
      by_cases hones : pool.bitmask.getD word 0#64 = ~~~0#64
      · rw [if_pos hones]
        refine memPoolAllocFrom_spec hlen n (word + 1) (by omega) (fun i hi => ?_) hex
        by_cases hlow : i < 64 * word
        · exact hbusy i hlow
        · have hiw : i / 64 = word := by omega
          rw [taken, hiw]
          exact ones_iff.mp hones _ (Nat.mod_lt i (by decide))
      · have hnz : ~~~(pool.bitmask.getD word 0#64) ≠ 0#64 := fun e => hones (BitVec.not_eq_comm.mp e)
        obtain ⟨b, hb, effs, hset, hlow⟩ := ffs_spec hnz
        have hdiv : (objsPerWord * word + b) / 64 = word := by
          rw [objsPerWord, wordSz]
          omega
        have hmod : (objsPerWord * word + b) % 64 = b := by
          rw [objsPerWord, wordSz]
          omega
        rw [if_neg hones, effs, ok_bind, shiftOne_eq hb, ok_bind, setWord_eq hw, ok_bind]
        refine ⟨objsPerWord * word + b, _, rfl, ?_, ?_, fun i hi => ?_, ?_, ?_⟩
        · rw [objsPerWord, wordSz]
          omega
        · rw [BitVec.getLsbD_not, decide_eq_true hb, Bool.true_and] at hset
          rw [taken, hdiv, hmod]
          exact Bool.eq_false_of_not_eq_true' hset
        · by_cases hlt : i < 64 * word
          · exact hbusy i hlt
          · rw [objsPerWord, wordSz] at hi
            have hiw : i / 64 = word := by omega
            have hib := hlow (i % 64) (by omega)
            rw [BitVec.getLsbD_not, decide_eq_true (Nat.mod_lt i (by decide)), Bool.true_and] at hib
            rw [taken, hiw]
            exact Bool.eq_true_of_not_eq_false' hib
        · rw [List.length_set, hlen]
        · have hv : ∀ j < 64, (pool.bitmask.getD word 0#64 ||| BitVec.ofNat 64 (2 ^ b)).getLsbD j =
              if j = b then true else (pool.bitmask.getD word 0#64).getLsbD j := fun j hj => by
            rw [ofNat_two_pow, getLsbD_or_bit hb]
          refine taken_set_bit hw hdiv fun j hj => ?_
          rw [hmod]
          exact hv j hj

/-- The pool `pool'` is `pool` with the slots `slots` free. -/
structure MemPool.Changes (cache : CacheLayout) (pool pool' : MemPool) (slots : Finset ℕ) : Prop where
  page : pool'.page = pool.page
  data : pool'.data = pool.data
  counts : pool'.Counts cache
  free : freeSlots cache pool' = slots

theorem MemPool.Counts.free_le (h : pool.Counts cache) : pool.free ≤ cache.objCount := by
  rw [h.free]
  exact (Finset.card_filter_le _ _).trans (Finset.card_range _).le

/-- `mem_pool_alloc` takes the first free slot. -/
theorem memPoolAlloc_spec (hb : cache.Bits) (h : pool.Counts cache) (hpos : 0 < pool.free) :
    ∃ k pool', memPoolAlloc cache pool = .ok (pool', wrap (pool.data + wrap (k * cache.objSize))) ∧
      k ∈ freeSlots cache pool ∧ (∀ i ∈ freeSlots cache pool, k ≤ i) ∧
      pool.Changes cache pool' ((freeSlots cache pool).erase k) ∧ pool'.free + 1 = pool.free := by
  have hle := h.free_le
  have hsmall := hb.small
  obtain ⟨i, hi⟩ := Finset.card_pos.mp (h.free ▸ hpos)
  obtain ⟨hi, hifree⟩ := mem_freeSlots.mp hi
  have hwords := hb.lt_words hi
  obtain ⟨k, mask, e, hk, hkfree, hlow, hlen, htaken⟩ := memPoolAllocFrom_spec h.length cache.maskWords 0
    (Nat.zero_add _) (fun j hj => absurd hj (Nat.not_lt_zero j)) ⟨i, by omega, hifree⟩
  have hslot : k < cache.objCount := by
    by_contra hge
    rw [h.pad k (Nat.le_of_not_lt hge) hk] at hkfree
    cases hkfree
  have hmem : k ∈ freeSlots cache pool := mem_freeSlots.mpr ⟨hslot, hkfree⟩
  have hfree : freeSlots cache { pool with bitmask := mask, free := wsub pool.free 1 } =
      (freeSlots cache pool).erase k := by
    ext j
    rw [Finset.mem_erase, mem_freeSlots, mem_freeSlots, htaken]
    by_cases hj : j = k <;> simp [hj]
  have hsub : wsub pool.free 1 = pool.free - 1 := wsub_of_le hpos (by omega)
  refine ⟨k, { pool with bitmask := mask, free := wsub pool.free 1 }, ?_, hmem, fun j hj => ?_,
    ⟨rfl, rfl, ⟨hlen, fun j hj hj' => ?_, ?_⟩, hfree⟩, ?_⟩
  · rw [memPoolAlloc, bugOn_false (Nat.ne_of_gt hpos), ok_bind, e]
  · by_contra hlt
    have hbusy := hlow j (Nat.lt_of_not_le hlt)
    rw [(mem_freeSlots.mp hj).2] at hbusy
    cases hbusy
  · rw [htaken, h.pad j hj hj', ite_self]
  · rw [hfree, Finset.card_erase_of_mem hmem, ← h.free]
    exact hsub
  · dsimp only
    omega

/-! ### Giving a slot back -/

theorem memPoolFree_spec (hb : cache.Bits) (h : pool.Counts cache) {ptr : ℕ}
    (hsize : 0 < cache.objSize) (hk : wsub ptr pool.data / cache.objSize = k)
    (hslot : k < cache.objCount) (hbusy : k ∉ freeSlots cache pool) :
    ∃ pool', memPoolFree cache pool ptr = .ok pool' ∧
      pool.Changes cache pool' (insert k (freeSlots cache pool)) ∧ pool'.free = pool.free + 1 := by
  have hsmall := hb.small
  have hobjs : objsPerWord = 64 := rfl
  have hw : k / 64 < pool.bitmask.length := h.length ▸ hb.lt_words hslot
  have hmod : k % 64 < 64 := Nat.mod_lt k (by decide)
  have hset : taken pool.bitmask k = true := by
    by_contra hclear
    exact hbusy (mem_freeSlots.mpr ⟨hslot, Bool.eq_false_iff.mpr hclear⟩)
  have htaken := taken_set_bit hw rfl (b := false)
    (v := pool.bitmask.getD (k / 64) 0#64 &&& ~~~(1#64 <<< (k % 64))) fun j _ =>
      getLsbD_and_not_bit hmod j
  have hfree : ∀ n, freeSlots cache { pool with
      bitmask := pool.bitmask.set (k / 64) (pool.bitmask.getD (k / 64) 0#64 &&& ~~~(1#64 <<< (k % 64)))
      free := n } = insert k (freeSlots cache pool) := fun n => by
    ext j
    rw [Finset.mem_insert, mem_freeSlots, mem_freeSlots, htaken]
    by_cases hj : j = k <;> simp [hj, hslot]
  have hcard : pool.free + 1 = (insert k (freeSlots cache pool)).card := by
    rw [Finset.card_insert_of_notMem hbusy, h.free]
  have hle : pool.free + 1 ≤ cache.objCount := by
    rw [hcard, ← hfree 0]
    exact (Finset.card_filter_le _ _).trans (Finset.card_range _).le
  have hbit : ¬ pool.bitmask.getD (k / 64) 0#64 &&& (1#64 <<< (k % 64)) = 0#64 :=
    (and_bit_iff hmod).mpr hset
  have hwrap : wrap (pool.free + 1) = pool.free + 1 := wrap_of_lt (by omega)
  refine ⟨{ pool with
      bitmask := pool.bitmask.set (k / 64) (pool.bitmask.getD (k / 64) 0#64 &&& ~~~(1#64 <<< (k % 64)))
      free := pool.free + 1 }, ?_, ⟨rfl, rfl, ⟨?_, fun j hj hj' => ?_, ?_⟩, hfree _⟩, rfl⟩
  · rw [memPoolFree, divide_eq hsize]
    simp only [ok_bind, hk, hobjs, hwrap]
    rw [bugOn_false (Nat.not_le_of_lt hslot), ok_bind, getWord_eq hw, ok_bind, bugOn_false hbit,
      ok_bind, setWord_eq hw, ok_bind, bugOn_false (Nat.not_lt_of_le hle), ok_bind]
  · exact List.length_set.trans h.length
  · rw [htaken, if_neg (by omega), h.pad j hj hj']
  · rw [hfree, ← hcard]

end FilesKernel.Slab
