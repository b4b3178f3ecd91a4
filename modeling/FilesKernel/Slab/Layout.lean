import FilesKernel.Lib.Exec
import FilesKernel.Memory
import Mathlib.Data.Nat.Log
import Mathlib.Order.Bounds.Defs

/-! The layout of a slab (`mem_cache_layout_setup` of `alloc.c`).

    A pool is a block of pages with the objects at its begin and the metadata, a `struct mem_pool`
    with a bit for every object, at its end. -/

namespace FilesKernel.Slab
open CExec CWord

/-! ### The code -/

def wordSz : ℕ := 8

def objsPerWord : ℕ := wordSz * 8

def minPoolObjs : ℕ := 8

/-- `sizeof(struct mem_pool)`: the list links, `page`, `data`, `free` and one word of `bitmask`. -/
def memPoolSize : ℕ := 48

/-- `offsetof(struct alignment_off, pool)` -/
def metaAlign : ℕ := 8

def ilog2Body (x : ℕ) : ℕ × ℕ → Exec ((ℕ × ℕ) ⊕ ℕ)
  | (val, power) =>
    if val < x then .ok (.inl (wrap (2 * val), power + 1)) else .ok (.inr power)

def ilog2 (x : ℕ) : Exec ℕ := loop (ilog2Body x) maxSteps (1, 0)

/-- `a / b`, which has no value for `b = 0`. -/
def divide (a b : ℕ) : Exec ℕ := if b = 0 then .error .fault else .ok (a / b)

def ceil (divident divisor : ℕ) : Exec ℕ := divide (wsub (wrap (divident + divisor)) 1) divisor

def alignUp (size align : ℕ) : Exec ℕ := do
  let n ← ceil size align
  .ok (wrap (align * n))

def metaSize (objs : ℕ) : Exec ℕ := do
  let words ← ceil objs objsPerWord
  let bitmaskSize := wrap (wsub words 1 * wordSz)
  alignUp (wrap (memPoolSize + bitmaskSize)) metaAlign

/-- `(size_t)1 << n`, which has no value from the width of the type on. -/
def shiftOne (n : ℕ) : Exec ℕ := if n < 64 then .ok (2 ^ n) else .error .fault

/-- The layout in a `struct mem_cache`. -/
structure CacheLayout where
  metaOffs : ℕ
  objCount : ℕ
  maskWords : ℕ
  objSize : ℕ
  poolOrder : ℕ
  deriving DecidableEq, Repr

/-- One round of the loop that looks for the number of objects. -/
def layoutBody (objSize poolSize : ℕ) : ℕ → Exec (ℕ ⊕ ℕ)
  | objs => do
    let size ← metaSize objs
    if wrap (objSize * objs + size) > poolSize then .ok (.inl (wsub objs 1)) else .ok (.inr objs)

def memCacheLayoutSetup (size align : ℕ) : Exec CacheLayout := do
  let objSize ← alignUp size align
  let minMeta ← metaSize minPoolObjs
  let minSize := wrap (objSize * minPoolObjs + minMeta)
  let poolOrder ← ilog2 (minSize / 2 ^ pageShift)
  let poolSize ← shiftOne (poolOrder + pageShift)
  let objs ← divide poolSize objSize
  let objs ← loop (layoutBody objSize poolSize) maxSteps objs
  let size ← metaSize objs
  let words ← ceil objs objsPerWord
  .ok ⟨wsub poolSize size, objs, words, objSize, poolOrder⟩

/-! ### The numbers -/

variable {size align objs x : ℕ}

theorem divide_eq {a b : ℕ} (hb : 0 < b) : divide a b = .ok (a / b) := if_neg (Nat.ne_of_gt hb)

theorem ceil_eq {a b : ℕ} (ha : 0 < a + b) (hb : 0 < b) (h : a + b ≤ 2 ^ 64) :
    ceil a b = .ok ((a + b - 1) / b) := by
  rw [ceil, divide_eq hb]
  rcases Nat.lt_or_eq_of_le h with hlt | heq
  · rw [wrap_of_lt hlt, wsub_of_le ha hlt]
  · -- the sum wraps around to zero, and the difference back
    have hback : (2 ^ 64 % 2 ^ 64 + (2 ^ 64 - 1 % 2 ^ 64)) % 2 ^ 64 = 2 ^ 64 - 1 := by decide
    rw [heq, wrap_eq, wsub_eq, hback]

/-- The multiple of `align` that an object takes. -/
def objSizeOf (size align : ℕ) : ℕ := align * ((size + align - 1) / align)

theorem objSizeOf_isLeast (ha : 0 < align) :
    IsLeast {m | align ∣ m ∧ size ≤ m} (objSizeOf size align) := by
  have hdiv := Nat.div_add_mod (size + align - 1) align
  have hmod := Nat.mod_lt (size + align - 1) ha
  refine ⟨⟨Nat.dvd_mul_right _ _, ?_⟩, fun m ⟨⟨i, hi⟩, hm⟩ => ?_⟩
  · rw [objSizeOf]
    omega
  · rw [objSizeOf, hi]
    refine Nat.mul_le_mul_left _ (Nat.le_of_lt_succ (Nat.div_lt_of_lt_mul ?_))
    rw [Nat.mul_succ, ← hi]
    omega

theorem le_objSizeOf (ha : 0 < align) : size ≤ objSizeOf size align := (objSizeOf_isLeast ha).1.2

theorem alignUp_eq (hs : 0 < size) (ha : 0 < align) (hsum : size + align ≤ 2 ^ 64)
    (h : objSizeOf size align < 2 ^ 64) : alignUp size align = .ok (objSizeOf size align) := by
  rw [alignUp, ceil_eq (Nat.add_pos_left hs _) ha hsum, ok_bind]
  exact congrArg Except.ok (wrap_of_lt h)

/-- The words of a bitmap of `objs` bits. -/
def words (objs : ℕ) : ℕ := (objs + 63) / 64

/-- The metadata of `objs` objects; one word of the bitmap is in `struct mem_pool` itself. -/
def metaBytes (objs : ℕ) : ℕ := memPoolSize + wordSz * words objs - wordSz

theorem metaBytes_eq (objs : ℕ) : metaBytes objs = 40 + 8 * words objs := by
  rw [metaBytes, memPoolSize, wordSz]
  omega

theorem ceil_words (h : objs ≤ 2 ^ 63) : ceil objs objsPerWord = .ok (words objs) :=
  ceil_eq (by rw [objsPerWord, wordSz]; omega) (by decide) (by rw [objsPerWord, wordSz]; omega)

/-- For no objects at all, the two overflows in `meta_size` cancel out. -/
theorem metaSize_eq (h : objs ≤ 2 ^ 63) : metaSize objs = .ok (metaBytes objs) := by
  have hle : words objs < 2 ^ 58 := by
    rw [words]
    omega
  have hsum : wrap (memPoolSize + wrap (wsub (words objs) 1 * wordSz)) = metaBytes objs := by
    rw [metaBytes_eq, memPoolSize, wordSz]
    generalize words objs = w at hle
    rcases Nat.eq_zero_or_pos w with rfl | hpos
    · have hback : (48 + (0 + (2 ^ 64 - 1 % 2 ^ 64)) % 2 ^ 64 * 8 % 2 ^ 64) % 2 ^ 64 = 40 + 8 * 0 := by
        decide
      rw [wrap_eq, wrap_eq, wsub_eq, hback]
    · rw [wsub_of_le hpos (by omega), wrap_of_lt (x := (w - 1) * 8) (by omega),
        wrap_of_lt (by omega)]
      omega
  have hround : objSizeOf (metaBytes objs) metaAlign = metaBytes objs := by
    rw [objSizeOf, metaBytes_eq, metaAlign]
    omega
  have hlt : metaBytes objs < 2 ^ 63 := by
    rw [metaBytes_eq, words]
    omega
  rw [metaSize, ceil_words h, ok_bind]
  simp only [hsum]
  rw [alignUp_eq (by rw [metaBytes_eq]; omega) (by decide) (by rw [metaAlign]; omega) (by omega),
    hround]

/-- `ilog2` is the ceiling logarithm. -/
theorem ilog2_eq (hx : x ≤ 2 ^ 63) : ilog2 x = .ok (Nat.clog 2 x) := by
  let I (n : ℕ) (r : ℕ × ℕ) : Prop := n = 63 - r.2 ∧ r.1 = 2 ^ r.2 ∧ r.2 ≤ Nat.clog 2 x
  have hclog : Nat.clog 2 x ≤ 63 := Nat.clog_le_of_le_pow hx
  have hbody : ∀ n r, I n r → (∃ r', ilog2Body x r = .ok (.inl r') ∧ ∃ m < n, I m r') ∨
      ∃ k, ilog2Body x r = .ok (.inr k) ∧ k = Nat.clog 2 x := by
    rintro n ⟨val, power⟩ ⟨rfl, hval, hpower⟩
    dsimp only at hval hpower
    subst hval
    by_cases hlt : 2 ^ power < x
    · have hnext : power + 1 ≤ Nat.clog 2 x := (Nat.lt_clog_iff_pow_lt (by decide)).mpr hlt
      have hpow : 2 ^ (power + 1) < 2 ^ 64 := Nat.pow_lt_pow_right (by decide) (by omega)
      refine Or.inl ⟨(2 ^ (power + 1), power + 1), ?_, 63 - (power + 1), by omega, rfl, rfl, hnext⟩
      rw [ilog2Body, if_pos hlt, ← Nat.pow_succ', wrap_of_lt hpow]
    · refine Or.inr ⟨power, if_neg hlt, Nat.le_antisymm hpower ?_⟩
      exact Nat.clog_le_of_le_pow (Nat.le_of_not_lt hlt)
  have hfuel : 63 < maxSteps := by
    unfold maxSteps
    omega
  obtain ⟨k, e, rfl⟩ := loop_spec hbody hfuel (s := (1, 0)) ⟨rfl, rfl, Nat.zero_le _⟩
  exact e

/-! ### The layout -/

/-- The size that `mem_cache_layout_setup` wants for a pool at least. -/
def minSizeOf (size align : ℕ) : ℕ := objSizeOf size align * minPoolObjs + metaBytes minPoolObjs

/-- No value of the computation is cut off at 64 bits. -/
structure NoOverflow (size align : ℕ) : Prop where
  sum : size + align ≤ 2 ^ 64
  min : minSizeOf size align < 2 ^ 64
  pool : minSizeOf size align / 2 ^ pageShift ≤ 2 ^ 51

/-- The order of the pools, and their size. -/
def poolOrderOf (size align : ℕ) : ℕ := Nat.clog 2 (minSizeOf size align / 2 ^ pageShift)

def CacheLayout.poolSize (l : CacheLayout) : ℕ := 2 ^ (l.poolOrder + pageShift)

/-- The objects and their metadata fit into a pool. -/
def CacheLayout.Holds (l : CacheLayout) (n : ℕ) : Prop :=
  l.objSize * n + metaBytes n ≤ l.poolSize

/-- Safe and tight: the objects are in front of the metadata, which have a bit for each of them, and
    one more object would not fit. -/
structure CacheLayout.Tight (l : CacheLayout) (size align : ℕ) : Prop where
  objSize : IsLeast {m | align ∣ m ∧ size ≤ m} l.objSize
  two : 2 ≤ l.objCount
  apart : l.objSize * l.objCount ≤ l.metaOffs
  inside : l.metaOffs + metaBytes l.objCount = l.poolSize
  aligned : 8 ∣ l.metaOffs
  room : memPoolSize + wordSz * (l.maskWords - 1) ≤ l.poolSize - l.metaOffs
  bits : l.objCount ≤ l.maskWords * objsPerWord
  greatest : IsGreatest {n | l.Holds n} l.objCount

theorem minSizeOf_eq : minSizeOf size align = 8 * objSizeOf size align + 48 := by
  rw [minSizeOf, minPoolObjs, metaBytes_eq, words]
  omega

/-- The pool is smaller than wanted by less than a page. -/
theorem minSizeOf_lt : minSizeOf size align < 2 ^ (poolOrderOf size align + pageShift) + 2 ^ pageShift := by
  have hclog : minSizeOf size align / 2 ^ pageShift ≤ 2 ^ poolOrderOf size align :=
    Nat.le_pow_clog (by decide) _
  have hlt := Nat.lt_mul_div_succ (minSizeOf size align) (Nat.two_pow_pos pageShift)
  calc minSizeOf size align < 2 ^ pageShift * (minSizeOf size align / 2 ^ pageShift + 1) := hlt
    _ ≤ 2 ^ pageShift * (2 ^ poolOrderOf size align + 1) :=
        Nat.mul_le_mul_left _ (Nat.add_le_add_right hclog 1)
    _ = 2 ^ (poolOrderOf size align + pageShift) + 2 ^ pageShift := by
        rw [Nat.pow_add, Nat.mul_succ, Nat.mul_comm]

/-- When the pool is smaller than wanted. -/
theorem pool_lt_iff : 2 ^ (poolOrderOf size align + pageShift) < minSizeOf size align ↔
    ∃ k, 2 ^ (k + pageShift) < minSizeOf size align ∧
      minSizeOf size align < 2 ^ (k + pageShift) + 2 ^ pageShift := by
  refine ⟨fun h => ⟨_, h, minSizeOf_lt⟩, fun ⟨k, hlt, hlt'⟩ => ?_⟩
  have hdiv : minSizeOf size align / 2 ^ pageShift = 2 ^ k := by
    rw [Nat.pow_add] at hlt hlt'
    refine Nat.div_eq_of_lt_le hlt.le ?_
    rwa [Nat.add_mul, Nat.one_mul]
  rwa [poolOrderOf, hdiv, Nat.clog_pow 2 k (by decide)]

/-- The pool has room for three objects. -/
theorem three_fit {P : ℕ} (hP : 2 ^ pageShift ≤ P) (h : minSizeOf size align < P + 2 ^ pageShift) :
    objSizeOf size align * 3 + metaBytes 3 ≤ P := by
  rw [minSizeOf_eq] at h
  rw [metaBytes_eq, words]
  rw [pageShift] at h hP
  omega

/-- The loop finds the largest number of objects, when there is room for one. -/
theorem layoutLoop_spec {o P m : ℕ} (ho : 0 < o) (hP : P ≤ 2 ^ 63) (hm : 0 < m)
    (hfit : o * m + metaBytes m ≤ P) : ∃ n, loop (layoutBody o P) maxSteps (P / o) = .ok n ∧
      IsGreatest {n | o * n + metaBytes n ≤ P} n := by
  let I (n objs : ℕ) : Prop := n = objs ∧ objs ≤ P / o ∧ ∀ k, o * k + metaBytes k ≤ P → k ≤ objs
  have hbody : ∀ n objs, I n objs → (∃ objs', layoutBody o P objs = .ok (.inl objs') ∧
      ∃ n' < n, I n' objs') ∨
      ∃ k, layoutBody o P objs = .ok (.inr k) ∧ IsGreatest {k | o * k + metaBytes k ≤ P} k := by
    rintro objs objs' ⟨rfl, hle, hmax⟩
    have hprod : o * objs ≤ P := (Nat.mul_le_mul_left o hle).trans (Nat.mul_div_le P o)
    have hobjs : objs ≤ 2 ^ 63 := hle.trans ((Nat.div_le_self P o).trans hP)
    have hpos : 0 < objs := hm.trans_le (hmax m hfit)
    have hsum : o * objs + metaBytes objs < 2 ^ 64 := by
      rw [metaBytes_eq, words]
      omega
    rw [layoutBody, metaSize_eq hobjs, ok_bind, wrap_of_lt hsum]
    by_cases hbig : o * objs + metaBytes objs > P
    · refine Or.inl ⟨objs - 1, ?_, objs - 1, by omega, rfl, by omega, fun k hk => ?_⟩
      · rw [if_pos hbig, wsub_of_le hpos (by omega)]
      · rcases Nat.lt_or_eq_of_le (hmax k hk) with hlt | rfl
        · omega
        · omega
    · exact Or.inr ⟨objs, if_neg hbig, Nat.le_of_not_lt hbig, hmax⟩
  have hfuel : P / o < maxSteps := by
    have hdiv := Nat.div_le_self P o
    unfold maxSteps
    omega
  refine loop_spec hbody hfuel ⟨rfl, Nat.le_refl _, fun k hk => ?_⟩
  rw [Nat.le_div_iff_mul_le ho, Nat.mul_comm]
  omega

/-- What `mem_cache_layout_setup` computes. -/
theorem memCacheLayoutSetup_eq (hs : 0 < size) (ha : 0 < align) (hno : NoOverflow size align) :
    ∃ l, memCacheLayoutSetup size align = .ok l ∧ l.objSize = objSizeOf size align ∧
      l.poolOrder = poolOrderOf size align ∧ l.maskWords = words l.objCount ∧
      l.metaOffs + metaBytes l.objCount = l.poolSize ∧ IsGreatest {n | l.Holds n} l.objCount := by
  have hmin := hno.min
  have hobj : objSizeOf size align < 2 ^ 61 := by
    rw [minSizeOf_eq] at hmin
    omega
  have hpos : 0 < objSizeOf size align := hs.trans_le (le_objSizeOf ha)
  have horder : poolOrderOf size align ≤ 51 := Nat.clog_le_of_le_pow hno.pool
  have hP : 2 ^ (poolOrderOf size align + pageShift) ≤ 2 ^ 63 :=
    Nat.pow_le_pow_right (by decide) (by rw [pageShift]; omega)
  have hpage : 2 ^ pageShift ≤ 2 ^ (poolOrderOf size align + pageShift) :=
    Nat.pow_le_pow_right (by decide) (Nat.le_add_left _ _)
  obtain ⟨n, hloop, hn⟩ := layoutLoop_spec hpos hP (by decide) (three_fit hpage minSizeOf_lt)
  have hfit : objSizeOf size align * n + metaBytes n ≤ 2 ^ (poolOrderOf size align + pageShift) := hn.1
  have hobjs : n ≤ 2 ^ 63 := by
    have hle := Nat.le_mul_of_pos_left n hpos
    omega
  refine ⟨⟨2 ^ (poolOrderOf size align + pageShift) - metaBytes n, n, words n, objSizeOf size align,
    poolOrderOf size align⟩, ?_, rfl, rfl, rfl, Nat.sub_add_cancel (by omega), hn⟩
  rw [memCacheLayoutSetup, alignUp_eq hs ha hno.sum (by omega), ok_bind, metaSize_eq (by decide), ok_bind,
    ← minSizeOf, wrap_of_lt hmin]
  dsimp only
  rw [ilog2_eq (hno.pool.trans (by decide)), ok_bind, ← poolOrderOf,
    shiftOne, if_pos (by rw [pageShift]; omega), ok_bind, divide_eq hpos, ok_bind, hloop, ok_bind,
    metaSize_eq hobjs, ok_bind, ceil_words hobjs, ok_bind, wsub_of_le (by omega) (by omega)]

/-- The layout is safe and tight. -/
theorem memCacheLayoutSetup_tight (hs : 0 < size) (ha : 0 < align) (hno : NoOverflow size align) :
    ∃ l, memCacheLayoutSetup size align = .ok l ∧ l.Tight size align := by
  obtain ⟨l, e, hobj, horder, hwords, hinside, hgreatest⟩ := memCacheLayoutSetup_eq hs ha hno
  have hmeta := metaBytes_eq l.objCount
  have hthree : l.Holds 3 := by
    rw [CacheLayout.Holds, CacheLayout.poolSize, hobj, horder]
    exact three_fit (Nat.pow_le_pow_right (by decide) (Nat.le_add_left _ _)) minSizeOf_lt
  have hcount : 3 ≤ l.objCount := hgreatest.2 hthree
  have hpool : 8 ∣ l.poolSize :=
    Nat.pow_dvd_pow 2 (show 3 ≤ l.poolOrder + pageShift by rw [pageShift]; omega)
  have hfit : l.objSize * l.objCount + metaBytes l.objCount ≤ l.poolSize := hgreatest.1
  refine ⟨l, e, ?_, by omega, by omega, hinside, by omega, ?_, ?_, hgreatest⟩
  · rw [hobj]
    exact objSizeOf_isLeast ha
  · rw [hwords, memPoolSize, wordSz]
    have hpos : 0 < words l.objCount := by
      rw [words]
      omega
    omega
  · rw [hwords, words, objsPerWord, wordSz]
    omega

theorem tight_512 : ∃ l, memCacheLayoutSetup 512 64 = .ok l ∧ l.Tight 512 64 :=
  memCacheLayoutSetup_tight (by decide) (by decide) ⟨by decide, by decide, by decide⟩

/-! ### The number of objects -/

/-- The pool is as large as wanted, and has at least `MIN_POOL_OBJS` objects. -/
def Populated (size align : ℕ) : Prop := ∃ l, memCacheLayoutSetup size align = .ok l ∧
  minSizeOf size align ≤ l.poolSize ∧ minPoolObjs ≤ l.objCount

/-- `ilog2` is of the number of whole pages, so a pool is too small where the wanted size is a power
    of two of pages and a part of another page. -/
theorem populated_iff (hs : 0 < size) (ha : 0 < align) (hno : NoOverflow size align) :
    Populated size align ↔ ∀ k, ¬ (2 ^ (k + pageShift) < minSizeOf size align ∧
      minSizeOf size align < 2 ^ (k + pageShift) + 2 ^ pageShift) := by
  obtain ⟨l, e, hobj, horder, -, -, hgreatest⟩ := memCacheLayoutSetup_eq hs ha hno
  have hpool : l.poolSize = 2 ^ (poolOrderOf size align + pageShift) := by
    rw [CacheLayout.poolSize, horder]
  rw [← not_exists, ← pool_lt_iff, ← hpool, not_lt]
  constructor
  · rintro ⟨l', e', hmin, -⟩
    obtain rfl := Except.ok.inj (e.symm.trans e')
    exact hmin
  · intro hmin
    refine ⟨l, e, hmin, hgreatest.2 ?_⟩
    rwa [Set.mem_ofPred_eq, CacheLayout.Holds, hobj]

/-- Eight objects of 64 bytes and their metadata fit into one page. -/
theorem populated_64 : Populated 64 64 := by
  refine (populated_iff (by decide) (by decide) ⟨by decide, by decide, by decide⟩).mpr fun k h => ?_
  have hpage : 2 ^ pageShift ≤ 2 ^ (k + pageShift) :=
    Nat.pow_le_pow_right (by decide) (Nat.le_add_left pageShift k)
  have hmin : minSizeOf 64 64 ≤ 2 ^ pageShift := by decide
  omega

/-- Eight objects of 512 bytes and their metadata want more than the one page they get. -/
theorem not_populated_512 : NoOverflow 512 64 ∧ ¬ Populated 512 64 := by
  have hno : NoOverflow 512 64 := ⟨by decide, by decide, by decide⟩
  refine ⟨hno, ?_⟩
  rintro ⟨l, e, hmin, -⟩
  obtain ⟨l', e', -, horder, -⟩ := memCacheLayoutSetup_eq (by decide) (by decide) hno
  obtain rfl := Except.ok.inj (e.symm.trans e')
  have hpool : minSizeOf 512 64 ≤ 2 ^ (poolOrderOf 512 64 + pageShift) := by
    rwa [CacheLayout.poolSize, horder] at hmin
  exact absurd hpool (not_le.mpr (pool_lt_iff.mpr ⟨0, by decide, by decide⟩))

end FilesKernel.Slab
