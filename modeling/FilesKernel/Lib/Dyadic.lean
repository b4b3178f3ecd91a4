import Mathlib.Data.Set.BooleanAlgebra
import Mathlib.Order.CompletePartialOrder
import Mathlib.Algebra.Group.Nat.Even
import Mathlib.Data.Nat.Bitwise
import Mathlib.Data.Nat.Find
import Mathlib.Data.Set.Basic

/-! Dyadic blocks: the ranges `[i * 2 ^ k, (i + 1) * 2 ^ k)`.

    Two of them are nested or have nothing in common. Blocks of one order that differ in the last bit
    of the index are buddies, and together they are their parent. A family of blocks without buddies
    of less than the largest order is known from the numbers it covers. -/

namespace Dyadic

structure Block where
  order : ℕ
  index : ℕ
  deriving DecidableEq, Repr

namespace Block

def start (b : Block) : ℕ := b.index * 2 ^ b.order
def stop (b : Block) : ℕ := (b.index + 1) * 2 ^ b.order

instance : Membership ℕ Block := ⟨fun b p => p / 2 ^ b.order = b.index⟩

instance (p : ℕ) (b : Block) : Decidable (p ∈ b) :=
  inferInstanceAs (Decidable (p / 2 ^ b.order = b.index))

def parent (b : Block) : Block := ⟨b.order + 1, b.index / 2⟩

/-- The first half of a block -/
def lower (b : Block) : Block := ⟨b.order - 1, 2 * b.index⟩

def buddy (b : Block) : Block := ⟨b.order, b.index ^^^ 1⟩

end Block

/-- The block of order `k` that contains `p`. -/
def blockAt (k p : ℕ) : Block := ⟨k, p / 2 ^ k⟩

variable {b c : Block} {k p q : ℕ}

theorem mem_def : p ∈ b ↔ p / 2 ^ b.order = b.index := Iff.rfl

theorem mem_iff : p ∈ b ↔ b.start ≤ p ∧ p < b.stop := by
  rw [mem_def, Nat.div_eq_iff (Nat.two_pow_pos _), Block.start, Block.stop, Nat.succ_mul]
  have := Nat.two_pow_pos b.order
  omega

theorem stop_eq (b : Block) : b.stop = b.start + 2 ^ b.order := Nat.succ_mul _ _

theorem start_lt_stop (b : Block) : b.start < b.stop := by
  rw [stop_eq]
  exact Nat.lt_add_of_pos_right (Nat.two_pow_pos _)

theorem start_mem (b : Block) : b.start ∈ b := mem_iff.mpr ⟨Nat.le_refl _, start_lt_stop b⟩

theorem blockAt_start (hp : 2 ^ k ∣ p) : (blockAt k p).start = p := Nat.div_mul_cancel hp

theorem blockAt_eq (b : Block) : blockAt b.order b.start = b := by
  rw [blockAt, Block.start, Nat.mul_div_cancel _ (Nat.two_pow_pos _)]

theorem dvd_start (b : Block) : 2 ^ b.order ∣ b.start := Nat.dvd_mul_left _ _

/-! ### Nested or apart -/

theorem subset_of_mem (hle : b.order ≤ c.order) (hb : p ∈ b) (hc : p ∈ c) (hq : q ∈ b) : q ∈ c := by
  rw [mem_def] at *
  obtain ⟨d, hd⟩ := Nat.exists_eq_add_of_le hle
  rw [hd, Nat.pow_add, ← Nat.div_div_eq_div_mul] at hc ⊢
  rw [hq, ← hb, hc]

theorem eq_of_mem (horder : b.order = c.order) (hb : p ∈ b) (hc : p ∈ c) : b = c := by
  obtain ⟨k, i⟩ := b
  obtain ⟨k', j⟩ := c
  obtain rfl : k = k' := horder
  obtain rfl : i = j := hb.symm.trans hc
  rfl

/-! ### Buddies -/

theorem xor_one_cases (i : ℕ) : i % 2 = 0 ∧ i ^^^ 1 = i + 1 ∨ i % 2 = 1 ∧ i ^^^ 1 = i - 1 := by
  rcases Nat.even_or_odd i with h | h
  · exact Or.inl ⟨Nat.even_iff.mp h, Nat.xor_one_of_even h⟩
  · exact Or.inr ⟨Nat.odd_iff.mp h, Nat.xor_one_of_odd h⟩

theorem buddy_ne (b : Block) : b.buddy ≠ b := by
  intro h
  have hi : b.index ^^^ 1 = b.index := congrArg Block.index h
  rcases xor_one_cases b.index with ⟨h₁, h₂⟩ | ⟨h₁, h₂⟩ <;> omega

theorem buddy_buddy (b : Block) : b.buddy.buddy = b := by
  rw [Block.buddy, Block.buddy, Nat.xor_assoc, Nat.xor_self, Nat.xor_zero]

theorem parent_buddy (b : Block) : b.buddy.parent = b.parent := by
  rw [Block.parent, Block.parent, Block.buddy]
  congr 1
  rcases xor_one_cases b.index with ⟨h₁, h₂⟩ | ⟨h₁, h₂⟩ <;> simp only [h₂] <;> omega

theorem mem_parent : p ∈ b.parent ↔ p ∈ b ∨ p ∈ b.buddy := by
  rw [mem_def, mem_def, mem_def, Block.parent, Block.buddy, Nat.pow_succ,
    ← Nat.div_div_eq_div_mul]
  rcases xor_one_cases b.index with ⟨h₁, h₂⟩ | ⟨h₁, h₂⟩ <;> simp only [h₂] <;> omega

theorem not_mem_buddy (hp : p ∈ b) : p ∉ b.buddy := fun hp' =>
  buddy_ne b (eq_of_mem rfl hp' hp)

theorem buddy_start (b : Block) : b.buddy.start = b.start ^^^ 2 ^ b.order := by
  have h : (b.index ^^^ 1) <<< b.order = b.index <<< b.order ^^^ 1 <<< b.order :=
    Nat.shiftLeft_xor_distrib
  rw [Nat.shiftLeft_eq, Nat.shiftLeft_eq, Nat.shiftLeft_eq, Nat.one_mul] at h
  exact h

/-- Buddies are next to each other. -/
theorem buddy_adjacent (b : Block) : b.stop = b.buddy.start ∨ b.buddy.stop = b.start := by
  rcases xor_one_cases b.index with ⟨h₁, h₂⟩ | ⟨h₁, h₂⟩
  · exact Or.inl (congrArg (· * 2 ^ b.order) h₂.symm)
  · refine Or.inr (congrArg (· * 2 ^ b.order) ?_)
    rw [Block.buddy]
    simp only [h₂]
    omega

theorem parent_lower (hb : 0 < b.order) : b.lower.parent = b := by
  obtain ⟨k, i⟩ := b
  rw [Block.parent, Block.lower]
  have hi : 2 * i / 2 = i := Nat.mul_div_cancel_left i (by decide)
  rw [hi, Nat.sub_add_cancel hb]

theorem lower_start (hb : 0 < b.order) : b.lower.start = b.start := by
  obtain ⟨k, i⟩ := b
  obtain ⟨k, rfl⟩ : ∃ j, k = j + 1 := ⟨k - 1, (Nat.sub_add_cancel hb).symm⟩
  rw [Block.lower, Block.start, Block.start, Nat.add_sub_cancel, Nat.pow_succ, Nat.mul_comm 2,
    Nat.mul_assoc, Nat.mul_comm 2]

/-- The parent begins where the lower buddy does. -/
theorem parent_start (b : Block) : b.parent.start = if b.buddy.start < b.start then b.buddy.start
    else b.start := by
  have hpow := Nat.two_pow_pos b.order
  have hlt : b.buddy.start < b.start ↔ b.index ^^^ 1 < b.index := Nat.mul_lt_mul_right hpow
  have hstart : b.parent.start = b.index / 2 * 2 * 2 ^ b.order := by
    rw [Block.parent, Block.start, Nat.pow_succ, Nat.mul_comm _ 2, Nat.mul_assoc]
  rw [if_congr hlt rfl rfl, hstart]
  rcases xor_one_cases b.index with ⟨h₁, h₂⟩ | ⟨h₁, h₂⟩
  · rw [if_neg (by omega)]
    exact congrArg (· * 2 ^ b.order) (by omega)
  · rw [if_pos (by omega)]
    exact congrArg (· * 2 ^ b.order) (by rw [Block.buddy]; simp only [h₂]; omega)

/-! ### Families -/

/-- No two blocks of the family have a number in common. -/
def Apart (F : Set Block) : Prop := ∀ b ∈ F, ∀ c ∈ F, ∀ p, p ∈ b → p ∈ c → b = c

def cover (F : Set Block) : Set ℕ := {p | ∃ b ∈ F, p ∈ b}

/-- Buddies of an order below `M` are not both in the family. -/
def Reduced (M : ℕ) (F : Set Block) : Prop := ∀ b ∈ F, b.order < M → b.buddy ∉ F

variable {F G : Set Block} {M : ℕ}

/-- The largest block of an order up to `M` that begins where `b` does and ends at `e` at the latest. -/
structure Greatest (M e : ℕ) (b : Block) : Prop where
  order : b.order ≤ M
  stop : b.stop ≤ e
  most : ∀ k ≤ M, 2 ^ k ∣ b.start → b.start + 2 ^ k ≤ e → k ≤ b.order

/-- Of two buddies the lower one could have been larger. -/
theorem Greatest.not_buddies {e : ℕ} (hb : Greatest M e b) (hb' : Greatest M e b.buddy) :
    ¬ b.order < M := by
  intro hlt
  have hstop : ∀ c : Block, c.order = b.order → c.parent = b.parent → c.start = b.parent.start →
      Greatest M e c → b.parent.stop ≤ e → False := fun c ho hp hs hc he => by
    have hdvd : 2 ^ (c.order + 1) ∣ c.start := by
      rw [hs, ← hp]
      exact dvd_start c.parent
    have hfit : c.start + 2 ^ (c.order + 1) ≤ e := by
      rw [stop_eq] at he
      rw [hs, ho]
      exact he
    have := hc.most (c.order + 1) (by omega) hdvd hfit
    omega
  have he : b.parent.stop ≤ e := by
    have hlast : b.parent.stop - 1 ∈ b.parent := by
      have := start_lt_stop b.parent
      exact mem_iff.mpr (by omega)
    rcases mem_parent.mp hlast with h | h
    · have := (mem_iff.mp h).2
      have := hb.stop
      omega
    · have := (mem_iff.mp h).2
      have := hb'.stop
      omega
  by_cases hlow : b.buddy.start < b.start
  · exact hstop b.buddy rfl (parent_buddy b) (by rw [parent_start, if_pos hlow]) hb' he
  · exact hstop b rfl rfl (by rw [parent_start, if_neg hlow]) hb he

/-- A block of the family that contains the first number of a buddy begins there. -/
theorem start_of_mem_buddy (hF : Apart F) (hb : b ∈ F) (hc : c ∈ F) (hp : b.buddy.start ∈ c) :
    c.order ≤ b.order ∧ c.start = b.buddy.start := by
  have hle : c.order ≤ b.order := by
    by_contra hlt
    -- a larger block would contain both buddies
    have hin : b.start ∈ c := subset_of_mem (b := b.parent) (Nat.lt_of_not_le hlt)
      (mem_parent.mpr (Or.inr (start_mem _))) hp (mem_parent.mpr (Or.inl (start_mem b)))
    rw [hF c hc b hb _ hin (start_mem b)] at hlt
    exact hlt (Nat.le_refl _)
  have hin : c.start ∈ b.buddy := subset_of_mem (b := c) hle hp (start_mem _) (start_mem c)
  exact ⟨hle, Nat.le_antisymm (mem_iff.mp hp).1 (mem_iff.mp hin).1⟩

/-- A block is cut in two. -/
def split (F : Set Block) (c : Block) : Set Block := {b | b = c ∨ b = c.buddy ∨ b ≠ c.parent ∧ b ∈ F}

/-- Two buddies are put together. -/
def join (F : Set Block) (c : Block) : Set Block :=
  {b | b = c.parent ∨ b ≠ c ∧ b ≠ c.buddy ∧ b ∈ F}

theorem mem_split : b ∈ split F c ↔ (b = c ∨ b = c.buddy) ∨ b ≠ c.parent ∧ b ∈ F := or_assoc.symm

theorem mem_half (hb : b = c ∨ b = c.buddy) (hp : p ∈ b) : p ∈ c.parent := by
  rcases hb with rfl | rfl
  · exact mem_parent.mpr (Or.inl hp)
  · exact mem_parent.mpr (Or.inr hp)

theorem Apart.split (hF : Apart F) (hc : c.parent ∈ F) : Apart (split F c) := by
  intro a ha b hb p hpa hpb
  have hout : ∀ x, x ≠ c.parent ∧ x ∈ F → p ∈ x → p ∉ c.parent := fun x hx hpx hp =>
    hx.1 (hF x hx.2 _ hc p hpx hp)
  rcases mem_split.mp ha with ha | ha <;> rcases mem_split.mp hb with hb | hb
  · have horder : a.order = b.order := by rcases ha with rfl | rfl <;> rcases hb with rfl | rfl <;> rfl
    exact eq_of_mem horder hpa hpb
  · exact absurd (mem_half ha hpa) (hout b hb hpb)
  · exact absurd (mem_half hb hpb) (hout a ha hpa)
  · exact hF a ha.2 b hb.2 p hpa hpb

theorem cover_split (hc : c.parent ∈ F) : cover (split F c) = cover F := by
  ext p
  constructor
  · rintro ⟨b, hb, hp⟩
    rcases mem_split.mp hb with hb | hb
    · exact ⟨_, hc, mem_half hb hp⟩
    · exact ⟨b, hb.2, hp⟩
  · rintro ⟨b, hb, hp⟩
    by_cases hne : b = c.parent
    · subst hne
      rcases mem_parent.mp hp with hp | hp
      · exact ⟨c, Or.inl rfl, hp⟩
      · exact ⟨c.buddy, Or.inr (Or.inl rfl), hp⟩
    · exact ⟨b, Or.inr (Or.inr ⟨hne, hb⟩), hp⟩

theorem Apart.join (hF : Apart F) (hc : c ∈ F) (hc' : c.buddy ∈ F) : Apart (join F c) := by
  intro a ha b hb p hpa hpb
  have hout : ∀ x, x ≠ c ∧ x ≠ c.buddy ∧ x ∈ F → p ∈ x → p ∉ c.parent := fun x hx hpx hp => by
    rcases mem_parent.mp hp with hp | hp
    · exact hx.1 (hF x hx.2.2 c hc p hpx hp)
    · exact hx.2.1 (hF x hx.2.2 _ hc' p hpx hp)
  rcases ha with rfl | ha <;> rcases hb with rfl | hb
  · rfl
  · exact absurd hpa (hout b hb hpb)
  · exact absurd hpb (hout a ha hpa)
  · exact hF a ha.2.2 b hb.2.2 p hpa hpb

theorem cover_join (hc : c ∈ F) (hc' : c.buddy ∈ F) : cover (join F c) = cover F := by
  ext p
  constructor
  · rintro ⟨b, hb, hp⟩
    rcases hb with rfl | hb
    · rcases mem_parent.mp hp with hp | hp
      · exact ⟨c, hc, hp⟩
      · exact ⟨_, hc', hp⟩
    · exact ⟨b, hb.2.2, hp⟩
  · rintro ⟨b, hb, hp⟩
    by_cases h₁ : b = c
    · exact ⟨_, Or.inl rfl, mem_parent.mpr (Or.inl (h₁ ▸ hp))⟩
    · by_cases h₂ : b = c.buddy
      · exact ⟨_, Or.inl rfl, mem_parent.mpr (Or.inr (h₂ ▸ hp))⟩
      · exact ⟨b, Or.inr ⟨h₁, h₂, hb⟩, hp⟩

/-- A block is not above one of a reduced family that covers it. -/
theorem order_le_of_reduced (hF : Apart F) (hM : Reduced M F) (hc : c.order ≤ M)
    (hcover : ∀ p ∈ c, p ∈ cover F) (hb : b ∈ F) (hpb : p ∈ b) (hpc : p ∈ c) : c.order ≤ b.order := by
  by_contra hlt
  rw [Nat.not_le] at hlt
  -- the blocks of the family that meet `c` are all below it; take one of the least order
  have hbelow : ∀ f ∈ F, ∀ q, q ∈ f → q ∈ c → f.order < c.order := by
    intro f hf q hqf hqc
    by_contra hge
    obtain rfl := hF f hf b hb p (subset_of_mem (Nat.le_of_not_lt hge) hqc hqf hpc) hpb
    exact hge hlt
  have hex : ∃ k, ∃ f ∈ F, (∃ q, q ∈ f ∧ q ∈ c) ∧ f.order = k := ⟨_, b, hb, ⟨p, hpb, hpc⟩, rfl⟩
  classical
  obtain ⟨f, hf, ⟨q, hqf, hqc⟩, horder⟩ := Nat.find_spec hex
  have hfc := hbelow f hf q hqf hqc
  have hparent : ∀ r ∈ f.parent, r ∈ c := fun r hr =>
    subset_of_mem (b := f.parent) hfc (mem_parent.mpr (Or.inl hqf)) hqc hr
  have hbuddy : f.buddy.start ∈ c := hparent _ (mem_parent.mpr (Or.inr (start_mem _)))
  obtain ⟨g, hg, hgs⟩ := hcover _ hbuddy
  have hmin : f.order ≤ g.order := by
    rw [horder]
    exact Nat.find_min' hex ⟨g, hg, ⟨_, hgs, hbuddy⟩, rfl⟩
  rcases Nat.eq_or_lt_of_le hmin with heq | hlt'
  · obtain rfl : f.buddy = g := eq_of_mem heq (start_mem _) hgs
    exact hM f hf (Nat.lt_of_lt_of_le hfc hc) hg
  · have hin : f.start ∈ g := subset_of_mem (b := f.parent) hlt'
      (mem_parent.mpr (Or.inr (start_mem _))) hgs (mem_parent.mpr (Or.inl (start_mem _)))
    obtain rfl := hF f hf g hg _ (start_mem f) hin
    exact Nat.lt_irrefl _ hlt'

theorem subset_of_cover (hF : Apart F) (hMF : Reduced M F) (hMG : Reduced M G) (hG : Apart G)
    (hleF : ∀ b ∈ F, b.order ≤ M) (hleG : ∀ b ∈ G, b.order ≤ M) (hcover : cover F = cover G) :
    F ⊆ G := by
  intro b hb
  have hmem : b.start ∈ cover G := hcover ▸ ⟨b, hb, start_mem b⟩
  obtain ⟨g, hg, hgs⟩ := hmem
  have hle := order_le_of_reduced hF hMF (hleG g hg) (fun p hp => hcover ▸ ⟨g, hg, hp⟩) hb
    (start_mem b) hgs
  have hge := order_le_of_reduced hG hMG (hleF b hb) (fun p hp => hcover ▸ ⟨b, hb, hp⟩) hg hgs
    (start_mem b)
  obtain rfl : b = g := eq_of_mem (Nat.le_antisymm hge hle) (start_mem b) hgs
  exact hg

/-- Reduced families of blocks of bounded order that cover the same numbers are the same. -/
theorem eq_of_cover (hF : Apart F) (hG : Apart G) (hMF : Reduced M F) (hMG : Reduced M G)
    (hleF : ∀ b ∈ F, b.order ≤ M) (hleG : ∀ b ∈ G, b.order ≤ M) (hcover : cover F = cover G) :
    F = G :=
  Set.Subset.antisymm (subset_of_cover hF hMF hMG hG hleF hleG hcover)
    (subset_of_cover hG hMG hMF hF hleG hleF hcover.symm)

end Dyadic
