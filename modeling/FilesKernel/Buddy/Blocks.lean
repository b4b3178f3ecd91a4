import FilesKernel.Buddy.Zones
import FilesKernel.Lib.Dyadic
import FilesKernel.LinkedList.Rings

/-! The blocks of the zones, and what memory says of them.

    The pages that are handed out or could be lie in blocks: free ones on the lists, live ones with the
    callers, and blocks in the hands of the running function. The heads of the free blocks are flagged
    FREE with the order of the block, those of the live blocks are not. Pages inside a block may be
    flagged in any way: merging and handing out leave old flags behind. -/

namespace FilesKernel.Buddy
open CExec LinkedList Dyadic

/-- What a block is used for. -/
inductive Kind where | none | free | live | held
  deriving DecidableEq

abbrev Blocks := Block → Kind

namespace Blocks
variable (K : Blocks) (b c : Block) (k : Kind)

def used : Set Block := {b | K b ≠ .none}

def set : Blocks := Function.update K b k

/-- The held block `c.parent` is cut in two. -/
def split : Blocks := ((K.set c.parent .none).set c .held).set c.buddy .held

/-- The held buddies `c` and `c.buddy` are put together. -/
def join : Blocks := ((K.set c .none).set c.buddy .none).set c.parent .held

@[simp] theorem set_self : K.set b k b = k := by rw [set, Function.update_self]

variable {K b c k}

theorem set_of_ne (h : c ≠ b) : K.set b k c = K c := by rw [set, Function.update_of_ne h]

theorem mem_used : b ∈ K.used ↔ K b ≠ .none := Iff.rfl

theorem used_set (hb : b ∈ K.used) (hk : k ≠ .none) : (K.set b k).used = K.used := by
  ext c
  rw [mem_used, mem_used]
  by_cases hc : c = b
  · rw [hc, set_self]
    exact ⟨fun _ => hb, fun _ => hk⟩
  · rw [set_of_ne hc]

theorem split_apply (a : Block) : K.split c a =
    if a = c.buddy then .held else if a = c then .held else if a = c.parent then .none else K a := by
  simp only [split, set, Function.update_apply]

theorem join_apply (a : Block) : K.join c a =
    if a = c.parent then .held else if a = c.buddy then .none else if a = c then .none else K a := by
  simp only [join, set, Function.update_apply]

theorem used_split : (K.split c).used = Dyadic.split K.used c := by
  ext a
  rw [mem_used, split_apply, mem_split, mem_used]
  split_ifs with h₁ h₂ h₃ <;> simp_all

theorem used_join : (K.join c).used = Dyadic.join K.used c := by
  ext a
  rw [mem_used, join_apply, Dyadic.join, Set.mem_ofPred_eq, mem_used]
  split_ifs with h₁ h₂ h₃ <;> simp_all

end Blocks

/-- The block lies in the zone. -/
structure Zone.Contains (z : Zone) (b : Block) : Prop where
  start : z.begin ≤ b.start
  stop : b.stop ≤ z.stop

theorem Zone.Contains.has {z : Zone} {b : Block} {p : ℕ} (h : z.Contains b) (hp : p ∈ b) : z.Has p :=
  ⟨h.start.trans (mem_iff.mp hp).1, (mem_iff.mp hp).2.trans_le h.stop⟩

/-- `a` is the first descriptor of a free block of order `o` in `z`. -/
def Listed (K : Blocks) (z : Zone) (o a : ℕ) : Prop :=
  ∃ b, K b = .free ∧ b.order = o ∧ z.Has b.start ∧ z.page b.start = a

/-- Memory lays out the blocks `K`. -/
structure Laid (s : PageState) (K : Blocks) : Prop where
  zones : ZonesOk s.zones
  order : ∀ b ∈ K.used, b.order ≤ maxOrder
  inside : ∀ b ∈ K.used, ∃ z ∈ s.zones, z.Contains b
  apart : Apart K.used
  lists : ∀ z ∈ s.zones, ∀ o ≤ maxOrder, ∃ L, OnRing s.heads (z.order o) L ∧
    ∀ a, a ∈ L ↔ Listed K z o a
  marked : ∀ b, K b = .free → ∀ z ∈ s.zones, z.Has b.start →
    pageIsFree (s.flags (z.page b.start)) = true ∧ pageOrder (s.flags (z.page b.start)) = b.order
  taken : ∀ b, K b = .live → ∀ z ∈ s.zones, z.Has b.start →
    pageIsFree (s.flags (z.page b.start)) = false

/-- Pages outside the blocks are not flagged FREE. -/
def Clean (s : PageState) (K : Blocks) : Prop :=
  ∀ z ∈ s.zones, ∀ p, z.Has p → pageIsFree (s.flags (z.page p)) = true → p ∈ cover K.used

namespace Laid
variable {s : PageState} {K K' : Blocks} {z z' : Zone} {b c : Block} {p o : ℕ}

theorem mem_used {k : Kind} (hb : K b = k) (hk : k ≠ .none) : b ∈ K.used := by
  rw [Blocks.mem_used, hb]
  exact hk

theorem contains (h : Laid s K) (hb : b ∈ K.used) (hz : z ∈ s.zones) (hp : z.Has p) (hpb : p ∈ b) :
    z.Contains b := by
  obtain ⟨z', hz', hc⟩ := h.inside b hb
  exact h.zones.eq_of_has hz' hz (hc.has hpb) hp ▸ hc

theorem zone (h : Laid s K) (hb : b ∈ K.used) : ∃ z ∈ s.zones, z.Has b.start := by
  obtain ⟨z, hz, hc⟩ := h.inside b hb
  exact ⟨z, hz, hc.has (start_mem b)⟩

/-- Blocks with one first descriptor are the same. -/
theorem eq_of_page (h : Laid s K) (hz : z ∈ s.zones) (hz' : z' ∈ s.zones) (hb : b ∈ K.used)
    (hc : c ∈ K.used) (hp : z.Has b.start) (hp' : z'.Has c.start)
    (he : z.page b.start = z'.page c.start) : z = z' ∧ b = c := by
  obtain ⟨rfl, hs⟩ := h.zones.page_inj hz hz' hp hp' he
  exact ⟨rfl, h.apart b hb c hc b.start (start_mem b) (hs ▸ start_mem c)⟩

/-! ### Lists -/

theorem listed_set_free (z : Zone) (hp : z.Has b.start) (a : ℕ) :
    Listed (K.set b .free) z b.order a ↔ a = z.page b.start ∨ Listed K z b.order a := by
  constructor
  · rintro ⟨c, hk, ho, hc, ha⟩
    by_cases hcb : c = b
    · exact Or.inl (hcb ▸ ha.symm)
    · exact Or.inr ⟨c, by rwa [Blocks.set_of_ne hcb] at hk, ho, hc, ha⟩
  · rintro (rfl | ⟨c, hk, ho, hc, ha⟩)
    · exact ⟨b, Blocks.set_self K b .free, rfl, hp, rfl⟩
    · refine ⟨c, ?_, ho, hc, ha⟩
      by_cases hcb : c = b
      · rw [hcb, Blocks.set_self]
      · rw [Blocks.set_of_ne hcb, hk]

theorem listed_set_held (h : Laid s K) (hz : z ∈ s.zones) (hb : b ∈ K.used) (hp : z.Has b.start)
    (a : ℕ) : Listed (K.set b .held) z b.order a ↔ Listed K z b.order a ∧ a ≠ z.page b.start := by
  constructor
  · rintro ⟨c, hk, ho, hc, rfl⟩
    have hcb : c ≠ b := fun e => by
      rw [e, Blocks.set_self] at hk
      cases hk
    rw [Blocks.set_of_ne hcb] at hk
    refine ⟨⟨c, hk, ho, hc, rfl⟩, fun he => hcb ?_⟩
    exact (h.eq_of_page hz hz (mem_used hk (by decide)) hb hc hp he).2
  · rintro ⟨⟨c, hk, ho, hc, rfl⟩, hne⟩
    refine ⟨c, ?_, ho, hc, rfl⟩
    rw [Blocks.set_of_ne fun e => hne (by rw [e]), hk]

/-- Lists other than the one of `b` do not see what becomes of it. -/
theorem listed_set_other (h : Laid s K) (hz : z ∈ s.zones) (hz' : z' ∈ s.zones) (hp : z.Has b.start)
    (hne : ¬ (z' = z ∧ o = b.order)) (k : Kind) (a : ℕ) :
    Listed (K.set b k) z' o a ↔ Listed K z' o a := by
  have hout : ∀ c : Block, c.order = o → z'.Has c.start → c ≠ b := by
    rintro c ho hc rfl
    exact hne ⟨h.zones.eq_of_has hz' hz hc hp, ho.symm⟩
  constructor
  · rintro ⟨c, hk, ho, hc, ha⟩
    exact ⟨c, by rwa [Blocks.set_of_ne (hout c ho hc)] at hk, ho, hc, ha⟩
  · rintro ⟨c, hk, ho, hc, ha⟩
    exact ⟨c, by rwa [Blocks.set_of_ne (hout c ho hc)], ho, hc, ha⟩

/-- When the list of `b` is changed at `b` only, the other lists stay as they are. -/
theorem lists_set {m : Heads ℕ} {L L' : List ℕ} {k : Kind} (h : Laid s K) (hz : z ∈ s.zones)
    (hb : b ∈ K.used) (hp : z.Has b.start) (hL : ∀ a, a ∈ L ↔ Listed K z b.order a)
    (hr : OnRing m (z.order b.order) L') (hL' : ∀ a, a ∈ L' ↔ Listed (K.set b k) z b.order a)
    (hframe : ∀ a, a ∉ z.order b.order :: L → a ≠ z.page b.start → m a = s.heads a) :
    ∀ z' ∈ s.zones, ∀ o ≤ maxOrder, ∃ L, OnRing m (z'.order o) L ∧
      ∀ a, a ∈ L ↔ Listed (K.set b k) z' o a := by
  intro z' hz' o ho
  by_cases heq : z' = z ∧ o = b.order
  · obtain ⟨rfl, rfl⟩ := heq
    exact ⟨L', hr, hL'⟩
  obtain ⟨M, hM, hmem⟩ := h.lists z' hz' o ho
  refine ⟨M, hM.congr fun a ha => hframe a ?_ ?_, fun a => ?_⟩
  · intro ha'
    rcases List.mem_cons.mp ha with rfl | ha <;> rcases List.mem_cons.mp ha' with ha' | ha'
    · exact heq (h.zones.order_inj hz' hz ho (h.order b hb) ha')
    · obtain ⟨c, -, -, hc, he⟩ := (hL _).mp ha'
      exact h.zones.order_ne_page hz' hz ho hc he.symm
    · obtain ⟨c, -, -, hc, he⟩ := (hmem a).mp ha
      exact h.zones.order_ne_page hz hz' (h.order b hb) hc (ha'.symm.trans he.symm)
    · obtain ⟨c, hk, hco, hc, he⟩ := (hmem a).mp ha
      obtain ⟨d, hk', hdo, hd, he'⟩ := (hL a).mp ha'
      obtain ⟨hzz, hcd⟩ := h.eq_of_page hz' hz (mem_used hk (by decide)) (mem_used hk' (by decide))
        hc hd (he.trans he'.symm)
      exact heq ⟨hzz, by rw [← hco, hcd, hdo]⟩
  · rintro rfl
    rcases List.mem_cons.mp ha with ha | ha
    · exact h.zones.order_ne_page hz' hz ho hp ha.symm
    · obtain ⟨c, hk, hco, hc, he⟩ := (hmem _).mp ha
      obtain ⟨hzz, hcb⟩ := h.eq_of_page hz' hz (mem_used hk (by decide)) hb hc hp he
      exact heq ⟨hzz, by rw [← hco, hcb]⟩
  · rw [hmem, h.listed_set_other hz hz' hp heq]

end Laid

end FilesKernel.Buddy
