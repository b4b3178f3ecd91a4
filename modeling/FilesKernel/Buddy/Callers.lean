import FilesKernel.Lib.Bits
import FilesKernel.Buddy.Runs

/-! What a caller of the page allocator holds.

    A caller keeps bits of its own in the flags of descriptors, beside the order and the FREE flag;
    neither side disturbs the other. A block is handed out to nobody else as long as it is held, and
    can be given back once. -/

namespace FilesKernel.Buddy
open CExec CBits LinkedList Dyadic

/-! ### Bits of callers -/

def pageUserOffs : ℕ := 16

def pageSetBit (f : Flags) (bit : ℕ) : Flags := f ||| (1#64 <<< (bit + pageUserOffs))
def pageClearBit (f : Flags) (bit : ℕ) : Flags := f &&& ~~~(1#64 <<< (bit + pageUserOffs))
def pageTestBit (f : Flags) (bit : ℕ) : Bool := f &&& (1#64 <<< (bit + pageUserOffs)) ≠ 0#64

namespace PageState
variable (s : PageState)

def setBit (page bit : ℕ) : PageState :=
  { s with flags := Function.update s.flags page (pageSetBit (s.flags page) bit) }

def clearBit (page bit : ℕ) : PageState :=
  { s with flags := Function.update s.flags page (pageClearBit (s.flags page) bit) }

def testBit (page bit : ℕ) : Bool := pageTestBit (s.flags page) bit

end PageState

section
variable {f g : Flags} {bit i : ℕ}

theorem pageIsFree_eq : pageIsFree f = f.getLsbD 8 := by
  rw [Bool.eq_iff_iff, pageIsFree, decide_eq_true_eq]
  exact and_bit_iff (by decide)

theorem pageTestBit_eq (hbit : bit < 48) : pageTestBit f bit = f.getLsbD (bit + pageUserOffs) := by
  rw [Bool.eq_iff_iff, pageTestBit, decide_eq_true_eq]
  exact and_bit_iff (by rw [pageUserOffs]; omega)

theorem getLsbD_of_lt_pow {x k : ℕ} (hx : x < 2 ^ k) (hi : k ≤ i) :
    (BitVec.ofNat 64 x).getLsbD i = false := by
  rw [BitVec.getLsbD_ofNat, Nat.testBit_lt_two_pow (hx.trans_le (Nat.pow_le_pow_right (by decide) hi)),
    Bool.and_false]

/-- What the allocator reads of a word of flags is in its low bits. -/
theorem reads_congr (h : ∀ i < pageUserOffs, g.getLsbD i = f.getLsbD i) :
    pageIsFree g = pageIsFree f ∧ pageOrder g = pageOrder f := by
  refine ⟨by rw [pageIsFree_eq, pageIsFree_eq, h 8 (by decide)], congrArg BitVec.toNat ?_⟩
  refine BitVec.eq_of_getLsbD_eq fun i _ => ?_
  rw [BitVec.getLsbD_and, BitVec.getLsbD_and]
  by_cases hi : i < pageUserOffs
  · rw [h i hi]
  · have hmask : pageOrderMask.getLsbD i = false := by
      rw [pageOrderMask_eq]
      exact getLsbD_of_lt_pow (by decide) (Nat.le_of_not_lt hi)
    rw [hmask, Bool.and_false, Bool.and_false]

theorem reads_setBit (hbit : bit < 48) : pageIsFree (pageSetBit f bit) = pageIsFree f ∧
    pageOrder (pageSetBit f bit) = pageOrder f := by
  refine reads_congr fun i hi => ?_
  rw [pageSetBit, getLsbD_or_bit (by rw [pageUserOffs]; omega), if_neg (by omega)]

theorem reads_clearBit (hbit : bit < 48) : pageIsFree (pageClearBit f bit) = pageIsFree f ∧
    pageOrder (pageClearBit f bit) = pageOrder f := by
  refine reads_congr fun i hi => ?_
  rw [pageClearBit, getLsbD_and_not_bit (by rw [pageUserOffs]; omega), if_neg (by omega)]

theorem pageTestBit_setBit (hbit : bit < 48) : pageTestBit (pageSetBit f bit) bit = true := by
  rw [pageTestBit_eq hbit, pageSetBit, getLsbD_or_bit (by rw [pageUserOffs]; omega), if_pos rfl]

theorem pageTestBit_clearBit (hbit : bit < 48) : pageTestBit (pageClearBit f bit) bit = false := by
  rw [pageTestBit_eq hbit, pageClearBit, getLsbD_and_not_bit (by rw [pageUserOffs]; omega),
    if_pos rfl]

/-- What callers keep in a word of flags is the same. -/
def SameUser (f g : Flags) : Prop := ∀ i, pageUserOffs ≤ i → g.getLsbD i = f.getLsbD i

theorem SameUser.testBit (h : SameUser f g) (hbit : bit < 48) :
    pageTestBit g bit = pageTestBit f bit := by
  rw [pageTestBit_eq hbit, pageTestBit_eq hbit, h _ (Nat.le_add_left _ _)]

theorem sameUser_setFree (f : Flags) : SameUser f (pageSetFree f) := fun i hi => by
  rw [pageUserOffs] at hi
  exact (getLsbD_or_bit (i := 8) (by decide) i).trans (if_neg (by omega))

theorem sameUser_setBusy (f : Flags) : SameUser f (pageSetBusy f) := fun i hi => by
  rw [pageUserOffs] at hi
  exact (getLsbD_and_not_bit (i := 8) (by decide) i).trans (if_neg (by omega))

theorem sameUser_withOrder (f : Flags) {order : ℕ} (ho : order ≤ 255) :
    SameUser f (pageWithOrder f order) := fun i hi => by
  rw [pageUserOffs] at hi
  have hmask : pageOrderMask.getLsbD i = false := by
    rw [pageOrderMask_eq]
    exact getLsbD_of_lt_pow (k := 8) (by decide) (by omega)
  rw [pageWithOrder, BitVec.getLsbD_or, BitVec.getLsbD_and, BitVec.getLsbD_not, hmask,
    getLsbD_of_lt_pow (k := 8) (by omega) (by omega), Bool.or_false, Bool.not_false, Bool.and_true]
  by_cases hi64 : i < 64
  · rw [decide_eq_true hi64, Bool.and_true]
  · rw [BitVec.getLsbD_of_ge f i (Nat.le_of_not_lt hi64), Bool.false_and]

end

/-! ### The allocator leaves the bits of callers alone -/

/-- No descriptor differs in what callers keep in it. -/
def UserKept (s s' : PageState) : Prop := ∀ a, SameUser (s.flags a) (s'.flags a)

section
variable {s s' s'' : PageState} {z : Zone} {page order : ℕ}

theorem UserKept.refl (s : PageState) : UserKept s s := fun _ _ _ => rfl

theorem UserKept.trans (h : UserKept s s') (h' : UserKept s' s'') : UserKept s s'' :=
  fun a i hi => (h' a i hi).trans (h a i hi)

theorem userKept_update {f : Flags} (hf : SameUser (s.flags page) f)
    (hs : s'.flags = Function.update s.flags page f) : UserKept s s' := fun a i hi => by
  rw [hs]
  by_cases ha : a = page
  · rw [ha, Function.update_self, hf i hi]
  · rw [Function.update_of_ne ha]

theorem setFree_userKept (s : PageState) (page : ℕ) : UserKept s (s.setFree page) :=
  userKept_update (sameUser_setFree _) rfl

theorem setBusy_userKept (s : PageState) (page : ℕ) : UserKept s (s.setBusy page) :=
  userKept_update (sameUser_setBusy _) rfl

theorem setOrder_userKept (h : s.setOrder page order = .ok s') : UserKept s s' := by
  rw [PageState.setOrder] at h
  obtain ⟨u, hu, h⟩ := bind_eq_ok.mp h
  obtain rfl := Except.ok.inj h
  exact userKept_update (sameUser_withOrder _ (by have := bugOn_eq_ok.mp hu; omega)) rfl

theorem pageSplit_userKept {idx : ℕ} : ∀ {current : ℕ} {s : PageState},
    pageSplit z idx order current s = .ok s' → UserKept s s'
  | 0, s, h => by
      rw [pageSplit] at h
      split_ifs at h
      obtain rfl := Except.ok.inj h
      exact UserKept.refl s
  | current + 1, s, h => by
      rw [pageSplit] at h
      split_ifs at h
      · obtain rfl := Except.ok.inj h
        exact UserKept.refl s
      · obtain ⟨buddy, -, h⟩ := bind_eq_ok.mp h
        obtain ⟨m, -, h⟩ := bind_eq_ok.mp h
        obtain ⟨t, ht, h⟩ := bind_eq_ok.mp h
        have horder := setOrder_userKept ht
        have hstart : UserKept s t := horder
        exact (hstart.trans (setFree_userKept t buddy)).trans (pageSplit_userKept h)

theorem pageAllocZone_userKept (h : pageAllocZone s z order = .ok (s', page)) : UserKept s s' := by
  rw [pageAllocZone] at h
  obtain ⟨current, -, h⟩ := bind_eq_ok.mp h
  split_ifs at h
  · obtain ⟨rfl, -⟩ := Prod.mk.inj (Except.ok.inj h)
    exact UserKept.refl s
  · obtain ⟨empty, -, h⟩ := bind_eq_ok.mp h
    obtain ⟨u, -, h⟩ := bind_eq_ok.mp h
    obtain ⟨first, -, h⟩ := bind_eq_ok.mp h
    obtain ⟨m, -, h⟩ := bind_eq_ok.mp h
    obtain ⟨t, ht, h⟩ := bind_eq_ok.mp h
    obtain ⟨rfl, -⟩ := Prod.mk.inj (Except.ok.inj h)
    have hsplit := pageSplit_userKept ht
    exact (setBusy_userKept s first).trans hsplit

theorem pageAllocFrom_userKept {r : Option (Zone × ℕ)} : ∀ {zs : List Zone} {s : PageState},
    pageAllocFrom order zs s = .ok (s', r) → UserKept s s'
  | [], s, h => by
      obtain ⟨rfl, -⟩ := Prod.mk.inj (Except.ok.inj h)
      exact UserKept.refl s
  | z :: zs, s, h => by
      rw [pageAllocFrom] at h
      obtain ⟨⟨t, page⟩, ht, h⟩ := bind_eq_ok.mp h
      have hzone := pageAllocZone_userKept ht
      dsimp only at h
      split_ifs at h
      · obtain ⟨rfl, -⟩ := Prod.mk.inj (Except.ok.inj h)
        exact hzone
      · exact hzone.trans (pageAllocFrom_userKept h)

theorem pageAllocPage_userKept (h : pageAllocPage s order = .ok (s', page)) : UserKept s s' := by
  rw [pageAllocPage] at h
  split_ifs at h
  · obtain ⟨rfl, -⟩ := Prod.mk.inj (Except.ok.inj h)
    exact UserKept.refl s
  · obtain ⟨⟨t, r⟩, ht, h⟩ := bind_eq_ok.mp h
    have hfrom := pageAllocFrom_userKept ht
    cases r with
    | none =>
      obtain ⟨rfl, -⟩ := Prod.mk.inj (Except.ok.inj h)
      exact hfrom
    | some zp =>
      obtain ⟨rfl, -⟩ := Prod.mk.inj (Except.ok.inj h)
      exact hfrom

theorem pageMerge_userKept {page' order' : ℕ} : ∀ {n : ℕ} {s : PageState} {page idx order : ℕ},
    pageMerge z n s page idx order = .ok (s', page', order') → UserKept s s'
  | 0, s, page, idx, order, h => by
      obtain ⟨rfl, -⟩ := Prod.mk.inj (Except.ok.inj h)
      exact UserKept.refl s
  | n + 1, s, page, idx, order, h => by
      rw [pageMerge] at h
      dsimp only at h
      split_ifs at h
      · obtain ⟨rfl, -⟩ := Prod.mk.inj (Except.ok.inj h)
        exact UserKept.refl s
      · obtain ⟨buddy, -, h⟩ := bind_eq_ok.mp h
        split_ifs at h
        · obtain ⟨rfl, -⟩ := Prod.mk.inj (Except.ok.inj h)
          exact UserKept.refl s
        · obtain ⟨m, -, h⟩ := bind_eq_ok.mp h
          have hnext := pageMerge_userKept h
          exact hnext
      · obtain ⟨buddy, -, h⟩ := bind_eq_ok.mp h
        split_ifs at h
        · obtain ⟨rfl, -⟩ := Prod.mk.inj (Except.ok.inj h)
          exact UserKept.refl s
        · obtain ⟨m, -, h⟩ := bind_eq_ok.mp h
          have hnext := pageMerge_userKept h
          exact hnext

theorem pageFreeZone_userKept (h : pageFreeZone s z page order = .ok s') : UserKept s s' := by
  rw [pageFreeZone] at h
  obtain ⟨u, -, h⟩ := bind_eq_ok.mp h
  obtain ⟨⟨t, page', order'⟩, ht, h⟩ := bind_eq_ok.mp h
  obtain ⟨m, -, h⟩ := bind_eq_ok.mp h
  obtain ⟨v, hv, h⟩ := bind_eq_ok.mp h
  obtain rfl := Except.ok.inj h
  have hmerge := pageMerge_userKept ht
  have horder := setOrder_userKept hv
  exact (hmerge.trans horder).trans (setFree_userKept v page')

theorem pageFree_userKept {addr : ℕ} (h : pageFree s addr order = .ok s') : UserKept s s' := by
  rw [pageFree] at h
  split_ifs at h
  · obtain rfl := Except.ok.inj h
    exact UserKept.refl s
  · split at h
    · cases h
    · obtain ⟨p, -, h⟩ := bind_eq_ok.mp h
      exact pageFreeZone_userKept h

theorem pageFreePage_userKept (h : pageFreePage s page order = .ok s') : UserKept s s' := by
  rw [pageFreePage] at h
  split_ifs at h
  · obtain rfl := Except.ok.inj h
    exact UserKept.refl s
  · obtain ⟨z, -, h⟩ := bind_eq_ok.mp h
    exact pageFreeZone_userKept h

end

/-! ### Blocks that are held -/

/-- The page `p` has a descriptor, at `d`. -/
def Describes (s : PageState) (p d : ℕ) : Prop := ∃ z ∈ s.zones, z.Has p ∧ d = z.page p

/-- The allocator has the pages `pages`, and callers hold the blocks `held`. -/
structure Holds (pages : Set ℕ) (s : PageState) (held : Set (ℕ × ℕ)) : Prop where
  settled : ∃ K, Settled ⟨s, held⟩ K ∧ cover K.used = pages

section
variable {s s' : PageState} {pages : Set ℕ} {held : Set (ℕ × ℕ)} {p q d order : ℕ} {x : ℕ × ℕ}

theorem Holds.of_ready (h : Ready s) (h0 : ∀ x ∈ allFree s, x.1 ≠ 0) :
    Holds (pagesOf (allFree s)) s ∅ := by
  have hset := h.settled h0
  refine ⟨_, hset, ?_⟩
  rw [← hset.law.pages, pagesOf_empty, Set.empty_union]

theorem Holds.zonesOk (h : Holds pages s held) : ZonesOk s.zones := by
  obtain ⟨K, hk, -⟩ := h.settled
  exact hk.laid.zones

theorem Holds.law (h : Holds pages s held) : BuddyLaw pages ⟨s, held⟩ := by
  obtain ⟨K, hk, rfl⟩ := h.settled
  exact hk.law

theorem Holds.order_le (h : Holds pages s held) (hx : x ∈ held) : x.2 ≤ maxOrder := by
  obtain ⟨K, hk, -⟩ := h.settled
  obtain ⟨b, hb, rfl⟩ := hk.block hx
  exact hk.laid.order b (Laid.mem_used hb (by decide))

/-- Two descriptors of different pages are different. -/
theorem Describes.inj (hz : ZonesOk s.zones) (h : Describes s p d) (h' : Describes s q d) : p = q := by
  obtain ⟨z, hzm, hp, rfl⟩ := h
  obtain ⟨z', hzm', hp', he⟩ := h'
  exact (hz.page_inj hzm hzm' hp hp' he).2

theorem Describes.eq (hz : ZonesOk s.zones) (h : Describes s p d) {e : ℕ} (h' : Describes s p e) :
    d = e := by
  obtain ⟨z, hzm, hp, rfl⟩ := h
  obtain ⟨z', hzm', hp', rfl⟩ := h'
  rw [hz.eq_of_has hzm hzm' hp hp']

theorem Describes.addrPage (hz : ZonesOk s.zones) (h : Describes s p d) :
    addrPage s (p * pageSize) = .ok d := by
  obtain ⟨z, hzm, hp, rfl⟩ := h
  exact addrPage_eq hz hzm hp

theorem Describes.pageAddr (hz : ZonesOk s.zones) (h : Describes s p d) :
    pageAddr s d = .ok (p * pageSize) := by
  obtain ⟨z, hzm, hp, rfl⟩ := h
  exact pageAddr_eq hz hzm hp

theorem Describes.ne_zero (h : Describes s p d) : d ≠ 0 := by
  obtain ⟨z, -, -, rfl⟩ := h
  exact z.page_pos p

/-- The pages of a block that is held have their descriptors in a row. -/
theorem Holds.describes (h : Holds pages s held) (hx : x ∈ held) : ∃ d,
    ∀ i < 2 ^ x.2, Describes s (x.1 + i) (d + sizeofPage * i) := by
  obtain ⟨z, hz, hin⟩ := h.law.inside x hx
  have hstart : z.begin ≤ x.1 := hin.start
  have hstop : x.1 + 2 ^ x.2 ≤ z.stop := hin.stop
  refine ⟨z.page x.1, fun i hi => ⟨z, hz, ⟨by omega, by omega⟩, ?_⟩⟩
  rw [Zone.page, Zone.page, Nat.sub_add_comm hstart, Nat.mul_add]
  omega

/-- Bits of callers do not matter to the allocator. -/
theorem Holds.flags (h : Holds pages s held) {flags : ℕ → Flags}
    (hf : ∀ a, pageIsFree (flags a) = pageIsFree (s.flags a) ∧
      pageOrder (flags a) = pageOrder (s.flags a)) :
    Holds pages { s with flags := flags } held := by
  obtain ⟨K, ⟨hlaid, hclean, hcalm, hcallers, hfirst⟩, hcover⟩ := h.settled
  refine ⟨K, ⟨⟨hlaid.zones, hlaid.order, hlaid.inside, hlaid.apart, hlaid.lists,
    fun b hb z hz hp => ?_, fun b hb z hz hp => ?_⟩, fun z hz p hp hfree => ?_, hcalm, hcallers,
    hfirst⟩, hcover⟩
  · rw [(hf _).1, (hf _).2]
    exact hlaid.marked b hb z hz hp
  · rw [(hf _).1]
    exact hlaid.taken b hb z hz hp
  · rw [(hf _).1] at hfree
    exact hclean z hz p hp hfree

theorem reads_update {f : Flags} {a : ℕ} (hf : pageIsFree f = pageIsFree (s.flags d) ∧
    pageOrder f = pageOrder (s.flags d)) :
    pageIsFree (Function.update s.flags d f a) = pageIsFree (s.flags a) ∧
      pageOrder (Function.update s.flags d f a) = pageOrder (s.flags a) := by
  by_cases ha : a = d
  · rw [ha, Function.update_self]
    exact hf
  · rw [Function.update_of_ne ha]
    exact ⟨rfl, rfl⟩

theorem Holds.setBit (h : Holds pages s held) (d : ℕ) {bit : ℕ} (hbit : bit < 48) :
    Holds pages (s.setBit d bit) held := h.flags fun _ => reads_update (reads_setBit hbit)

theorem Holds.clearBit (h : Holds pages s held) (d : ℕ) {bit : ℕ} (hbit : bit < 48) :
    Holds pages (s.clearBit d bit) held := h.flags fun _ => reads_update (reads_clearBit hbit)

/-- The allocator's own part of its state: the zones do not change, and no bits of callers. -/
structure Served (s s' : PageState) : Prop where
  zones : s'.zones = s.zones
  user : UserKept s s'

/-- What a caller gets from `__page_alloc`: no block, or one that nobody holds. -/
inductive Granted (pages : Set ℕ) (s : PageState) (held : Set (ℕ × ℕ)) (order : ℕ) :
    PageState × ℕ → Prop
  | none : Granted pages s held order (s, 0)
  | block {s' : PageState} {d p : ℕ} (hd : Describes s p d) (hserved : Served s s')
      (haligned : 2 ^ order ∣ p) (hpos : p ≠ 0) (horder : order ≤ maxOrder)
      (hnew : ∀ y ∈ held, Disjoint (blockPages (p, order)) (blockPages y))
      (hholds : Holds pages s' (insert (p, order) held)) : Granted pages s held order (s', d)

theorem pageAllocPage_granted (h : Holds pages s held) (order : ℕ) :
    ∃ r, pageAllocPage s order = .ok r ∧ Granted pages s held order r := by
  obtain ⟨K, hk, hcover⟩ := h.settled
  by_cases ho : order ≤ maxOrder
  · rcases pageAllocPage_spec hk.laid hk.calm ho with ⟨e, -⟩ | ⟨s', K', z, b, e, rfl, hg⟩
    · exact ⟨_, e, .none⟩
    · have hnew := hk.gives hg
      have hused : b ∈ K'.used := Laid.mem_used ((hg.live b).mpr (Or.inr rfl)) (by decide)
      have hserved : Served s s' := ⟨hg.keeps.zones, pageAllocPage_userKept e⟩
      refine ⟨_, e, .block ⟨z, hg.zone, hg.has, rfl⟩ hserved (dvd_start b) (hnew.start_ne hused) ho
        (fun y hy => ?_) ⟨K', hnew, hg.keeps.cover.trans hcover⟩⟩
      refine hnew.law.live_apart _ (Or.inl rfl) y (Or.inr hy) fun he => ?_
      obtain ⟨c, hc, hcy⟩ := hk.block hy
      rw [← hcy] at he
      obtain rfl := headOf_inj he
      exact hg.fresh hc
  · exact ⟨_, if_pos (by omega), .none⟩

/-- The allocator has all its pages: each is in one free block. -/
structure AllBack (pages : Set ℕ) (s : PageState) : Prop where
  all : pagesOf (allFree s) = pages
  once : ∀ p ∈ pages, ∃! x, x ∈ allFree s ∧ p ∈ blockPages x

theorem Holds.allBack (h : Holds pages s ∅) : AllBack pages s := by
  have hpages : pagesOf (allFree s) = pages := by
    rw [← h.law.pages, pagesOf_empty, Set.empty_union]
  obtain ⟨K, hk, -⟩ := h.settled
  refine ⟨hpages, fun p hp => ?_⟩
  rw [← hpages] at hp
  obtain ⟨x, hx, hpx⟩ := hp
  refine ⟨x, ⟨hx, hpx⟩, fun y ⟨hy, hpy⟩ => ?_⟩
  have hall : allFree s = headOf '' {b | K b = .free} := hk.laid.allFree_eq
  rw [hall] at hx hy
  obtain ⟨b, hb, rfl⟩ := hx
  obtain ⟨d, hd, rfl⟩ := hy
  by_contra hne
  have hdis := headOf_apart hk.laid.apart (Laid.mem_used hd (by decide)) (Laid.mem_used hb (by decide)) hne
  exact Set.disjoint_left.mp hdis hpy hpx

/-- A block that is held can be given back, by descriptor or by address. -/
theorem pageFree_holds (h : Holds pages s held) (hx : x ∈ held) :
    ∃ s', pageFree s (x.1 * pageSize) x.2 = .ok s' ∧ Served s s' ∧
      Holds pages s' {y ∈ held | y ≠ x} := by
  obtain ⟨K, hk, hcover⟩ := h.settled
  obtain ⟨b, hb, rfl⟩ := hk.block hx
  obtain ⟨s', K', e, ht⟩ := pageFree_spec hk.laid hk.clean hk.calm hb
    (hk.start_ne (Laid.mem_used hb (by decide)))
  exact ⟨s', e, ⟨ht.keeps.zones, pageFree_userKept e⟩, K', hk.takes ht, ht.keeps.cover.trans hcover⟩

theorem pageFreePage_holds (h : Holds pages s held) (hx : x ∈ held) (hd : Describes s x.1 d) :
    ∃ s', pageFreePage s d x.2 = .ok s' ∧ Served s s' ∧ Holds pages s' {y ∈ held | y ≠ x} := by
  obtain ⟨K, hk, hcover⟩ := h.settled
  obtain ⟨b, hb, rfl⟩ := hk.block hx
  obtain ⟨z, hz, hp, rfl⟩ := hd
  obtain ⟨s', K', e, ht⟩ := pageFreePage_spec hk.laid hk.clean hk.calm hb hz hp
  exact ⟨s', e, ⟨ht.keeps.zones, pageFreePage_userKept e⟩, K', hk.takes ht,
    ht.keeps.cover.trans hcover⟩

end

end FilesKernel.Buddy
