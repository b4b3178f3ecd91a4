import Mathlib.Data.Set.BooleanAlgebra
import Mathlib.Order.CompletePartialOrder
import FilesKernel.Buddy.Model
import Mathlib.Order.Interval.Set.Basic

/-! Zones in memory.

    The descriptors and list heads of a zone lie in the piece of memory behind its structure. Where
    the pieces of two zones have nothing in common, an address is one descriptor or one list head at
    most; and a page lies in one zone at most. -/

namespace FilesKernel.Buddy
open CExec CWord

/-! ### Flags -/

section
variable (f : Flags) {k : ℕ}

theorem pageOrderMask_eq : pageOrderMask = 255#64 := by decide

theorem pageOrder_eq : pageOrder f = f.toNat % 256 := by
  rw [pageOrder, pageOrderMask_eq, BitVec.toNat_and]
  exact Nat.and_two_pow_sub_one_eq_mod f.toNat 8

theorem pageOrder_withOrder (hk : k < 256) : pageOrder (pageWithOrder f k) = k := by
  have h : (f &&& ~~~pageOrderMask ||| BitVec.ofNat 64 k) &&& pageOrderMask =
      BitVec.ofNat 64 k &&& pageOrderMask := by
    ext i hi
    simp only [BitVec.getElem_and, BitVec.getElem_or, BitVec.getElem_not]
    grind
  have hof : pageOrder (pageWithOrder f k) = pageOrder (BitVec.ofNat 64 k) := by
    rw [pageOrder, pageOrder, pageWithOrder, h]
  rw [hof, pageOrder_eq, BitVec.toNat_ofNat]
  omega

@[simp] theorem pageOrder_setFree : pageOrder (pageSetFree f) = pageOrder f := by
  have hmask : pageFreeMask &&& pageOrderMask = 0#64 := by decide
  have h : (f ||| pageFreeMask) &&& pageOrderMask = f &&& pageOrderMask := by
    rw [BitVec.and_comm, BitVec.and_or_distrib_left, BitVec.and_comm pageOrderMask pageFreeMask,
      hmask, BitVec.or_zero, BitVec.and_comm]
  rw [pageOrder, pageOrder, pageSetFree, h]

@[simp] theorem pageIsFree_setFree : pageIsFree (pageSetFree f) = true := by
  have h : (f ||| pageFreeMask) &&& pageFreeMask = pageFreeMask := by
    ext i hi
    simpa using Or.inr
  rw [pageIsFree, pageSetFree, h]
  decide

@[simp] theorem pageIsFree_setBusy : pageIsFree (pageSetBusy f) = false := by
  have h : (f &&& ~~~pageFreeMask) &&& pageFreeMask = 0#64 := by
    ext i hi
    simp
  rw [pageIsFree, pageSetBusy, h]
  decide

end

/-! ### Addresses -/

namespace Zone

/-- `page` is in the zone. -/
def Has (z : Zone) (page : ℕ) : Prop := z.begin ≤ page ∧ page < z.stop

instance (z : Zone) (page : ℕ) : Decidable (z.Has page) := inferInstanceAs (Decidable (_ ∧ _))

/-- The number of pages -/
def len (z : Zone) : ℕ := z.stop - z.begin

/-- Where the memory of the zone ends. -/
def bound (z : Zone) : ℕ := z.addr + (sizeofZone + sizeofPage * z.len)

end Zone

/-- The addresses of the descriptors of the zone. -/
def Zone.array (z : Zone) : Set ℕ := Set.Ico z.pages (z.pages + sizeofPage * z.len)

/-- No two zones have a page or a descriptor in common, and addresses do not wrap around. -/
structure ZonesApart (zs : List Zone) : Prop where
  range : ∀ z ∈ zs, z.begin ≤ z.stop
  pages : ∀ z ∈ zs, z.stop * pageSize ≤ 2 ^ 64
  bound : ∀ z ∈ zs, z.pages + sizeofPage * z.len ≤ 2 ^ 64
  ranges : ∀ z ∈ zs, ∀ z' ∈ zs, z ≠ z' → Disjoint (Set.Ico z.begin z.stop) (Set.Ico z'.begin z'.stop)
  arrays : ∀ z ∈ zs, ∀ z' ∈ zs, z ≠ z' → Disjoint z.array z'.array

/-- The pieces of memory behind the zones have nothing in common either. -/
structure ZonesOk (zs : List Zone) : Prop where
  nonempty : ∀ z ∈ zs, z.begin < z.stop
  pages : ∀ z ∈ zs, z.stop * pageSize ≤ 2 ^ 64
  bound : ∀ z ∈ zs, z.bound ≤ 2 ^ 64
  apart : ∀ z ∈ zs, ∀ z' ∈ zs, z ≠ z' →
    (z.stop ≤ z'.begin ∨ z'.stop ≤ z.begin) ∧ (z.bound ≤ z'.addr ∨ z'.bound ≤ z.addr)

variable {zs : List Zone} {z z' : Zone} {p p' o o' : ℕ}

theorem Zone.order_pos (z : Zone) (o : ℕ) : z.order o ≠ 0 := by
  unfold Zone.order orderOffs
  omega

theorem Zone.page_pos (z : Zone) (p : ℕ) : z.page p ≠ 0 := by
  unfold Zone.page Zone.pages pagesOffs
  omega

theorem Zone.pageAt_eq (hp : z.Has p) : z.pageAt p = .ok (z.page p) := if_pos hp

theorem Zone.page_bounds (hp : z.Has p) : z.addr + pagesOffs ≤ z.page p ∧
    z.page p + sizeofPage ≤ z.bound := by
  unfold Has at hp
  unfold page pages bound len pagesOffs sizeofPage sizeofZone
  omega

theorem Zone.order_bounds (ho : o ≤ maxOrder) : z.addr ≤ z.order o ∧
    z.order o < z.addr + pagesOffs := by
  unfold maxOrder at ho
  unfold order pagesOffs orderOffs
  omega

theorem Zone.pages_le_bound : z.addr + pagesOffs ≤ z.bound := by
  unfold bound pagesOffs sizeofZone
  omega

namespace ZonesApart

theorem eq_of_has (h : ZonesApart zs) (hz : z ∈ zs) (hz' : z' ∈ zs) (hp : z.Has p)
    (hp' : z'.Has p) : z = z' := by
  by_contra hne
  exact Set.disjoint_left.mp (h.ranges z hz z' hz' hne) hp hp'

theorem has_lt (h : ZonesApart zs) (hz : z ∈ zs) (hp : z.Has p) : p * pageSize < 2 ^ 64 := by
  have := h.pages z hz
  unfold Zone.Has at hp
  unfold pageSize at this ⊢
  omega

/-- The bytes of a descriptor are in the array. -/
theorem page_mem (hp : z.Has p) {i : ℕ} (hi : i < sizeofPage) : z.page p + i ∈ z.array := by
  unfold Zone.Has at hp
  refine Set.mem_Ico.mpr ?_
  unfold Zone.page Zone.len sizeofPage at *
  omega

theorem idx_page (h : ZonesApart zs) (hz : z ∈ zs) (hp : z.Has p) : z.idx (z.page p) = p := by
  have hlt := h.has_lt hz hp
  have hdiff : pageDiff (z.page p) z.pages = p - z.begin := by
    rw [pageDiff, if_pos (by unfold Zone.page; omega), Zone.page, Nat.add_sub_cancel_left,
      Nat.mul_div_cancel_left _ (by decide)]
  have hle : z.begin + (p - z.begin) = p := Nat.add_sub_cancel' hp.1
  unfold pageSize at hlt
  rw [Zone.idx, hdiff, hle, wrap_of_lt (by omega)]

/-- A descriptor is in the array of its zone only: seen from an array behind it, the difference is
    negative and so larger than any array. -/
theorem pageDiff_lt_iff (h : ZonesApart zs) (hz : z ∈ zs) (hz' : z' ∈ zs) (hp : z.Has p) :
    pageDiff (z.page p) z'.pages < z'.stop - z'.begin ↔ z' = z := by
  constructor
  · intro hlt
    by_contra hne
    have hno : ∀ i < sizeofPage, z.page p + i ∉ z'.array := fun i hi =>
      Set.disjoint_left.mp (h.arrays z hz z' hz' (Ne.symm hne)) (page_mem hp hi)
    have hstart := hno 0 (by decide)
    have hfirst := hno (z'.pages - z.page p)
    have hend := h.bound z hz
    have hend' := h.bound z' hz'
    have hin := (Set.mem_Ico.mp (page_mem hp (i := 0) (by decide))).2
    simp only [Zone.array, Set.mem_Ico, Zone.len] at hstart hfirst hend hend' hin
    unfold pageDiff at hlt
    unfold sizeofPage at *
    split at hlt <;> omega
  · rintro rfl
    have hp' := hp
    unfold Zone.Has at hp'
    rw [pageDiff, if_pos (by unfold Zone.page; omega), Zone.page, Nat.add_sub_cancel_left,
      Nat.mul_div_cancel_left _ (by decide)]
    omega

end ZonesApart

theorem ZonesOk.zonesApart (h : ZonesOk zs) : ZonesApart zs := by
  have hpages : ∀ z : Zone, z.pages + sizeofPage * z.len ≤ z.bound := fun z => by
    unfold Zone.pages Zone.bound pagesOffs sizeofZone
    omega
  refine ⟨fun z hz => (h.nonempty z hz).le, h.pages, fun z hz => (hpages z).trans (h.bound z hz),
    fun z hz z' hz' hne => ?_, fun z hz z' hz' hne => ?_⟩
  · have hapart := (h.apart z hz z' hz' hne).1
    rw [Set.disjoint_left]
    intro a ha ha'
    rw [Set.mem_Ico] at ha ha'
    omega
  · have hapart := (h.apart z hz z' hz' hne).2
    have hle := hpages z
    have hle' := hpages z'
    rw [Set.disjoint_left]
    intro a ha ha'
    rw [Zone.array, Set.mem_Ico, Zone.pages] at ha ha'
    unfold Zone.pages at hle hle'
    omega

namespace ZonesOk

theorem eq_of_has (h : ZonesOk zs) (hz : z ∈ zs) (hz' : z' ∈ zs) (hp : z.Has p)
    (hp' : z'.Has p) : z = z' := h.zonesApart.eq_of_has hz hz' hp hp'

theorem has_lt (h : ZonesOk zs) (hz : z ∈ zs) (hp : z.Has p) : p * pageSize < 2 ^ 64 :=
  h.zonesApart.has_lt hz hp

theorem idx_page (h : ZonesOk zs) (hz : z ∈ zs) (hp : z.Has p) : z.idx (z.page p) = p :=
  h.zonesApart.idx_page hz hp

/-- What two pieces of memory have in common is in one zone. -/
theorem eq_of_memory (h : ZonesOk zs) (hz : z ∈ zs) (hz' : z' ∈ zs) {a : ℕ}
    (ha : z.addr ≤ a ∧ a < z.bound) (ha' : z'.addr ≤ a ∧ a < z'.bound) : z = z' := by
  by_contra hne
  have := (h.apart z hz z' hz' hne).2
  omega

theorem page_inj (h : ZonesOk zs) (hz : z ∈ zs) (hz' : z' ∈ zs) (hp : z.Has p) (hp' : z'.Has p')
    (he : z.page p = z'.page p') : z = z' ∧ p = p' := by
  have hb := Zone.page_bounds hp
  have hb' := Zone.page_bounds hp'
  unfold pagesOffs sizeofPage at hb hb'
  obtain rfl := h.eq_of_memory hz hz' (a := z.page p) (by omega) (by omega)
  refine ⟨rfl, ?_⟩
  unfold Zone.Has at hp hp'
  unfold Zone.page sizeofPage at he
  omega

theorem order_inj (h : ZonesOk zs) (hz : z ∈ zs) (hz' : z' ∈ zs) (ho : o ≤ maxOrder)
    (ho' : o' ≤ maxOrder) (he : z.order o = z'.order o') : z = z' ∧ o = o' := by
  have hb := Zone.order_bounds (z := z) ho
  have hb' := Zone.order_bounds (z := z') ho'
  have hle := Zone.pages_le_bound (z := z)
  have hle' := Zone.pages_le_bound (z := z')
  obtain rfl := h.eq_of_memory hz hz' (a := z.order o) (by omega) (by omega)
  refine ⟨rfl, ?_⟩
  unfold Zone.order at he
  omega

theorem order_ne_page (h : ZonesOk zs) (hz : z ∈ zs) (hz' : z' ∈ zs) (ho : o ≤ maxOrder)
    (hp : z'.Has p) : z.order o ≠ z'.page p := by
  intro he
  have hb := Zone.order_bounds (z := z) ho
  have hb' := Zone.page_bounds hp
  have hle := Zone.pages_le_bound (z := z)
  unfold sizeofPage at hb'
  obtain rfl := h.eq_of_memory hz hz' (a := z.order o) (by omega) (by omega)
  omega

end ZonesOk

/-! ### Finding the zone of a page -/

theorem find_zone {q : Zone → Prop} [DecidablePred q] (hz : z ∈ zs)
    (hq : ∀ z' ∈ zs, q z' ↔ z' = z) : zs.find? (fun z' => decide (q z')) = some z := by
  cases hf : zs.find? (fun z' => decide (q z')) with
  | none =>
    have hno := List.find?_eq_none.mp hf z hz
    rw [decide_eq_true_eq] at hno
    exact absurd ((hq z hz).mpr rfl) hno
  | some z' =>
    have hz' : q z' := by simpa using List.find?_some hf
    rw [(hq z' (List.mem_of_find?_eq_some hf)).mp hz']

variable {s : PageState}

namespace ZonesApart

theorem pageAllocZoneFind_eq (h : ZonesApart s.zones) (hz : z ∈ s.zones) (hp : z.Has p) :
    pageAllocZoneFind s p = some z :=
  find_zone hz fun _ hz' => ⟨fun hp' => h.eq_of_has hz' hz hp' hp, fun e => e ▸ hp⟩

theorem pageZone_eq (h : ZonesApart s.zones) (hz : z ∈ s.zones) (hp : z.Has p) :
    pageZone s (z.page p) = .ok z := by
  rw [pageZone, find_zone hz fun _ hz' => h.pageDiff_lt_iff hz hz' hp]

theorem pageAddr_eq (h : ZonesApart s.zones) (hz : z ∈ s.zones) (hp : z.Has p) :
    pageAddr s (z.page p) = .ok (p * pageSize) := by
  rw [pageAddr, h.pageZone_eq hz hp, ok_bind, h.idx_page hz hp, wrap_of_lt (h.has_lt hz hp)]

theorem addrPage_eq (h : ZonesApart s.zones) (hz : z ∈ s.zones) (hp : z.Has p) :
    addrPage s (p * pageSize) = .ok (z.page p) := by
  have hpos : 0 < pageSize := by decide
  rw [addrPage, Nat.mul_mod_left, bugOn_false (by simp), ok_bind, Nat.mul_div_cancel _ hpos,
    h.pageAllocZoneFind_eq hz hp]

end ZonesApart

theorem pageAllocZoneFind_eq (h : ZonesOk s.zones) (hz : z ∈ s.zones) (hp : z.Has p) :
    pageAllocZoneFind s p = some z := h.zonesApart.pageAllocZoneFind_eq hz hp

theorem pageZone_eq (h : ZonesOk s.zones) (hz : z ∈ s.zones) (hp : z.Has p) :
    pageZone s (z.page p) = .ok z := h.zonesApart.pageZone_eq hz hp

theorem pageAddr_eq (h : ZonesOk s.zones) (hz : z ∈ s.zones) (hp : z.Has p) :
    pageAddr s (z.page p) = .ok (p * pageSize) := h.zonesApart.pageAddr_eq hz hp

theorem addrPage_eq (h : ZonesOk s.zones) (hz : z ∈ s.zones) (hp : z.Has p) :
    addrPage s (p * pageSize) = .ok (z.page p) := h.zonesApart.addrPage_eq hz hp

/-! ### Descriptors and addresses -/

/-- The descriptors of all zones -/
def Descriptors (zs : List Zone) : Set ℕ := {d | ∃ z ∈ zs, ∃ p, z.Has p ∧ d = z.page p}

/-- The page-aligned addresses in zones -/
def Addresses (zs : List Zone) : Set ℕ := {a | ∃ z ∈ zs, ∃ p, z.Has p ∧ a = p * pageSize}

/-- `page_addr` and `addr_page` are inverse to each other, and `page_zone` finds the zone. -/
theorem descriptors_correspond (h : ZonesApart s.zones) :
    (∀ d ∈ Descriptors s.zones, ∃ a ∈ Addresses s.zones, pageAddr s d = .ok a ∧
      addrPage s a = .ok d) ∧
    (∀ a ∈ Addresses s.zones, ∃ d ∈ Descriptors s.zones, addrPage s a = .ok d ∧
      pageAddr s d = .ok a) ∧
    ∀ z ∈ s.zones, ∀ p, z.Has p → pageZone s (z.page p) = .ok z ∧
      ∀ z' ∈ s.zones, z.page p ∈ z'.array → z' = z := by
  refine ⟨?_, ?_, fun z hz p hp => ⟨h.pageZone_eq hz hp, fun z' hz' hmem => ?_⟩⟩
  · rintro d ⟨z, hz, p, hp, rfl⟩
    exact ⟨_, ⟨z, hz, p, hp, rfl⟩, h.pageAddr_eq hz hp, h.addrPage_eq hz hp⟩
  · rintro a ⟨z, hz, p, hp, rfl⟩
    exact ⟨_, ⟨z, hz, p, hp, rfl⟩, h.addrPage_eq hz hp, h.pageAddr_eq hz hp⟩
  · by_contra hne
    exact Set.disjoint_left.mp (h.arrays z' hz' z hz hne) hmem
      (ZonesApart.page_mem hp (i := 0) (by decide))

/-- Two zones whose arrays are in the opposite order -/
def swappedZones : PageState where
  heads := fun a => ⟨a, a⟩
  flags := fun _ => 0#64
  zones := [⟨0x10000, 1, 3⟩, ⟨0x8000, 3, 10⟩]

theorem swappedZones_correspond :
    (∀ d ∈ Descriptors swappedZones.zones, ∃ a ∈ Addresses swappedZones.zones,
      pageAddr swappedZones d = .ok a ∧ addrPage swappedZones a = .ok d) ∧
    (∀ a ∈ Addresses swappedZones.zones, ∃ d ∈ Descriptors swappedZones.zones,
      addrPage swappedZones a = .ok d ∧ pageAddr swappedZones d = .ok a) ∧
    ∀ z ∈ swappedZones.zones, ∀ p, z.Has p → pageZone swappedZones (z.page p) = .ok z ∧
      ∀ z' ∈ swappedZones.zones, z.page p ∈ z'.array → z' = z :=
  descriptors_correspond (ZonesOk.zonesApart ⟨by decide, by decide, by decide, by decide⟩)

end FilesKernel.Buddy
