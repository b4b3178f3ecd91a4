import FilesKernel.Balloc.PageTables
import FilesKernel.Buddy.Unfragmented
import Mathlib.Data.Set.BooleanAlgebra
import Mathlib.Order.CompletePartialOrder

/-! The memory of the zones, and the bytes of the pages that are handed over.

    The zones and their descriptors are taken from free memory. With nothing live, the lists of the
    zones show every block; and the bytes of these blocks are in the ranges that are left. -/

namespace FilesKernel.Buddy
open CExec CWord Balloc RbTree RedBlack Spans
open Dyadic hiding cover

variable {c : Image} {s₀ s : PageState} {bs bs' : BallocState} {T T' : RangeTree → ColorTree ℕ}
  {K : Blocks} {r : Span ℕ} {M : ℕ} {zs : List Zone}

/-! ### Zones -/

/-- The bytes of some zones, descriptors included -/
def zoneBytes (zs : List Zone) : Set ℕ := {a | ∃ z ∈ zs, a ∈ Set.Ico z.addr z.bound}

theorem zoneBytes_nil : zoneBytes [] = ∅ := by
  refine Set.eq_empty_of_forall_notMem fun a ha => ?_
  obtain ⟨z, hz, -⟩ := ha
  exact List.not_mem_nil hz

theorem zoneBytes_append (zs zs' : List Zone) : zoneBytes (zs ++ zs') = zoneBytes zs ∪ zoneBytes zs' := by
  ext a
  constructor
  · rintro ⟨z, hz, ha⟩
    exact (List.mem_append.mp hz).imp (fun hz => ⟨z, hz, ha⟩) fun hz => ⟨z, hz, ha⟩
  · rintro (⟨z, hz, ha⟩ | ⟨z, hz, ha⟩)
    · exact ⟨z, List.mem_append_left _ hz, ha⟩
    · exact ⟨z, List.mem_append_right _ hz, ha⟩

/-- The memory for one zone -/
theorem zoneFor_taken (h : Booted c M bs T) (hM : M ≤ 2 ^ 63) (hr : r.stop ≤ M)
    (hok : zoneFor c bs r = .ok (bs', zs)) : ∃ T', Booted c M bs' T' ∧
      Taken (freeSet bs T) (freeSet bs' T') (zoneBytes zs) ∧ ∀ z ∈ zs, z.stop * pageSize ≤ M := by
  rw [zoneFor] at hok
  dsimp only at hok
  rcases Nat.lt_or_ge (pageUp r.begin) (r.stop / pageSize) with hlt | hge
  · obtain ⟨size, hsize⟩ : ∃ size,
        size = sizeofZone + sizeofPage * (r.stop / pageSize - pageUp r.begin) := ⟨_, rfl⟩
    have hlarge : 32 < size ∧ size ≤ 2 ^ 62 := by
      rw [hsize]
      unfold sizeofZone sizeofPage pageSize
      omega
    have hwrap : wrap size = size := wrap_of_lt (by omega)
    obtain ⟨⟨L, hs⟩, hv⟩ := h.trees
    rw [if_neg (Nat.not_le_of_lt hlt), ← hsize, hwrap] at hok
    rcases ballocAlloc_returns hs (hv _) ((h.mono hM).below _) hlarge.1 hlarge.2 with e | e |
      ⟨bs₁, addr, L', T', e, ha⟩
    · rw [e] at hok
      cases hok
    · rw [e, ok_bind, bugOn_true rfl] at hok
      cases hok
    · rw [e, ok_bind] at hok
      obtain ⟨_, -, hok⟩ := bind_eq_ok.mp hok
      obtain ⟨rfl, rfl⟩ := Prod.mk.inj (Except.ok.inj hok)
      have hbytes : zoneBytes [⟨addr, pageUp r.begin, r.stop / pageSize⟩] =
          Set.Ico addr (addr + size) := by
        ext a
        rw [zoneBytes, Set.mem_ofPred_eq, List.exists_mem_cons_iff, Zone.bound, Zone.len, hsize]
        refine or_iff_left ?_
        rintro ⟨z, hz, -⟩
        exact List.not_mem_nil hz
      refine ⟨_, h.alloc ha, hbytes ▸ ha.taken, fun z hz => ?_⟩
      rw [List.mem_singleton.mp hz]
      exact (Nat.div_mul_le_self r.stop pageSize).trans hr
  · rw [if_pos hge] at hok
    obtain ⟨rfl, rfl⟩ := Prod.mk.inj (Except.ok.inj hok)
    exact ⟨T, h, zoneBytes_nil ▸ .none _, fun z hz => absurd hz List.not_mem_nil⟩

/-- The memory for the zones of some ranges -/
theorem zonesFor_taken (hM : M ≤ 2 ^ 63) : ∀ {R : List (Span ℕ)} {bs bs' : BallocState}
    {T : RangeTree → ColorTree ℕ} {zs : List Zone}, Booted c M bs T → Below M R →
    zonesFor c R bs = .ok (bs', zs) → ∃ T', Booted c M bs' T' ∧
      Taken (freeSet bs T) (freeSet bs' T') (zoneBytes zs) ∧ ∀ z ∈ zs, z.stop * pageSize ≤ M
  | [], bs, bs', T, zs, h, _, hok => by
      obtain ⟨rfl, rfl⟩ := Prod.mk.inj (Except.ok.inj hok)
      exact ⟨T, h, zoneBytes_nil ▸ .none _, fun z hz => absurd hz List.not_mem_nil⟩
  | r :: R, bs, bs', T, zs, h, hR, hok => by
      rw [zonesFor] at hok
      obtain ⟨⟨bs₁, zs₁⟩, e₁, hok⟩ := bind_eq_ok.mp hok
      obtain ⟨⟨bs₂, zs₂⟩, e₂, hok⟩ := bind_eq_ok.mp hok
      obtain ⟨rfl, rfl⟩ := Prod.mk.inj (Except.ok.inj hok)
      obtain ⟨T₁, h₁, ht₁, hz₁⟩ := zoneFor_taken h hM (hR r List.mem_cons_self) e₁
      obtain ⟨T₂, h₂, ht₂, hz₂⟩ :=
        zonesFor_taken hM h₁ (fun r' hr' => hR r' (List.mem_cons_of_mem _ hr')) e₂
      refine ⟨T₂, h₂, (zoneBytes_append zs₁ zs₂).symm ▸ ht₁.trans ht₂, fun z hz => ?_⟩
      exact (List.mem_append.mp hz).elim (hz₁ z) (hz₂ z)

/-! ### Free pages -/

/-- With nothing live, the lists show all blocks. -/
theorem Settled.ready (h : Settled ⟨s, ∅⟩ K) : Ready s ∧ ∀ x ∈ allFree s, x.1 ≠ 0 := by
  have hfree : ∀ x ∈ allFree s, ∃ b, K b = .free ∧ headOf b = x := fun x hx => by
    rw [h.laid.allFree_eq] at hx
    exact hx
  refine ⟨⟨h.laid.zones, fun z hz o ho => ?_, fun x hx y hy hne => ?_, fun z hz p hp hf => ?_⟩,
    fun x hx => ?_⟩
  · obtain ⟨L, hr, hmem⟩ := h.laid.lists z hz o ho
    refine ⟨L, hr, fun a ha => ?_⟩
    obtain ⟨b, hb, rfl, hp, rfl⟩ := (hmem a).mp ha
    have hused := Laid.mem_used hb (by decide)
    exact ⟨b.start, rfl, (h.laid.contains hused hz hp (start_mem b)).blockIn, h.laid.marked b hb z hz hp⟩
  · obtain ⟨b, hb, rfl⟩ := hfree x hx
    obtain ⟨d, hd, rfl⟩ := hfree y hy
    exact headOf_apart h.laid.apart (Laid.mem_used hb (by decide)) (Laid.mem_used hd (by decide)) hne
  · have hpages := h.law.pages
    dsimp only at hpages
    rw [pagesOf_empty, Set.empty_union] at hpages
    rw [hpages]
    exact h.clean z hz p hp hf
  · obtain ⟨b, hb, rfl⟩ := hfree x hx
    exact h.start_ne (Laid.mem_used hb (by decide))

/-- The bytes of the pages that are handed over are free memory. -/
theorem Filled.mem_freeSet (h : Filled s₀ (bs.ranges (T .freeRanges)) s K)
    (hb : Booted c (2 ^ 63) bs T) {a : ℕ} (ha : a / pageSize ∈ pagesOf (allFree s)) :
    a ∈ freeSet bs T := by
  obtain ⟨⟨L, hs⟩, -⟩ := hb.trees
  obtain ⟨U, hU, hpages, -⟩ := (h.handedOver hb).blocks
  obtain rfl := hU.unique (hs.trees .freeRanges)
  rw [hpages] at ha
  obtain ⟨⟨r, hr, hbegin, hstop⟩, -⟩ := ha
  refine ⟨r, hr, ?_, ?_⟩
  · have := Nat.div_mul_le_self a pageSize
    omega
  · have := Nat.lt_div_mul_add (a := a) (b := pageSize) (by decide)
    rw [Nat.add_mul] at hstop
    omega

end FilesKernel.Buddy
