import FilesKernel.Kmap.Ranges
import Mathlib.Data.Set.Insert

/-! Runs of allocations and releases of ranges.

    From `kmap_setup` on, callers allocate ranges and free live ones. Every call returns and leaves
    the window tiled by the live ranges and the free ones. -/

namespace FilesKernel.Kmap
open CExec LinkedList LinkRing Tiling

inductive KmapOp where
  | alloc (pages : ℕ)
  | free (range : ℕ)

/-- A range is freed with the length that its descriptor records. -/
def KmapOp.step (s : KmapState) : KmapOp → Exec (KmapState × Option ℕ)
  | .alloc pages => kmapAllocRange s pages
  | .free range => do
    let pages ← s.getPages range
    let s ← kmapFreeRange s range pages
    .ok (s, none)

/-- The ranges, as start and length, that the callers hold after an operation. -/
def KmapOp.after (live : Set (ℕ × ℕ)) : KmapOp → Option ℕ → Set (ℕ × ℕ)
  | .alloc pages, some range => insert (range, pages) live
  | .alloc _, none => live
  | .free range, _ => {r ∈ live | r.1 ≠ range}

/-- Callers ask for at least one page and free what they hold. -/
def KmapOp.Legal (live : Set (ℕ × ℕ)) : KmapOp → Prop
  | .alloc pages => 1 ≤ pages
  | .free range => ∃ pages, (range, pages) ∈ live

/-- The window is tiled by the live ranges and the free ones `l`, and memory says so. -/
structure WellLaid (s : KmapState) (live : Set (ℕ × ℕ)) (l : List Range) : Prop where
  tiles : Tiles 0 l kmapPages
  kinds : ∀ x ∈ l, x.kind = .live ∨ x.kind = .free
  callers : ∀ start len, (start, len) ∈ live ↔ ⟨start, len, .live⟩ ∈ l
  tags : ∀ x ∈ l, s.pages x.start = x.len ∧ s.pages (x.stop - 1) = x.len
  apart : l.IsChain NoFreePair
  lists : ∀ o < kmapOrders, ∃ L, OnRing s.lists (.head o) L ∧
    ∀ a, a ∈ L ↔ ∃ x ∈ l, x.kind = .free ∧ min 15 (Nat.log 2 x.len) = o ∧ a = .range x.start
  empty : ∀ x ∈ l, listEmpty s.lists (.range x.start) = .ok (decide (x.kind = .live))
  whole : live = ∅ → l = [⟨0, kmapPages, .free⟩]

/-- As long as the calls are legal, each returns and leaves the window well laid. -/
def RunsLaid : KmapState → Set (ℕ × ℕ) → List KmapOp → Prop
  | _, _, [] => True
  | s, live, op :: ops => op.Legal live → ∃ s' r l, op.step s = .ok (s', r) ∧
      WellLaid s' (op.after live r) l ∧ RunsLaid s' (op.after live r) ops

variable {s : KmapState} {l : List Range} {live : Set (ℕ × ℕ)}

/-- Without live ranges there is one free range. -/
theorem Settled.whole (ht : Tiles 0 l kmapPages) (hl : Settled l) (hno : ∀ z ∈ l, z.kind ≠ .live) :
    l = [⟨0, kmapPages, .free⟩] := by
  have hfree : ∀ z ∈ l, z.kind = .free := fun z hz => by
    have h₁ := hl.kinds z hz
    have h₂ := hno z hz
    cases hk : z.kind
    · exact absurd hk h₂
    · rfl
    · exact absurd hk h₁
  match l, ht, hl, hfree with
  | [], ht, _, _ => cases ht
  | [⟨start, len, kind⟩], ht, _, hfree =>
    obtain ⟨rfl, -, hstop⟩ := ht
    obtain rfl : kind = .free := hfree _ List.mem_cons_self
    obtain rfl : len = kmapPages := by rwa [Tiles, Tile.stop, Nat.zero_add] at hstop
    rfl
  | x :: y :: l, _, hl, hfree =>
    exact absurd ⟨hfree x (by simp), hfree y (by simp)⟩ (List.isChain_cons_cons.mp hl.apart).1

/-- What the callers hold, read off the tiling. -/
def Callers (live : Set (ℕ × ℕ)) (l : List Range) : Prop :=
  ∀ start len, (start, len) ∈ live ↔ ⟨start, len, .live⟩ ∈ l

theorem Laid.wellLaid (h : Laid s l) (hl : Settled l) (hc : Callers live l) : WellLaid s live l := by
  obtain ⟨R, h⟩ := h
  refine ⟨h.tiles, fun x hx => ?_, hc, fun x hx => h.tags x hx (hl.kinds x hx), hl.apart,
    fun o ho => ⟨R o, h.rings o ho, h.free o ho⟩, fun x hx => h.listEmpty hx (hl.kinds x hx),
    fun he => hl.whole h.tiles fun z hz hk => ?_⟩
  · have hk := hl.kinds x hx
    cases hkind : x.kind
    · exact Or.inl rfl
    · exact Or.inr rfl
    · exact absurd hkind hk
  · have hmem : (z.start, z.len) ∈ live := (hc _ _).mpr (by rw [← hk]; exact hz)
    rw [he] at hmem
    exact hmem

/-! ### Steps -/

/-- One legal call. -/
theorem KmapOp.step_spec (h : Laid s l) (hl : Settled l) (hc : Callers live l) {op : KmapOp}
    (hop : op.Legal live) : ∃ s' r l', op.step s = .ok (s', r) ∧ Laid s' l' ∧ Settled l' ∧
      Callers (op.after live r) l' := by
  cases op with
  | alloc pages =>
    rcases kmapAllocRange_spec h hl hop with ⟨e, -⟩ | ⟨s', i, l', e, h', hl', hlive, hfresh, -⟩
    · exact ⟨s, none, l, e, h, hl, hc⟩
    · refine ⟨s', some i, l', e, h', hl', fun start len => ?_⟩
      rw [hlive _ rfl, KmapOp.after, Set.mem_insert_iff, hc, Prod.mk.injEq, Tile.mk.injEq]
      simp only [and_true]
  | free range =>
    obtain ⟨pages, hp⟩ := hop
    have hx := (hc range pages).mp hp
    obtain ⟨R, hR⟩ := id h
    have hget := hR.getPages hx (by intro e; cases e)
    obtain ⟨A, B, rfl⟩ := List.append_of_mem hx
    obtain ⟨hA, hB⟩ := hl.middle
    have hheld := h.hold (x := ⟨range, pages, .live⟩) (by intro e; cases e)
    obtain ⟨s', l', e, h', hl', hlive⟩ := kmapFreeRange_spec hheld rfl hA hB
    refine ⟨s', none, l', ?_, h', hl', fun start len => ?_⟩
    · rw [KmapOp.step, hget, ok_bind]
      simp only [as_start, as_len] at e
      rw [e, ok_bind]
    · rw [hlive _ rfl, KmapOp.after, Set.mem_ofPred_eq, hc]
      constructor
      · rintro ⟨hmem, hne⟩
        simp only [List.mem_append, List.mem_cons, Tile.mk.injEq] at hmem ⊢
        tauto
      · intro hmem
        refine ⟨by simp only [List.mem_append, List.mem_cons] at hmem ⊢; tauto, fun heq => ?_⟩
        have hstart : start = range := heq
        have hpos := (hR.mem hx).1
        have hmem' : (⟨start, len, .live⟩ : Range) ∈ A ++ ⟨range, pages, .live⟩ :: B := by
          simp only [List.mem_append, List.mem_cons] at hmem ⊢; tauto
        have hlen := (hR.mem hmem').1
        rcases List.mem_append.mp hmem with hm | hm
        · have := hR.tiles.before _ hm
          simp only [Tile.stop] at this hlen
          omega
        · have := hR.tiles.behind _ hm
          simp only [Tile.stop] at this hpos
          omega

theorem runsLaid_of_laid : ∀ (ops : List KmapOp) {s : KmapState} {l : List Range}
    {live : Set (ℕ × ℕ)}, Laid s l → Settled l → Callers live l → RunsLaid s live ops
  | [], _, _, _, _, _, _ => trivial
  | op :: ops, _, _, _, h, hl, hc => fun hop => by
      obtain ⟨s', r, l', e, h', hl', hc'⟩ := KmapOp.step_spec h hl hc hop
      exact ⟨s', r, l', e, h'.wellLaid hl' hc', runsLaid_of_laid ops h' hl' hc'⟩

/-! ### Setup -/

/-- The loop of `kmap_setup` makes the list heads it visits empty rings. -/
theorem kmapSetupHeads_spec : ∀ {n : ℕ} (m : Heads Ref), n ≤ kmapOrders →
    ∃ m', kmapSetupHeads n m = .ok m' ∧
      (∀ o, kmapOrders - n ≤ o → o < kmapOrders → OnRing m' (.head o) []) ∧
      ∀ o, o < kmapOrders - n → m' (.head o) = m (.head o)
  | 0, m, _ => ⟨m, rfl, fun o h₁ h₂ => by omega, fun _ _ => rfl⟩
  | n + 1, m, hn => by
      have hne : (Ref.head (kmapOrders - (n + 1))) ≠ 0 := by intro e; cases e
      obtain ⟨m₁, e₁, hring, hsame₁⟩ := listInit_spec m hne
      obtain ⟨m', e, hrings, hsame⟩ := kmapSetupHeads_spec m₁ (n := n) (by omega)
      refine ⟨m', ?_, fun o h₁ h₂ => ?_, fun o ho => ?_⟩
      · rw [kmapSetupHeads, e₁, ok_bind, e]
      · rcases Nat.eq_or_lt_of_le h₁ with rfl | h₁
        · refine hring.congr fun a ha => ?_
          rw [List.mem_singleton.mp ha]
          exact hsame _ (by omega)
        · exact hrings o (by omega) h₂
      · rw [hsame o (by omega), hsame₁]
        intro e
        have := Ref.head.inj e
        omega

/-- `kmap_setup` leaves one free range, whatever memory held before. -/
theorem kmapSetupRanges_spec (s : KmapState) : ∃ s' l, kmapSetupRanges s = .ok s' ∧ Laid s' l ∧
    Settled l ∧ Callers ∅ l := by
  obtain ⟨m, e, hrings, -⟩ := kmapSetupHeads_spec s.lists (n := kmapOrders) (Nat.le_refl _)
  have hx : Laid { s with lists := m } ([] ++ ⟨0, kmapPages, .held⟩ :: []) := by
    refine ⟨fun _ => [], ⟨rfl, by decide, by rw [Tile.stop, Nat.zero_add]; rfl⟩, fun z hz hk => ?_,
      fun o ho => hrings o (by omega) ho, fun o _ a => ?_, fun z hz hk => ?_⟩
    · rw [List.mem_singleton.mp hz] at hk
      exact absurd rfl hk
    · constructor
      · intro ha; cases ha
      · rintro ⟨z, hz, hk, -⟩
        rw [List.mem_singleton.mp hz] at hk
        cases hk
    · rw [List.mem_singleton.mp hz] at hk
      cases hk
  have hnil : Settled [] := ⟨fun _ hz => (by cases hz), List.IsChain.nil⟩
  obtain ⟨s', l, e', h', hl, hlive⟩ := kmapFreeRange_spec hx rfl hnil hnil
  refine ⟨s', l, ?_, h', hl, fun start len => ?_⟩
  · rw [kmapSetupRanges, e, ok_bind, e']
  · rw [hlive _ rfl]
    simp only [Set.mem_empty_iff_false, List.append_nil, List.not_mem_nil]

/-- Every run from `kmap_setup` keeps the window tiled, with tags, lists and list heads that say
    how. -/
theorem runsLaid_of_setup (s : KmapState) (ops : List KmapOp) :
    ∃ s' l, kmapSetupRanges s = .ok s' ∧ WellLaid s' ∅ l ∧ RunsLaid s' ∅ ops := by
  obtain ⟨s', l, e, h, hl, hc⟩ := kmapSetupRanges_spec s
  exact ⟨s', l, e, h.wellLaid hl hc, runsLaid_of_laid ops h hl hc⟩

end FilesKernel.Kmap
