import Mathlib.Data.List.Chain
import Mathlib.Data.List.Nodup
import Mathlib.Tactic.Common

/-! Rings: doubly linked lists that are closed at a head.

    The links are two functions on the objects. A ring through the head `h` and the members `L` is a
    chain of links from `h` through `L` and back to `h`. An edit is judged at a seam `A ++ B` of the
    members: the object before the seam is `A.getLastD h`, the object behind it `B.headD h`, and
    either may be the head. -/

namespace LinkRing

variable {κ : Type} {next prev next' prev' : κ → κ} {h : κ} {A B L : List κ}

/-- `b` comes after `a`. -/
def Link (next prev : κ → κ) (a b : κ) : Prop := next a = b ∧ prev b = a

structure Ring (next prev : κ → κ) (h : κ) (L : List κ) : Prop where
  chain : List.IsChain (Link next prev) (h :: L ++ [h])
  nodup : (h :: L).Nodup

/-- A chain reads `next` off all but its last object and `prev` off all but its first. -/
theorem chain_congr : ∀ {l : List κ}, List.IsChain (Link next prev) l →
    (∀ a ∈ l.dropLast, next' a = next a) → (∀ a ∈ l.tail, prev' a = prev a) →
    List.IsChain (Link next' prev') l
  | [], _, _, _ => .nil
  | [a], _, _, _ => .singleton a
  | a :: b :: l, hc, hn, hp => by
      rw [List.isChain_cons_cons] at hc ⊢
      obtain ⟨⟨hab, hba⟩, hc⟩ := hc
      refine ⟨⟨?_, ?_⟩, chain_congr hc (fun x hx => hn x ?_) fun x hx => hp x ?_⟩
      · rw [hn a (by simp), hab]
      · rw [hp b (by simp), hba]
      · rw [List.dropLast_cons_cons]; exact List.mem_cons_of_mem a hx
      · exact List.mem_cons_of_mem b hx

theorem Ring.congr (hr : Ring next prev h L) (hn : ∀ a ∈ h :: L, next' a = next a)
    (hp : ∀ a ∈ h :: L, prev' a = prev a) : Ring next' prev' h L := by
  refine ⟨chain_congr hr.chain (fun a ha => hn a ?_) fun a ha => hp a ?_, hr.nodup⟩
  · rwa [List.dropLast_concat] at ha
  · rw [List.cons_append, List.tail_cons, List.mem_append, List.mem_singleton] at ha
    rcases ha with ha | rfl
    · exact List.mem_cons_of_mem h ha
    · exact List.mem_cons_self

/-! ### The seam -/

theorem exists_before (h : κ) (A : List κ) : ∃ P, h :: A = P ++ [A.getLastD h] := by
  rcases List.eq_nil_or_concat A with rfl | ⟨A, x, rfl⟩
  · exact ⟨[], rfl⟩
  · exact ⟨h :: A, by simp⟩

theorem exists_behind (h : κ) (B : List κ) : ∃ Q, B ++ [h] = B.headD h :: Q := by
  cases B with
  | nil => exact ⟨[], rfl⟩
  | cons y B => exact ⟨B ++ [h], rfl⟩

theorem before_mem (h : κ) (A : List κ) : A.getLastD h ∈ h :: A := by
  obtain ⟨P, hP⟩ := exists_before h A
  rw [hP]; simp

theorem behind_mem (h : κ) (B : List κ) : B.headD h ∈ h :: B := by
  cases B with
  | nil => exact List.mem_cons_self
  | cons y B => simp

/-- A ring is a chain up to the seam, a chain behind it, and the link across. -/
theorem ring_seam : Ring next prev h (A ++ B) ↔ (h :: (A ++ B)).Nodup ∧
    List.IsChain (Link next prev) (h :: A) ∧ List.IsChain (Link next prev) (B ++ [h]) ∧
    Link next prev (A.getLastD h) (B.headD h) := by
  obtain ⟨P, hP⟩ := exists_before h A
  obtain ⟨Q, hQ⟩ := exists_behind h B
  have hl : h :: (A ++ B) ++ [h] = (h :: A) ++ (B ++ [h]) := by simp
  have key : List.IsChain (Link next prev) (h :: (A ++ B) ++ [h]) ↔
      List.IsChain (Link next prev) (h :: A) ∧ List.IsChain (Link next prev) (B ++ [h]) ∧
        Link next prev (A.getLastD h) (B.headD h) := by
    rw [hl, List.isChain_append, hP, hQ]
    simp
  constructor
  · rintro ⟨hc, hn⟩
    exact ⟨hn, key.mp hc⟩
  · rintro ⟨hn, hc⟩
    exact ⟨key.mpr hc, hn⟩

/-- The links across a seam. -/
theorem Ring.link (hr : Ring next prev h (A ++ B)) :
    Link next prev (A.getLastD h) (B.headD h) := (ring_seam.mp hr).2.2.2

theorem Ring.next_head (hr : Ring next prev h L) : next h = L.headD h :=
  (Ring.link (A := []) hr).1

theorem Ring.prev_head (hr : Ring next prev h L) : prev h = L.getLastD h := by
  rw [← List.append_nil L] at hr
  exact hr.link.2

/-- The links of a member. -/
theorem Ring.member {e : κ} (hr : Ring next prev h (A ++ e :: B)) :
    prev e = A.getLastD h ∧ next e = B.headD h := by
  refine ⟨hr.link.2, ?_⟩
  have hr' : Ring next prev h ((A ++ [e]) ++ B) := by rwa [List.append_assoc]
  have hl := hr'.link.1
  rwa [List.getLastD_concat] at hl

/-- No member points to itself. -/
theorem Ring.next_ne_self {e : κ} (hr : Ring next prev h L) (he : e ∈ L) : next e ≠ e := by
  obtain ⟨A, B, rfl⟩ := List.append_of_mem he
  have hnd := hr.nodup
  rw [← List.cons_append, List.nodup_middle, List.nodup_cons, List.mem_append, not_or] at hnd
  rw [hr.member.2]
  intro hself
  cases B with
  | nil => exact hnd.1.1 (hself ▸ List.mem_cons_self)
  | cons y B => exact hnd.1.2 (hself ▸ List.mem_cons_self)

/-- Chains that begin at the same object and end where they first come to `h` are the same. -/
theorem chain_unique : ∀ {L L' : List κ} {a : κ}, List.IsChain (Link next prev) (a :: (L ++ [h])) →
    List.IsChain (Link next prev) (a :: (L' ++ [h])) → h ∉ L → h ∉ L' → L = L'
  | [], [], _, _, _, _, _ => rfl
  | [], y :: L', _, hc, hc', _, hn' => by
      have hy : y = h := (List.isChain_cons_cons.mp hc').1.1.symm.trans
        (List.isChain_cons_cons.mp hc).1.1
      exact absurd (hy ▸ List.mem_cons_self) hn'
  | x :: L, [], _, hc, hc', hn, _ => by
      have hx : x = h := (List.isChain_cons_cons.mp hc).1.1.symm.trans
        (List.isChain_cons_cons.mp hc').1.1
      exact absurd (hx ▸ List.mem_cons_self) hn
  | x :: L, y :: L', _, hc, hc', hn, hn' => by
      obtain ⟨hx, hc⟩ := List.isChain_cons_cons.mp hc
      obtain ⟨hy, hc'⟩ := List.isChain_cons_cons.mp hc'
      obtain rfl : x = y := hx.1.symm.trans hy.1
      rw [List.mem_cons, not_or] at hn hn'
      rw [chain_unique hc hc' hn.2 hn'.2]

/-- A head has one ring. -/
theorem Ring.unique {L' : List κ} (hr : Ring next prev h L) (hr' : Ring next prev h L') : L = L' :=
  chain_unique hr.chain hr'.chain (List.nodup_cons.mp hr.nodup).1 (List.nodup_cons.mp hr'.nodup).1

/-- A ring is empty when its head points to itself. -/
theorem Ring.next_eq_head (hr : Ring next prev h L) : next h = h ↔ L = [] := by
  rw [hr.next_head]
  cases L with
  | nil => simp
  | cons a L =>
    have hne : a ≠ h := fun e => (List.nodup_cons.mp hr.nodup).1 (by rw [e]; exact .head L)
    simp [hne]

theorem ring_nil : Ring next prev h [] ↔ next h = h ∧ prev h = h := by
  rw [← List.nil_append ([] : List κ), ring_seam]
  simp [Link]

/-- Both sides of a seam seen from the objects next to it. -/
theorem nodup_seam {P Q : List κ} (hn : (h :: (A ++ B)).Nodup) (hP : h :: A = P ++ [A.getLastD h])
    (hQ : B ++ [h] = B.headD h :: Q) : A.getLastD h ∉ P ∧ A.getLastD h ∉ B ∧
      B.headD h ∉ A ∧ B.headD h ∉ Q := by
  have hA : (h :: A).Nodup := hn.sublist (by simp)
  have hB : (B ++ [h]).Nodup := (List.perm_append_singleton h B).nodup_iff.mpr (hn.sublist (by simp))
  have hAB : List.Disjoint A B := List.disjoint_of_nodup_append (List.nodup_cons.mp hn).2
  have hh : h ∉ A ∧ h ∉ B := by simpa [not_or] using (List.nodup_cons.mp hn).1
  rw [hP] at hA
  rw [hQ] at hB
  refine ⟨fun hx => ?_, fun hx => ?_, fun hy => ?_, (List.nodup_cons.mp hB).1⟩
  · exact List.disjoint_of_nodup_append hA hx List.mem_cons_self
  · rcases List.mem_cons.mp (before_mem h A) with e | hxA
    · exact hh.2 (e ▸ hx)
    · exact hAB hxA hx
  · rcases List.mem_cons.mp (behind_mem h B) with e | hyB
    · exact hh.1 (e ▸ hy)
    · exact hAB hy hyB

/-! ### Edits -/

/-- Linking a new object in at a seam. -/
theorem Ring.insert {new : κ} (hr : Ring next prev h (A ++ B)) (hnew : new ∉ h :: (A ++ B))
    (hn : ∀ c, c ≠ A.getLastD h → c ≠ new → next' c = next c)
    (hp : ∀ c, c ≠ B.headD h → c ≠ new → prev' c = prev c)
    (hl : Link next' prev' (A.getLastD h) new) (hl' : Link next' prev' new (B.headD h)) :
    Ring next' prev' h (A ++ new :: B) := by
  obtain ⟨hnd, hA, hB, -⟩ := ring_seam.mp hr
  obtain ⟨P, hP⟩ := exists_before h A
  obtain ⟨Q, hQ⟩ := exists_behind h B
  obtain ⟨hxP, hxB, hyA, hyQ⟩ := nodup_seam hnd hP hQ
  simp only [List.mem_cons, List.mem_append, not_or] at hnew
  have hmemP : ∀ a ∈ P, a ∈ h :: A := fun a ha => hP ▸ List.mem_append_left _ ha
  have hmemQ : ∀ a ∈ Q, a ∈ B ++ [h] := fun a ha => hQ ▸ List.mem_cons_of_mem _ ha
  have hne : ∀ a ∈ h :: A, a ≠ new := fun a ha e => by
    rcases List.mem_cons.mp (e ▸ ha) with e | ha
    · exact hnew.1 e
    · exact hnew.2.1 ha
  have hne' : ∀ a ∈ B ++ [h], a ≠ new := fun a ha e => by
    rcases List.mem_append.mp (e ▸ ha) with ha | ha
    · exact hnew.2.2 ha
    · exact hnew.1 (List.mem_singleton.mp ha)
  refine ring_seam.mpr ⟨?_, ?_, ?_, hl⟩
  · rw [← List.cons_append] at hnd ⊢
    exact List.nodup_middle.mpr (List.nodup_cons.mpr ⟨by simp [hnew], hnd⟩)
  · refine chain_congr hA (fun a ha => ?_) fun a ha => ?_
    · rw [hP, List.dropLast_concat] at ha
      exact hn a (fun e => hxP (e ▸ ha)) (hne a (hmemP a ha))
    · rw [List.tail_cons] at ha
      exact hp a (fun e => hyA (e ▸ ha)) (hne a (List.mem_cons_of_mem h ha))
  · have hBQ : List.IsChain (Link next' prev') (B ++ [h]) := by
      refine chain_congr hB (fun a ha => ?_) fun a ha => ?_
      · rw [List.dropLast_concat] at ha
        exact hn a (fun e => hxB (e ▸ ha)) (hne' a (List.mem_append_left _ ha))
      · rw [hQ, List.tail_cons] at ha
        exact hp a (fun e => hyQ (e ▸ ha)) (hne' a (hmemQ a ha))
    rw [List.cons_append, hQ, List.isChain_cons_cons, ← hQ]
    exact ⟨hl', hBQ⟩

/-- Linking the neighbours of a member to each other. -/
theorem Ring.remove {e : κ} (hr : Ring next prev h (A ++ e :: B))
    (hn : ∀ c, c ≠ A.getLastD h → c ≠ e → next' c = next c)
    (hp : ∀ c, c ≠ B.headD h → c ≠ e → prev' c = prev c)
    (hl : Link next' prev' (A.getLastD h) (B.headD h)) : Ring next' prev' h (A ++ B) := by
  obtain ⟨hnd, hA, hB, -⟩ := ring_seam.mp hr
  obtain ⟨P, hP⟩ := exists_before h A
  obtain ⟨Q, hQ⟩ := exists_behind h B
  have hnd' : (e :: (h :: (A ++ B))).Nodup := by
    rw [← List.cons_append, List.nodup_middle] at hnd
    exact hnd
  obtain ⟨hxP, hxB, hyA, hyQ⟩ := nodup_seam (List.nodup_cons.mp hnd').2 hP hQ
  have he := (List.nodup_cons.mp hnd').1
  simp only [List.mem_cons, List.mem_append, not_or] at he
  refine ring_seam.mpr ⟨(List.nodup_cons.mp hnd').2, ?_, ?_, hl⟩
  · refine chain_congr hA (fun a ha => ?_) fun a ha => ?_
    · rw [hP, List.dropLast_concat] at ha
      have haA : a ∈ h :: A := hP ▸ List.mem_append_left _ ha
      refine hn a (fun e => hxP (e ▸ ha)) fun e => ?_
      rcases List.mem_cons.mp (e ▸ haA) with e | ha
      · exact he.1 e
      · exact he.2.1 ha
    · rw [List.tail_cons] at ha
      exact hp a (fun e => hyA (e ▸ ha)) fun e => he.2.1 (e ▸ ha)
  · rw [List.cons_append, hQ, List.isChain_cons_cons, ← hQ] at hB
    refine chain_congr hB.2 (fun a ha => ?_) fun a ha => ?_
    · rw [List.dropLast_concat] at ha
      exact hn a (fun e => hxB (e ▸ ha)) fun e => he.2.2 (e ▸ ha)
    · rw [hQ, List.tail_cons] at ha
      have haB : a ∈ B ++ [h] := hQ ▸ List.mem_cons_of_mem _ ha
      refine hp a (fun e => hyQ (e ▸ ha)) fun e => ?_
      rcases List.mem_append.mp (e ▸ haB) with ha | ha
      · exact he.2.2 ha
      · exact he.1 (List.mem_singleton.mp ha)

/-- Taking over the members of another ring, in front of the own ones. -/
theorem Ring.splice {g : κ} {K : List κ} (hr : Ring next prev g L) (hL : L ≠ [])
    (hk : Ring next prev h K) (hdis : List.Disjoint (g :: L) (h :: K))
    (hn : ∀ c, c ≠ g → c ≠ h → c ≠ L.getLastD g → next' c = next c)
    (hp : ∀ c, c ≠ g → c ≠ L.headD g → c ≠ K.headD h → prev' c = prev c)
    (hl : Link next' prev' h (L.headD g)) (hl' : Link next' prev' (L.getLastD g) (K.headD h)) :
    Ring next' prev' h (L ++ K) := by
  obtain ⟨hgL, hLn⟩ := List.nodup_cons.mp hr.nodup
  obtain ⟨hhK, hKn⟩ := List.nodup_cons.mp hk.nodup
  have hL' : List.Disjoint L (h :: K) := fun a ha => hdis (List.mem_cons_of_mem g ha)
  have hnd : (h :: (L ++ K)).Nodup := by
    refine List.nodup_cons.mpr ⟨fun hm => ?_, hLn.append hKn fun a ha hb =>
      hL' ha (List.mem_cons_of_mem h hb)⟩
    rcases List.mem_append.mp hm with hm | hm
    · exact hL' hm List.mem_cons_self
    · exact hhK hm
  have hgK : ∀ a ∈ h :: K, a ≠ g := fun a ha e => hdis (e ▸ List.mem_cons_self) ha
  have hfirst := behind_mem h K
  obtain ⟨x, T, hx⟩ := List.exists_cons_of_ne_nil hL
  obtain ⟨P, y, hy⟩ := (List.eq_nil_or_concat L).resolve_left hL
  rw [List.concat_eq_append] at hy
  have hfst : L.headD g = x := by rw [hx, List.headD_cons]
  have hlst : ∀ k, L.getLastD k = y := fun k => by rw [hy, List.getLastD_concat]
  have hyL : y ∈ L := by rw [hy]; simp
  have hxL : x ∈ L := by rw [hx]; exact List.mem_cons_self
  rw [hfst] at hl hp
  rw [hlst] at hl' hn
  refine ring_seam.mpr ⟨hnd, ?_, ?_, by rwa [hlst]⟩
  · have hc : List.IsChain (Link next prev) L := by
      have := (List.isChain_append.mp hr.chain).1
      rw [hx, List.isChain_cons_cons] at this
      rw [hx]; exact this.2
    rw [hx, List.isChain_cons_cons, ← hx]
    refine ⟨hl, chain_congr hc (fun a ha => ?_) fun a ha => ?_⟩
    · have hmem := List.dropLast_subset _ ha
      refine hn a (fun e => hgL (e ▸ hmem)) (fun e => hL' hmem (e ▸ List.mem_cons_self)) fun e => ?_
      rw [hy, List.dropLast_concat] at ha
      rw [hy] at hLn
      exact List.disjoint_of_nodup_append hLn (e ▸ ha) List.mem_cons_self
    · have hmem := List.mem_of_mem_tail ha
      rw [hx, List.tail_cons] at ha
      rw [hx] at hLn
      refine hp a (fun e => hgL (e ▸ hmem)) (fun e => (List.nodup_cons.mp hLn).1 (e ▸ ha)) fun e => ?_
      exact hL' hmem (e ▸ hfirst)
  · have hk' : Ring next prev h ([] ++ K) := hk
    have hc := (ring_seam.mp hk').2.2.1
    obtain ⟨Q, hQ⟩ := exists_behind h K
    have hnd' : (K ++ [h]).Nodup := (List.perm_append_singleton h K).nodup_iff.mpr hk.nodup
    refine chain_congr hc (fun a ha => ?_) fun a ha => ?_
    · rw [List.dropLast_concat] at ha
      have hmem : a ∈ h :: K := List.mem_cons_of_mem h ha
      exact hn a (hgK a hmem) (fun e => hhK (e ▸ ha)) fun e => hL' hyL (e ▸ hmem)
    · rw [hQ, List.tail_cons] at ha
      have hmem : a ∈ h :: K := by
        have : a ∈ K ++ [h] := hQ ▸ List.mem_cons_of_mem _ ha
        simpa [or_comm] using this
      rw [hQ] at hnd'
      refine hp a (hgK a hmem) (fun e => hL' hxL (e ▸ hmem)) fun e => ?_
      exact (List.nodup_cons.mp hnd').1 (e ▸ ha)

end LinkRing
