import FilesKernel.LinkedList.Model

/-! Lists in memory are rings, and the list operations edit them at a seam.

    `OnRing m h L` says that the list with head `h` has the members `L`. Each operation returns, and
    changes memory only at the head, at the members and at the entry it links or unlinks. -/

namespace FilesKernel.LinkedList
open CExec LinkRing

variable {κ : Type} [Zero κ] {m m' : Heads κ} {h : κ} {A B L : List κ}

structure OnRing (m : Heads κ) (h : κ) (L : List κ) : Prop where
  ring : Ring (fun a => (m a).next) (fun a => (m a).prev) h L
  nonnull : ∀ a ∈ h :: L, a ≠ 0

theorem OnRing.congr (hr : OnRing m h L) (hm : ∀ a ∈ h :: L, m' a = m a) : OnRing m' h L :=
  ⟨hr.ring.congr (fun a ha => by rw [hm a ha]) fun a ha => by rw [hm a ha], hr.nonnull⟩

theorem OnRing.before_ne (hr : OnRing m h (A ++ B)) : A.getLastD h ≠ 0 :=
  hr.nonnull _ ((List.cons_subset_cons h (List.subset_append_left A B)) (before_mem h A))

theorem OnRing.behind_ne (hr : OnRing m h (A ++ B)) : B.headD h ≠ 0 :=
  hr.nonnull _ ((List.cons_subset_cons h (List.subset_append_right A B)) (behind_mem h B))

variable [DecidableEq κ]

theorem load_eq {a : κ} (ha : a ≠ 0) : load m a = .ok (m a) := if_neg ha

theorem setNext_eq {a : κ} (ha : a ≠ 0) (v : κ) :
    setNext m a v = .ok (Function.update m a { m a with next := v }) := by
  rw [setNext, load_eq ha, ok_bind, store, if_neg ha]

theorem setPrev_eq {a : κ} (ha : a ≠ 0) (v : κ) :
    setPrev m a v = .ok (Function.update m a { m a with prev := v }) := by
  rw [setPrev, load_eq ha, ok_bind, store, if_neg ha]

/-- A list can be set up anywhere. -/
theorem listInit_spec (m : Heads κ) (hh : h ≠ 0) :
    ∃ m', listInit m h = .ok m' ∧ OnRing m' h [] ∧ ∀ b, b ≠ h → m' b = m b := by
  refine ⟨Function.update m h ⟨h, h⟩, if_neg hh, ⟨ring_nil.mpr ?_, by simpa using hh⟩, ?_⟩
  · rw [Function.update_self]; exact ⟨rfl, rfl⟩
  · intro b hb
    rw [Function.update_of_ne hb]

theorem listEmpty_spec (hr : OnRing m h L) : listEmpty m h = .ok (decide (L = [])) := by
  rw [listEmpty, load_eq (hr.nonnull h List.mem_cons_self), ok_bind]
  simp only [hr.ring.next_eq_head]

theorem listFirst_spec (hr : OnRing m h L) : listFirst m h = .ok (L.headD h) := by
  rw [listFirst, load_eq (hr.nonnull h List.mem_cons_self), ok_bind]
  exact congrArg Except.ok hr.ring.next_head

/-- Linking a new entry in between two neighbours. -/
theorem listInsert_spec {new : κ} (hr : OnRing m h (A ++ B)) (hnew : new ∉ h :: (A ++ B))
    (hne : new ≠ 0) : ∃ m', listInsert m new (A.getLastD h) (B.headD h) = .ok m' ∧
      OnRing m' h (A ++ new :: B) ∧ ∀ b, b ∉ h :: (A ++ B) → b ≠ new → m' b = m b := by
  have hx : A.getLastD h ∈ h :: (A ++ B) :=
    (List.cons_subset_cons h (List.subset_append_left A B)) (before_mem h A)
  have hy : B.headD h ∈ h :: (A ++ B) :=
    (List.cons_subset_cons h (List.subset_append_right A B)) (behind_mem h B)
  have hxn : A.getLastD h ≠ new := fun e => hnew (e ▸ hx)
  have hyn : B.headD h ≠ new := fun e => hnew (e ▸ hy)
  have hx0 := hr.before_ne
  have hy0 := hr.behind_ne
  generalize hX : A.getLastD h = x at hx hxn hx0
  generalize hY : B.headD h = y at hy hyn hy0
  simp only [listInsert, setPrev_eq hne, setNext_eq hne, setNext_eq hx0, setPrev_eq hy0, ok_bind]
  refine ⟨_, rfl, ⟨hr.ring.insert hnew ?_ ?_ ?_ ?_, ?_⟩, ?_⟩
  · intro c hcx hcn
    by_cases hcy : c = y <;> simp_all [Function.update_apply]
  · intro c hcy hcn
    by_cases hcx : c = x <;> simp_all [Function.update_apply]
  · rw [hX]
    constructor <;> by_cases hxy : x = y <;> simp_all [eq_comm]
  · rw [hY]
    constructor <;> by_cases hxy : x = y <;> simp_all [eq_comm]
  · intro a ha
    rcases List.mem_cons.mp ((List.perm_middle.cons h).mem_iff.mp ha) with rfl | ha
    · exact hr.nonnull a List.mem_cons_self
    · rcases List.mem_cons.mp ha with rfl | ha
      · exact hne
      · exact hr.nonnull a (List.mem_cons_of_mem h ha)
  · intro b hb hbn
    have hbx : b ≠ x := fun e => hb (e ▸ hx)
    have hby : b ≠ y := fun e => hb (e ▸ hy)
    simp [Function.update_apply, hbx, hby, hbn]

theorem listAdd_spec {new : κ} (hr : OnRing m h L) (hnew : new ∉ h :: L) (hne : new ≠ 0) :
    ∃ m', listAdd m new h = .ok m' ∧ OnRing m' h (new :: L) ∧
      ∀ b, b ∉ h :: L → b ≠ new → m' b = m b := by
  obtain ⟨m', e, h'⟩ := listInsert_spec (A := []) hr hnew hne
  refine ⟨m', ?_, h'⟩
  rw [listAdd, load_eq (hr.nonnull h List.mem_cons_self), ok_bind]
  exact hr.ring.next_head ▸ e

theorem listAddTail_spec {new : κ} (hr : OnRing m h L) (hnew : new ∉ h :: L) (hne : new ≠ 0) :
    ∃ m', listAddTail m new h = .ok m' ∧ OnRing m' h (L ++ [new]) ∧
      ∀ b, b ∉ h :: L → b ≠ new → m' b = m b := by
  have hp := hr.ring.prev_head
  rw [← List.append_nil L] at hr hnew
  obtain ⟨m', e, h', f⟩ := listInsert_spec hr hnew hne
  rw [List.append_nil] at f
  refine ⟨m', ?_, h', f⟩
  rw [listAddTail, load_eq (hr.nonnull h List.mem_cons_self), ok_bind]
  exact hp ▸ e

/-- Unlinking a member; its own links become null. -/
theorem listDel_spec {e : κ} (hr : OnRing m h (A ++ e :: B)) : ∃ m', listDel m e = .ok m' ∧
    OnRing m' h (A ++ B) ∧ ∀ b, b ∉ h :: (A ++ e :: B) → m' b = m b := by
  have hsub : h :: (A ++ B) ⊆ h :: (A ++ e :: B) := by
    refine List.cons_subset_cons h (List.append_subset.mpr ⟨by simp, fun b hb => ?_⟩)
    exact List.mem_append_right A (List.mem_cons_of_mem e hb)
  have hx : A.getLastD h ∈ h :: (A ++ B) :=
    (List.cons_subset_cons h (List.subset_append_left A B)) (before_mem h A)
  have hy : B.headD h ∈ h :: (A ++ B) :=
    (List.cons_subset_cons h (List.subset_append_right A B)) (behind_mem h B)
  have hnd : e ∉ h :: (A ++ B) := by
    have := hr.ring.nodup
    rw [← List.cons_append, List.nodup_middle] at this
    exact (List.nodup_cons.mp this).1
  have hxe : A.getLastD h ≠ e := fun h' => hnd (h' ▸ hx)
  have hye : B.headD h ≠ e := fun h' => hnd (h' ▸ hy)
  have hx0 := hr.nonnull _ (hsub hx)
  have hy0 := hr.nonnull _ (hsub hy)
  have he0 : e ≠ 0 := hr.nonnull e (by simp)
  obtain ⟨hprev, hnext⟩ := hr.ring.member
  generalize hX : A.getLastD h = x at hx hxe hx0 hprev
  generalize hY : B.headD h = y at hy hye hy0 hnext
  simp only [listDel, listUnlink, load_eq he0, ok_bind, hprev, hnext, setNext_eq hx0,
    setPrev_eq hy0, setNext_eq he0, setPrev_eq he0]
  refine ⟨_, rfl, ⟨hr.ring.remove ?_ ?_ ?_, fun a ha => hr.nonnull a (hsub ha)⟩, ?_⟩
  · intro c hcx hce
    by_cases hcy : c = y <;> simp_all [Function.update_apply]
  · intro c hcy hce
    by_cases hcx : c = x <;> simp_all [Function.update_apply]
  · rw [hX, hY]
    constructor <;> by_cases hxy : x = y <;> simp_all [eq_comm]
  · intro b hb
    have hbx : b ≠ x := fun e => hb (hsub (e ▸ hx))
    have hby : b ≠ y := fun e => hb (hsub (e ▸ hy))
    have hbe : b ≠ e := fun h' => hb (by simp [h'])
    simp [Function.update_apply, hbx, hby, hbe]

/-- A member of one list goes to the front of another. -/
theorem listMove_spec {e g : κ} {K : List κ} (hr : OnRing m h (A ++ e :: B)) (hk : OnRing m g K)
    (hdis : List.Disjoint (h :: (A ++ e :: B)) (g :: K)) : ∃ m₁ m₂, listDel m e = .ok m₁ ∧
      listAdd m₁ e g = .ok m₂ ∧ OnRing m₂ h (A ++ B) ∧ OnRing m₂ g (e :: K) ∧
      ∀ b, b ∉ h :: (A ++ e :: B) → b ∉ g :: K → m₂ b = m b := by
  have he : e ∈ h :: (A ++ e :: B) := by simp
  have hne : e ∉ h :: (A ++ B) := by
    have hnd := hr.ring.nodup
    rw [← List.cons_append, List.nodup_middle] at hnd
    exact (List.nodup_cons.mp hnd).1
  have hsub : h :: (A ++ B) ⊆ h :: (A ++ e :: B) := by
    refine List.cons_subset_cons h (List.append_subset.mpr ⟨by simp, fun b hb => ?_⟩)
    exact List.mem_append_right A (List.mem_cons_of_mem e hb)
  obtain ⟨m₁, e₁, hr₁, f₁⟩ := listDel_spec hr
  have hk₁ : OnRing m₁ g K := hk.congr fun a ha => f₁ a fun ha' => hdis ha' ha
  obtain ⟨m₂, e₂, hk₂, f₂⟩ := listAdd_spec hk₁ (fun hm => hdis he hm) (hr.nonnull e he)
  refine ⟨m₁, m₂, e₁, e₂, hr₁.congr fun a ha => ?_, hk₂, fun b hb hb' => ?_⟩
  · exact f₂ a (fun ha' => hdis (hsub ha) ha') fun hae => hne (hae ▸ ha)
  · rw [f₂ b hb' fun hbe => hb (hbe ▸ he), f₁ b hb]

/-- The members of one list go to the front of another; the first list becomes empty. -/
theorem listSplice_spec {g : κ} {K : List κ} (hr : OnRing m g L) (hk : OnRing m h K)
    (hdis : List.Disjoint (g :: L) (h :: K)) : ∃ m', listSplice m g h = .ok m' ∧
      OnRing m' h (L ++ K) ∧ OnRing m' g [] ∧
      ∀ b, b ∉ g :: L → b ∉ h :: K → m' b = m b := by
  have hg0 := hr.nonnull g List.mem_cons_self
  have hh0 := hk.nonnull h List.mem_cons_self
  rw [listSplice, listEmpty_spec hr, ok_bind]
  by_cases hL : L = []
  · subst hL
    exact ⟨m, rfl, hk, hr, fun _ _ _ => rfl⟩
  · have hxm : L.headD g ∈ L := by
      obtain ⟨x, T, rfl⟩ := List.exists_cons_of_ne_nil hL
      exact List.mem_cons_self
    have hym : L.getLastD g ∈ L := by
      obtain ⟨P, y, rfl⟩ := (List.eq_nil_or_concat L).resolve_left hL
      rw [List.concat_eq_append, List.getLastD_concat]; simp
    have hkm := behind_mem h K
    have hx0 := hr.nonnull _ (List.mem_cons_of_mem g hxm)
    have hy0 := hr.nonnull _ (List.mem_cons_of_mem g hym)
    have hk0 := hk.nonnull _ hkm
    have hgL := (List.nodup_cons.mp hr.ring.nodup).1
    have hxh : L.headD g ≠ h := fun e =>
      hdis (List.mem_cons_of_mem g hxm) (by rw [e]; exact List.mem_cons_self)
    have hyh : L.getLastD g ≠ h := fun e =>
      hdis (List.mem_cons_of_mem g hym) (by rw [e]; exact List.mem_cons_self)
    have hxk : L.headD g ≠ K.headD h := fun e => hdis (List.mem_cons_of_mem g hxm) (e ▸ hkm)
    have hyk : L.getLastD g ≠ K.headD h := fun e => hdis (List.mem_cons_of_mem g hym) (e ▸ hkm)
    have hgh : g ≠ h := fun e => hdis List.mem_cons_self (by rw [e]; exact List.mem_cons_self)
    have hgk : g ≠ K.headD h := fun e => hdis List.mem_cons_self (e ▸ hkm)
    have hxg : L.headD g ≠ g := fun e => hgL (e ▸ hxm)
    have hyg : L.getLastD g ≠ g := fun e => hgL (e ▸ hym)
    have hfirst := hr.ring.next_head
    have hlast := hr.ring.prev_head
    have hnext := hk.ring.next_head
    simp only [decide_eq_true_eq, if_neg hL, load_eq hh0, ok_bind, listSpliceBetween, load_eq hg0,
      hfirst, hlast, hnext]
    generalize hX : L.headD g = x at *
    generalize hY : L.getLastD g = y at *
    generalize hZ : K.headD h = z at *
    simp only [setPrev_eq hx0, setNext_eq hh0, setNext_eq hy0, setPrev_eq hk0, ok_bind]
    obtain ⟨m', e, hnil, hframe⟩ := listInit_spec (_ : Heads κ) hg0
    refine ⟨m', e, ?_, hnil, fun b hb hb' => ?_⟩
    · refine ⟨hr.ring.splice hL hk.ring hdis ?_ ?_ ?_ ?_, ?_⟩
      · intro c hcg hch hcy
        rw [hY] at hcy
        rw [hframe c hcg]
        simp only [Function.update_apply]
        grind
      · intro c hcg hcx hcz
        rw [hX] at hcx
        rw [hZ] at hcz
        rw [hframe c hcg]
        simp only [Function.update_apply]
        grind
      · rw [hX, Link, hframe h hgh.symm, hframe x hxg]
        simp only [Function.update_apply]
        constructor <;> grind
      · rw [hY, hZ, Link, hframe y hyg, hframe z hgk.symm]
        simp only [Function.update_apply]
        constructor <;> grind
      · intro a ha
        rcases List.mem_cons.mp ha with rfl | ha
        · exact hh0
        · rcases List.mem_append.mp ha with ha | ha
          · exact hr.nonnull a (List.mem_cons_of_mem g ha)
          · exact hk.nonnull a (List.mem_cons_of_mem h ha)
    · have hbg : b ≠ g := fun e => hb (by rw [e]; exact List.mem_cons_self)
      have hbx : b ≠ x := fun e => hb (e ▸ List.mem_cons_of_mem g hxm)
      have hby : b ≠ y := fun e => hb (e ▸ List.mem_cons_of_mem g hym)
      have hbh : b ≠ h := fun e => hb' (by rw [e]; exact List.mem_cons_self)
      have hbz : b ≠ z := fun e => hb' (e ▸ hkm)
      rw [hframe b hbg]
      simp [Function.update_apply, hbx, hby, hbh, hbz]

end FilesKernel.LinkedList
