import FilesKernel.LinkedList.Rings
import Mathlib.Data.Fintype.Card
import Mathlib.Data.ZMod.Defs

/-! Lists in memory and sequences.

    Memory holds any number of lists that have nothing in common. An operation on it is the operation
    on the sequences of their members, and leaves the other lists as they are. -/

namespace FilesKernel.LinkedList
open CExec CWord LinkRing

variable {κ : Type} [DecidableEq κ] [Zero κ] {m : Heads κ} {H : Set κ} {seq : κ → List κ}

/-- The list with head `h` has the members `seq h`, and no two lists share an object. -/
structure Shape (m : Heads κ) (H : Set κ) (seq : κ → List κ) : Prop where
  ring : ∀ h ∈ H, OnRing m h (seq h)
  apart : ∀ h ∈ H, ∀ g ∈ H, h ≠ g → List.Disjoint (h :: seq h) (g :: seq g)

inductive ListOp (κ : Type) where
  | add (new head : κ)
  | addTail (new head : κ)
  | del (entry : κ)
  | splice (list head : κ)

namespace ListOp

def exec (m : Heads κ) : ListOp κ → Exec (Heads κ)
  | .add new head => listAdd m new head
  | .addTail new head => listAddTail m new head
  | .del entry => listDel m entry
  | .splice list head => listSplice m list head

/-- A new entry is on no list, one that is removed is on some list, and one list is spliced into
    another. -/
def Legal (H : Set κ) (seq : κ → List κ) : ListOp κ → Prop
  | .add new head => head ∈ H ∧ new ≠ 0 ∧ ∀ h ∈ H, new ∉ h :: seq h
  | .addTail new head => head ∈ H ∧ new ≠ 0 ∧ ∀ h ∈ H, new ∉ h :: seq h
  | .del entry => ∃ h ∈ H, entry ∈ seq h
  | .splice list head => list ∈ H ∧ head ∈ H ∧ list ≠ head

/-- The operation on the sequences -/
def apply (seq : κ → List κ) : ListOp κ → κ → List κ
  | .add new head => Function.update seq head (new :: seq head)
  | .addTail new head => Function.update seq head (seq head ++ [new])
  | .del entry => fun h => (seq h).erase entry
  | .splice list head =>
    Function.update (Function.update seq head (seq list ++ seq head)) list []

end ListOp

/-! ### One list changes -/

omit [DecidableEq κ] in
theorem Shape.not_mem (hs : Shape m H seq) {h g a : κ} (hh : h ∈ H) (hg : g ∈ H) (hne : g ≠ h)
    (ha : a ∈ g :: seq g) : a ∉ h :: seq h := fun ha' => hs.apart g hg h hh hne ha ha'

/-- The list with head `h` becomes `L`, whose new members come from no other list. -/
theorem Shape.update {m' : Heads κ} {h : κ} {L : List κ} (hs : Shape m H seq) (hh : h ∈ H)
    (hr : OnRing m' h L) (hnew : ∀ a ∈ L, a ∈ h :: seq h ∨ ∀ g ∈ H, a ∉ g :: seq g)
    (hframe : ∀ g ∈ H, g ≠ h → ∀ a ∈ g :: seq g, m' a = m a) :
    Shape m' H (Function.update seq h L) := by
  have hdis : ∀ g ∈ H, g ≠ h → List.Disjoint (h :: L) (g :: seq g) := fun g hg hne a ha ha' => by
    rcases List.mem_cons.mp ha with rfl | ha
    · exact hs.not_mem hh hg hne ha' List.mem_cons_self
    · rcases hnew a ha with ha | ha
      · exact hs.not_mem hh hg hne ha' ha
      · exact ha g hg ha'
  refine ⟨fun g hg => ?_, fun g hg g' hg' hne => ?_⟩
  · by_cases hgh : g = h
    · subst hgh
      rwa [Function.update_self]
    · rw [Function.update_of_ne hgh]
      exact (hs.ring g hg).congr (hframe g hg hgh)
  · by_cases hgh : g = h
    · subst hgh
      rw [Function.update_self, Function.update_of_ne hne.symm]
      exact hdis g' hg' hne.symm
    · by_cases hgh' : g' = h
      · subst hgh'
        rw [Function.update_self, Function.update_of_ne hgh]
        exact (hdis g hg hgh).symm
      · rw [Function.update_of_ne hgh, Function.update_of_ne hgh']
        exact hs.apart g hg g' hg' hne

/-- An entry that is on no list goes on one. -/
theorem Shape.link {m' : Heads κ} {h new : κ} {L : List κ} (hs : Shape m H seq) (hh : h ∈ H)
    (hnew : ∀ g ∈ H, new ∉ g :: seq g) (hr : OnRing m' h L) (hL : ∀ a ∈ L, a ∈ seq h ∨ a = new)
    (hframe : ∀ b, b ∉ h :: seq h → b ≠ new → m' b = m b) :
    Shape m' H (Function.update seq h L) := by
  refine hs.update hh hr (fun a ha => ?_) fun g hg hne a ha => ?_
  · rcases hL a ha with ha | rfl
    · exact Or.inl (List.mem_cons_of_mem h ha)
    · exact Or.inr hnew
  · exact hframe a (hs.not_mem hh hg hne ha) fun e => hnew g hg (e ▸ ha)

/-- An entry is on one list only. -/
theorem Shape.erase_eq (hs : Shape m H seq) {h entry : κ} (hh : h ∈ H) (he : entry ∈ seq h) {g : κ}
    (hg : g ∈ H) : (seq g).erase entry = Function.update seq h ((seq h).erase entry) g := by
  by_cases hgh : g = h
  · rw [hgh, Function.update_self]
  · rw [Function.update_of_ne hgh]
    refine List.erase_of_not_mem fun he' => ?_
    exact hs.not_mem hh hg hgh (List.mem_cons_of_mem g he') (List.mem_cons_of_mem h he)

omit [DecidableEq κ] in
theorem Shape.congr {seq' : κ → List κ} (hs : Shape m H seq) (he : ∀ h ∈ H, seq' h = seq h) :
    Shape m H seq' :=
  ⟨fun h hh => he h hh ▸ hs.ring h hh, fun h hh g hg hne => by
    rw [he h hh, he g hg]
    exact hs.apart h hh g hg hne⟩

/-! ### The operations -/

theorem Shape.splice (hs : Shape m H seq) {list head : κ} (hl : list ∈ H) (hh : head ∈ H)
    (hne : list ≠ head) : ∃ m', listSplice m list head = .ok m' ∧
      Shape m' H ((ListOp.splice list head).apply seq) := by
  obtain ⟨m', e, hr, hempty, hframe⟩ := listSplice_spec (hs.ring list hl) (hs.ring head hh)
    (hs.apart list hl head hh hne)
  refine ⟨m', e, ?_⟩
  rw [ListOp.apply]
  have hseq : ∀ g, g ≠ list → g ≠ head →
      Function.update (Function.update seq head (seq list ++ seq head)) list [] g = seq g :=
    fun g hgl hgh => by rw [Function.update_of_ne hgl, Function.update_of_ne hgh]
  have hhead : Function.update (Function.update seq head (seq list ++ seq head)) list [] head =
      seq list ++ seq head := by rw [Function.update_of_ne hne.symm, Function.update_self]
  have hlist : Function.update (Function.update seq head (seq list ++ seq head)) list [] list = [] :=
    Function.update_self ..
  have hother : ∀ g ∈ H, g ≠ list → g ≠ head → ∀ a ∈ g :: seq g,
      a ∉ list :: seq list ∧ a ∉ head :: seq head := fun g hg hgl hgh a ha =>
    ⟨hs.not_mem hl hg hgl ha, hs.not_mem hh hg hgh ha⟩
  -- what is on a list now was on that list, or was on `list` and is on `head`
  have hfrom : ∀ g ∈ H, ∀ a ∈ g :: Function.update (Function.update seq head
      (seq list ++ seq head)) list [] g, a ∈ g :: seq g ∨ g = head ∧ a ∈ seq list := by
    intro g hg a ha
    by_cases hgl : g = list
    · rw [hgl, hlist] at ha
      rw [hgl]
      exact Or.inl (List.mem_singleton.mp ha ▸ List.mem_cons_self)
    by_cases hgh : g = head
    · rw [hgh, hhead] at ha
      rw [hgh]
      rcases List.mem_cons.mp ha with rfl | ha
      · exact Or.inl List.mem_cons_self
      · rcases List.mem_append.mp ha with ha | ha
        · exact Or.inr ⟨rfl, ha⟩
        · exact Or.inl (List.mem_cons_of_mem head ha)
    rw [hseq g hgl hgh] at ha
    exact Or.inl ha
  refine ⟨fun g hg => ?_, fun g hg g' hg' hgg a ha ha' => ?_⟩
  · by_cases hgl : g = list
    · rw [hgl, hlist]
      exact hempty
    by_cases hgh : g = head
    · rw [hgh, hhead]
      exact hr
    rw [hseq g hgl hgh]
    exact (hs.ring g hg).congr fun a ha => hframe a (hother g hg hgl hgh a ha).1
      (hother g hg hgl hgh a ha).2
  · rcases hfrom g hg a ha with h | ⟨rfl, h⟩
    · rcases hfrom g' hg' a ha' with h' | ⟨rfl, h'⟩
      · exact hs.apart g hg g' hg' hgg h h'
      · by_cases hgl : g = list
        · rw [hgl, hlist, List.mem_singleton] at ha
          exact (List.nodup_cons.mp (hs.ring list hl).ring.nodup).1 (ha ▸ h')
        · exact (hother g hg hgl hgg a h).1 (List.mem_cons_of_mem list h')
    · rcases hfrom g' hg' a ha' with h' | ⟨rfl, h'⟩
      · by_cases hgl : g' = list
        · rw [hgl, hlist, List.mem_singleton] at ha'
          exact (List.nodup_cons.mp (hs.ring list hl).ring.nodup).1 (ha' ▸ h)
        · exact (hother g' hg' hgl (Ne.symm hgg) a h').1 (List.mem_cons_of_mem list h)
      · exact hgg rfl

/-- Each operation returns, and does to the sequences what it says. -/
theorem Shape.op (hs : Shape m H seq) {op : ListOp κ} (hop : op.Legal H seq) :
    ∃ m', op.exec m = .ok m' ∧ Shape m' H (op.apply seq) := by
  cases op with
  | add new head =>
    obtain ⟨hh, hne, hnew⟩ := hop
    obtain ⟨m', e, hr, hframe⟩ := listAdd_spec (hs.ring head hh) (hnew head hh) hne
    refine ⟨m', e, hs.link hh hnew hr (fun a ha => ?_) hframe⟩
    exact (List.mem_cons.mp ha).symm
  | addTail new head =>
    obtain ⟨hh, hne, hnew⟩ := hop
    obtain ⟨m', e, hr, hframe⟩ := listAddTail_spec (hs.ring head hh) (hnew head hh) hne
    refine ⟨m', e, hs.link hh hnew hr (fun a ha => ?_) hframe⟩
    rwa [List.mem_append, List.mem_singleton] at ha
  | del entry =>
    obtain ⟨h, hh, he⟩ := hop
    obtain ⟨A, B, hAB⟩ := List.append_of_mem he
    have hring := hs.ring h hh
    rw [hAB] at hring
    obtain ⟨m', e, hr, hframe⟩ := listDel_spec hring
    have herase : (seq h).erase entry = A ++ B := by
      have hnd := hring.ring.nodup
      rw [← List.cons_append, List.nodup_middle, List.nodup_cons, List.mem_append, not_or] at hnd
      rw [hAB, List.erase_append_right _ fun ha => hnd.1.1 (List.mem_cons_of_mem h ha),
        List.erase_cons_head]
    refine ⟨m', e, Shape.congr (hs.update hh hr (fun a ha => ?_) fun g hg hne a ha => ?_)
      fun g hg => ?_⟩
    · refine Or.inl (List.mem_cons_of_mem h ?_)
      rw [← herase] at ha
      exact List.mem_of_mem_erase ha
    · exact hframe a (hAB ▸ hs.not_mem hh hg hne ha)
    · rw [← herase]
      exact hs.erase_eq hh he hg
  | splice list head =>
    obtain ⟨hl, hh, hne⟩ := hop
    exact hs.splice hl hh hne

/-! ### The size -/

/-- The loop of `list_size` counts the members that are to come. -/
theorem listSizeLoop_eq {h : κ} : ∀ (B A : List κ) (fuel : ℕ), OnRing m h (A ++ B) →
    B.length < fuel → (A ++ B).length < 2 ^ 64 →
    loop (listSizeBody m h) fuel (B.headD h, A.length) = .ok (A ++ B).length
  | _, _, 0, _, hfuel, _ => absurd hfuel (Nat.not_lt_zero _)
  | [], A, fuel + 1, _, _, _ => by
      rw [loop, List.headD_nil, listSizeBody, if_pos rfl, ok_bind, List.append_nil]
  | y :: B, A, fuel + 1, hr, hfuel, hlt => by
      have hy : y ≠ h := by
        rintro rfl
        exact (List.nodup_cons.mp hr.ring.nodup).1 (by simp)
      have hload := load_eq (m := m) (hr.nonnull y (by simp))
      have happ : A ++ y :: B = (A ++ [y]) ++ B := by simp
      have hlen : A.length + 1 = (A ++ [y]).length := by simp
      have hle : (A ++ [y]).length ≤ (A ++ y :: B).length := by simp
      rw [loop, List.headD_cons, listSizeBody, if_neg hy, hload, ok_bind, ok_bind]
      dsimp only
      rw [hr.ring.member.2, hlen, wrap_of_lt (hle.trans_lt hlt), happ]
      rw [happ] at hr hlt
      exact listSizeLoop_eq B (A ++ [y]) fuel hr (Nat.lt_of_succ_lt_succ hfuel) hlt

theorem listSize_spec {h : κ} {L : List κ} (hr : OnRing m h L) (hlt : L.length < 2 ^ 64) :
    listSize m h = .ok L.length := by
  have hfuel : L.length < maxSteps := by
    unfold maxSteps
    exact hlt
  rw [listSize, load_eq (hr.nonnull h List.mem_cons_self), ok_bind, hr.ring.next_head]
  exact listSizeLoop_eq L [] maxSteps hr hfuel hlt

omit [DecidableEq κ] in
/-- There are no more objects than pointers. -/
theorem OnRing.length_lt [Fintype κ] (hcard : Fintype.card κ ≤ 2 ^ 64) {h : κ} {L : List κ}
    (hr : OnRing m h L) : L.length < 2 ^ 64 := by
  have hnd := hr.ring.nodup
  have hle := List.Nodup.length_le_card hnd
  rw [List.length_cons] at hle
  omega

/-- The lists in memory are sequences, for every operation; pointers have 64 bits. -/
theorem lists_refine_sequences [Fintype κ] (hcard : Fintype.card κ ≤ 2 ^ 64) (hs : Shape m H seq) :
    (∀ op : ListOp κ, op.Legal H seq → ∃ m', op.exec m = .ok m' ∧ Shape m' H (op.apply seq)) ∧
      ∀ h ∈ H, listSize m h = .ok (seq h).length :=
  ⟨fun _ hop => hs.op hop, fun h hh => listSize_spec (hs.ring h hh) ((hs.ring h hh).length_lt hcard)⟩

/-- An empty list with the head `1`, and one with the head `2` and the member `3` -/
def twoLists : Heads (Fin 5) := fun a =>
  if a = 1 then ⟨1, 1⟩ else if a = 2 then ⟨3, 3⟩ else if a = 3 then ⟨2, 2⟩ else ⟨0, 0⟩

def twoSequences : Fin 5 → List (Fin 5) := fun h => if h = 2 then [3] else []

theorem twoLists_shape : Shape twoLists {1, 2} twoSequences := by
  refine ⟨fun h hh => ?_, fun h hh g hg hne => ?_⟩
  · rcases hh with rfl | rfl
    · exact ⟨ring_nil.mpr ⟨rfl, rfl⟩, by decide⟩
    · exact ⟨⟨by simp [Link, twoLists, twoSequences], by decide⟩, by decide⟩
  · rcases hh with rfl | rfl <;> rcases hg with rfl | rfl
    · exact absurd rfl hne
    · simp [twoSequences]
    · simp [twoSequences]
    · exact absurd rfl hne

theorem twoLists_refine : (∀ op : ListOp (Fin 5), op.Legal {1, 2} twoSequences →
    ∃ m', op.exec twoLists = .ok m' ∧ Shape m' {1, 2} (op.apply twoSequences)) ∧
      ∀ h ∈ ({1, 2} : Set (Fin 5)), listSize twoLists h = .ok (twoSequences h).length :=
  lists_refine_sequences (by decide) twoLists_shape

end FilesKernel.LinkedList
