import Mathlib.Data.List.Sort
import Mathlib.Data.List.Nodup
import Mathlib.Logic.Function.Basic

/-!
# Families of linked priority queues

A family of disjoint queues over elements that own a single link cell: an
element is in at most one queue of the family, and its link cell says in
which one. Every queue is kept sorted by a key read at insertion time, and
its *top* is its last element, so the element leaving first is the one of
greatest key that was inserted earliest.

`LinkedQueues` bundles the family with its coherence: the queues and the link
cells cannot disagree and no element is linked twice. The three operations
`add`, `remove` and `reset` keep it by construction.
-/

set_option linter.unusedSectionVars false

namespace Lib

/-- Insertion before the first element whose key is not smaller. -/
abbrev insertByKey {P K : Type*} [LinearOrder K] (key : P → K) (p : P) (l : List P) : List P :=
  l.orderedInsert (fun a b => key a ≤ key b) p

theorem map_insertByKey_nodup {P K L : Type*} [LinearOrder K] {key : P → K} {g : P → L} {p : P}
    {l : List P} (hp : g p ∉ l.map g) (hl : (l.map g).Nodup) :
    ((insertByKey key p l).map g).Nodup := by
  refine (((List.perm_orderedInsert _ p l).map g).nodup_iff).mpr ?_
  exact List.nodup_cons.mpr ⟨hp, hl⟩

theorem insertByKey_congr {P K : Type*} [LinearOrder K] {key key' : P → K} {p : P} {l : List P}
    (hp : key' p = key p) (hl : ∀ x ∈ l, key' x = key x) :
    insertByKey key' p l = insertByKey key p l := by
  induction l with
  | nil => rfl
  | cons x l ih =>
    rw [insertByKey, insertByKey, List.orderedInsert_cons, List.orderedInsert_cons, hp,
      hl x (by simp)]
    exact congrArg (fun l' => if key p ≤ key x then p :: x :: l else x :: l')
      (ih fun y hy => hl y (List.mem_cons_of_mem _ hy))

/-- A newcomer goes before the first element whose key is not smaller. -/
theorem insertByKey_place {P K : Type*} [LinearOrder K] {key : P → K} {p : P} {l l' : List P}
    (h : ∀ x ∈ l, key x < key p) (h' : ∀ x ∈ l'.head?, key p ≤ key x) :
    insertByKey key p (l ++ l') = l ++ p :: l' := by
  induction l with
  | nil =>
    cases l' with
    | nil => rfl
    | cons x l' =>
      rw [List.nil_append, insertByKey, List.orderedInsert_cons, if_pos (h' x rfl), List.nil_append]
  | cons x l ih =>
    rw [List.cons_append, insertByKey, List.orderedInsert_cons,
      if_neg (not_le.mpr (h x (by simp)))]
    exact congrArg (x :: ·) (ih fun y hy => h y (List.mem_cons_of_mem _ hy))

/-- A newcomer goes between the elements of smaller key and the others. -/
theorem insertByKey_append {P K : Type*} [LinearOrder K] {key : P → K} {p : P} {l l' : List P}
    (h : ∀ x ∈ l, key x < key p) (h' : ∀ x ∈ l', key p ≤ key x) :
    insertByKey key p (l ++ l') = l ++ p :: l' :=
  insertByKey_place h fun x hx => h' x (List.mem_of_mem_head? hx)

/-- An element of least key goes first. -/
theorem insertByKey_of_le {P K : Type*} [LinearOrder K] {key : P → K} {p : P} {l : List P}
    (h : ∀ x ∈ l, key p ≤ key x) : insertByKey key p l = p :: l :=
  insertByKey_append (List.forall_mem_nil _) h

/-- An element of greatest key goes last. -/
theorem insertByKey_of_lt {P K : Type*} [LinearOrder K] {key : P → K} {p : P} {l : List P}
    (h : ∀ x ∈ l, key x < key p) : insertByKey key p l = l ++ [p] := by
  rw [← insertByKey_append h (List.forall_mem_nil _), List.append_nil]

/-- Behind an element whose key is not smaller, the last one stays. -/
theorem getLast?_insertByKey {P K : Type*} [LinearOrder K] {key : P → K} {p x : P} {l : List P}
    (hx : x ∈ l) (hk : key p ≤ key x) : (insertByKey key p l).getLast? = l.getLast? := by
  induction l with
  | nil => cases hx
  | cons y l ih =>
    rw [insertByKey, List.orderedInsert_cons]
    split
    · rfl
    · next hlt =>
      rcases List.mem_cons.mp hx with rfl | hx
      · exact absurd hk hlt
      · obtain ⟨z, l', hl⟩ := List.exists_cons_of_ne_nil (List.ne_nil_of_mem hx)
        have hne : insertByKey key p l ≠ [] := by
          refine List.ne_nil_of_mem (a := p) ?_
          exact (List.mem_orderedInsert _).mpr (.inl rfl)
        rw [List.getLast?_cons_of_ne_nil hne, ih hx, hl, List.getLast?_cons_cons]

/-- Queues `elems h`, one for each head `h`, over elements whose link cell
`link` names the queue that holds them. -/
structure LinkedQueues (H P : Type*) where
  elems  : H → List P
  link   : P → Option H
  mem_iff : ∀ p h, p ∈ elems h ↔ link p = some h
  nodup  : ∀ h, (elems h).Nodup

namespace LinkedQueues

variable {H P K : Type*} [DecidableEq H] [DecidableEq P] [LinearOrder K]

/-- No element linked anywhere. -/
def empty : LinkedQueues H P where
  elems _ := []
  link _ := none
  mem_iff := by simp
  nodup _ := List.nodup_nil

/-- Link an unlinked element into the queue of `h`. A linked one is left
where it is. -/
def add (q : LinkedQueues H P) (h : H) (p : P) (key : P → K) : LinkedQueues H P :=
  if hp : q.link p = none then
    { elems := Function.update q.elems h (insertByKey key p (q.elems h))
      link := Function.update q.link p (some h)
      mem_iff := by
        intro x g
        by_cases hg : g = h
        · subst hg
          by_cases hx : x = p <;> simp [hx, q.mem_iff]
        · by_cases hx : x = p
          · subst hx
            simp [hg, q.mem_iff, hp, Ne.symm hg]
          · simp [hg, hx, q.mem_iff]
      nodup := by
        intro g
        by_cases hg : g = h
        · subst hg
          have hnot : p ∉ q.elems g := by simp [q.mem_iff, hp]
          simpa using ((List.perm_orderedInsert _ p (q.elems g)).nodup_iff).mpr
            (List.nodup_cons.mpr ⟨hnot, q.nodup g⟩)
        · simpa [hg] using q.nodup g }
  else q

/-- Unlink an element from the queue that holds it, if any. -/
def remove (q : LinkedQueues H P) (p : P) : LinkedQueues H P where
  elems h := (q.elems h).erase p
  link := Function.update q.link p none
  mem_iff := by
    intro x h
    by_cases hx : x = p
    · subst hx
      simp [(q.nodup h).mem_erase_iff]
    · simp [hx, (q.nodup h).mem_erase_iff, q.mem_iff]
  nodup h := (q.nodup h).erase p

/-- Empty the queue of `h`. -/
def reset (q : LinkedQueues H P) (h : H) : LinkedQueues H P where
  elems := Function.update q.elems h []
  link x := if q.link x = some h then none else q.link x
  mem_iff := by
    intro x g
    by_cases hg : g = h
    · subst hg
      by_cases hx : q.link x = some g <;> simp [hx]
    · by_cases hx : q.link x = some h
      · simp [hg, hx, q.mem_iff, Ne.symm hg]
      · simp [hg, hx, q.mem_iff]
  nodup g := by
    by_cases hg : g = h
    · simp [hg]
    · simpa [hg] using q.nodup g

/-- The element that leaves first. -/
def top (q : LinkedQueues H P) (h : H) : Option P := (q.elems h).getLast?

-- ---------------------------------------------------------------------------
-- What each operation does to the queues and to the link cells
-- ---------------------------------------------------------------------------

variable {q : LinkedQueues H P} {h g : H} {p x : P} {key : P → K}

theorem link_of_mem (hp : p ∈ q.elems h) : q.link p = some h := (q.mem_iff p h).mp hp

theorem notMem_of_link_none (hp : q.link p = none) : p ∉ q.elems h := by
  simp [q.mem_iff, hp]

theorem mem_of_top (hp : q.top h = some p) : p ∈ q.elems h := List.mem_of_getLast? hp

theorem link_of_top (hp : q.top h = some p) : q.link p = some h := link_of_mem (mem_of_top hp)

@[simp] theorem link_empty : (empty : LinkedQueues H P).link p = none := rfl

@[simp] theorem elems_empty : (empty : LinkedQueues H P).elems h = [] := rfl

theorem link_add (hp : q.link p = none) :
    (q.add h p key).link x = if x = p then some h else q.link x := by
  simp [add, hp, Function.update_apply]

theorem elems_add (hp : q.link p = none) :
    (q.add h p key).elems g =
      if g = h then insertByKey key p (q.elems h) else q.elems g := by
  simp only [add, hp, dite_true, Function.update_apply]

theorem mem_add (hp : q.link p = none) :
    x ∈ (q.add h p key).elems g ↔ (x = p ∧ g = h) ∨ x ∈ q.elems g := by
  rw [mem_iff, link_add hp, mem_iff]
  by_cases hx : x = p
  · subst hx
    simp [hp, eq_comm]
  · simp [hx]

@[simp] theorem link_remove :
    (q.remove p).link x = if x = p then none else q.link x := by
  simp [remove, Function.update_apply]

theorem elems_remove : (q.remove p).elems h = (q.elems h).erase p := rfl

theorem mem_remove : x ∈ (q.remove p).elems h ↔ x ≠ p ∧ x ∈ q.elems h :=
  (q.nodup h).mem_erase_iff

/-- Removing an element leaves every queue that does not hold it alone. -/
theorem elems_remove_of_ne (hp : q.link p ≠ some h) : (q.remove p).elems h = q.elems h := by
  rw [elems_remove, List.erase_of_not_mem]
  simpa [q.mem_iff] using hp

/-- Removing the top of a queue drops its last element. -/
theorem elems_remove_top (hp : q.top h = some p) :
    (q.elems h) = (q.remove p).elems h ++ [p] := by
  obtain ⟨l, hl⟩ := List.getLast?_eq_some_iff.mp hp
  have hnd := q.nodup h
  rw [elems_remove]
  rw [hl] at hnd ⊢
  have hnot : p ∉ l := by
    intro hm
    exact (List.nodup_append.mp hnd).2.2 p hm p (by simp) rfl
  rw [List.erase_append_right _ hnot]
  simp

theorem link_reset : (q.reset h).link x = if q.link x = some h then none else q.link x := rfl

theorem elems_reset : (q.reset h).elems g = if g = h then [] else q.elems g := by
  simp [reset, Function.update_apply]

-- ---------------------------------------------------------------------------
-- Sortedness
-- ---------------------------------------------------------------------------

/-- The queue of `h` is sorted by the current keys of its elements. -/
def Sorted (q : LinkedQueues H P) (h : H) (key : P → K) : Prop :=
  (q.elems h).Pairwise fun a b => key a ≤ key b

omit [DecidableEq H] [DecidableEq P] in
theorem Sorted.congr {key' : P → K} (hs : q.Sorted h key)
    (hk : ∀ p ∈ q.elems h, key' p = key p) : q.Sorted h key' := by
  refine List.Pairwise.imp_of_mem ?_ hs
  intro a b ha hb hab
  rwa [hk a ha, hk b hb]

theorem Sorted.add (hs : q.Sorted h key) : (q.add h p key).Sorted h key := by
  by_cases hp : q.link p = none
  · have : Std.Total (fun a b : P => key a ≤ key b) := ⟨fun a b => le_total _ _⟩
    have : IsTrans P (fun a b => key a ≤ key b) := ⟨fun a b c => le_trans⟩
    unfold Sorted
    rw [elems_add hp, if_pos rfl]
    exact List.Pairwise.orderedInsert (r := fun a b => key a ≤ key b) p _ hs
  · rwa [LinkedQueues.add, dif_neg hp]

theorem Sorted.add_of_ne (hs : q.Sorted h key) {key' : P → K} (hg : g ≠ h) :
    (q.add g p key').Sorted h key := by
  by_cases hp : q.link p = none
  · unfold Sorted
    rw [elems_add hp, if_neg hg.symm]
    exact hs
  · rwa [LinkedQueues.add, dif_neg hp]

theorem Sorted.remove (hs : q.Sorted h key) : (q.remove p).Sorted h key :=
  List.Pairwise.sublist List.erase_sublist hs

/-- Once an element is out, its key may change. -/
theorem Sorted.remove_congr {key' : P → K} (hs : q.Sorted h key)
    (hk : ∀ x, x ≠ p → key' x = key x) : (q.remove p).Sorted h key' := by
  refine hs.remove.congr ?_
  intro x hx
  exact hk x (mem_remove.mp hx).1

/-- In a sorted queue no key exceeds that of the top. -/
theorem Sorted.le_top (hs : q.Sorted h key) (ht : q.top h = some p) (hx : x ∈ q.elems h) :
    key x ≤ key p := by
  obtain ⟨l, hl⟩ := List.getLast?_eq_some_iff.mp ht
  unfold Sorted at hs
  rw [hl] at hs hx
  rcases List.mem_append.mp hx with hm | hm
  · exact (List.pairwise_append.mp hs).2.2 x hm p (by simp)
  · rw [List.mem_singleton.mp hm]

end LinkedQueues

/-! ## Seniority

A queue sorted by key whose elements also have a date, that of their arrival
among the elements of their key. `insertByKey` puts a newcomer before those of
its key, so of two elements of one key the younger comes first. -/

section Seniority

variable {P K D : Type*} [LinearOrder K] [LinearOrder D]

/-- `b` leaves before `a`: it has a greater key, or the same key and an earlier date. -/
def Outranks (key : P → K) (date : P → D) (b a : P) : Prop :=
  key a < key b ∨ key a = key b ∧ date b < date a

/-- Every element outranks those before it. -/
def Ranked (key : P → K) (date : P → D) (l : List P) : Prop :=
  l.Pairwise fun a b => Outranks key date b a

variable {key key' : P → K} {date date' : P → D} {l l' : List P} {p x : P}

theorem Ranked.sublist (h : Ranked key date l) (hl : l'.Sublist l) : Ranked key date l' :=
  List.Pairwise.sublist hl h

theorem Ranked.congr (h : Ranked key date l)
    (hk : ∀ x ∈ l, key' x = key x ∧ date' x = date x) : Ranked key' date' l := by
  refine List.Pairwise.imp_of_mem ?_ h
  intro a b ha hb hab
  unfold Outranks
  rw [(hk a ha).1, (hk b hb).1, (hk a ha).2, (hk b hb).2]
  exact hab

/-- A newcomer takes its place. -/
theorem Ranked.insertByKey (h : Ranked key date l) (hd : ∀ x ∈ l, date x < date p) :
    Ranked key date (Lib.insertByKey key p l) := by
  induction l with
  | nil => exact List.pairwise_singleton _ _
  | cons y l ih =>
    obtain ⟨hy, hl⟩ := List.pairwise_cons.mp h
    rw [Lib.insertByKey, List.orderedInsert_cons]
    split
    · next hle =>
      refine List.pairwise_cons.mpr ⟨?_, h⟩
      -- the newcomer is before the elements of its key, which are older
      have hdevant : ∀ x ∈ y :: l, key p ≤ key x := by
        intro x hx
        rcases List.mem_cons.mp hx with rfl | hx
        · exact hle
        · rcases hy x hx with hlt | ⟨heq, -⟩
          · exact (hle.trans_lt hlt).le
          · exact hle.trans_eq heq
      intro x hx
      rcases (hdevant x hx).lt_or_eq with hlt | heq
      · exact .inl hlt
      · exact .inr ⟨heq, hd x hx⟩
    · next hlt =>
      refine List.pairwise_cons.mpr ⟨?_, ih hl fun x hx => hd x (List.mem_cons_of_mem _ hx)⟩
      intro x hx
      rcases (List.mem_orderedInsert _).mp hx with rfl | hx
      · exact .inl (not_le.mp hlt)
      · exact hy x hx

/-- The last element outranks the others. -/
theorem Ranked.last (h : Ranked key date l) (hp : l.getLast? = some p) (hx : x ∈ l) (hne : x ≠ p) :
    Outranks key date p x := by
  obtain ⟨l', hl⟩ := List.getLast?_eq_some_iff.mp hp
  rw [hl] at h hx
  rcases List.mem_append.mp hx with hm | hm
  · exact (List.pairwise_append.mp h).2.2 x hm p (by simp)
  · exact absurd (List.mem_singleton.mp hm) hne

theorem Ranked.sorted (h : Ranked key date l) : l.Pairwise fun a b => key a ≤ key b := by
  refine List.Pairwise.imp ?_ h
  rintro a b (hlt | ⟨heq, -⟩)
  · exact hlt.le
  · exact heq.le

end Seniority

end Lib
