import GenesisOS.Lib.LinkedQueues
import Mathlib.Data.List.Chain

/-!
# Circular doubly linked lists

`Links A` is a memory of link cells named by `A`. A list with a sentinel `h` is a
ring: `next` leads from `h` through the cells of the list and back to `h`, and
`prev` is its inverse. `insertBefore` and `unlink` are the two changes.

`Holds` says that a memory represents a family of linked queues, each one a ring
around its own sentinel, with the cells of the unlinked elements null. The two
changes then are `LinkedQueues.add` and `LinkedQueues.remove`, and touch no cell
of the other rings.
-/

set_option linter.unusedSectionVars false

namespace Lib

/-- A memory of link cells. -/
structure Links (A : Type*) where
  prev : A → A
  next : A → A

namespace Links

section Ring

variable {A : Type*} {m m' : Links A} {null h c x y p : A} {a b l l₁ l₂ : List A}

/-- The cell `y` follows the cell `x`. -/
def Joined (m : Links A) (x y : A) : Prop := m.next x = y ∧ m.prev y = x

/-- The ring of the sentinel `h` and the cells `l`. -/
def Ring (m : Links A) (h : A) (l : List A) : Prop := (h :: (l ++ [h])).IsChain m.Joined

/-- A chain reads `next` of all its cells but the last one, and `prev` of all but
the first one. -/
theorem chain_congr (hl : l.IsChain m.Joined) (hn : ∀ x ∈ l.dropLast, m'.next x = m.next x)
    (hp : ∀ x ∈ l.tail, m'.prev x = m.prev x) : l.IsChain m'.Joined := by
  induction l with
  | nil => exact .nil
  | cons x l ih =>
    cases l with
    | nil => exact .singleton x
    | cons y l =>
      obtain ⟨⟨hxy, hyx⟩, hl⟩ := List.isChain_cons_cons.mp hl
      rw [List.dropLast_cons_cons] at hn
      rw [List.tail_cons] at hp
      refine List.isChain_cons_cons.mpr ⟨⟨?_, ?_⟩, ih hl ?_ ?_⟩
      · exact (hn x List.mem_cons_self).trans hxy
      · exact (hp y List.mem_cons_self).trans hyx
      · exact fun z hz => hn z (List.mem_cons_of_mem _ hz)
      · exact fun z hz => hp z (List.mem_cons_of_mem _ hz)

/-- A ring only depends on its own cells. -/
theorem Ring.congr (hl : m.Ring h l) (hn : ∀ x ∈ h :: l, m'.next x = m.next x)
    (hp : ∀ x ∈ h :: l, m'.prev x = m.prev x) : m'.Ring h l := by
  have hmem : ∀ x ∈ h :: (l ++ [h]), x ∈ h :: l := by
    intro x hx
    simp only [List.mem_cons, List.mem_append, List.not_mem_nil, or_false] at hx ⊢
    tauto
  refine chain_congr hl (fun x hx => hn x (hmem x ?_)) (fun x hx => hp x (hmem x ?_))
  · exact (List.dropLast_sublist _).subset hx
  · exact List.mem_of_mem_tail hx

/-- The two cells around a place of the ring: `p` before it and `c` after it. -/
theorem Ring.split (hl : m.Ring h (l₁ ++ l₂)) (ha : h :: l₁ = a ++ [p])
    (hb : l₂ ++ [h] = c :: b) :
    (h :: l₁).IsChain m.Joined ∧ m.Joined p c ∧ (l₂ ++ [h]).IsChain m.Joined := by
  unfold Ring at hl
  rw [List.append_assoc, ← List.cons_append, ha, hb, List.append_assoc] at hl
  rw [ha, hb]
  exact List.isChain_append_cons_cons.mp hl

/-- A place of the ring has a cell before it and a cell after it. -/
theorem exists_around (h : A) (l₁ l₂ : List A) :
    (∃ a p, h :: l₁ = a ++ [p]) ∧ ∃ c b, l₂ ++ [h] = c :: b := by
  refine ⟨⟨(h :: l₁).dropLast, (h :: l₁).getLast (by simp), ?_⟩, ?_⟩
  · exact (List.dropLast_append_getLast _).symm
  · exact List.exists_cons_of_ne_nil (by simp)

theorem ring_nil : m.Ring h [] ↔ m.next h = h ∧ m.prev h = h := by
  unfold Ring
  rw [List.nil_append, List.isChain_cons_cons]
  exact and_iff_left (.singleton h)

/-- The two arcs around a place only depend on their own cells: `next` of `p`,
`prev` of `c` and the links of a foreign cell may change. -/
theorem arcs_congr (h₁ : (h :: l₁).IsChain m.Joined) (h₂ : (l₂ ++ [h]).IsChain m.Joined)
    (hnd : (h :: (l₁ ++ l₂)).Nodup) (hx : x ∉ h :: (l₁ ++ l₂)) (ha : h :: l₁ = a ++ [p])
    (hb : l₂ ++ [h] = c :: b) (hn : ∀ y, y ≠ p → y ≠ x → m'.next y = m.next y)
    (hp : ∀ y, y ≠ c → y ≠ x → m'.prev y = m.prev y) :
    (h :: l₁).IsChain m'.Joined ∧ (l₂ ++ [h]).IsChain m'.Joined := by
  obtain ⟨hh, hnd⟩ := List.nodup_cons.mp hnd
  obtain ⟨hnd₁, hnd₂, hdis⟩ := List.nodup_append.mp hnd
  simp only [List.mem_cons, List.mem_append, not_or] at hx hh
  obtain ⟨hxh, hx₁, hx₂⟩ := hx
  have hpmem : p ∈ h :: l₁ := ha ▸ List.mem_append_right _ (List.mem_singleton_self p)
  have hcmem : c ∈ l₂ ++ [h] := hb ▸ List.mem_cons_self
  constructor
  · have hnd' : (h :: l₁).Nodup := List.nodup_cons.mpr ⟨hh.1, hnd₁⟩
    refine chain_congr h₁ (fun y hy => hn y ?_ ?_) (fun y hy => hp y ?_ ?_)
    · rintro rfl
      rw [ha] at hnd'
      rw [ha, List.dropLast_concat] at hy
      exact (List.nodup_append.mp hnd').2.2 y hy y (List.mem_singleton_self y) rfl
    · rintro rfl
      exact (List.mem_cons.mp ((List.dropLast_sublist _).subset hy)).elim hxh hx₁
    · rintro rfl
      have hy : y ∈ l₁ := hy
      rcases List.mem_append.mp hcmem with hc | hc
      · exact hdis y hy y hc rfl
      · exact hh.1 (List.mem_singleton.mp hc ▸ hy)
    · rintro rfl
      exact hx₁ hy
  · have hnd' : (l₂ ++ [h]).Nodup := by
      refine List.nodup_append.mpr ⟨hnd₂, List.nodup_singleton h, fun u hu v hv huv => ?_⟩
      rw [huv, List.mem_singleton.mp hv] at hu
      exact hh.2 hu
    refine chain_congr h₂ (fun y hy => hn y ?_ ?_) (fun y hy => hp y ?_ ?_)
    · rintro rfl
      rw [List.dropLast_concat] at hy
      rcases List.mem_cons.mp hpmem with hp | hp
      · exact hh.2 (hp ▸ hy)
      · exact hdis y hp y hy rfl
    · rintro rfl
      rw [List.dropLast_concat] at hy
      exact hx₂ hy
    · rintro rfl
      rw [hb] at hnd'
      rw [hb, List.tail_cons] at hy
      exact (List.nodup_cons.mp hnd').1 hy
    · rintro rfl
      rcases List.mem_append.mp (List.mem_of_mem_tail hy) with hy | hy
      · exact hx₂ hy
      · exact hxh (List.mem_singleton.mp hy)

/-- The neighbours of a cell of the ring. -/
theorem Ring.around (hl : m.Ring h (l₁ ++ x :: l₂)) (ha : h :: l₁ = a ++ [p])
    (hb : l₂ ++ [h] = c :: b) :
    m.Joined p x ∧ m.Joined x c ∧ (h :: l₁).IsChain m.Joined ∧ (l₂ ++ [h]).IsChain m.Joined := by
  have hx : x :: l₂ ++ [h] = x :: (l₂ ++ [h]) := List.cons_append
  obtain ⟨h₁, hpx, h₂⟩ := hl.split ha hx
  rw [List.cons_append, hb] at h₂
  obtain ⟨hxc, h₂⟩ := List.isChain_cons_cons.mp h₂
  exact ⟨hpx, hxc, h₁, hb ▸ h₂⟩

variable [DecidableEq A]

/-- Link the cell `x` in front of the cell `c`. -/
def insertBefore (m : Links A) (c x : A) : Links A where
  next := Function.update (Function.update m.next x c) (m.prev c) x
  prev := Function.update (Function.update m.prev x (m.prev c)) c x

/-- Take the cell `x` out of its ring and reset it. -/
def unlink (m : Links A) (null x : A) : Links A where
  next := Function.update (Function.update m.next (m.prev x) (m.next x)) x null
  prev := Function.update (Function.update m.prev (m.next x) (m.prev x)) x null

theorem Ring.insertBefore (hl : m.Ring h (l₁ ++ l₂)) (hnd : (h :: (l₁ ++ l₂)).Nodup)
    (hx : x ∉ h :: (l₁ ++ l₂)) (hb : l₂ ++ [h] = c :: b) :
    (m.insertBefore c x).Ring h (l₁ ++ x :: l₂) := by
  obtain ⟨⟨a, p, ha⟩, -⟩ := exists_around h l₁ l₂
  obtain ⟨h₁, ⟨-, hcp⟩, h₂⟩ := hl.split ha hb
  have hne : ∀ y, y ∈ h :: l₁ ∨ y ∈ l₂ ++ [h] → y ≠ x := by
    rintro y hy rfl
    simp only [List.mem_cons, List.mem_append, List.not_mem_nil, or_false] at hx hy
    tauto
  have hpx : p ≠ x := hne p (.inl (ha ▸ List.mem_append_right _ (List.mem_singleton_self p)))
  have hcx : c ≠ x := hne c (.inr (hb ▸ List.mem_cons_self))
  have hnext : ∀ y, (m.insertBefore c x).next y =
      if y = p then x else if y = x then c else m.next y := by
    intro y
    show Function.update (Function.update m.next x c) (m.prev c) x y = _
    rw [hcp, Function.update_apply, Function.update_apply]
  have hprev : ∀ y, (m.insertBefore c x).prev y =
      if y = c then x else if y = x then p else m.prev y := by
    intro y
    show Function.update (Function.update m.prev x (m.prev c)) c x y = _
    rw [hcp, Function.update_apply, Function.update_apply]
  have hn : ∀ y, y ≠ p → y ≠ x → (m.insertBefore c x).next y = m.next y :=
    fun y hy hy' => by rw [hnext, if_neg hy, if_neg hy']
  have hp : ∀ y, y ≠ c → y ≠ x → (m.insertBefore c x).prev y = m.prev y :=
    fun y hy hy' => by rw [hprev, if_neg hy, if_neg hy']
  obtain ⟨h₁', h₂'⟩ := arcs_congr h₁ h₂ hnd hx ha hb hn hp
  unfold Ring
  rw [ha] at h₁'
  rw [hb] at h₂'
  rw [List.append_assoc, List.cons_append, ← List.cons_append, ha, hb, List.append_assoc]
  refine List.isChain_append_cons_cons.mpr ⟨h₁', ⟨?_, ?_⟩, List.isChain_cons_cons.mpr ⟨⟨?_, ?_⟩, h₂'⟩⟩
  · rw [hnext, if_pos rfl]
  · rw [hprev, if_neg hcx.symm, if_pos rfl]
  · rw [hnext, if_neg hpx.symm, if_pos rfl]
  · rw [hprev, if_pos rfl]

theorem Ring.unlink (hl : m.Ring h (l₁ ++ x :: l₂)) (hnd : (h :: (l₁ ++ x :: l₂)).Nodup) :
    (m.unlink null x).Ring h (l₁ ++ l₂) := by
  obtain ⟨⟨a, p, ha⟩, c, b, hb⟩ := exists_around h l₁ l₂
  obtain ⟨⟨-, hxp⟩, ⟨hxc, -⟩, h₁, h₂⟩ := hl.around ha hb
  have hperm : (h :: (l₁ ++ x :: l₂)).Perm (x :: h :: (l₁ ++ l₂)) :=
    (List.perm_middle.cons h).trans (.swap x h _)
  obtain ⟨hx, hnd⟩ := List.nodup_cons.mp (hperm.nodup_iff.mp hnd)
  have hne : ∀ y, y ∈ h :: l₁ ∨ y ∈ l₂ ++ [h] → y ≠ x := by
    rintro y hy rfl
    simp only [List.mem_cons, List.mem_append, List.not_mem_nil, or_false] at hx hy
    tauto
  have hpx : p ≠ x := hne p (.inl (ha ▸ List.mem_append_right _ (List.mem_singleton_self p)))
  have hcx : c ≠ x := hne c (.inr (hb ▸ List.mem_cons_self))
  have hnext : ∀ y, (m.unlink null x).next y =
      if y = x then null else if y = p then c else m.next y := by
    intro y
    show Function.update (Function.update m.next (m.prev x) (m.next x)) x null y = _
    rw [hxp, hxc, Function.update_apply, Function.update_apply]
  have hprev : ∀ y, (m.unlink null x).prev y =
      if y = x then null else if y = c then p else m.prev y := by
    intro y
    show Function.update (Function.update m.prev (m.next x) (m.prev x)) x null y = _
    rw [hxp, hxc, Function.update_apply, Function.update_apply]
  have hn : ∀ y, y ≠ p → y ≠ x → (m.unlink null x).next y = m.next y :=
    fun y hy hy' => by rw [hnext, if_neg hy', if_neg hy]
  have hp : ∀ y, y ≠ c → y ≠ x → (m.unlink null x).prev y = m.prev y :=
    fun y hy hy' => by rw [hprev, if_neg hy', if_neg hy]
  obtain ⟨h₁', h₂'⟩ := arcs_congr h₁ h₂ hnd hx ha hb hn hp
  unfold Ring
  rw [ha] at h₁'
  rw [hb] at h₂'
  rw [List.append_assoc, ← List.cons_append, ha, hb, List.append_assoc]
  refine List.isChain_append_cons_cons.mpr ⟨h₁', ⟨?_, ?_⟩, h₂'⟩
  · rw [hnext, if_neg hpx, if_pos rfl]
  · rw [hprev, if_neg hcx, if_pos rfl]

end Ring

/-! ## Families of rings -/

/-- The sentinels of the queues `H` and the cells of the elements `P`: distinct
link cells, none of them null. -/
structure Layout (H P : Type*) {A : Type*} (null : A) where
  head : H → A
  cell : P → A
  head_injective : Function.Injective head
  cell_injective : Function.Injective cell
  apart : ∀ h p, head h ≠ cell p
  head_ne : ∀ h, head h ≠ null
  cell_ne : ∀ p, cell p ≠ null

section Family

variable {H P K A : Type*} [DecidableEq H] [DecidableEq P] [LinearOrder K] {null : A}
  {L : Layout H P null} {m : Links A} {q : LinkedQueues H P} {h g : H} {p x : P} {c : A}
  {b : List A} {l₁ l₂ : List P}

/-- The sentinel and the cells of a queue. -/
def Layout.cells (L : Layout H P null) (q : LinkedQueues H P) (h : H) : List A :=
  L.head h :: (q.elems h).map L.cell

/-- The memory `m` holds the queues `q`. -/
structure Holds (m : Links A) (L : Layout H P null) (q : LinkedQueues H P) : Prop where
  ring : ∀ h, m.Ring (L.head h) ((q.elems h).map L.cell)
  free : ∀ p, q.link p = none → m.prev (L.cell p) = null ∧ m.next (L.cell p) = null

theorem Layout.nodup_cells : (L.cells q h).Nodup := by
  refine List.nodup_cons.mpr ⟨fun hm => ?_, (q.nodup h).map L.cell_injective⟩
  obtain ⟨x, -, hx⟩ := List.mem_map.mp hm
  exact L.apart h x hx.symm

theorem Layout.mem_cells_cell : L.cell p ∈ L.cells q h ↔ q.link p = some h := by
  unfold Layout.cells
  rw [List.mem_cons, List.mem_map_of_injective L.cell_injective, q.mem_iff]
  exact or_iff_right fun hx => L.apart h p hx.symm

theorem Layout.mem_cells_head : L.head g ∈ L.cells q h ↔ g = h := by
  unfold Layout.cells
  rw [List.mem_cons, L.head_injective.eq_iff]
  refine or_iff_left fun hm => ?_
  obtain ⟨x, -, hx⟩ := List.mem_map.mp hm
  exact L.apart g x hx.symm

/-- Two queues share no cell. -/
theorem Layout.disjoint_cells {y : A} (hy : y ∈ L.cells q h) (hy' : y ∈ L.cells q g) : h = g := by
  rcases List.mem_cons.mp hy with rfl | hm
  · exact Layout.mem_cells_head.mp hy'
  · obtain ⟨x, -, rfl⟩ := List.mem_map.mp hm
    exact Option.some.inj ((Layout.mem_cells_cell.mp hy).symm.trans (Layout.mem_cells_cell.mp hy'))

namespace Holds

theorem ring_congr {m' : Links A} (hm : Holds m L q)
    (hn : ∀ y ∈ L.cells q h, m'.next y = m.next y ∧ m'.prev y = m.prev y) :
    m'.Ring (L.head h) ((q.elems h).map L.cell) :=
  (hm.ring h).congr (fun y hy => (hn y hy).1) fun y hy => (hn y hy).2

/-- The cells before and after a linked element are cells of its queue. -/
theorem around (hm : Holds m L q) (hp : q.link p = some h) :
    m.prev (L.cell p) ∈ L.cells q h ∧ m.next (L.cell p) ∈ L.cells q h := by
  obtain ⟨l₁, l₂, hl⟩ := List.append_of_mem ((q.mem_iff p h).mpr hp)
  have hr := hm.ring h
  rw [hl, List.map_append, List.map_cons] at hr
  obtain ⟨⟨a, u, ha⟩, v, b, hb⟩ := exists_around (L.head h) (l₁.map L.cell) (l₂.map L.cell)
  obtain ⟨⟨-, hu⟩, ⟨hv, -⟩, -⟩ := hr.around ha hb
  unfold Layout.cells
  rw [hu, hv, hl, List.map_append, List.map_cons]
  constructor
  · have : u ∈ L.head h :: l₁.map L.cell := ha ▸ List.mem_append_right _ (List.mem_singleton_self u)
    rw [← List.cons_append]
    exact List.mem_append_left _ this
  · have : v ∈ l₂.map L.cell ++ [L.head h] := hb ▸ List.mem_cons_self
    rcases List.mem_append.mp this with hv | hv
    · exact List.mem_cons_of_mem _ (List.mem_append_right _ (List.mem_cons_of_mem _ hv))
    · rw [List.mem_singleton.mp hv]
      exact List.mem_cons_self

theorem cells_ne {y : A} (hy : y ∈ L.cells q h) : y ≠ null := by
  rcases List.mem_cons.mp hy with rfl | hm
  · exact L.head_ne h
  · obtain ⟨x, -, rfl⟩ := List.mem_map.mp hm
    exact L.cell_ne x

/-- The sentinel of an empty queue follows itself, and no other. -/
theorem next_head (hm : Holds m L q) : m.next (L.head h) = L.head h ↔ q.elems h = [] := by
  constructor
  · intro hself
    have hr := hm.ring h
    cases hl : q.elems h with
    | nil => rfl
    | cons x l =>
      rw [hl, List.map_cons] at hr
      obtain ⟨⟨hn, -⟩, -⟩ := List.isChain_cons_cons.mp hr
      exact absurd (hself.symm.trans hn) (L.apart h x)
  · intro hl
    have hr := hm.ring h
    rw [hl] at hr
    exact (ring_nil.mp hr).1

/-- The last cell of a queue. -/
theorem top (hm : Holds m L q) (hp : q.top h = some p) :
    m.prev (L.head h) = L.cell p ∧ m.next (L.cell p) = L.head h := by
  obtain ⟨l, hl⟩ := List.getLast?_eq_some_iff.mp hp
  have hr := hm.ring h
  rw [hl, List.map_append] at hr
  obtain ⟨⟨a, u, ha⟩, -⟩ := exists_around (L.head h) (l.map L.cell) []
  obtain ⟨-, ⟨hnext, hprev⟩, -⟩ := hr.around ha (List.nil_append [L.head h])
  exact ⟨hprev, hnext⟩

/-- The cells around a place of a queue are cells of that queue. -/
theorem place (hm : Holds m L q) (hq : q.elems h = l₁ ++ l₂)
    (hb : l₂.map L.cell ++ [L.head h] = c :: b) : c ∈ L.cells q h ∧ m.prev c ∈ L.cells q h := by
  have hr := hm.ring h
  rw [hq, List.map_append] at hr
  obtain ⟨⟨a, u, ha⟩, -⟩ := exists_around (L.head h) (l₁.map L.cell) (l₂.map L.cell)
  obtain ⟨-, ⟨-, hcu⟩, -⟩ := hr.split ha hb
  unfold Layout.cells
  rw [hcu, hq, List.map_append]
  constructor
  · have hc : c ∈ l₂.map L.cell ++ [L.head h] := hb ▸ List.mem_cons_self
    rcases List.mem_append.mp hc with hc | hc
    · exact List.mem_cons_of_mem _ (List.mem_append_right _ hc)
    · rw [List.mem_singleton.mp hc]
      exact List.mem_cons_self
  · have hu : u ∈ L.head h :: l₁.map L.cell := ha ▸ List.mem_append_right _ (List.mem_singleton_self u)
    rw [← List.cons_append]
    exact List.mem_append_left _ hu

variable [DecidableEq A]

/-- Linking an element changes the links of no cell but its own and those of the
queue. -/
theorem insertBefore_frame (hm : Holds m L q) (hq : q.elems h = l₁ ++ l₂)
    (hb : l₂.map L.cell ++ [L.head h] = c :: b) {y : A} (hy : y ∉ L.cells q h)
    (hyp : y ≠ L.cell p) : (m.insertBefore c (L.cell p)).next y = m.next y ∧
      (m.insertBefore c (L.cell p)).prev y = m.prev y := by
  obtain ⟨hc, hu⟩ := hm.place hq hb
  have hyu : y ≠ m.prev c := fun he => hy (he ▸ hu)
  have hyc : y ≠ c := fun he => hy (he ▸ hc)
  exact ⟨(Function.update_of_ne hyu _ _).trans (Function.update_of_ne hyp _ _),
    (Function.update_of_ne hyc _ _).trans (Function.update_of_ne hyp _ _)⟩

/-- Linking an element where `insertByKey` puts it. -/
theorem insertBefore (hm : Holds m L q) {key : P → K} (hp : q.link p = none)
    (hq : q.elems h = l₁ ++ l₂) (hins : insertByKey key p (q.elems h) = l₁ ++ p :: l₂)
    (hb : l₂.map L.cell ++ [L.head h] = c :: b) :
    Holds (m.insertBefore c (L.cell p)) L (q.add h p key) := by
  have hpn : ∀ g, L.cell p ∉ L.cells q g := by
    intro g hg
    rw [Layout.mem_cells_cell, hp] at hg
    cases hg
  refine ⟨fun g => ?_, fun x hx => ?_⟩
  · rw [LinkedQueues.elems_add hp]
    split
    · next hg =>
      subst hg
      have hcells : L.head g :: (l₁.map L.cell ++ l₂.map L.cell) = L.cells q g := by
        rw [← List.map_append, ← hq]
        rfl
      have hr := hm.ring g
      rw [hq, List.map_append] at hr
      rw [hins, List.map_append, List.map_cons]
      exact hr.insertBefore (hcells ▸ Layout.nodup_cells) (hcells ▸ hpn g) hb
    · next hg =>
      refine hm.ring_congr fun y hy =>
        hm.insertBefore_frame hq hb (fun hy' => hg (Layout.disjoint_cells hy hy')) ?_
      rintro rfl
      exact hpn g hy
  · rw [LinkedQueues.link_add hp] at hx
    split at hx
    · cases hx
    · next hxp =>
      have hy : L.cell x ∉ L.cells q h := by
        rw [Layout.mem_cells_cell, hx]
        nofun
      obtain ⟨hn, hpr⟩ := hm.insertBefore_frame hq hb hy fun he => hxp (L.cell_injective he)
      rw [hn, hpr]
      exact hm.free x hx

/-- Unlinking an element changes the links of no cell but those of its queue. -/
theorem unlink_frame (hm : Holds m L q) (hp : q.link p = some h) {y : A}
    (hy : y ∉ L.cells q h) : (m.unlink null (L.cell p)).next y = m.next y ∧
      (m.unlink null (L.cell p)).prev y = m.prev y := by
  obtain ⟨hprev, hnext⟩ := hm.around hp
  have hyp : y ≠ L.cell p := by
    rintro rfl
    exact hy (Layout.mem_cells_cell.mpr hp)
  have hyu : y ≠ m.prev (L.cell p) := fun he => hy (he ▸ hprev)
  have hyc : y ≠ m.next (L.cell p) := fun he => hy (he ▸ hnext)
  exact ⟨(Function.update_of_ne hyp _ _).trans (Function.update_of_ne hyu _ _),
    (Function.update_of_ne hyp _ _).trans (Function.update_of_ne hyc _ _)⟩

/-- Unlinking a linked element. -/
theorem unlink (hm : Holds m L q) (hp : q.link p = some h) :
    Holds (m.unlink null (L.cell p)) L (q.remove p) := by
  refine ⟨fun g => ?_, fun x hx => ?_⟩
  · by_cases hg : g = h
    · subst hg
      obtain ⟨l₁, l₂, hl⟩ := List.append_of_mem ((q.mem_iff p g).mpr hp)
      have hnd := q.nodup g
      have hcells : (L.cells q g).Nodup := Layout.nodup_cells
      have hr := hm.ring g
      unfold Layout.cells at hcells
      rw [hl, List.map_append, List.map_cons] at hr hcells
      rw [hl] at hnd
      have hnot : p ∉ l₁ := fun hm => (List.nodup_append.mp hnd).2.2 p hm p List.mem_cons_self rfl
      rw [LinkedQueues.elems_remove, hl, List.erase_append_right _ hnot, List.erase_cons_head,
        List.map_append]
      exact hr.unlink hcells
    · rw [LinkedQueues.elems_remove_of_ne (by rw [hp]; simpa using Ne.symm hg)]
      exact hm.ring_congr fun y hy =>
        hm.unlink_frame hp fun hy' => hg (Layout.disjoint_cells hy hy')
  · rw [LinkedQueues.link_remove] at hx
    split at hx
    · next hxp =>
      rw [hxp]
      exact ⟨Function.update_self _ _ _, Function.update_self _ _ _⟩
    · have hy : L.cell x ∉ L.cells q h := by
        rw [Layout.mem_cells_cell, hx]
        nofun
      obtain ⟨hn, hpr⟩ := hm.unlink_frame hp hy
      rw [hn, hpr]
      exact hm.free x hx

end Holds

end Family

end Links

end Lib
