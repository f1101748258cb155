import GenesisOS.Model.Links
import GenesisOS.Model.Memory

/-!
# GenesisOS — the macros of `queue.h` refine linked queues

`Represente m D q cle`: the memory `m` holds the lists `q`, each one a ring of
links around its head, and the priority field of each linked element holds its
key. On such a memory `queue_add`, `queue_out` and `queue_del` end, and leave a
memory that holds the lists after `add` and `remove`. The loop of `queue_add`
follows the ring and never reads a priority at the head.
-/

set_option linter.unusedSectionVars false

namespace GenesisOS

open Lib

/-- Where the heads and the elements of the lists are: the address of each
element, and for each list the offsets of the link and of the priority in the
type of its elements. -/
structure Disposition (H P : Type) extends Links.Layout H P (0 : Nat) where
  adr : P → Nat
  listfield : H → Nat
  priofield : H → Nat
  adr_ne : ∀ p, adr p ≠ 0
  adr_injective : Function.Injective adr

/-- The element has the type of the elements of the list. -/
def Disposition.Admet {H P : Type} (D : Disposition H P) (t : H) (p : P) : Prop :=
  D.cell p = D.adr p + D.listfield t

/-- The memory holds the lists `q`, sorted or not, and `cle t p` is the priority
field that a list `t` reads in the element `p`. -/
structure Represente {H P K : Type} (m : Memoire K) (D : Disposition H P) (q : LinkedQueues H P)
    (cle : H → P → K) : Prop where
  liens : Links.Holds m.toLinks D.toLayout q
  type : ∀ t, ∀ p ∈ q.elems t, D.Admet t p
  champ : ∀ t p, D.Admet t p → m.champ (D.adr p + D.priofield t) = some (cle t p)

namespace Memoire

section

variable {H P K : Type} [DecidableEq H] [DecidableEq P] [LinearOrder K]
  {D : Disposition H P} {m : Memoire K} {q : LinkedQueues H P} {cle : H → P → K} {t : H} {p : P}
  {E : Faute → Prop} {l : Lieu} {ptr v : Nat}

-- ---------------------------------------------------------------------------
-- Accesses
-- ---------------------------------------------------------------------------

theorem wp_lireNext {Q : Nat → Memoire K → Prop} (h0 : ptr ≠ 0) (h : Q (m.next ptr) m) :
    wp E (lireNext l ptr) Q m := by
  simp only [lireNext, wp_bind, wp_get, h0, if_false]
  exact h

theorem wp_lirePrev {Q : Nat → Memoire K → Prop} (h0 : ptr ≠ 0) (h : Q (m.prev ptr) m) :
    wp E (lirePrev l ptr) Q m := by
  simp only [lirePrev, wp_bind, wp_get, h0, if_false]
  exact h

theorem wp_poserNext {Q : Unit → Memoire K → Prop} (h0 : ptr ≠ 0)
    (h : Q () { m with next := Function.update m.next ptr v }) :
    wp E (poserNext l ptr v) Q m := by
  simp only [poserNext, wp_bind, wp_get, h0, if_false]
  exact h

theorem wp_poserPrev {Q : Unit → Memoire K → Prop} (h0 : ptr ≠ 0)
    (h : Q () { m with prev := Function.update m.prev ptr v }) :
    wp E (poserPrev l ptr v) Q m := by
  simp only [poserPrev, wp_bind, wp_get, h0, if_false]
  exact h

theorem wp_lireChamp {Q : K → Memoire K → Prop} {k : K} (hk : m.champ ptr = some k) (h : Q k m) :
    wp E (lireChamp l ptr) Q m := by
  simp only [lireChamp, wp_bind, wp_get, hk]
  exact h

-- ---------------------------------------------------------------------------
-- `queue_add`
-- ---------------------------------------------------------------------------

/-- The loop stops in front of the first element whose priority is not smaller,
or at the head. It has read `l₁` and stands at the last link before `l₂`. -/
theorem wp_queueAddBoucle {Q : Nat → Memoire K → Prop} (h : Represente m D q cle)
    (hp : D.Admet t p) {n : Nat} (l₁ l₂ : List P)
    {a : List Nat} {u : Nat} (hl : q.elems t = l₁ ++ l₂)
    (ha : D.head t :: l₁.map D.cell = a ++ [u]) (hn : l₂.length < n)
    (hQ : ∀ l₃ l₄ c b, l₂ = l₃ ++ l₄ → (∀ x ∈ l₃, cle t x < cle t p) →
      (∀ x ∈ l₄.head?, cle t p ≤ cle t x) → l₄.map D.cell ++ [D.head t] = c :: b → Q c m) :
    wp E (queueAddBoucle (D.adr p) (D.head t) (D.listfield t) (D.priofield t) n u) Q m := by
  induction n generalizing l₁ l₂ a u with
  | zero => omega
  | succ n ih =>
    have hu : u ≠ 0 := by
      have hu : u ∈ D.head t :: l₁.map D.cell :=
        ha ▸ List.mem_append_right _ (List.mem_singleton_self u)
      rcases List.mem_cons.mp hu with rfl | hu
      · exact D.head_ne t
      · obtain ⟨x, -, rfl⟩ := List.mem_map.mp hu
        exact D.cell_ne x
    have hr := h.liens.ring t
    rw [hl, List.map_append] at hr
    simp only [queueAddBoucle, wp_bind]
    refine wp_lireNext hu ?_
    cases l₂ with
    | nil =>
      obtain ⟨-, ⟨hnext, -⟩, -⟩ := hr.split ha rfl
      rw [hnext, if_pos rfl]
      exact hQ [] [] _ _ rfl (List.forall_mem_nil _) (by simp) rfl
    | cons x l₂ =>
      obtain ⟨-, ⟨hnext, -⟩, -⟩ := hr.split ha List.cons_append
      have hx : x ∈ q.elems t := hl ▸ List.mem_append_right _ List.mem_cons_self
      have hentry : queueEntry (D.cell x) (D.listfield t) = D.adr x := by
        unfold queueEntry
        rw [h.type t x hx, Nat.add_sub_cancel]
      rw [hnext, if_neg (D.apart t x).symm, hentry]
      simp only [wp_bind]
      refine wp_lireChamp (h.champ t x (h.type t x hx)) (wp_lireChamp (h.champ t p hp) ?_)
      split
      · next hlt =>
        refine ih (l₁ ++ [x]) l₂ (by rw [hl, List.append_assoc]; rfl)
          (a := D.head t :: l₁.map D.cell) (by rw [List.map_append]; rfl) ?_ ?_
        · rw [List.length_cons] at hn
          omega
        · intro l₃ l₄ c b hl₂ h₃ h₄ hb
          refine hQ (x :: l₃) l₄ c b (by rw [hl₂]; rfl) (fun y hy => ?_) h₄ hb
          rcases List.mem_cons.mp hy with rfl | hy
          · exact hlt
          · exact h₃ y hy
      · next hge =>
        refine hQ [] (x :: l₂) _ _ rfl (List.forall_mem_nil _) (fun y hy => ?_) rfl
        obtain rfl : x = y := Option.some.inj hy
        exact not_lt.mp hge

/-- `queue_add` puts an unlinked element in its place. -/
theorem wp_queueAdd_liens {Q : Unit → Memoire K → Prop} (h : Represente m D q cle)
    (hp : q.link p = none) (ht : D.Admet t p) {n : Nat}
    (hn : (q.elems t).length < n)
    (hQ : ∀ m' l₁ l₂ c b, q.elems t = l₁ ++ l₂ → (∀ x ∈ l₁, cle t x < cle t p) →
      (∀ x ∈ l₂.head?, cle t p ≤ cle t x) → l₂.map D.cell ++ [D.head t] = c :: b →
      m' = { m with toLinks := m.toLinks.insertBefore c (D.cell p) } → Q () m') :
    wp E (queueAdd n (D.adr p) (D.head t) (D.listfield t) (D.priofield t)) Q m := by
  obtain ⟨hprev, hnext⟩ := h.liens.free p hp
  have hcell : D.adr p + D.listfield t = D.cell p := ht.symm
  simp only [queueAdd, wp_bind, hcell]
  refine wp_lirePrev (D.cell_ne p) (wp_lireNext (D.cell_ne p) ?_)
  rw [hprev, hnext, if_pos ⟨rfl, rfl⟩]
  simp only [wp_bind]
  refine wp_queueAddBoucle h ht [] (q.elems t) (a := []) rfl rfl hn ?_
  intro l₁ l₂ c b hl h₁ h₂ hb
  obtain ⟨hc, hu⟩ := h.liens.place hl hb
  have hc0 : c ≠ 0 := Links.Holds.cells_ne hc
  have hcp : c ≠ D.cell p := by
    rintro rfl
    rw [Links.Layout.mem_cells_cell, hp] at hc
    cases hc
  have hprevc : Function.update m.prev (D.cell p) (m.prev c) c = m.prev c :=
    Function.update_of_ne hcp _ _
  refine wp_poserNext (D.cell_ne p) (wp_lirePrev hc0 (wp_poserPrev (D.cell_ne p) ?_))
  refine wp_lirePrev hc0 ?_
  show wp E (poserNext .queueAdd (Function.update m.prev (D.cell p) (m.prev c) c) (D.cell p)) _ _
  rw [hprevc]
  refine wp_poserNext (Links.Holds.cells_ne hu) (wp_poserPrev hc0 ?_)
  exact hQ _ l₁ l₂ c b hl h₁ h₂ hb rfl

-- ---------------------------------------------------------------------------
-- `queue_out` and `queue_del`
-- ---------------------------------------------------------------------------

theorem queueOut_vide (h : Represente m D q cle) (hl : q.elems t = []) :
    queueOut (D.head t) (D.listfield t) m = .ok (0, m) := by
  have hwp : wp (fun _ => False) (queueOut (D.head t) (D.listfield t))
      (fun r m' => r = 0 ∧ m' = m) m := by
    simp only [queueOut, queueEmpty, wp_bind, wp_pure]
    refine wp_lirePrev (D.head_ne t) (wp_lireNext (D.head_ne t) ?_)
    rw [h.liens.next_head.mpr hl, decide_eq_true rfl, if_pos rfl]
    exact ⟨rfl, rfl⟩
  cases hr : queueOut (D.head t) (D.listfield t) m with
  | error f => exact (wp_error hwp hr).elim
  | ok x =>
    obtain ⟨r, m'⟩ := x
    obtain ⟨rfl, rfl⟩ := wp_ok hwp hr
    rfl

/-- `queue_out` takes out the last element. -/
theorem wp_queueOut_liens {Q : Nat → Memoire K → Prop} (h : Represente m D q cle)
    (hp : q.top t = some p)
    (hQ : ∀ m', m' = { m with toLinks := m.toLinks.unlink 0 (D.cell p) } → Q (D.adr p) m') :
    wp E (queueOut (D.head t) (D.listfield t)) Q m := by
  obtain ⟨hprev, hnext⟩ := h.liens.top hp
  have hlink := LinkedQueues.link_of_top hp
  have hne : m.next (D.head t) ≠ D.head t := by
    intro hx
    rw [h.liens.next_head] at hx
    have hmem := LinkedQueues.mem_of_top hp
    rw [hx] at hmem
    cases hmem
  have hu := Links.Holds.cells_ne (h.liens.around hlink).1
  have hadr : D.cell p - D.listfield t = D.adr p := by
    rw [h.type t p (LinkedQueues.mem_of_top hp), Nat.add_sub_cancel]
  simp only [queueOut, queueEmpty, wp_bind, wp_pure]
  refine wp_lirePrev (D.head_ne t) (wp_lireNext (D.head_ne t) ?_)
  rw [decide_eq_false hne, hprev, if_neg (by decide)]
  simp only [wp_bind]
  refine wp_lirePrev (D.head_ne t) ?_
  rw [hprev]
  refine wp_lirePrev (D.cell_ne p) (wp_poserPrev (D.head_ne t) (wp_lirePrev (D.head_ne t) ?_))
  show wp E (poserNext .noyau (Function.update m.prev (D.head t) (m.prev (D.cell p)) (D.head t))
    (D.head t)) _ _
  rw [Function.update_self]
  refine wp_poserNext hu (wp_poserPrev (D.cell_ne p) (wp_poserNext (D.cell_ne p) ?_))
  rw [wp_pure, hadr]
  refine hQ _ ?_
  unfold Links.unlink
  rw [hnext]

/-- `queue_del` takes out its argument, whatever list holds it. -/
theorem wp_queueDel_liens {Q : Unit → Memoire K → Prop} (h : Represente m D q cle)
    (hp : q.link p = some t) {listfield : Nat} (hcell : D.adr p + listfield = D.cell p)
    (hQ : ∀ m', m' = { m with toLinks := m.toLinks.unlink 0 (D.cell p) } → Q () m') :
    wp E (queueDel (D.adr p) listfield) Q m := by
  obtain ⟨hu, hv⟩ := h.liens.around hp
  have hu0 : m.prev (D.cell p) ≠ 0 := Links.Holds.cells_ne hu
  have hv0 : m.next (D.cell p) ≠ 0 := Links.Holds.cells_ne hv
  simp only [queueDel, wp_bind, hcell]
  refine wp_lirePrev (D.cell_ne p) (wp_lireNext (D.cell_ne p) ?_)
  rw [if_pos ⟨hu0, hv0⟩]
  simp only [wp_bind]
  refine wp_lirePrev (D.cell_ne p) (wp_lireNext (D.cell_ne p) (wp_poserNext hu0 ?_))
  have hlu : Function.update m.next (m.prev (D.cell p)) (m.next (D.cell p)) (D.cell p) =
      m.next (D.cell p) := by
    rw [Function.update_apply]
    split <;> rfl
  refine wp_lireNext (D.cell_ne p) (wp_lirePrev (D.cell_ne p) ?_)
  show wp E (poserPrev .queueDel (Function.update m.next (m.prev (D.cell p)) (m.next (D.cell p))
    (D.cell p)) (m.prev (D.cell p))) _ _
  rw [hlu]
  exact wp_poserPrev hv0 (wp_poserNext (D.cell_ne p) (wp_poserPrev (D.cell_ne p) (hQ _ rfl)))

end

end Memoire

section

variable {H P K : Type} [DecidableEq H] [DecidableEq P] {D : Disposition H P} {m m' : Memoire K}
  {q : LinkedQueues H P} {cle : H → P → K} {t : H} {p : P}

/-- What taking an element out of its list leaves in memory. -/
theorem Represente.unlink (h : Represente m D q cle) (hp : q.link p = some t)
    (hm : m' = { m with toLinks := m.toLinks.unlink 0 (D.cell p) }) :
    Represente m' D (q.remove p) cle ∧ (∀ t', t' ≠ t → (q.remove p).elems t' = q.elems t') ∧
      m'.champ = m.champ ∧ m'.next (D.cell p) = 0 ∧ m'.prev (D.cell p) = 0 ∧
      ∀ a, a ∉ D.toLayout.cells q t → m'.next a = m.next a ∧ m'.prev a = m.prev a := by
  subst hm
  refine ⟨⟨h.liens.unlink hp, fun t' x hx => h.type t' x (LinkedQueues.mem_remove.mp hx).2,
    h.champ⟩, fun t' ht => ?_, rfl, ?_, ?_, fun a ha => h.liens.unlink_frame hp ha⟩
  · exact LinkedQueues.elems_remove_of_ne (by rw [hp]; simpa using ht.symm)
  · exact Function.update_self _ _ _
  · exact Function.update_self _ _ _

end

end GenesisOS
