import GenesisOS.Refinement.Accounts
import GenesisOS.Theorems.Tables
import GenesisOS.Theorems.Window
import Mathlib.Algebra.BigOperators.Group.Finset.Piecewise

/-!
# GenesisOS — what the kernel heap holds

In every reachable state the blocks of the heap are those the kernel structures own,
and one cell for each child that `waitpid` has taken. Their number follows from the
tables: identifiers are conserved, so only processes, children, messages, lines of
history and forgotten cells make it vary.
-/

namespace GenesisOS

open Lib

-- ---------------------------------------------------------------------------
-- The number of blocks
-- ---------------------------------------------------------------------------

namespace Kernel

variable (s : Kernel)

/-- The number of allocated blocks of the kernel heap. -/
def nbBlocs : Nat := ((Finset.range s.prochain).filter fun a => s.blocs a ≠ none).card

/-- The number of processes in the table, idle included. -/
def nbProcessus : Nat := ((entrees MAX_PROCESS).filter fun i => (s.tableDesProcs i).isSome).card

/-- The number of cells in the lists of children. -/
def nbFils : Nat :=
  ∑ i ∈ entrees MAX_PROCESS, ((s.tableDesProcs i).elim 0 fun p => (s.tas p).filsTete.length)

/-- The number of messages stored in the files. -/
def nbMessages : Nat := ∑ i ∈ entrees NBQUEUE, ((s.tableauFile i).elim 0 fun f => f.queueMsg.length)

/-- The number of children `waitpid` has taken so far. -/
def nbRecoltes : Nat := s.journal.countP Evenement.estRecolte

end Kernel

section

variable {s : Kernel} {c : Config} {d : Multiset (Ptr × Nat)} {n i : Int}

theorem of_mem_entrees (h : i ∈ entrees n) : 0 ≤ i ∧ i < n := by
  obtain ⟨k, hk, rfl⟩ := Finset.mem_map.mp h
  have hk := Finset.mem_range.mp hk
  show 0 ≤ (k : Int) ∧ (k : Int) < n
  omega

theorem card_entrees (n : Int) : (entrees n).card = n.toNat := by
  rw [entrees, Finset.card_map, Finset.card_range]

/-- The blocks of the heap are counted by their owners. -/
theorem Bilan.nbBlocs (h : Bilan s.avoirs d) :
    s.nbBlocs = Multiset.card s.avoirs.possede + Multiset.card d := by
  have hset : (Finset.range s.prochain).filter (fun a => s.blocs a ≠ none) =
      ((s.avoirs.possede + d).map Prod.fst).toFinset := by
    ext a
    rw [Finset.mem_filter, Multiset.mem_toFinset, Finset.mem_range]
    constructor
    · rintro ⟨-, hb⟩
      obtain ⟨n, hn⟩ := Option.ne_none_iff_exists'.mp hb
      exact Multiset.mem_map_of_mem Prod.fst ((h.ledger.exact a n).mp hn)
    · intro ha
      have hb := h.ledger.ne_none ha
      exact ⟨(h.borne a hb).2, hb⟩
  rw [Kernel.nbBlocs, hset, Multiset.toFinset_card_of_nodup h.ledger.unique, Multiset.card_map,
    Multiset.card_add]

/-- Distinct identifiers, each free exactly when its entry is empty, and the others. -/
theorem card_libres {α β : Type} {l : List α} {f : α → Int} {t : Int → Option β}
    (hnd : (l.map f).Nodup) (hmem : ∀ i, i ∈ l.map f ↔ i ∈ entrees n ∧ t i = none) :
    l.length + ((entrees n).filter fun i => (t i).isSome).card = n.toNat := by
  have hset : (entrees n).filter (fun i => ¬ (t i).isSome = true) = (l.map f).toFinset := by
    ext i
    rw [Finset.mem_filter, List.mem_toFinset, hmem, Option.not_isSome_iff_eq_none]
  have hcard := Finset.card_filter_add_card_filter_not (s := entrees n) fun i => (t i).isSome = true
  rw [hset, List.toFinset_card_of_nodup hnd, List.length_map, card_entrees] at hcard
  omega

theorem card_sum_entrees {f : Int → Multiset (Ptr × Nat)} :
    Multiset.card (∑ i ∈ entrees n, f i) = ∑ i ∈ entrees n, Multiset.card (f i) :=
  map_sum Multiset.cardHom f (entrees n)

/-- A table is summed by the entries that are there. -/
theorem sum_presents {α : Type} (t : Int → Option α) (g : α → Nat) :
    ∑ i ∈ entrees n, ((t i).elim 0 fun x => 1 + g x) =
      ((entrees n).filter fun i => (t i).isSome).card + ∑ i ∈ entrees n, (t i).elim 0 g := by
  rw [Finset.card_filter, ← Finset.sum_add_distrib]
  refine Finset.sum_congr rfl fun i _ => ?_
  cases t i <;> rfl

/-- The live processes are those of the table. -/
theorem Coherent.sum_vivants (h : Coherent s.toCore) (g : Ptr → Nat) :
    ∑ p ∈ Finset.range s.prochain, (if s.vivant p = true then g p else 0) =
      ∑ i ∈ entrees MAX_PROCESS, (s.tableDesProcs i).elim 0 g := by
  rw [← Finset.sum_filter]
  have hnone : ∀ i ∈ entrees MAX_PROCESS, i ∉ (entrees MAX_PROCESS).filter
      (fun i => (s.tableDesProcs i).isSome) → (s.tableDesProcs i).elim 0 g = 0 := by
    intro i hi hn
    rw [Finset.mem_filter, not_and] at hn
    rw [Option.not_isSome_iff_eq_none.mp (hn hi)]
    rfl
  rw [← Finset.sum_subset (Finset.filter_subset _ _) hnone]
  refine Finset.sum_bij (fun p _ => (s.tas p).pid) ?_ ?_ ?_ ?_
  · intro p hp
    have hv := (Finset.mem_filter.mp hp).2
    obtain ⟨h0, hN⟩ := h.pid p hv
    rw [Finset.mem_filter, h.inscrit p hv]
    exact ⟨mem_entrees h0 hN, rfl⟩
  · intro p hp q hq he
    have hvp := h.inscrit p (Finset.mem_filter.mp hp).2
    have hvq := h.inscrit q (Finset.mem_filter.mp hq).2
    rw [he, hvq] at hvp
    exact (Option.some.inj hvp).symm
  · intro i hi
    obtain ⟨p, hp⟩ := Option.isSome_iff_exists.mp (Finset.mem_filter.mp hi).2
    obtain ⟨hv, hpid⟩ := h.table i p hp
    exact ⟨p, Finset.mem_filter.mpr ⟨Finset.mem_range.mpr (h.ancien p hv), hv⟩, hpid⟩
  · intro p hp
    rw [h.inscrit p (Finset.mem_filter.mp hp).2]
    rfl

theorem Avoirs.card_duProcessus (p : Ptr) : Multiset.card (s.avoirs.duProcessus p) +
    (if p = s.procIdle then 1 else 0) = 1 + (1 + (s.tas p).filsTete.length) := by
  rw [Avoirs.duProcessus, Multiset.card_add, Multiset.card_add, Multiset.card_singleton,
    Multiset.coe_card, List.length_map]
  show 1 + Multiset.card (if p = s.procIdle then 0 else {(s.avoirs.processus p).2.1}) +
    (s.tas p).filsTete.length + _ = _
  split
  · rw [Multiset.card_zero]
    omega
  · rw [Multiset.card_singleton]
    omega

/-- A structure for each process, a kernel stack for each but the idle one, and a cell
for each child. -/
theorem Coherent.card_desProcessus (h : Coherent s.toCore) :
    Multiset.card s.avoirs.desProcessus + 1 = 2 * s.nbProcessus + s.nbFils := by
  have hcard : Multiset.card s.avoirs.desProcessus = ∑ p ∈ Finset.range s.prochain,
      (if s.vivant p = true then Multiset.card (s.avoirs.duProcessus p) else 0) := by
    refine (map_sum Multiset.cardHom _ _).trans (Finset.sum_congr rfl fun p _ => ?_)
    show Multiset.card (if s.vivant p = true then _ else _) = _
    split <;> rfl
  have hidle : ∑ p ∈ Finset.range s.prochain,
      (if s.vivant p = true then (if p = s.procIdle then 1 else 0) else 0) = 1 := by
    rw [Finset.sum_eq_single s.procIdle]
    · rw [if_pos h.idle.1, if_pos rfl]
    · intro p _ hne
      rw [if_neg hne, ite_self]
    · exact fun hn => absurd (Finset.mem_range.mpr (h.ancien _ h.idle.1)) hn
  have hterme : ∀ p ∈ Finset.range s.prochain,
      (if s.vivant p = true then Multiset.card (s.avoirs.duProcessus p) else 0) +
        (if s.vivant p = true then (if p = s.procIdle then 1 else 0) else 0) =
      if s.vivant p = true then 1 + (1 + (s.tas p).filsTete.length) else 0 := by
    intro p _
    split
    · exact Avoirs.card_duProcessus p
    · rfl
  have hsum := Finset.sum_congr rfl hterme
  rw [Finset.sum_add_distrib, hidle,
    h.sum_vivants fun p => 1 + (1 + (s.tas p).filsTete.length), sum_presents, sum_presents] at hsum
  rw [hcard, hsum, Kernel.nbProcessus, Kernel.nbFils]
  omega

theorem card_desFichiers : Multiset.card s.avoirs.desFichiers = s.fidListe.length +
    (((entrees NBQUEUE).filter fun i => (s.tableauFile i).isSome).card + s.nbMessages) := by
  have hun : ∀ x : Option File, Multiset.card (Avoirs.duFichier x) =
      x.elim 0 fun f => 1 + f.queueMsg.length := by
    intro x
    cases x with
    | none => rfl
    | some f =>
      rw [Avoirs.duFichier, Multiset.card_add, Multiset.card_singleton, Multiset.coe_card,
        List.length_map]
      rfl
  rw [Avoirs.desFichiers, Multiset.card_add, Multiset.coe_card, List.length_map, card_sum_entrees,
    Kernel.nbMessages, ← sum_presents]
  simp only [hun]
  rfl

theorem card_desSemaphores : Multiset.card s.avoirs.desSemaphores = s.sidListe.length +
    ((entrees NBSEM).filter fun i => (s.tableauSem i).isSome).card := by
  rw [Avoirs.desSemaphores, Multiset.card_add, Multiset.coe_card, List.length_map, card_sum_entrees,
    Finset.card_filter]
  refine congrArg (s.sidListe.length + ·) (Finset.sum_congr rfl fun i _ => ?_)
  show Multiset.card (Avoirs.duSemaphore ((s.tableauSem i).map Semaphore.adr)) = _
  cases s.tableauSem i <;> rfl

theorem card_deLHistorique (h : ∀ j, j < s.clavier.indexHistory → s.clavier.history j ≠ none) :
    Multiset.card s.avoirs.deLHistorique = s.clavier.indexHistory := by
  have hun : ∀ j ∈ Finset.range s.clavier.indexHistory,
      Multiset.card (Avoirs.deLaLigne (s.clavier.history j)) = 1 := by
    intro j hj
    obtain ⟨x, hx⟩ := Option.ne_none_iff_exists'.mp (h j (Finset.mem_range.mp hj))
    rw [hx]
    rfl
  refine (map_sum Multiset.cardHom _ _).trans ((Finset.sum_congr rfl hun).trans ?_)
  exact (Finset.card_eq_sum_ones _).symm.trans (Finset.card_range _)

-- ---------------------------------------------------------------------------
-- Runs
-- ---------------------------------------------------------------------------

/-- In every reachable state the heap is shared out between the kernel structures and
the cells of the children that `waitpid` has taken, of which it forgets one each time. -/
theorem bilan_du_tas (h : Accessible c) : ∃ perdus : Multiset (Ptr × Nat),
    Ledger c.s.blocs (c.s.avoirs.possede + perdus) ∧ (∀ x ∈ perdus, x.2 = sizeofFils) ∧
      Multiset.card perdus = c.s.nbRecoltes := by
  obtain ⟨perdus, hb, ht, hn⟩ := h.perte
  exact ⟨perdus, hb.ledger, ht, hn⟩

/-- The user process takes a child that has ended, starts two others, stores two messages
in a file, creates a semaphore and reads a line. -/
def inventaire : List Signal := [.suite, appel 2 0x1000000 0 2 0, .suite, appel 3 5 0 0 0, .suite,
  appel 17 2 0 0 0, appel 2 0x1000000 0 1 0, appel 2 0x1000000 0 1 0, appel 9 3 0 0 0,
  appel 13 9 1 0 0, appel 13 9 2 0 0, appel 24 2 0 0 0, .int33 [97, 98, 13],
  appel 19 0x1800000 8 0 0]

theorem exists_inventaire : ∃ c, Accessible c ∧ c.s.nbProcessus = 4 ∧ c.s.nbFils = 2 ∧
    c.s.nbMessages = 2 ∧ c.s.tableauSem 9 ≠ none ∧ c.s.clavier.indexHistory = 1 ∧
      c.s.nbRecoltes = 1 := by
  obtain ⟨c, hc, hQ⟩ := Accessible.scenario (l := inventaire) (Q := fun c =>
    decide (c.s.nbProcessus = 4 ∧ c.s.nbFils = 2 ∧ c.s.nbMessages = 2 ∧ c.s.tableauSem 9 ≠ none ∧
      c.s.clavier.indexHistory = 1 ∧ c.s.nbRecoltes = 1)) (by decide +kernel)
  exact ⟨c, hc, of_decide_eq_true hQ⟩

theorem bilan_du_tas_exemple : ∃ c, Accessible c ∧ c.s.nbProcessus = 4 ∧ c.s.nbFils = 2 ∧
    c.s.nbMessages = 2 ∧ c.s.tableauSem 9 ≠ none ∧ c.s.clavier.indexHistory = 1 ∧
      ∃ x : Ptr × Nat, x.2 = sizeofFils ∧ Ledger c.s.blocs (c.s.avoirs.possede + {x}) := by
  obtain ⟨c, hc, hproc, hfils, hmsg, hsem, hlignes, hrec⟩ := exists_inventaire
  obtain ⟨perdus, hl, ht, hn⟩ := bilan_du_tas hc
  rw [hrec] at hn
  obtain ⟨x, rfl⟩ := Multiset.card_eq_one.mp hn
  exact ⟨c, hc, hproc, hfils, hmsg, hsem, hlignes, x, ht x (Multiset.mem_singleton_self x), hl⟩

/-- The number of allocated blocks of every reachable state: it varies with the processes,
their children, the stored messages, the lines of history, and the children that
`waitpid` has taken, for which blocks only accumulate. -/
theorem nombre_de_blocs (h : Accessible c) : (c.s.nbBlocs : Int) = MAX_PROCESS - 1 + NBQUEUE + NBSEM +
    c.s.nbProcessus + c.s.nbFils + c.s.nbMessages + c.s.clavier.indexHistory + c.s.nbRecoltes := by
  have hc := h.valide.stable.coherent
  have hl := h.libres
  obtain ⟨perdus, hb, -, hn⟩ := h.perte
  obtain ⟨l, hwin⟩ := h.enregistrees
  have hist := card_deLHistorique (s := c.s) fun j hj => by
    obtain ⟨x, hx, -⟩ := hwin.fenetre.dedans.alloue j hj
    rw [hx]
    exact Option.some_ne_none x
  have hpids := card_libres (n := MAX_PROCESS) (t := c.s.tableDesProcs) hc.pidUnique fun i => by
    constructor
    · intro hi
      obtain ⟨cell, hcell, rfl⟩ := List.mem_map.mp hi
      obtain ⟨h0, hN, hnone⟩ := hc.pidLibre cell hcell
      exact ⟨mem_entrees h0.le hN, hnone⟩
    · rintro ⟨hi, hnone⟩
      obtain ⟨h0, hN⟩ := of_mem_entrees hi
      refine hl.pid i (lt_of_le_of_ne h0 fun hz => ?_) hN hnone
      have hidle := hc.inscrit _ hc.idle.1
      rw [hc.idle.2.1, hz, hnone] at hidle
      cases hidle
  have hfids := card_libres (n := NBQUEUE) (t := c.s.tableauFile) hc.fidUnique fun i => by
    constructor
    · intro hi
      obtain ⟨cell, hcell, rfl⟩ := List.mem_map.mp hi
      obtain ⟨h0, hN, hnone⟩ := hc.fidLibre cell hcell
      exact ⟨mem_entrees h0 hN, hnone⟩
    · rintro ⟨hi, hnone⟩
      exact hl.fid i (of_mem_entrees hi).1 (of_mem_entrees hi).2 hnone
  have hsids := card_libres (n := NBSEM) (t := c.s.tableauSem) hc.sidUnique fun i => by
    constructor
    · intro hi
      obtain ⟨cell, hcell, rfl⟩ := List.mem_map.mp hi
      obtain ⟨h0, hN, hnone⟩ := hc.sidLibre cell hcell
      exact ⟨mem_entrees h0 hN, hnone⟩
    · rintro ⟨hi, hnone⟩
      exact hl.sid i (of_mem_entrees hi).1 (of_mem_entrees hi).2 hnone
  have hprocs := hc.card_desProcessus
  have hfich := card_desFichiers (s := c.s)
  have hsem := card_desSemaphores (s := c.s)
  have hdpid : Multiset.card c.s.avoirs.desPids = c.s.pidLibreTete.length := by
    rw [Avoirs.desPids, Multiset.coe_card, List.length_map]
    rfl
  have htotal := hb.nbBlocs
  rw [Avoirs.possede, Multiset.card_add, Multiset.card_add, Multiset.card_add, Multiset.card_add, hn,
    hdpid, hfich, hsem, hist] at htotal
  have hrec : c.s.avoirs.recoltes = c.s.nbRecoltes := rfl
  rw [hrec] at htotal
  have hM : MAX_PROCESS.toNat = 50 := rfl
  have hQ : NBQUEUE.toNat = 10 := rfl
  have hS : NBSEM.toNat = 10 := rfl
  have hM' : MAX_PROCESS = 50 := rfl
  have hQ' : NBQUEUE = 10 := rfl
  have hS' : NBSEM = 10 := rfl
  have hL : c.s.nbProcessus = ((entrees MAX_PROCESS).filter fun i => (c.s.tableDesProcs i).isSome).card := rfl
  rw [hM', hQ', hS']
  omega

theorem nombre_de_blocs_exemple : ∃ c, Accessible c ∧ c.s.nbProcessus = 4 ∧ c.s.nbFils = 2 ∧
    c.s.nbMessages = 2 ∧ c.s.tableauSem 9 ≠ none ∧ c.s.clavier.indexHistory = 1 ∧
      c.s.nbRecoltes = 1 ∧ c.s.nbBlocs = 79 := by
  obtain ⟨c, hc, hproc, hfils, hmsg, hsem, hlignes, hrec⟩ := exists_inventaire
  have h := nombre_de_blocs hc
  rw [hproc, hfils, hmsg, hlignes, hrec] at h
  refine ⟨c, hc, hproc, hfils, hmsg, hsem, hlignes, hrec, ?_⟩
  unfold MAX_PROCESS NBQUEUE NBSEM at h
  omega

end

end GenesisOS
