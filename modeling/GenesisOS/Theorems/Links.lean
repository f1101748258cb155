import GenesisOS.Refinement.Links
import GenesisOS.Refinement.Primitives

/-!
# GenesisOS — the lists of `queue.h` are stable priority queues

A sequence of `queue_add`, `queue_out` and `queue_del` on the links of memory does
what the same sequence does on `LinkedQueues`, and on those an element leaves a
list by `queue_out` before the elements of smaller priority and, among those of
its priority, in the order of arrival. A priority field may be written while its
element is in no list.
-/

namespace GenesisOS

open Lib

/-- What a program does with lists. -/
inductive Operation (H P K : Type) where
  /-- `queue_add` of the element to the list. -/
  | ajoute (t : H) (p : P)
  /-- `queue_out` of the list. -/
  | sort (t : H)
  /-- `queue_del` of the element, whose link is the field at `listfield`. -/
  | supprime (p : P) (listfield : Nat)
  /-- An integer field is written. -/
  | ecrit (adr : Nat) (v : K)

/-- The lists, the priorities, and the date at which each element was last added;
the elements present at the start have negative dates. -/
structure Files (H P K : Type) where
  q : LinkedQueues H P
  cle : H → P → K
  date : P → Int
  horloge : Int

section

variable {H P K : Type} [DecidableEq H] [DecidableEq P] [LinearOrder K]

namespace Files

/-- Elements leave in the order of priorities, then of dates. -/
structure Ordonnees (e : Files H P K) : Prop where
  rang : ∀ t, Ranked (e.cle t) e.date (e.q.elems t)
  passe : ∀ t, ∀ p ∈ e.q.elems t, e.date p < e.horloge

/-- An operation that the macros allow: the element added is in no list, the
element deleted is in one, and no priority in use is written. -/
def Legale (D : Disposition H P) (e : Files H P K) : Operation H P K → Prop
  | .ajoute t p => e.q.link p = none ∧ D.Admet t p
  | .sort _ => True
  | .supprime p listfield => e.q.link p ≠ none ∧ D.adr p + listfield = D.cell p
  | .ecrit adr _ => ∀ t, ∀ p ∈ e.q.elems t, D.adr p + D.priofield t ≠ adr

def apres (D : Disposition H P) (e : Files H P K) : Operation H P K → Files H P K
  | .ajoute t p => { e with
      q := e.q.add t p (e.cle t)
      date := Function.update e.date p e.horloge
      horloge := e.horloge + 1 }
  | .sort t => match e.q.top t with
    | none => e
    | some p => { e with q := e.q.remove p }
  | .supprime p _ => { e with q := e.q.remove p }
  | .ecrit adr v => { e with
      cle := fun t p => if D.adr p + D.priofield t = adr then v else e.cle t p }

/-- The addresses that `queue_out` returns. -/
def resultat (D : Disposition H P) (e : Files H P K) : Operation H P K → List Nat
  | .sort t => match e.q.top t with
    | none => [0]
    | some p => [D.adr p]
  | _ => []

variable {D : Disposition H P} {e : Files H P K} {t : H} {p : P}

theorem sort_vide (h : e.q.top t = none) :
    e.apres D (.sort t) = e ∧ e.resultat D (.sort t) = [0] := by
  simp only [apres, resultat, h, and_self]

theorem sort_top (h : e.q.top t = some p) :
    e.apres D (.sort t) = { e with q := e.q.remove p } ∧ e.resultat D (.sort t) = [D.adr p] := by
  simp only [apres, resultat, h, and_self]

/-- Every operation of the sequence is legal when it comes. -/
def Legales (D : Disposition H P) (e : Files H P K) : List (Operation H P K) → Prop
  | [] => True
  | o :: l => e.Legale D o ∧ (e.apres D o).Legales D l

/-- The lists after a sequence of operations. -/
def fin (D : Disposition H P) (e : Files H P K) (l : List (Operation H P K)) : Files H P K :=
  l.foldl (apres D) e

def resultats (D : Disposition H P) (e : Files H P K) : List (Operation H P K) → List Nat
  | [] => []
  | o :: l => e.resultat D o ++ (e.apres D o).resultats D l

end Files

/-- The code of an operation, for lists of less than `tours` elements. -/
def Operation.code (D : Disposition H P) (tours : Nat) : Operation H P K → Memoire.Code K (List Nat)
  | .ajoute t p => do
    Memoire.queueAdd tours (D.adr p) (D.head t) (D.listfield t) (D.priofield t)
    pure []
  | .sort t => do
    let ptr ← Memoire.queueOut (D.head t) (D.listfield t)
    pure [ptr]
  | .supprime p listfield => do
    Memoire.queueDel (D.adr p) listfield
    pure []
  | .ecrit adr v => do
    modify fun m => { m with champ := Function.update m.champ adr (some v) }
    pure []

-- ---------------------------------------------------------------------------
-- One operation
-- ---------------------------------------------------------------------------

variable {D : Disposition H P} {m : Memoire K} {e : Files H P K} {o : Operation H P K}

theorem Files.Ordonnees.apres (h : e.Ordonnees) (hl : e.Legale D o) : (e.apres D o).Ordonnees := by
  cases o with
  | ajoute t p =>
    obtain ⟨hp, -⟩ := hl
    have hnot : ∀ t', p ∉ e.q.elems t' := fun t' => LinkedQueues.notMem_of_link_none hp
    have hdate : ∀ t', ∀ x ∈ e.q.elems t',
        Function.update e.date p e.horloge x = e.date x := by
      intro t' x hx
      refine Function.update_of_ne ?_ _ _
      rintro rfl
      exact hnot t' hx
    have hrang : ∀ t', Ranked (e.cle t') (Function.update e.date p e.horloge) (e.q.elems t') :=
      fun t' => (h.rang t').congr fun x hx => ⟨rfl, hdate t' x hx⟩
    refine ⟨fun t' => ?_, fun t' x hx => ?_⟩
    · show Ranked (e.cle t') _ ((e.q.add t p (e.cle t)).elems t')
      rw [LinkedQueues.elems_add hp]
      split
      · next ht =>
        subst ht
        refine (hrang t').insertByKey fun x hx => ?_
        show _ < Function.update e.date p e.horloge p
        rw [hdate t' x hx, Function.update_self]
        exact h.passe t' x hx
      · exact hrang t'
    · rcases (LinkedQueues.mem_add hp).mp hx with ⟨rfl, -⟩ | hx
      · show Function.update e.date x e.horloge x < e.horloge + 1
        rw [Function.update_self]
        exact Int.lt_succ _
      · show Function.update e.date p e.horloge x < e.horloge + 1
        rw [hdate t' x hx]
        exact (h.passe t' x hx).trans (Int.lt_succ _)
  | sort t =>
    cases ht : e.q.top t with
    | none => rwa [(Files.sort_vide ht).1]
    | some p =>
      rw [(Files.sort_top ht).1]
      exact ⟨fun t' => (h.rang t').sublist List.erase_sublist,
        fun t' x hx => h.passe t' x (LinkedQueues.mem_remove.mp hx).2⟩
  | supprime p listfield =>
    exact ⟨fun t' => (h.rang t').sublist List.erase_sublist,
      fun t' x hx => h.passe t' x (LinkedQueues.mem_remove.mp hx).2⟩
  | ecrit adr v =>
    refine ⟨fun t' => (h.rang t').congr fun x hx => ⟨?_, rfl⟩, h.passe⟩
    exact if_neg (hl t' x hx)

/-- What an operation does to the lists, to memory and to the elements. -/
def Effet (D : Disposition H P) (m m' : Memoire K) (e : Files H P K) : Operation H P K → Prop
  | .ajoute t p =>
    (∃ l₁ l₂, e.q.elems t = l₁ ++ l₂ ∧ (e.q.add t p (e.cle t)).elems t = l₁ ++ p :: l₂ ∧
      (∀ x ∈ l₁, e.cle t x < e.cle t p) ∧ ∀ x ∈ l₂, e.cle t p ≤ e.cle t x) ∧
    (∀ t', t' ≠ t → (e.q.add t p (e.cle t)).elems t' = e.q.elems t') ∧ m'.champ = m.champ ∧
    ∀ a, a ∉ D.toLayout.cells e.q t → a ≠ D.cell p → m'.next a = m.next a ∧ m'.prev a = m.prev a
  | .sort t =>
    (e.q.elems t = [] ∧ e.resultat D (.sort t) = [0] ∧ m' = m) ∨
    ∃ p, p ∈ e.q.elems t ∧ e.resultat D (.sort t) = [D.adr p] ∧ D.adr p ≠ 0 ∧
      (∀ x ∈ e.q.elems t, x ≠ p → Outranks (e.cle t) e.date p x) ∧
      e.q.elems t = (e.q.remove p).elems t ++ [p] ∧
      (∀ t', t' ≠ t → (e.q.remove p).elems t' = e.q.elems t') ∧ m'.champ = m.champ ∧
      m'.next (D.cell p) = 0 ∧ m'.prev (D.cell p) = 0 ∧
      ∀ a, a ∉ D.toLayout.cells e.q t → m'.next a = m.next a ∧ m'.prev a = m.prev a
  | .supprime p _ =>
    ∃ t, p ∈ e.q.elems t ∧ (e.q.remove p).elems t = (e.q.elems t).erase p ∧
      (∀ t', t' ≠ t → (e.q.remove p).elems t' = e.q.elems t') ∧ m'.champ = m.champ ∧
      m'.next (D.cell p) = 0 ∧ m'.prev (D.cell p) = 0 ∧
      ∀ a, a ∉ D.toLayout.cells e.q t → m'.next a = m.next a ∧ m'.prev a = m.prev a
  | .ecrit _ _ => m'.toLinks = m.toLinks

/-- A legal operation ends, with the result of the same operation on the queues. -/
theorem operation_refine (ho : e.Ordonnees) (hl : e.Legale D o) :
    ∃ n, ∀ tours, n ≤ tours → ∀ m, Represente m D e.q e.cle →
      ∃ m', o.code D tours m = .ok (e.resultat D o, m') ∧
        Represente m' D (e.apres D o).q (e.apres D o).cle ∧ Effet D m m' e o := by
  have hfin : ∀ n : Nat, (∀ tours, n ≤ tours → ∀ m, Represente m D e.q e.cle →
      wp (fun _ => False) (o.code D tours) (fun r m' => r = e.resultat D o ∧
        Represente m' D (e.apres D o).q (e.apres D o).cle ∧ Effet D m m' e o) m) →
      ∃ n, ∀ tours, n ≤ tours → ∀ m, Represente m D e.q e.cle →
        ∃ m', o.code D tours m = .ok (e.resultat D o, m') ∧
          Represente m' D (e.apres D o).q (e.apres D o).cle ∧ Effet D m m' e o := by
    intro n hn
    refine ⟨n, fun tours ht m hm => ?_⟩
    obtain ⟨r, m', hr, rfl, hrep, heff⟩ := wp_exists (hn tours ht m hm)
    exact ⟨m', hr, hrep, heff⟩
  cases o with
  | ajoute t p =>
    obtain ⟨hp, ht⟩ := hl
    refine hfin ((e.q.elems t).length + 1) fun tours htours m h => ?_
    simp only [Operation.code, wp_bind, wp_pure]
    refine Memoire.wp_queueAdd_liens h hp ht (by omega) ?_
    rintro m' l₁ l₂ c b hq h₁ h₂ hb rfl
    have hins : insertByKey (e.cle t) p (e.q.elems t) = l₁ ++ p :: l₂ := by
      rw [hq]
      exact insertByKey_place h₁ h₂
    have helems : (e.q.add t p (e.cle t)).elems t = l₁ ++ p :: l₂ := by
      rw [LinkedQueues.elems_add hp, if_pos rfl, hins]
    have hautres : ∀ t', t' ≠ t → (e.q.add t p (e.cle t)).elems t' = e.q.elems t' := by
      intro t' ht'
      rw [LinkedQueues.elems_add hp, if_neg ht']
    refine ⟨rfl, ⟨h.liens.insertBefore hp hq hins hb, fun t' x hx => ?_, h.champ⟩,
      ⟨l₁, l₂, hq, helems, h₁, fun x hx => ?_⟩, hautres, rfl, fun a ha hap =>
        h.liens.insertBefore_frame hq hb ha hap⟩
    · rcases (LinkedQueues.mem_add hp).mp hx with ⟨rfl, rfl⟩ | hx
      · exact ht
      · exact h.type t' x hx
    · -- the list is sorted, and the element in front of which `p` goes is not smaller
      have htri : l₂.Pairwise fun a b => e.cle t a ≤ e.cle t b := by
        have hrang := (ho.rang t).sorted
        rw [hq] at hrang
        exact (List.pairwise_append.mp hrang).2.1
      cases l₂ with
      | nil => cases hx
      | cons y l₂ =>
        have hy : e.cle t p ≤ e.cle t y := h₂ y rfl
        rcases List.mem_cons.mp hx with rfl | hx
        · exact hy
        · exact hy.trans ((List.pairwise_cons.mp htri).1 x hx)
  | sort t =>
    refine hfin 0 fun tours _ m h => ?_
    simp only [Operation.code, wp_bind, wp_pure]
    cases ht : e.q.top t with
    | none =>
      have hvide : e.q.elems t = [] := List.getLast?_eq_none_iff.mp ht
      obtain ⟨hapres, hres⟩ := Files.sort_vide (D := D) ht
      unfold wp
      rw [Memoire.queueOut_vide h hvide, hapres, hres]
      exact ⟨rfl, h, .inl ⟨hvide, hres, rfl⟩⟩
    | some p =>
      obtain ⟨hapres, hres⟩ := Files.sort_top (D := D) ht
      rw [hapres, hres]
      refine Memoire.wp_queueOut_liens h ht ?_
      intro m' hm'
      obtain ⟨hrep, hautres, hchamp, hnext, hprev, hcadre⟩ := h.unlink (LinkedQueues.link_of_top ht) hm'
      exact ⟨rfl, hrep, .inr ⟨p, LinkedQueues.mem_of_top ht, hres, D.adr_ne p,
        fun x hx hne => (ho.rang t).last ht hx hne, LinkedQueues.elems_remove_top ht, hautres,
        hchamp, hnext, hprev, hcadre⟩⟩
  | supprime p listfield =>
    obtain ⟨hp, hcell⟩ := hl
    obtain ⟨t, ht⟩ := Option.ne_none_iff_exists'.mp hp
    refine hfin 0 fun tours _ m h => ?_
    simp only [Operation.code, wp_bind, wp_pure]
    refine Memoire.wp_queueDel_liens h ht hcell ?_
    intro m' hm'
    obtain ⟨hrep, hautres, hchamp, hnext, hprev, hcadre⟩ := h.unlink ht hm'
    exact ⟨rfl, hrep, t, (e.q.mem_iff p t).mpr ht, rfl, hautres, hchamp, hnext, hprev, hcadre⟩
  | ecrit adr v =>
    refine hfin 0 fun tours _ m h => ⟨rfl, ⟨h.liens, h.type, fun t p ht => ?_⟩, rfl⟩
    show Function.update m.champ adr (some v) (D.adr p + D.priofield t) =
      some (if D.adr p + D.priofield t = adr then v else e.cle t p)
    rw [Function.update_apply]
    split
    · rfl
    · exact h.champ t p ht

-- ---------------------------------------------------------------------------
-- Sequences of operations
-- ---------------------------------------------------------------------------

/-- 1 for an element that is in a list. -/
def Files.present (e : Files H P K) (p : P) : Nat := if e.q.link p = none then 0 else 1

/-- The additions and the deletions of an element. -/
def ajouts (p : P) (l : List (Operation H P K)) : Nat :=
  l.countP fun o => match o with | .ajoute _ p' => p' = p | _ => false

def suppressions (p : P) (l : List (Operation H P K)) : Nat :=
  l.countP fun o => match o with | .supprime p' _ => p' = p | _ => false

/-- An operation adds or takes out the elements that it names or returns. -/
theorem Files.bilan_operation (hl : e.Legale D o) (p : P) :
    e.present p + ajouts p [o] =
      (e.resultat D o).count (D.adr p) + suppressions p [o] + (e.apres D o).present p := by
  have hremove : ∀ {p' : P}, e.q.link p' ≠ none →
      e.present p = (if p' = p then 1 else 0) +
        ({ e with q := e.q.remove p' } : Files H P K).present p := by
    intro p' hp'
    unfold present
    rw [LinkedQueues.link_remove]
    by_cases hpp : p = p'
    · subst hpp
      rw [if_neg hp', if_pos rfl, if_pos rfl, if_pos rfl]
    · rw [if_neg hpp, if_neg (Ne.symm hpp), Nat.zero_add]
  cases o with
  | ajoute t p' =>
    obtain ⟨hp', -⟩ := hl
    show (if e.q.link p = none then 0 else 1) + _ =
      0 + 0 + if (e.q.add t p' (e.cle t)).link p = none then 0 else 1
    rw [LinkedQueues.link_add hp', ajouts, List.countP_singleton]
    by_cases hpp : p = p'
    · subst hpp
      simp [hp']
    · simp [hpp, Ne.symm hpp]
  | sort t =>
    cases ht : e.q.top t with
    | none =>
      obtain ⟨hapres, hres⟩ := Files.sort_vide (D := D) ht
      rw [hapres, hres, List.count_singleton, if_neg (by simpa using (D.adr_ne p).symm)]
      show e.present p + 0 = 0 + 0 + e.present p
      omega
    | some p' =>
      obtain ⟨hapres, hres⟩ := Files.sort_top (D := D) ht
      rw [hapres, hres, hremove (by rw [LinkedQueues.link_of_top ht]; nofun), List.count_singleton]
      have hiff : (D.adr p' == D.adr p) = true ↔ p' = p := by
        rw [beq_iff_eq, D.adr_injective.eq_iff]
      rw [if_congr hiff rfl rfl]
      rfl
  | supprime p' listfield =>
    rw [hremove hl.1]
    show _ = 0 + suppressions p [.supprime p' listfield] + _
    rw [suppressions, List.countP_singleton]
    have hiff : decide (p' = p) = true ↔ p' = p := decide_eq_true_iff
    rw [if_congr hiff rfl rfl, Nat.zero_add]
    rfl
  | ecrit adr v =>
    show e.present p + 0 = 0 + 0 + e.present p
    omega

/-- Every operation of the sequence ends, from memory that holds the lists, with the
result and the effect of the same operation on the queues. -/
def Deroule (D : Disposition H P) (tours : Nat) (m : Memoire K) (e : Files H P K) :
    List (Operation H P K) → Prop
  | [] => Represente m D e.q e.cle ∧ e.Ordonnees
  | o :: l => (Represente m D e.q e.cle ∧ e.Ordonnees) ∧
    ∃ m', o.code D tours m = .ok (e.resultat D o, m') ∧ Effet D m m' e o ∧
      Deroule D tours m' (e.apres D o) l

theorem exists_deroule (l : List (Operation H P K)) (ho : e.Ordonnees) (hl : e.Legales D l) :
    ∃ n, ∀ tours, n ≤ tours → ∀ m, Represente m D e.q e.cle → Deroule D tours m e l := by
  induction l generalizing e with
  | nil => exact ⟨0, fun _ _ m h => ⟨h, ho⟩⟩
  | cons o l ih =>
    obtain ⟨n, hn⟩ := operation_refine ho hl.1
    obtain ⟨n', hn'⟩ := ih (ho.apres hl.1) hl.2
    refine ⟨max n n', fun tours ht m h => ⟨⟨h, ho⟩, ?_⟩⟩
    obtain ⟨m', hm', hrep, heff⟩ := hn tours ((le_max_left _ _).trans ht) m h
    exact ⟨m', hm', heff, hn' tours ((le_max_right _ _).trans ht) m' hrep⟩

/-- Over a sequence of operations no element is lost or duplicated. -/
theorem Files.bilan (l : List (Operation H P K)) (hl : e.Legales D l) (p : P) :
    e.present p + ajouts p l =
      (e.resultats D l).count (D.adr p) + suppressions p l + (e.fin D l).present p := by
  induction l generalizing e with
  | nil =>
    show e.present p + 0 = 0 + 0 + e.present p
    omega
  | cons o l ih =>
    have h₁ := Files.bilan_operation hl.1 p
    have h₂ := ih hl.2
    have hajouts : ajouts p (o :: l) = ajouts p [o] + ajouts p l := by
      rw [← List.singleton_append]
      exact List.countP_append
    have hsuppr : suppressions p (o :: l) = suppressions p [o] + suppressions p l := by
      rw [← List.singleton_append]
      exact List.countP_append
    have hcount : (e.resultats D (o :: l)).count (D.adr p) =
        (e.resultat D o).count (D.adr p) + ((e.apres D o).resultats D l).count (D.adr p) :=
      List.count_append
    have hfin : e.fin D (o :: l) = (e.apres D o).fin D l := rfl
    rw [hajouts, hsuppr, hcount, hfin]
    omega

-- ---------------------------------------------------------------------------
-- From a memory that holds sorted lists
-- ---------------------------------------------------------------------------

/-- Lists to start from: an element nearer to the end of its list is older. -/
def Files.initial (q : LinkedQueues H P) (cle : H → P → K) : Files H P K where
  q := q
  cle := cle
  date p := match q.link p with
    | none => 0
    | some t => - 1 - ((q.elems t).idxOf p : Int)
  horloge := 0

theorem Files.initial_ordonnees {q : LinkedQueues H P} {cle : H → P → K}
    (h : ∀ t, q.Sorted t (cle t)) : (Files.initial q cle).Ordonnees := by
  have hdate : ∀ t, ∀ p ∈ q.elems t, (Files.initial q cle).date p = - 1 - ((q.elems t).idxOf p : Int) := by
    intro t p hp
    show (match q.link p with
      | none => (0 : Int)
      | some t => - 1 - ((q.elems t).idxOf p : Int)) = _
    rw [LinkedQueues.link_of_mem hp]
  refine ⟨fun t => ?_, fun t p hp => ?_⟩
  · show (q.elems t).Pairwise fun a b => Outranks (cle t) (Files.initial q cle).date b a
    refine List.pairwise_iff_getElem.mpr fun i j hi hj hij => ?_
    have hle := List.pairwise_iff_getElem.mp (h t) i j hi hj hij
    have hi' : (Files.initial q cle).date ((q.elems t)[i]) = - 1 - (i : Int) := by
      rw [hdate t _ (List.getElem_mem hi), (q.nodup t).idxOf_getElem]
    have hj' : (Files.initial q cle).date ((q.elems t)[j]) = - 1 - (j : Int) := by
      rw [hdate t _ (List.getElem_mem hj), (q.nodup t).idxOf_getElem]
    rcases hle.lt_or_eq with hlt | heq
    · exact .inl hlt
    · refine .inr ⟨heq, ?_⟩
      rw [hi', hj']
      omega
  · rw [hdate t p hp]
    show _ < (0 : Int)
    omega

/-- From a memory that holds sorted lists, every legal sequence of operations ends,
each with its result and its effect on the lists, and no element is lost or
duplicated. -/
theorem files_chainees {q : LinkedQueues H P} {cle : H → P → K} (h : Represente m D q cle)
    (htri : ∀ t, q.Sorted t (cle t)) (l : List (Operation H P K))
    (hl : (Files.initial q cle).Legales D l) :
    (∃ n, ∀ tours, n ≤ tours → Deroule D tours m (Files.initial q cle) l) ∧
      ∀ p, (Files.initial q cle).present p + ajouts p l =
        ((Files.initial q cle).resultats D l).count (D.adr p) + suppressions p l +
          ((Files.initial q cle).fin D l).present p := by
  obtain ⟨n, hn⟩ := exists_deroule l (Files.initial_ordonnees htri) hl
  exact ⟨⟨n, fun tours ht => hn tours ht m h⟩, Files.bilan l hl⟩

end

/-! ## The lists of the kernel -/

section

variable {D : Disposition Tete Ptr} {m : Memoire Int} {s s' : Kernel} {cle : Tete → Processus → Int}
  {t : Tete} {p : Ptr}

/-- Where `queueAdd` of the model ends, `queue_add` ends with the same lists. -/
theorem queueAdd_noyau (h : Represente m D s.chainage fun t p => cle t (s.tas p))
    (ht : D.Admet t p) (hr : queueAdd p t (cle t) s = .ok ((), s')) :
    ∃ n, ∀ tours, n ≤ tours → ∃ m',
      Memoire.queueAdd tours (D.adr p) (D.head t) (D.listfield t) (D.priofield t) m = .ok ((), m') ∧
        Represente m' D s'.chainage fun t p => cle t (s'.tas p) := by
  have heq : queueAdd p t (cle t) s =
      (if s.lien p = none then surCore (·.ajoute t p (cle t)) else throw (.assertion .queueAdd)) s :=
    rfl
  rw [heq] at hr
  by_cases hp : s.lien p = none
  swap
  · rw [if_neg hp] at hr
    cases hr
  rw [if_pos hp] at hr
  cases hr
  refine ⟨(s.chainage.elems t).length + 1, fun tours htours => ?_⟩
  refine (wp_exists (Q := fun _ m' => Represente m' D _ _)
    (Memoire.wp_queueAdd_liens h hp ht (by omega) ?_)).elim fun _ ⟨m', hm', hrep⟩ => ⟨m', hm', hrep⟩
  rintro m' l₁ l₂ c b hq h₁ h₂ hb rfl
  have hins : insertByKey (fun x => cle t (s.tas x)) p (s.chainage.elems t) = l₁ ++ p :: l₂ := by
    rw [hq]
    exact insertByKey_place h₁ h₂
  refine ⟨h.liens.insertBefore hp hq hins hb, fun t' x hx => ?_, h.champ⟩
  rcases (LinkedQueues.mem_add hp).mp hx with ⟨rfl, rfl⟩ | hx
  · exact ht
  · exact h.type t' x hx

/-- Where `queueOut` of the model ends, `queue_out` returns the same element and
leaves the same lists. -/
theorem queueOut_noyau {r : Option Ptr} (h : Represente m D s.chainage fun t p => cle t (s.tas p))
    (hr : queueOut t s = .ok (r, s')) :
    ∃ m', Memoire.queueOut (D.head t) (D.listfield t) m = .ok ((r.map D.adr).getD 0, m') ∧
      Represente m' D s'.chainage fun t p => cle t (s'.tas p) := by
  cases htop : s.chainage.top t with
  | none =>
    rw [GenesisOS.queueOut_vide htop] at hr
    cases hr
    exact ⟨m, Memoire.queueOut_vide h (List.getLast?_eq_none_iff.mp htop), h⟩
  | some p =>
    obtain ⟨rfl, hs'⟩ : r = some p ∧ s'.toCore = s.toCore.retire p := by
      refine wp_ok (E := fun _ => True) (Q := fun r s' => r = some p ∧ s'.toCore = s.toCore.retire p)
        (wp_queueOut (fun hx => ?_) fun q _ hq hcore => ?_) hr
      · rw [htop] at hx
        cases hx
      · rw [htop] at hq
        cases hq
        exact ⟨rfl, hcore⟩
    obtain ⟨_, m', hm', rfl, hrep⟩ := wp_exists (Q := fun ptr m' => ptr = D.adr p ∧
      Represente m' D (s.chainage.remove p) fun t p => cle t (s.tas p))
      (Memoire.wp_queueOut_liens h htop fun m' hm' =>
        ⟨rfl, (h.unlink (LinkedQueues.link_of_top htop) hm').1⟩)
    refine ⟨m', hm', ?_⟩
    rw [hs']
    exact hrep

/-- Where `queueDel` of the model ends, `queue_del` ends with the same lists. -/
theorem queueDel_noyau (h : Represente m D s.chainage fun t p => cle t (s.tas p)) {listfield : Nat}
    (hcell : D.adr p + listfield = D.cell p) (hr : queueDel p s = .ok ((), s')) :
    ∃ m', Memoire.queueDel (D.adr p) listfield m = .ok ((), m') ∧
      Represente m' D s'.chainage fun t p => cle t (s'.tas p) := by
  have heq : queueDel p s =
      (if s.lien p = none then throw (.assertion .queueDel) else surCore (·.retire p)) s := rfl
  rw [heq] at hr
  cases hp : s.lien p with
  | none =>
    rw [if_pos hp] at hr
    cases hr
  | some t =>
    rw [if_neg (by rw [hp]; nofun)] at hr
    cases hr
    obtain ⟨_, m', hm', hrep⟩ := wp_exists (Q := fun _ m' =>
      Represente m' D (s.chainage.remove p) fun t p => cle t (s.tas p))
      (Memoire.wp_queueDel_liens h hp hcell fun m' hm' => (h.unlink hp hm').1)
    exact ⟨m', hm', hrep⟩

end

/-! ## An example -/

/-- A list and two elements of one type. -/
def deuxElements : Disposition Unit Bool where
  head _ := 100
  cell b := if b then 212 else 312
  head_injective _ _ _ := rfl
  cell_injective := by
    intro a b
    cases a <;> cases b <;> decide
  apart _ b := by cases b <;> decide
  head_ne _ := by decide
  cell_ne b := by cases b <;> decide
  adr b := if b then 200 else 300
  listfield _ := 12
  priofield _ := 4
  adr_ne b := by cases b <;> decide
  adr_injective := by
    intro a b
    cases a <;> cases b <;> decide

/-- The list is empty and both priorities are 5. -/
def memoireVide : Memoire Nat where
  prev a := if a = 100 then 100 else 0
  next a := if a = 100 then 100 else 0
  champ a := if a = 204 ∨ a = 304 then some 5 else none

/-- Of two elements of the same priority, the first one added comes out. -/
theorem files_chainees_exemple : ∃ n, ∀ tours, n ≤ tours →
    Deroule deuxElements tours memoireVide (Files.initial LinkedQueues.empty fun _ _ => 5)
      [.ajoute () false, .ajoute () true, .sort ()] ∧
    (Files.initial (LinkedQueues.empty (H := Unit)) fun _ _ => 5).resultats deuxElements
      [.ajoute () false, .ajoute () true, .sort ()] = [300] := by
  have h : Represente memoireVide deuxElements LinkedQueues.empty fun _ _ => 5 := by
    refine ⟨⟨fun _ => Links.ring_nil.mpr ⟨rfl, rfl⟩, fun b _ => ?_⟩, nofun, fun _ b _ => ?_⟩
    · cases b <;> exact ⟨rfl, rfl⟩
    · cases b <;> rfl
  obtain ⟨⟨n, hn⟩, -⟩ := files_chainees h (fun _ => .nil)
    [.ajoute () false, .ajoute () true, .sort ()] ⟨⟨rfl, rfl⟩, ⟨rfl, rfl⟩, trivial, trivial⟩
  exact ⟨n, fun tours ht => ⟨hn tours ht, by decide⟩⟩

end GenesisOS
