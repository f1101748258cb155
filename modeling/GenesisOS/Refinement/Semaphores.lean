import GenesisOS.Invariants.Semaphores
import GenesisOS.Refinement.Files

/-!
# GenesisOS — semaphores refine the transitions

The calls that wake processes are described exactly: `AppelSignal`, its
iteration `Signaux` for `signaln`, and `AppelVide` for `sdelete` and `sreset`.
-/

namespace GenesisOS

open Lib

/-- The semaphore `sid` has a process to hand to a `signal` that will look for
one. Where it has none, `signal` dereferences a null pointer. -/
def Core.Servi (s : Core) (sid : Int) : Prop :=
  ∀ sem, s.tableauSem sid = some sem → sem.count + 1 ≤ 0 → s.elems (.semaphore sid) ≠ []

theorem Core.Compte.servi {s : Core} (h : s.Compte) (sid : Int) : s.Servi sid := by
  intro sem hs hneg hnil
  have hlen := h sid sem hs
  rw [hnil] at hlen
  have hpos : (0 : Int) < max 0 (-sem.count) := lt_max_of_lt_right (by omega)
  rw [← hlen] at hpos
  exact absurd hpos (by simp)

section

variable {C : Cadre} {s : Kernel} {R : Unit → Kernel → Prop}

-- ---------------------------------------------------------------------------
-- Identifiers
-- ---------------------------------------------------------------------------

theorem isSidValideAndExist_eq (h : Coherent s.toCore) (sid : Int) :
    isSidValideAndExist s sid = (s.tableauSem sid).isSome := by
  unfold isSidValideAndExist
  cases hs : s.tableauSem sid with
  | none => simp
  | some sem =>
    obtain ⟨h0, hN⟩ := h.sem sid sem hs
    simp [h0, hN]

theorem wp_addSid {sid : Int}
    (h : ∀ s', s'.toCore = { s.toCore with
      sidListe := insertByKey SidLibre.sid ⟨s.prochain, sid⟩ s.sidListe
      prochain := s.prochain + 1 } → R () s') : wp C.tolere (addSid sid) R s := by
  simp only [addSid, wp_bind]
  refine wp_memAllocNonNul ?_ rfl
  intro s₁ h₁
  refine wp_surCore ?_
  intro s₂ h₂
  refine h s₂ ?_
  rw [h₂, h₁]
  rfl

theorem wp_newSid {Q : Int → Kernel → Prop} (hnil : s.sidListe = [] → Q (-1) s)
    (hsnoc : ∀ l cell s', s.sidListe = l ++ [cell] →
      s'.toCore = { s.toCore with sidListe := l } → Q cell.sid s') :
    wp C.tolere newSid Q s := by
  simp only [newSid, wp_bind, wp_get]
  cases hl : s.sidListe.getLast? with
  | none => exact hnil (List.getLast?_eq_none_iff.mp hl)
  | some cell =>
    obtain ⟨l, hl⟩ := List.getLast?_eq_some_iff.mp hl
    simp only [wp_bind]
    refine wp_surCore ?_
    intro s₁ h₁
    refine wp_memFree ?_
    intro s₂ h₂
    refine hsnoc l cell s₂ hl ?_
    rw [h₂, h₁]
    simp [hl]

-- ---------------------------------------------------------------------------
-- `scount` and `screate`
-- ---------------------------------------------------------------------------

theorem scount_raffine (h : Stable s.toCore) (he : s.toCore.EnCours) (sid : Int) :
    Raffine C (scount sid) s := by
  unfold Raffine
  simp only [scount, wp_bind, wp_get, isSidValideAndExist_eq h.coherent]
  cases hs : s.tableauSem sid with
  | none => exact .rien he
  | some sem => exact .rien he

/-- A call of `screate` with the value `c`: the structure of the new semaphore is
at a new address. -/
inductive AppelScreate (s : Core) (c : Int) : Suite → Core → Prop
  | refus : AppelScreate s c (.retour (-1)) s
  | echec {l : List SidLibre} {cell : SidLibre} {adr n : Nat} (hl : s.sidListe = l ++ [cell])
      (hn : s.prochain ≤ n) :
      AppelScreate s c (.retour (-1))
        { s with sidListe := insertByKey SidLibre.sid ⟨adr, cell.sid⟩ l, prochain := n }
  | cree {l : List SidLibre} {cell : SidLibre} {m : Nat} {x : Semaphore}
      (hl : s.sidListe = l ++ [cell]) (h0 : 0 ≤ c) (hsem : x.count = c) (hfrais : s.prochain ≤ x.adr)
      (hm : x.adr < m) (hnom : x.sid = cell.sid) :
      AppelScreate s c (.retour cell.sid)
        (({ s with
          sidListe := l
          prochain := m
          chainage := s.chainage.reset (.semaphore cell.sid) }.majSem cell.sid (some x)).note
            (.semCree x.adr c))

theorem wp_screate {Q : Suite → Kernel → Prop} (h : Coherent s.toCore) (n : Int)
    (hQ : ∀ r s', AppelScreate s.toCore (versShort n) r s'.toCore → Q r s') :
    wp C.tolere (screate n) Q s := by
  simp only [screate]
  split
  · exact hQ _ s .refus
  next hcount =>
  simp only [wp_bind]
  refine wp_newSid (fun _ => hQ _ s .refus) ?_
  intro l cell s₁ hl h₁
  obtain ⟨h0, -, -⟩ := h.sidLibre cell (by rw [hl]; simp)
  have hne : cell.sid ≠ -1 := by omega
  simp only [hne, if_false, wp_bind]
  refine wp_memAlloc ?_
  intro r s₂ hr h₂
  cases r with
  | none =>
    simp only [wp_bind]
    refine wp_addSid ?_
    intro s₃ h₃
    refine hQ _ s₃ ?_
    rw [h₃, h₂, h₁]
    exact .echec hl (Nat.le_succ_of_le (Nat.le_succ _))
  | some adr =>
    simp only [wp_bind]
    refine wp_surCore ?_
    intro s₃ h₃
    refine wp_surCore ?_
    intro s₄ h₄
    refine wp_note ?_
    intro s₅ h₅
    have hadr : adr = s.prochain := by
      rw [hr adr rfl, h₁]
    subst hadr
    refine hQ _ s₅ ?_
    rw [h₅, h₄, h₃, h₂, h₁]
    exact .cree (x := ⟨s.prochain, cell.sid, versShort n, versShort_bounds n⟩) hl
      (not_lt.mp hcount) rfl le_rfl (Nat.lt_succ_self _) rfl

theorem AppelScreate.segment {s s' : Core} {r : Suite} {c : Int} (h : Stable s) (he : s.EnCours)
    (ha : AppelScreate s c r s') : Segment C r s s' := by
  cases ha with
  | refus => exact .rien he
  | echec hl hn => exact .un h he (.rendSid hl hn) Cadre.admetRetour_muette
  | cree hl h0 hsem hfrais hm hnom =>
    exact .un h he (.creeSem hl rfl h0 hsem rfl hfrais hm hnom) Cadre.admetRetour_muette

theorem screate_raffine (h : Stable s.toCore) (he : s.toCore.EnCours) (n : Int) :
    Raffine C (screate n) s :=
  wp_screate h.coherent _ fun _ _ ha => ha.segment h he

-- ---------------------------------------------------------------------------
-- `sdelete` and `sreset`
-- ---------------------------------------------------------------------------

theorem wp_rejetteTours {sid status : Int} {sem : Semaphore} (n : Nat)
    (h : Stable s.toCore) (hn : (s.elems (.semaphore sid)).length = n)
    (hR : ∀ s', Relation.ReflTransGen (Rejet sid sem status) s.toCore s'.toCore →
      s'.elems (.semaphore sid) = [] → R () s') :
    wp C.tolere (tantQueQueueOut.tours (.semaphore sid) (fun proc => do
      ecrire .noyau proc fun r => { r with etat := .activable, operationStatus := status }
      queueAdd proc .procActivables (·.prio)
      note (.semRejet sem.adr proc status)) n) R s := by
  induction n generalizing s with
  | zero => exact hR s .refl (List.length_eq_zero_iff.mp hn)
  | succ n ih =>
    simp only [tantQueQueueOut.tours, wp_bind]
    refine wp_queueOut ?_ ?_
    · intro hnone
      exact hR s .refl (List.getLast?_eq_none_iff.mp hnone)
    intro p s₁ hp h₁
    have hv := h.coherent.vivant_of_top hp
    simp only [wp_bind]
    refine wp_ecrire (by rw [h₁]; exact hv) ?_
    intro s₂ h₂
    refine wp_queueAdd (by rw [h₂, h₁]; simp [Core.lien_retire]) ?_
    intro s₃ h₃
    refine wp_note ?_
    intro s₄ h₄
    have hr : Rejet sid sem status s.toCore s₄.toCore := by
      refine ⟨p, hp, ?_⟩
      rw [h₄, h₃, h₂, h₁]
      rfl
    refine ih (h.rejet hr) ?_ ?_
    · have hlen := congrArg List.length
        (Core.elems_eveille_top (f := fun r => { r with operationStatus := status }) hp (by simp))
      have hs₄ : s₄.elems (.semaphore sid) =
          (s.toCore.eveille p fun r => { r with operationStatus := status }).elems
            (.semaphore sid) := by
        rw [h₄, h₃, h₂, h₁]
        rfl
      rw [hs₄]
      rw [hn, List.length_append, List.length_singleton] at hlen
      exact (Nat.succ.inj hlen).symm
    · intro s' hrest hvide
      exact hR s' (.head hr hrest) hvide

theorem wp_rejetteAttente {sid status : Int} {sem : Semaphore} (h : Stable s.toCore)
    (hR : ∀ s', Relation.ReflTransGen (Rejet sid sem status) s.toCore s'.toCore →
      s'.elems (.semaphore sid) = [] → R () s') :
    wp C.tolere (rejetteAttente sid sem status) R s := by
  simp only [rejetteAttente, tantQueQueueOut, wp_bind, wp_get]
  exact wp_rejetteTours _ h rfl hR

/-- A call of `sdelete` or `sreset`: every waiting process is released with the
status -3 or -4. -/
inductive AppelVide (s : Core) (sid : Int) : Int → Suite → Core → Prop
  | refus {status : Int} : AppelVide s sid status (.retour (-1)) s
  | sdelete {s₁ : Core} {sem : Semaphore} {adr n : Nat} (hs : s.tableauSem sid = some sem)
      (hr : Relation.ReflTransGen (Rejet sid sem (-3)) s s₁)
      (hvide : s₁.elems (.semaphore sid) = []) (hn : s₁.prochain ≤ n) :
      AppelVide s sid (-3) (.retour 0)
        { s₁.majSem sid none with
          sidListe := Lib.insertByKey SidLibre.sid ⟨adr, sid⟩ s₁.sidListe, prochain := n }
  | sreset {s₁ : Core} {sem : Semaphore} {c : Int} (hs : s.tableauSem sid = some sem)
      (hr : Relation.ReflTransGen (Rejet sid sem (-4)) s s₁)
      (hvide : s₁.elems (.semaphore sid) = []) (h0 : 0 ≤ c) (hc : c ≤ SHORTINT_MAX) :
      AppelVide s sid (-4) (.retour 0) (s₁.majSem sid (some (sem.setCount c)))

theorem wp_sdelete {Q : Suite → Kernel → Prop} (h : Stable s.toCore) (sid : Int)
    (hQ : ∀ r s', AppelVide s.toCore sid (-3) r s'.toCore →
      (s.tableauSem sid = none → r = .retour (-1)) →
      (s.tableauSem sid ≠ none → r = .retour 0) → Q r s') : wp C.tolere (sdelete sid) Q s := by
  simp only [sdelete, wp_bind, wp_get, isSidValideAndExist_eq h.coherent]
  cases hs : s.tableauSem sid with
  | none => exact hQ _ s .refus (fun _ => rfl) (fun hx => absurd hs hx)
  | some sem =>
    simp only [Option.isSome_some, Bool.not_true, Bool.false_eq_true, if_false, wp_bind]
    refine wp_rejetteAttente h ?_
    intro s₁ hr hvide
    refine wp_memFree ?_
    intro s₂ h₂
    refine wp_surCore ?_
    intro s₃ h₃
    refine wp_addSid ?_
    intro s₄ h₄
    rw [wp_pure]
    refine hQ _ s₄ ?_ (fun hx => by rw [hs] at hx; cases hx) (fun _ => rfl)
    rw [h₄, h₃, h₂]
    exact .sdelete hs hr hvide (Nat.le_succ _)

theorem wp_sreset {Q : Suite → Kernel → Prop} (h : Stable s.toCore) (sid n : Int)
    (hQ : ∀ r s', AppelVide s.toCore sid (-4) r s'.toCore →
      (s.tableauSem sid = none ∨ versShort n < 0 → r = .retour (-1)) →
      (¬ (s.tableauSem sid = none ∨ versShort n < 0) → r = .retour 0) → Q r s') :
    wp C.tolere (sreset sid n) Q s := by
  simp only [sreset, wp_bind, wp_get, isSidValideAndExist_eq h.coherent]
  cases hs : s.tableauSem sid with
  | none => exact hQ _ s .refus (fun _ => rfl) (fun hx => absurd (.inl hs) hx)
  | some sem =>
    by_cases hn : versShort n < 0
    · simp only [Option.isSome_some, Bool.not_true, hn, or_true, if_true, wp_pure]
      exact hQ _ s .refus (fun _ => rfl) (fun hx => absurd (.inr hn) hx)
    · simp only [Option.isSome_some, Bool.not_true, Bool.false_eq_true, hn, or_false, if_false,
        wp_bind]
      refine wp_rejetteAttente h ?_
      intro s₁ hr hvide
      refine wp_surCore ?_
      intro s₂ h₂
      rw [wp_pure]
      refine hQ _ s₂ ?_ ?_ (fun _ => rfl)
      · rw [h₂]
        exact .sreset hs hr hvide (not_lt.mp hn) (versShort_bounds n).2
      · rintro (hx | hx)
        · rw [hs] at hx
          cases hx
        · exact absurd hx hn

theorem AppelVide.segment {s s' : Core} {sid status : Int} {r : Suite} (h : Stable s) (he : s.EnCours)
    (hfort : ∀ p ∈ s.elems (.semaphore sid), s.fort p = true → C.fort)
    (hC : ∀ sem, s.tableauSem sid = some sem → C.efface (.sem sem.adr))
    (ha : AppelVide s sid status r s') : Segment C r s s' := by
  have hany : (s.elems (.semaphore sid)).any s.fort = true → C.fort := by
    intro hx
    obtain ⟨p, hp, hf⟩ := List.any_eq_true.mp hx
    exact hfort p hp hf
  have hb : ∀ p ∈ s.elems (.semaphore sid), s.fort p = true →
      (s.elems (.semaphore sid)).any s.fort = true :=
    fun p hp hf => List.any_eq_true.mpr ⟨p, hp, hf⟩
  cases ha with
  | refus => exact .rien he
  | sdelete hs hr hvide hn =>
    exact .un h he (.sdelete hs hr hvide hn hb)
      (Cadre.admetRetour_of rfl nofun hany (fun _ hx => Option.some.inj hx ▸ hC _ hs) nofun nofun)
  | sreset hs hr hvide h0 hc =>
    exact .un h he (.sreset hs hr hvide h0 hc hb)
      (Cadre.admetRetour_of rfl nofun hany (fun _ hx => Option.some.inj hx ▸ hC _ hs) nofun nofun)

-- ---------------------------------------------------------------------------
-- `signal` and `signaln`
-- ---------------------------------------------------------------------------

/-- A call of `signal`. -/
inductive AppelSignal (s : Core) (sid : Int) : Suite → Core → Prop
  | refus (hs : s.tableauSem sid = none) : AppelSignal s sid (.retour (-1)) s
  | plein {sem : Semaphore} (hs : s.tableauSem sid = some sem)
      (hmax : SHORTINT_MAX - 1 < sem.count) : AppelSignal s sid (.retour (-2)) s
  | libre {sem : Semaphore} (hs : s.tableauSem sid = some sem) (hmax : sem.count ≤ SHORTINT_MAX - 1)
      (hpos : 0 < sem.count + 1) :
      AppelSignal s sid (.retour 0)
        ((s.majSem sid (some (sem.setCount (sem.count + 1)))).note (.semUnite sem.adr s.procElu))
  | reveil {sem : Semaphore} {p : Ptr} (hs : s.tableauSem sid = some sem)
      (hmax : sem.count ≤ SHORTINT_MAX - 1) (hneg : sem.count + 1 ≤ 0)
      (hp : s.chainage.top (.semaphore sid) = some p) :
      AppelSignal s sid (.retour 0)
        ((((s.majSem sid (some (sem.setCount (sem.count + 1)))).note (.semUnite sem.adr s.procElu)).eveille
          p fun r => { r with operationStatus := 1 }).note (.semAccorde sem.adr p))

/-- `n` calls of `signal`. -/
inductive Signaux (sid : Int) : Nat → Core → Core → Prop
  | zero {s : Core} : Signaux sid 0 s s
  | succ {n : Nat} {r : Suite} {s s₁ s' : Core} (h : AppelSignal s sid r s₁)
      (h' : Signaux sid n s₁ s') : Signaux sid (n + 1) s s'

/-- A call of `signaln`. -/
inductive AppelSignaln (s : Core) (sid n : Int) : Suite → Core → Prop
  | refus (hs : s.tableauSem sid = none) : AppelSignaln s sid n (.retour (-1)) s
  | plein {sem : Semaphore} (hs : s.tableauSem sid = some sem)
      (hmax : SHORTINT_MAX - versShort n < sem.count) : AppelSignaln s sid n (.retour (-2)) s
  | signaux {sem : Semaphore} {s' : Core} (hs : s.tableauSem sid = some sem)
      (hmax : sem.count ≤ SHORTINT_MAX - versShort n)
      (h : Signaux sid (versShort n).toNat s s') : AppelSignaln s sid n (.retour 0) s'

theorem wp_signal {Q : Suite → Kernel → Prop} (h : Coherent s.toCore) (sid : Int)
    (hnul : s.toCore.Servi sid ∨ C.faute (.accesNul .signal))
    (hQ : ∀ r s', AppelSignal s.toCore sid r s'.toCore → Q r s') :
    wp C.tolere (signal sid) Q s := by
  simp only [signal, wp_bind, wp_get, isSidValideAndExist_eq h]
  cases hs : s.tableauSem sid with
  | none => exact hQ _ s (.refus hs)
  | some sem =>
    simp only [Option.isSome_some, Bool.not_true, Bool.false_eq_true, if_false]
    split
    · next hmax => exact hQ _ s (.plein hs hmax)
    next hmax =>
    have hcs := sem.count_short
    have hcount : (sem.setCount (sem.count + 1)).count = sem.count + 1 :=
      Semaphore.setCount_count (by omega) (by omega)
    simp only [wp_bind, hcount]
    refine wp_surCore ?_
    intro s₁ h₁
    refine wp_note ?_
    intro s₂ h₂
    have hs₂ : s₂.toCore = (s.toCore.majSem sid (some (sem.setCount (sem.count + 1)))).note
        (.semUnite sem.adr s.procElu) := by
      rw [h₂, h₁]
      rfl
    split
    · next hneg =>
      simp only [wp_bind]
      refine wp_queueOut ?_ ?_
      · intro hnone
        refine .inr (hnul.resolve_left fun hx => hx sem hs hneg ?_)
        rw [hs₂] at hnone
        exact List.getLast?_eq_none_iff.mp hnone
      intro p s₃ hp h₃
      rw [hs₂] at hp
      have hv := h.lie p _ (LinkedQueues.link_of_top hp)
      simp only [wp_bind]
      refine wp_ecrire (by rw [h₃, hs₂]; exact hv) ?_
      intro s₄ h₄
      refine wp_queueAdd (by rw [h₄, h₃]; simp [Core.lien_retire]) ?_
      intro s₅ h₅
      refine wp_note ?_
      intro s₆ h₆
      rw [wp_pure]
      refine hQ _ s₆ ?_
      rw [h₆, h₅, h₄, h₃, hs₂]
      exact .reveil hs (not_lt.mp hmax) hneg hp
    · next hpos =>
      refine hQ _ s₂ ?_
      rw [hs₂]
      exact .libre hs (not_lt.mp hmax) (not_le.mp hpos)

theorem AppelSignal.calme {s s' : Core} {L : Etiquette → Prop} {sid : Int} {r : Suite} (he : s.EnCours)
    (hL : L {}) (hL' : ∀ p sem, s.tableauSem sid = some sem → sem.count + 1 ≤ 0 →
      s.chainage.top (.semaphore sid) = some p → L { fort := s.fort p })
    (ha : AppelSignal s sid r s') : Calme L s s' := by
  cases ha with
  | refus hs => exact .refl
  | plein hs hmax => exact .refl
  | libre hs hmax hpos => exact .un he (.signale hs hmax hpos) hL
  | reveil hs hmax hneg hp => exact .un he (.signaleReveil hs hmax hneg hp) (hL' _ _ hs hneg hp)

theorem AppelSignal.compte {s s' : Core} {sid : Int} {r : Suite} (h : Stable s) (he : s.EnCours)
    (hc : s.Compte) (ha : AppelSignal s sid r s') : s'.Compte := by
  cases ha with
  | refus hs => exact hc
  | plein hs hmax => exact hc
  | libre hs hmax hpos => exact hc.quiet h he (.signale hs hmax hpos) (by simp)
  | reveil hs hmax hneg hp => exact hc.quiet h he (.signaleReveil hs hmax hneg hp) (by simp)

/-- The processes that `n` calls of `signal` wake. -/
def Core.reveillesSignal (s : Core) (sid : Int) (n : Nat) : List Ptr :=
  match s.tableauSem sid with
  | none => []
  | some sem => (s.elems (.semaphore sid)).reverse.take (min n (-sem.count).toNat)

theorem wp_signalFois {sid : Int} (n : Nat) (h : Stable s.toCore) (he : s.toCore.EnCours)
    (hnul : s.toCore.Compte ∨ C.faute (.accesNul .signal))
    (hR : ∀ s', Signaux sid n s.toCore s'.toCore → R () s') :
    wp C.tolere (signalFois sid n) R s := by
  induction n generalizing s with
  | zero => exact hR s .zero
  | succ n ih =>
    simp only [signalFois, wp_bind]
    refine wp_signal h.coherent sid (hnul.imp_left fun hx => hx.servi sid) ?_
    intro r s₁ ha
    have hq : Calme (fun _ => True) s.toCore s₁.toCore := ha.calme he trivial (fun _ _ _ _ _ => trivial)
    refine ih (h.calme hq) (h.enCours_calme he hq) ?_ ?_
    · exact hnul.imp_left fun hx => ha.compte h he hx
    · intro s' hs'
      exact hR s' (.succ ha hs')

theorem wp_signaln {Q : Suite → Kernel → Prop} (h : Stable s.toCore) (he : s.toCore.EnCours)
    (sid n : Int) (hnul : s.toCore.Compte ∨ C.faute (.accesNul .signal))
    (hQ : ∀ r s', AppelSignaln s.toCore sid n r s'.toCore → Q r s') :
    wp C.tolere (signaln sid n) Q s := by
  simp only [signaln, wp_bind, wp_get, isSidValideAndExist_eq h.coherent]
  cases hs : s.tableauSem sid with
  | none => exact hQ _ s (.refus hs)
  | some sem =>
    simp only [Option.isSome_some, Bool.not_true, Bool.false_eq_true, if_false]
    split
    · next hmax => exact hQ _ s (.plein hs hmax)
    next hmax =>
    simp only [wp_bind]
    refine wp_signalFois _ h he hnul ?_
    intro s₁ h₁
    rw [wp_pure]
    exact hQ _ s₁ (.signaux hs (not_lt.mp hmax) h₁)

theorem AppelSignal.fort {s s' : Core} {sid : Int} {r : Suite} (ha : AppelSignal s sid r s')
    (p : Ptr) : s'.fort p = s.fort p := by
  cases ha with
  | refus hs => rfl
  | plein hs hmax => rfl
  | libre hs hmax hpos => rfl
  | reveil hs hmax hneg hp =>
    exact Core.fort_eveille (s := (s.majSem sid _).note _)
      (f := fun r => { r with operationStatus := 1 }) (fun _ => rfl) p

/-- The first process that signals wake. -/
theorem Core.mem_reveillesSignal {s : Core} {sid : Int} {sem : Semaphore} {p : Ptr} (n : Nat)
    (hs : s.tableauSem sid = some sem) (hneg : sem.count + 1 ≤ 0)
    (hp : s.chainage.top (.semaphore sid) = some p) : p ∈ s.reveillesSignal sid (n + 1) := by
  obtain ⟨l, hl⟩ := List.getLast?_eq_some_iff.mp hp
  have hmin : min (n + 1) (-sem.count).toNat = min n ((-sem.count).toNat - 1) + 1 := by omega
  have helems : s.elems (.semaphore sid) = l ++ [p] := hl
  simp [Core.reveillesSignal, hs, hmin, helems]

/-- A `signal` wakes the first of the processes that `n + 1` of them wake, and
leaves the others to the next ones. -/
theorem AppelSignal.reveilles {s s' : Core} {sid : Int} {r : Suite} (ha : AppelSignal s sid r s')
    (n : Nat) :
    (s'.reveillesSignal sid n = [] ∧ s.reveillesSignal sid (n + 1) = []) ∨
      ∃ p, s'.lien p = some .procActivables ∧
        s.reveillesSignal sid (n + 1) = p :: s'.reveillesSignal sid n := by
  cases ha with
  | refus hs => exact .inl (by simp [Core.reveillesSignal, hs])
  | @plein sem hs hmax =>
    have h0 : (-sem.count).toNat = 0 := by unfold SHORTINT_MAX at hmax; omega
    exact .inl (by simp [Core.reveillesSignal, hs, h0])
  | @libre sem hs hmax hpos =>
    have hcs := sem.count_short
    have h0 : (-sem.count).toNat = 0 := by omega
    have h1 : (-(sem.setCount (sem.count + 1)).count).toNat = 0 := by
      rw [Semaphore.setCount_count (by omega) (by omega)]
      omega
    exact .inl (by simp [Core.reveillesSignal, hs, h0, h1])
  | @reveil sem p hs hmax hneg hp =>
    have hcs := sem.count_short
    have hcount : (sem.setCount (sem.count + 1)).count = sem.count + 1 :=
      Semaphore.setCount_count (by omega) (by omega)
    refine .inr ⟨p, (Core.lien_eveille _).trans (if_pos rfl), ?_⟩
    -- one process and one unit of the counter are gone
    have hmin : min (n + 1) (-sem.count).toNat = min n (-(sem.count + 1)).toNat + 1 := by omega
    have helems := Core.elems_eveille_top (f := fun r => { r with operationStatus := 1 }) hp (by simp)
    have hsem : Function.update s.tableauSem sid (some (sem.setCount (sem.count + 1))) sid =
        some (sem.setCount (sem.count + 1)) := Function.update_self ..
    simp only [Core.reveillesSignal, hs, helems, List.reverse_append, List.reverse_singleton, hmin,
      List.singleton_append, List.take_succ_cons]
    show _ = p :: (match Function.update s.tableauSem sid
      (some (sem.setCount (sem.count + 1))) sid with | none => [] | some sem => _)
    rw [hsem]
    simp only [hcount]
    rfl

theorem Signaux.calme {s s' : Core} {sid : Int} {n : Nat} (h : Stable s) (he : s.EnCours)
    (hfort : ∀ p ∈ s.reveillesSignal sid n, s.fort p = true → C.fort)
    (hs : Signaux sid n s s') : Calme C.admetRetour s s' := by
  induction hs with
  | zero => exact .refl
  | @succ n r s s₁ s' ha hs ih =>
    have hq : Calme C.admetRetour s s₁ := by
      refine ha.calme he Cadre.admetRetour_muette ?_
      intro p sem hs hneg hp
      exact Cadre.admetRetour_of rfl nofun (hfort p (Core.mem_reveillesSignal n hs hneg hp)) nofun nofun
        nofun
    refine hq.trans (ih (h.calme hq) (h.enCours_calme he hq) ?_)
    intro p hp hf
    rw [ha.fort] at hf
    rcases ha.reveilles n with ⟨hnil, -⟩ | ⟨p', -, hcons⟩
    · rw [hnil] at hp
      cases hp
    · refine hfort p ?_ hf
      rw [hcons]
      exact List.mem_cons_of_mem _ hp

theorem AppelSignal.segment {s s' : Core} {sid : Int} {r : Suite} (h : Stable s) (he : s.EnCours)
    (hfort : ∀ p ∈ s.reveillesSignal sid 1, s.fort p = true → C.fort)
    (ha : AppelSignal s sid r s') : Segment C r s s' := by
  have hq : Calme C.admetRetour s s' := by
    refine ha.calme he Cadre.admetRetour_muette ?_
    intro p sem hs hneg hp
    exact Cadre.admetRetour_of rfl nofun (hfort p (Core.mem_reveillesSignal 0 hs hneg hp)) nofun nofun
      nofun
  have he' := h.enCours_calme he hq
  cases ha <;> exact .retour hq he'

theorem AppelSignaln.segment {s s' : Core} {sid n : Int} {r : Suite} (h : Stable s) (he : s.EnCours)
    (hfort : ∀ sem, s.tableauSem sid = some sem → sem.count ≤ SHORTINT_MAX - versShort n →
      ∀ p ∈ s.reveillesSignal sid (versShort n).toNat, s.fort p = true → C.fort)
    (ha : AppelSignaln s sid n r s') : Segment C r s s' := by
  cases ha with
  | refus hs => exact .rien he
  | plein hs hmax => exact .rien he
  | signaux hs hmax hx =>
    have hq := hx.calme h he (hfort _ hs hmax)
    exact .retour hq (h.enCours_calme he hq)

-- ---------------------------------------------------------------------------
-- `try_wait` and `wait`
-- ---------------------------------------------------------------------------

/-- A call of `wait`; `try_wait` makes the same calls, except that it never
blocks. -/
inductive AppelWait (s : Core) (sid : Int) : Suite → Core → Prop
  | refus {v : Int} (hv : v < 0) : AppelWait s sid (.retour v) s
  | prise {sem : Semaphore} (hs : s.tableauSem sid = some sem) (hpos : 0 < sem.count) :
      AppelWait s sid (.retour 0)
        (((s.majSem sid (some (sem.setCount (sem.count - 1)))).note
          (.semPrise sem.adr s.procElu)).note (.semAccorde sem.adr s.procElu))
  | bloque {sem : Semaphore} (hs : s.tableauSem sid = some sem)
      (hmin : SHORTINT_MIN + 1 ≤ sem.count) (hneg : sem.count - 1 < 0) :
      AppelWait s sid (.ordonnanceur .wait)
        ((((s.majSem sid (some (sem.setCount (sem.count - 1)))).note
          (.semPrise sem.adr s.procElu)).maj s.procElu
            fun r => { r with etat := .attendSemaphore }).ajoute (.semaphore sid) s.procElu (·.place))

theorem wp_tryWait {Q : Suite → Kernel → Prop} (h : Coherent s.toCore) (sid : Int)
    (hQ : ∀ v s', AppelWait s.toCore sid (.retour v) s'.toCore → Q (.retour v) s') :
    wp C.tolere (tryWait sid) Q s := by
  simp only [tryWait, wp_bind, wp_get, isSidValideAndExist_eq h]
  cases hs : s.tableauSem sid with
  | none => exact hQ _ s (.refus (by decide))
  | some sem =>
    simp only [Option.isSome_some, Bool.not_true, Bool.false_eq_true, if_false]
    split
    · exact hQ _ s (.refus (by decide))
    split
    · exact hQ _ s (.refus (by decide))
    next hpos =>
    simp only [wp_bind]
    refine wp_surCore ?_
    intro s₁ h₁
    refine wp_note ?_
    intro s₂ h₂
    refine wp_note ?_
    intro s₃ h₃
    rw [wp_pure]
    refine hQ _ s₃ ?_
    rw [h₃, h₂, h₁]
    exact .prise hs (not_le.mp hpos)

theorem wp_wait {Q : Suite → Kernel → Prop} (h : Stable s.toCore) (he : s.toCore.EnCours)
    (sid : Int) (hQ : ∀ r s', AppelWait s.toCore sid r s'.toCore → Q r s') :
    wp C.tolere (wait sid) Q s := by
  simp only [wait, wp_bind, wp_get, isSidValideAndExist_eq h.coherent]
  cases hs : s.tableauSem sid with
  | none => exact hQ _ s (.refus (by decide))
  | some sem =>
    simp only [Option.isSome_some, Bool.not_true, Bool.false_eq_true, if_false]
    split
    · exact hQ _ s (.refus (by decide))
    next hmin =>
    have hcs := sem.count_short
    have hcount : (sem.setCount (sem.count - 1)).count = sem.count - 1 :=
      Semaphore.setCount_count (by omega) (by omega)
    simp only [wp_bind, hcount]
    refine wp_surCore ?_
    intro s₁ h₁
    refine wp_note ?_
    intro s₂ h₂
    have hs₂ : s₂.toCore = (s.toCore.majSem sid (some (sem.setCount (sem.count - 1)))).note
        (.semPrise sem.adr s.procElu) := by
      rw [h₂, h₁]
      rfl
    split
    · next hneg =>
      simp only [wp_bind]
      refine wp_ecrire (by rw [hs₂]; exact he.vivant) ?_
      intro s₃ h₃
      refine wp_queueAdd (by rw [h₃, hs₂]; exact h.coherent.lien_procElu he) ?_
      intro s₄ h₄
      rw [wp_pure]
      refine hQ _ s₄ ?_
      rw [h₄, h₃, hs₂]
      exact .bloque hs (not_lt.mp hmin) hneg
    · next hpos =>
      simp only [wp_bind]
      refine wp_note ?_
      intro s₃ h₃
      rw [wp_pure]
      refine hQ _ s₃ ?_
      rw [h₃, hs₂]
      exact .prise hs (by omega)

theorem AppelWait.segment {s s' : Core} {sid : Int} {r : Suite} (h : Stable s) (he : s.EnCours)
    (hidle : s.procElu ≠ s.procIdle) (hC : C.trace) (ha : AppelWait s sid r s') :
    Segment C r s s' := by
  cases ha with
  | refus hv => exact .rien he
  | prise hs hpos =>
    exact .un h he (.prendSem hs hpos) (Cadre.admetRetour_trace hC)
  | bloque hs hmin hneg =>
    exact .ordonnanceur .refl he (.wait hidle hs hmin hneg) (fun hx => absurd rfl hx) fun _ => hC

/-- The end of a `wait` that blocked. -/
theorem wp_waitReprise {Q : Suite → Kernel → Prop} (he : s.toCore.EnCours)
    (hQ : Q (.retour (min 0 (s.tas s.procElu).operationStatus)) s) :
    wp C.tolere waitReprise Q s := by
  simp only [waitReprise, wp_bind, wp_get]
  refine wp_lire he.vivant ?_
  split
  · next hneg => rwa [min_eq_right hneg.le] at hQ
  · next hpos => rwa [min_eq_left (not_lt.mp hpos)] at hQ

end

end GenesisOS
