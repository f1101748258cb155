import GenesisOS.Refinement.Calls
import GenesisOS.Theorems.Files
import GenesisOS.Theorems.Preemption
import GenesisOS.Theorems.Semaphores

/-!
# GenesisOS — what a suspended call returns

The journal of a run agrees with every call in progress (`Atteint.suivi`). So
once the event that concludes a suspended call is recorded, the value of the
call is settled (`Tranche`): whatever the other processes do, it is the value
of its first return, and the value it returns when the process is elected
(`Atteint.rend`).
-/

namespace GenesisOS

open Lib

theorem Atteint.suivi {P : Config → Signal → Prop} {c : Config} (h : Atteint P c) :
    c.s.toCore.Suivi := by
  induction h with
  | depart h =>
    obtain ⟨s₀, h₀, ht⟩ := depart_raffine h
    exact Core.Suivi.demarrage h₀ h₀.homogene ht
  | pas hc hp _ h ih => exact ih.pas hc.valide hc.homogene hp h

-- ---------------------------------------------------------------------------
-- The journal only grows
-- ---------------------------------------------------------------------------

theorem Conserve.journal {C : Cadre} (j : List Evenement) :
    Conserve C fun s => j <+: s.journal where
  quiet hst he h _ q := by
    obtain ⟨k, hk, -⟩ := Gagne.quiet hst he q
    exact h.trans ⟨k, hk.symm⟩
  sortie hst he h _ q := by
    obtain ⟨k, hk, -⟩ := Gagne.sortie he q
    exact h.trans ⟨k, hk.symm⟩
  libere hc h hl := by
    obtain ⟨k, hk, -⟩ := Gagne.liberation (b := false) hc (.single hl)
    exact h.trans ⟨k, hk.symm⟩
  election hst hvide hna h hel := by
    rwa [(hel.reste (p := 0) hst hvide hna).journal]
  retour _ _ _ h := h.trans (List.prefix_append _ _)

/-- A run goes on from a configuration with a longer journal. -/
theorem Accessible.journal {c c' : Config} {l : List Signal} (h : Accessible c)
    (hl : execute c l = some c') :
    Accessible c' ∧ ∃ j, c'.s.journal = c.s.journal ++ j := by
  refine ⟨h.execute (fun _ _ _ => trivial) hl, ?_⟩
  obtain ⟨-, j, hj⟩ := h.valide.execute (fun _ => Conserve.journal c.s.journal) (fun _ _ hi => hi)
    (List.prefix_refl _) hl
  exact ⟨j, hj.symm⟩

/-- Events that close no call of `p`. -/
theorem appelEnCours_suite {p : Ptr} {j k : List Evenement} (h : ∀ v, .retour p v ∉ k) :
    appelEnCours p (j ++ k) = appelEnCours p j ++ evenementsDe p k := by
  rw [appelEnCours, evenementsDe_append]
  refine since_append ?_
  intro e he
  obtain ⟨hk, ha⟩ := List.mem_filter.mp he
  cases e with
  | retour q v =>
    rw [decide_eq_true_eq] at ha
    cases ha
    exact absurd hk (h v)
  | _ => rfl

-- ---------------------------------------------------------------------------
-- Settled calls
-- ---------------------------------------------------------------------------

/-- A call that another process has concluded, with nothing left to store. -/
inductive Tranche (p : Ptr) : List Evenement → Int → Prop
  | echec {x : Evenement} {f : Ptr} (hx : ∀ adr w, x ≠ .ecriture p adr w) :
      Tranche p [x, .echec f p] (-1)
  | accorde {a : Ptr} : Tranche p [.semPrise a p, .semAccorde a p] 0
  | rejete {a : Ptr} {v : Int} : Tranche p [.semPrise a p, .semRejet a p v] v

namespace Tranche

variable {p : Ptr} {l l' : List Evenement} {v w : Int}

theorem verdict (h : Tranche p l v) (hw : Verdict p (l ++ l') w) : w = v := by
  generalize hm : l ++ l' = m at hw
  cases hw with
  | autre hx =>
    subst hm
    cases h with
    | @echec x f hne =>
      obtain ⟨adr, u, rfl⟩ := hx x (by simp)
      exact absurd rfl (hne adr u)
    | @accorde a | @rejete a =>
      obtain ⟨adr, u, hu⟩ := hx (.semPrise a p) (by simp)
      cases hu
  | _ => cases h <;> simp_all

/-- The call is no longer at its beginning. -/
theorem ne_singleton (h : Tranche p l v) (e : Evenement) : l ++ l' ≠ [e] := by
  cases h <;> simp

theorem ne_nil (h : Tranche p l v) : l ++ l' ≠ [] := by
  cases h <;> simp

end Tranche

/-- The call that `p` is in at `c` returns `v` in the run from `c` to `c'`: `v`
is the value of its first return, or the value it returns as soon as `p`, elected
in `c'`, goes on. -/
def Rend (p : Ptr) (v : Int) (c c' : Config) : Prop :=
  ∃ j, c'.s.journal = c.s.journal ++ j ∧
    (∀ j₁ j₂ w, j = j₁ ++ .retour p w :: j₂ → (∀ u, .retour p u ∉ j₁) → w = v) ∧
    (c'.s.procElu = p → (∀ u, .retour p u ∉ j) → possible c' .suite = true ∧
      ∃ c₃, pas c' .suite = .ok c₃ ∧ c₃.mode = .utilisateur ∧
        c₃.s.journal = c'.s.journal ++ [.retour p v])

/-- The end of a settled call returns its value. -/
theorem Tranche.suite {p : Ptr} {l l' : List Evenement} {v : Int} {c : Config} (h : Tranche p l v)
    (hv : c.Valide) (hp : c.s.procElu = p)
    (hs : c.s.toCore.Suspens p (c.s.tas p).contexte (l ++ l')) :
    ∃ c₃, pas c .suite = .ok c₃ ∧ c₃.mode = .utilisateur ∧
      c₃.s.journal = c.s.journal ++ [.retour p v] := by
  subst hp
  have hvp : c.s.vivant c.s.procElu = true := hv.elu.vivant
  suffices hw : wp (fun _ => False) (segment c .suite) (fun x s' => x = .retour v ∧
      s'.procElu = c.s.procElu ∧ s'.journal = c.s.journal) c.s by
    obtain ⟨c₃, s', hc₃, ⟨helu, hj⟩, hm, hs'⟩ := pas_retour hw
    refine ⟨c₃, hc₃, hm, ?_⟩
    rw [hs', Core.note, helu, hj]
  generalize hm : l ++ l' = m at hs
  generalize hk : (c.s.tas c.s.procElu).contexte = k at hs
  cases hs with
  | libre => exact absurd hm h.ne_nil
  | rendu hx =>
    rw [← hm] at hx
    simp [segment, lire, ecrire, surCore, hvp, hk, reprend, h.verdict hx]
  | emet | recoit | attend | waitpid | waitpidFils => exact absurd hm (h.ne_singleton _)
  | emis he hst | recu he hst => cases h <;> simp at hm
  | emisEchec he hst =>
    cases h <;> simp at hm
    simp [segment, lire, ecrire, surCore, hvp, hk, reprend, psendReprise, hst]
  | recuEchec he hst =>
    cases h <;> simp at hm
    simp [segment, lire, ecrire, surCore, hvp, hk, reprend, preceiveReprise, hst]
  | accorde he hst =>
    cases h <;> simp at hm
    simp [segment, lire, ecrire, surCore, hvp, hk, reprend, waitReprise, hst]
  | rejete he hst =>
    cases h <;> simp at hm
    obtain ⟨-, ⟨-, rfl⟩, -⟩ := hm
    simp [segment, lire, ecrire, surCore, hvp, hk, reprend, waitReprise, hst]

/-- Whatever happens, a settled call returns its value. -/
theorem Accessible.rend {c c' : Config} {l : List Signal} {p : Ptr} {v : Int} (h : Accessible c)
    (ht : Tranche p (appelEnCours p c.s.journal) v) (hl : execute c l = some c') :
    Rend p v c c' := by
  obtain ⟨h', j, hj⟩ := h.journal hl
  have hs := h'.suivi
  refine ⟨j, hj, ?_, ?_⟩
  · intro j₁ j₂ w hj' hmuet
    have hw := hs.reponses (c.s.journal ++ j₁) _ j₂ (by rw [hj, hj', List.append_assoc]) p w rfl
    rw [appelEnCours_suite hmuet] at hw
    exact ht.verdict hw
  · rintro rfl hmuet
    have hv := h'.valide
    have hS := hs.elu hv.elu.vivant (by rw [hv.elu.etat]; rfl)
    rw [hj, appelEnCours_suite hmuet] at hS
    have hmode : c'.mode = .noyau := by
      cases hm : c'.mode with
      | noyau => rfl
      | utilisateur =>
        -- the code of a process runs outside any call
        have h0 := hs.utilisateur hv hm
        rw [hj, appelEnCours_suite hmuet] at h0
        exact absurd h0 ht.ne_nil
    exact ⟨by simp [possible, hmode], ht.suite hv rfl hS⟩

-- ---------------------------------------------------------------------------
-- Blocked calls of `wait`
-- ---------------------------------------------------------------------------

/-- The journal gains events that satisfy `P`; no process is created or freed. -/
structure Journalise (P : Evenement → Prop) (s s' : Core) : Prop where
  journal : Ajoute P s s'
  vivant : s'.vivant = s.vivant
  elu : s'.procElu = s.procElu

namespace Journalise

variable {P : Evenement → Prop} {s s' s'' : Core} {e : Evenement}

theorem refl : Journalise P s s := ⟨.refl, rfl, rfl⟩

theorem trans (h : Journalise P s s') (h' : Journalise P s' s'') : Journalise P s s'' :=
  ⟨h.journal.trans h'.journal, h'.vivant.trans h.vivant, h'.elu.trans h.elu⟩

theorem note (h : Journalise P s s') (hj : s''.journal = s'.journal ++ [e])
    (he : P e) (hv : s''.vivant = s'.vivant) (helu : s''.procElu = s'.procElu) :
    Journalise P s s'' := ⟨h.journal.note he hj, hv.trans h.vivant, helu.trans h.elu⟩

theorem mono {Q : Evenement → Prop} (h : Journalise P s s') (hPQ : ∀ e, P e → Q e) :
    Journalise Q s s' := ⟨h.journal.mono hPQ, h.vivant, h.elu⟩

theorem rejets {sid status : Int} {sem : Semaphore}
    (hr : Relation.ReflTransGen (Rejet sid sem status) s s') :
    Journalise (fun e => ∃ p, e = .semRejet sem.adr p status) s s' := by
  refine ⟨.rejets hr, ?_, (Stable.elu_rejets hr).1⟩
  induction hr with
  | refl => rfl
  | tail _ hlast ih =>
    obtain ⟨p, hp, rfl⟩ := hlast
    exact ih

end Journalise

/-- What `signal` records. -/
def Evenement.deSignal (e : Evenement) : Prop :=
  ∃ a p, e = .semUnite a p ∨ e = .semAccorde a p

theorem AppelSignal.journalise {s s' : Core} {sid : Int} {x : Suite} (h : AppelSignal s sid x s') :
    Journalise Evenement.deSignal s s' := by
  cases h with
  | refus | plein => exact .refl
  | libre hs hmax hpos => exact Journalise.refl.note rfl ⟨_, _, .inl rfl⟩ rfl rfl
  | @reveil sem p hs hmax hneg hp =>
    have m : Journalise Evenement.deSignal s
        ((s.majSem sid (some (sem.setCount (sem.count + 1)))).note (.semUnite sem.adr s.procElu)) :=
      Journalise.refl.note rfl ⟨_, _, .inl rfl⟩ rfl rfl
    exact m.note rfl ⟨_, _, .inr rfl⟩ rfl rfl

theorem Signaux.journalise {s s' : Core} {sid : Int} {n : Nat} (h : Signaux sid n s s') :
    Journalise Evenement.deSignal s s' := by
  induction h with
  | zero => exact .refl
  | succ h _ ih => exact h.journalise.trans ih

theorem AppelVide.journalise {s s' : Core} {sid v : Int} {x : Suite} (h : AppelVide s sid v x s') :
    Journalise (fun e => ∃ a p, e = .semRejet a p v) s s' := by
  cases h with
  | refus => exact .refl
  | sdelete hs hr hvide hn | sreset hs hr hvide h0 hc =>
    have m := (Journalise.rejets hr).mono (Q := fun e => ∃ a p, e = .semRejet a p _)
      fun e he => ⟨_, he⟩
    exact ⟨m.journal, m.vivant, m.elu⟩

/-- These calls return. -/
theorem AppelSignal.rend {s s' : Core} {sid : Int} {x : Suite} (h : AppelSignal s sid x s') :
    ∃ v, x = .retour v := by
  cases h <;> exact ⟨_, rfl⟩

theorem AppelSignaln.rend {s s' : Core} {sid n : Int} {x : Suite} (h : AppelSignaln s sid n x s') :
    ∃ v, x = .retour v := by
  cases h <;> exact ⟨_, rfl⟩

theorem AppelVide.rend {s s' : Core} {sid v : Int} {x : Suite} (h : AppelVide s sid v x s') :
    ∃ v, x = .retour v := by
  cases h <;> exact ⟨_, rfl⟩

theorem AppelSignaln.journalise {s s' : Core} {sid n : Int} {x : Suite}
    (h : AppelSignaln s sid n x s') : Journalise Evenement.deSignal s s' := by
  cases h with
  | refus | plein => exact .refl
  | signaux hs hmax h => exact h.journalise

/-- A refused `wait` or `try_wait`. -/
theorem AppelWait.inerte {s s' : Core} {sid v : Int} (h : AppelWait s sid (.retour v) s')
    (hv : v < 0) : s' = s := by
  cases h with
  | refus => rfl
  | prise => omega

/-- A call that records events that satisfy `P` and returns. -/
theorem pas_journalise {P : Evenement → Prop} {E : Faute → Prop} {c c' : Config} {r : Registres}
    (hp : possible c (.int49 r) = true)
    (hwp : wp E (traitantIT49Switch r)
      (fun x s' => (∃ v, x = .retour v) ∧ Journalise P c.s.toCore s'.toCore) c.s)
    (hpas : pas c (.int49 r) = .ok c') :
    Journalise (fun e => P e ∨ ∃ v, e = .retour c.s.procElu v) c.s.toCore c'.s.toCore := by
  obtain ⟨x, s', ⟨⟨v, rfl⟩, hj⟩, ht⟩ := of_pas_int49 hp hwp hpas
  obtain ⟨-, hs'⟩ := of_termine_retour ht
  rw [hs']
  exact (hj.mono fun _ => .inl).note rfl (.inr ⟨v, by rw [hj.elu]⟩) rfl rfl

/-- The calls that make a process waiting on a semaphore activable, and what its
`wait` then returns. -/
inductive ReveilSem (e : Signal) : Int → Prop
  | signal {r : Registres} (h : e.Appelle .signal r) : ReveilSem e 0
  | signaln {r : Registres} (h : e.Appelle .signaln r) : ReveilSem e 0
  | sdelete {r : Registres} (h : e.Appelle .sdelete r) : ReveilSem e (-3)
  | sreset {r : Registres} (h : e.Appelle .sreset r) : ReveilSem e (-4)

/-- What such a call records. -/
theorem ReveilSem.journalise {c c' : Config} {e : Signal} {v : Int} (h : ReveilSem e v)
    (hc : c.Valide) (hp : possible c e = true) (hpas : pas c e = .ok c') :
    Journalise (fun x => ((v = 0 ∧ x.deSignal) ∨ ∃ a p, x = .semRejet a p v) ∨
      ∃ w, x = .retour c.s.procElu w) c.s.toCore c'.s.toCore := by
  have hE : ∀ f : Faute, ({ faute := fun _ => True } : Cadre).faute f := fun _ => trivial
  have hu : ∀ {r : Registres}, possible c (.int49 r) = true → c.s.toCore.EnCours := by
    intro r hr
    simp only [possible, decide_eq_true_eq] at hr
    exact hc.utilisateur hr.1
  cases h with
  | @signal r h =>
    obtain ⟨rfl, hsv⟩ := h
    refine pas_journalise hp (E := Cadre.tolere { faute := fun _ => True }) ?_ hpas
    rw [traitantIT49Switch, hsv]
    exact wp_signal hc.stable.coherent _ (.inr (hE _)) fun _ _ ha =>
      ⟨ha.rend, ha.journalise.mono fun _ hx => .inl ⟨rfl, hx⟩⟩
  | @signaln r h =>
    obtain ⟨rfl, hsv⟩ := h
    refine pas_journalise hp (E := Cadre.tolere { faute := fun _ => True }) ?_ hpas
    rw [traitantIT49Switch, hsv]
    exact wp_signaln hc.stable (hu hp) _ _ (.inr (hE _)) fun _ _ ha =>
      ⟨ha.rend, ha.journalise.mono fun _ hx => .inl ⟨rfl, hx⟩⟩
  | @sdelete r h =>
    obtain ⟨rfl, hsv⟩ := h
    refine pas_journalise hp (E := Cadre.tolere { faute := fun _ => True }) ?_ hpas
    rw [traitantIT49Switch, hsv]
    exact wp_sdelete hc.stable _ fun _ _ ha _ _ =>
      ⟨ha.rend, ha.journalise.mono fun _ hx => .inr hx⟩
  | @sreset r h =>
    obtain ⟨rfl, hsv⟩ := h
    refine pas_journalise hp (E := Cadre.tolere { faute := fun _ => True }) ?_ hpas
    rw [traitantIT49Switch, hsv]
    exact wp_sreset hc.stable _ _ fun _ _ ha _ _ =>
      ⟨ha.rend, ha.journalise.mono fun _ hx => .inr hx⟩

/-- A process that leaves the queue of a semaphore finds its call settled. -/
theorem Core.Suivi.tranche_sem {s s' : Core} {p : Ptr} {v : Int} {P : Evenement → Prop}
    (hs : s.Suivi) (hs' : s'.Suivi) (hc : Coherent s) (hv : s.vivant p = true)
    (hw : (s.tas p).etat = .attendSemaphore) (ha : (s'.tas p).etat = .activable)
    (hj : Journalise P s s') (hmuet : ∀ u, ¬ P (.retour p u))
    (hacc : ∀ a, P (.semAccorde a p) → v = 0) (hrej : ∀ a w, P (.semRejet a p w) → w = v) :
    Tranche p (appelEnCours p s'.journal) v := by
  obtain ⟨j, hj', hP⟩ := hj.journal
  have hpl := hc.place p hv
  rw [Core.Place, hw] at hpl
  obtain ⟨sid, hl⟩ := hpl
  obtain ⟨a, -, -, happel⟩ := (hs.appels p hv (by rw [hw]; rfl)).de_sem hc hl
  have hl' : appelEnCours p s'.journal = .semPrise a p :: evenementsDe p j := by
    rw [hj', appelEnCours_suite fun u hu => hmuet u (hP _ hu), happel, List.singleton_append]
  have hmem : ∀ {x : Evenement} {k : List Evenement}, evenementsDe p j = k → x ∈ k → P x := by
    rintro x k rfl hx
    exact hP x (List.mem_of_mem_filter hx)
  have hS := hs'.appels p (by rw [hj.vivant]; exact hv) (by rw [ha]; rfl)
  rw [hl'] at hS ⊢
  generalize hk : evenementsDe p j = k at hS ⊢
  generalize (s'.tas p).contexte = r at hS
  have accorde : k = [.semAccorde a p] → Tranche p (.semPrise a p :: k) v := by
    rintro rfl
    rw [hacc a (hmem hk (by simp))]
    exact .accorde
  have rejete : ∀ {w : Int}, k = [.semRejet a p w] → Tranche p (.semPrise a p :: k) v := by
    rintro w rfl
    rw [hrej a w (hmem hk (by simp))]
    exact .rejete
  generalize hm : Evenement.semPrise a p :: k = m at hS
  cases hS with
  | libre => cases hm
  | rendu hx =>
    cases hx with
    | autre hx =>
      subst hm
      obtain ⟨adr, u, hu⟩ := hx (.semPrise a p) (by simp)
      cases hu
    | accorde =>
      rw [← hm]
      cases hm
      exact accorde rfl
    | rejete =>
      rw [← hm]
      cases hm
      exact rejete rfl
    | _ => cases hm
  | attend he =>
    rw [ha] at he
    cases he
  | accorde =>
    rw [← hm]
    cases hm
    exact accorde rfl
  | rejete =>
    rw [← hm]
    cases hm
    exact rejete rfl
  | _ => cases hm

/-- A `wait` that blocks returns what the event that released it says; a `wait`
or `try_wait` that is refused changes nothing. -/
theorem wait_rend {c c' : Config} {e : Signal} (h : Accessible c) (hp : possible c e = true)
    (hpas : pas c e = .ok c') :
    (∀ p v, c.s.vivant p = true → (c.s.tas p).etat = .attendSemaphore →
      (c'.s.tas p).etat = .activable → ReveilSem e v →
        ∀ l c'', execute c' l = some c'' → Rend p v c' c'') ∧
    ∀ r v, e.Appelle .wait r ∨ e.Appelle .tryWait r → c'.mode = .utilisateur → v < 0 →
      c'.s.journal.getLast? = some (.retour c.s.procElu v) →
        c'.s.tableauSem = c.s.tableauSem ∧ ∀ t, c'.s.elems t = c.s.elems t := by
  have hc := h.valide
  have h' : Accessible c' := .pas h hp trivial hpas
  refine ⟨?_, ?_⟩
  · intro p v hv hw ha hr l c'' hl
    refine h'.rend ?_ hl
    have hne : p ≠ c.s.procElu := by
      rintro rfl
      rw [hc.elu.etat] at hw
      cases hw
    refine h.suivi.tranche_sem h'.suivi hc.stable.coherent hv hw ha (hr.journalise hc hp hpas) ?_ ?_ ?_
    · rintro u ((⟨-, a, q, hx | hx⟩ | ⟨a, q, hx⟩) | ⟨w, hx⟩) <;> cases hx
      exact hne rfl
    · rintro a ((⟨hv, -⟩ | ⟨b, q, hx⟩) | ⟨w, hx⟩)
      · exact hv
      · cases hx
      · cases hx
    · rintro a w ((⟨-, b, q, hx | hx⟩ | ⟨b, q, hx⟩) | ⟨u, hx⟩) <;> cases hx
      rfl
  · intro r v happ hm hv hlast
    have hu : c.s.toCore.EnCours := by
      rcases happ with ⟨rfl, -⟩ | ⟨rfl, -⟩ <;>
      · simp only [possible, decide_eq_true_eq] at hp
        exact hc.utilisateur hp.1
    -- the call ends in `AppelWait`
    have hwp : ∃ x s', AppelWait c.s.toCore r.ebx.toInt x s'.toCore ∧
        termine x s' = .ok (c'.mode, c'.s) := by
      rcases happ with ⟨rfl, hsv⟩ | ⟨rfl, hsv⟩
      · refine of_pas_int49 hp (E := Cadre.tolere {}) ?_ hpas
        rw [traitantIT49Switch, hsv]
        exact wp_wait hc.stable hu _ fun _ _ ha => ha
      · refine of_pas_int49 hp (E := Cadre.tolere {}) ?_ hpas
        rw [traitantIT49Switch, hsv]
        exact wp_tryWait hc.stable.coherent _ fun _ _ ha => ha
    obtain ⟨x, s', ha, ht⟩ := hwp
    have hx : ∃ w, x = .retour w := by
      cases x with
      | retour w => exact ⟨w, rfl⟩
      | iret => cases ha
      | ordonnanceur k => exact absurd rfl ((of_termine_utilisateur (hm ▸ ht)).1 k)
    obtain ⟨w, rfl⟩ := hx
    obtain ⟨-, hs'⟩ := of_termine_retour ht
    have hw : w = v := by
      rw [hs'] at hlast
      simp only [Core.note, List.getLast?_concat, Option.some.injEq, Evenement.retour.injEq] at hlast
      exact hlast.2
    rw [hs', ha.inerte (by omega)]
    exact ⟨rfl, fun _ => rfl⟩

/-- The father signals the semaphore its child waits on and sleeps; the child goes
on, and its `wait` returns 0. -/
theorem wait_rend_exemple : ∃ c c' c'' p, Accessible c ∧ (c.s.tas p).etat = .attendSemaphore ∧
    pas c (appel 27 9 0 0 0) = .ok c' ∧ execute c' [appel 16 1 0 0 0, .suite] = some c'' ∧
      Rend p 0 c' c'' ∧ .retour p 0 ∈ c''.s.journal := by
  obtain ⟨c, hc, h⟩ := Accessible.scenario (l := attenteSemaphore)
    (Q := fun c => (c.s.tableDesProcs 2).any fun p => c.s.vivant p &&
      (c.s.tas p).etat = .attendSemaphore &&
        match execute c [appel 27 9 0 0 0] with
        | none => false
        | some c' => (c'.s.tas p).etat = .activable &&
            (execute c' [appel 16 1 0 0 0, .suite]).any fun c'' => Evenement.retour p 0 ∈ c''.s.journal)
    (by decide +kernel)
  obtain ⟨p, -, h⟩ := (Option.any_eq_true _ _).mp h
  simp only [Bool.and_eq_true, decide_eq_true_eq] at h
  obtain ⟨⟨hv, hw⟩, h⟩ := h
  split at h
  · cases h
  next c₁ hl =>
  obtain ⟨hp, c', hpas, hl'⟩ := execute_cons.mp hl
  cases hl'
  rw [Bool.and_eq_true, decide_eq_true_eq] at h
  obtain ⟨c'', hc'', hmem⟩ := (Option.any_eq_true _ _).mp h.2
  exact ⟨c, _, c'', p, hc, hw, hpas, hc'', (wait_rend hc hp hpas).1 p 0 hv hw h.1
    (.signal ⟨rfl, by decide⟩) _ c'' hc'', of_decide_eq_true hmem⟩

end GenesisOS
