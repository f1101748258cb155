import GenesisOS.Invariants.Condemned
import GenesisOS.Theorems.Queues
import GenesisOS.Theorems.Reaping

/-!
# GenesisOS — the running process is not freed

`free_mourant_queue` frees the process that called it in one case: it has just
become a zombie by `exit` or by killing itself, and a chain of zombie fathers
leads to a dying one. `ordonnanceur` then stops at its next use of the process.
-/

namespace GenesisOS

open Lib

/-- The elected process ends by `exit`, or by `kill` of itself, and it is
condemned. -/
def SeCondamne (c : Config) (e : Signal) : Prop :=
  ((∃ r, e.Appelle .exit r) ∨
    ∃ r, e.Appelle .kill r ∧ c.s.tableDesProcs r.ebx.toInt = some c.s.procElu) ∧
  c.s.toCore.Condamne c.s.procElu

theorem meurt_cadre {c : Config} {e : Signal} {m : Motif} {s : Core} (hp : possible c e = true)
    (hm : (cadre c e).meurt m s) : s = c.s.toCore ∧
      ((∃ r, e.Appelle .exit r) ∨
        ∃ r, e.Appelle .kill r ∧ c.s.tableDesProcs r.ebx.toInt = some c.s.procElu) := by
  obtain ⟨rfl, hm⟩ := hm
  cases m with
  | cede => exact hm.elim
  | exit =>
    obtain ⟨r, rfl, hsv⟩ := hm
    exact ⟨Config.entree_int49 hp, .inl ⟨r, rfl, hsv⟩⟩
  | suicide =>
    obtain ⟨r, ⟨rfl, hsv⟩, htable⟩ := hm
    exact ⟨Config.entree_int49 hp, .inr ⟨r, ⟨rfl, hsv⟩, htable⟩⟩

/-- Before the election, the process that called `ordonnanceur` is still there. -/
theorem segment_epargne {c : Config} {e : Signal} {k : Reprise} {s₂ s₃ : Core} (h : c.Valide)
    (hp : possible c e = true) (hC : ¬ SeCondamne c e)
    (hs : Segment (cadre c e) (.ordonnanceur k) c.entree s₂)
    (hl : Relation.ReflTransGen Liberation (s₂.empile k) s₃) :
    s₃.procElu = c.s.procElu ∧ s₃.Epargne s₃.procElu := by
  cases hs with
  | @ordonnanceur m _ _ s₁ _ hq he hso hm =>
    obtain ⟨h₀, he₀⟩ := h.entree
    have h₁ := h₀.calme hq
    obtain ⟨h₂, hsorti⟩ := h₁.sortie he hso
    have helu : s₁.procElu = c.s.procElu := by
      rw [(h₀.elu_calme hq).1, Config.entree]
      cases c.mode <;> rfl
    have helu₃ := (Stable.elu_liberation h₂.coherent hl).1.trans hsorti.elu
    refine ⟨helu₃.trans helu, ?_⟩
    rw [helu₃]
    refine (hso.epargne h₁ he ?_).liberation h₂.coherent hl
    intro hne hcond
    obtain ⟨rfl, hmort⟩ := meurt_cadre hp (hm hne)
    exact hC ⟨hmort, hcond⟩

theorem Election.vivant {s s' : Core} (hel : Election s s') : s'.vivant = s.vivant := by
  cases hel with
  | aucune _ => rfl
  | elit hv hp =>
    show s.depose.vivant = s.vivant
    unfold Core.depose
    split <;> rfl

/-- The process that ran during a step is still allocated at its end. -/
theorem tour_epargne {c c' : Config} {e : Signal} (h : c.Valide) (hp : possible c e = true)
    (hC : ¬ SeCondamne c e) (ht : Tour (cadre c e) c'.mode c.entree c'.s.toCore) :
    c'.s.vivant c.s.procElu = true := by
  obtain ⟨h₀, he₀⟩ := h.entree
  have helu : c.entree.procElu = c.s.procElu := by
    rw [Config.entree]
    cases c.mode <;> rfl
  obtain ⟨h', -, -⟩ := h₀.tour ht
  generalize c'.s.toCore = s' at ht h' ⊢
  generalize c'.mode = mode at ht
  cases ht with
  | retour hs =>
    cases hs with
    | retour hq he =>
      rw [← helu, ← (h₀.elu_calme hq).1]
      exact he.vivant
  | iret hs =>
    cases hs with
    | iret hq he =>
      rw [← helu, ← (h₀.elu_calme hq).1]
      exact he.vivant
  | election hs hl hvide hel =>
    obtain ⟨helu₃, hep⟩ := segment_epargne h hp hC hs hl
    rw [hel.vivant, ← helu₃]
    exact hep.vivant

-- ---------------------------------------------------------------------------
-- What a process owns
-- ---------------------------------------------------------------------------

/-- The process is allocated: its structure, its identifier, and its kernel and
user stacks; the idle process has none. -/
structure Kernel.Detient (s : Kernel) (p : Ptr) : Prop where
  vivant : s.vivant p = true
  processus : s.blocs p = some sizeofProcessus
  inscrit : s.tableDesProcs (s.tas p).pid = some p
  pileKernel : p ≠ s.procIdle → s.blocs (s.tas p).pileKernel = some (s.tas p).pileSizeKernel
  pileUser : p ≠ s.procIdle → (s.tas p).pile ∈ s.tasUser.blocs

theorem Bilan.detient {s : Kernel} {p : Ptr} {d : Multiset (Ptr × Nat)} (hb : Bilan s.avoirs d)
    (h : Coherent s.toCore) (hv : s.vivant p = true) : s.Detient p where
  vivant := hv
  processus := by
    refine (hb.ledger.exact p sizeofProcessus).mpr (Multiset.mem_add.mpr (.inl ?_))
    rw [← Avoirs.possede_sans (A := s.avoirs) hv (hb.ancien p hv)]
    refine Multiset.mem_add.mpr (.inr (Multiset.mem_add.mpr (.inl (Multiset.mem_add.mpr (.inl ?_)))))
    exact Multiset.mem_singleton_self _
  inscrit := h.inscrit p hv
  pileKernel hp := ((hb.blocsDe hv hp).1 _ (List.mem_cons_of_mem _ List.mem_cons_self)).1
  pileUser hp := hb.piles.alloue p hv hp

-- ---------------------------------------------------------------------------
-- The election at the end of a step
-- ---------------------------------------------------------------------------

/-- The step ends with a call of `ordonnanceur`, which has saved the return point,
and whose call of `free_mourant_queue` returns in the state `s'`. -/
def Config.Moissonne (c : Config) (e : Signal) (s' : Kernel) : Prop :=
  ∃ (k : Reprise) (s : Kernel), segment c e c.s = .ok (.ordonnanceur k, s) ∧
    freeMourantQueue { s with toCore := s.toCore.empile k } = .ok ((), s')

/-- What `ordonnanceur` finds when it calls `free_mourant_queue`. -/
theorem Accessible.appelMoisson {c : Config} {e : Signal} {k : Reprise} {s : Kernel}
    (h : Accessible c) (hp : possible c e = true)
    (hseg : segment c e c.s = .ok (.ordonnanceur k, s)) :
    Stable (s.toCore.empile k) ∧
      ∃ d, Bilan ({ s with toCore := s.toCore.empile k } : Kernel).avoirs d := by
  obtain ⟨perdus, hperte⟩ := h.perte
  obtain ⟨f, hb, -⟩ := wp_ok (compte_segment h.valide.stable.coherent e _ hperte.bilan) hseg
  refine ⟨(h.valide.entree.1.segment_sortie (h.valide.segment hp hseg)).1, f + perdus, ?_⟩
  rw [Kernel.avoirs_empile]
  exact hb

/-- What `ordonnanceur` finds when `free_mourant_queue` returns. -/
theorem Accessible.moissonne {c : Config} {e : Signal} {k : Reprise} {s s' : Kernel}
    (h : Accessible c) (hp : possible c e = true)
    (hseg : segment c e c.s = .ok (.ordonnanceur k, s))
    (hrun : freeMourantQueue { s with toCore := s.toCore.empile k } = .ok ((), s')) :
    Relation.ReflTransGen Liberation (s.toCore.empile k) s'.toCore ∧ Stable s'.toCore ∧
      s'.elems .procMourants = [] ∧ ∃ d, Bilan s'.avoirs d := by
  obtain ⟨hst, d, hb⟩ := h.appelMoisson hp hseg
  obtain ⟨hl, hvide⟩ := wp_ok (wp_freeMourantQueue (C := {}) (R := fun _ s' =>
    Relation.ReflTransGen Liberation (s.toCore.empile k) s'.toCore ∧ s'.elems .procMourants = [])
    hst.coherent fun _ hl hv => ⟨hl, hv⟩) hrun
  have hc := hst.coherent.liberation hl
  exact ⟨hl, ⟨hc, hc.orphelins_of_vide hvide⟩, hvide, d, (wp_ok (tenu_freeMourantQueue _ _ hb) hrun).1⟩

/-- The code of a step that condemns the elected process ends with its death. -/
theorem SeCondamne.fin {c : Config} {e : Signal} (hC : SeCondamne c e) (h : c.Valide)
    (hp : possible c e = true) : c.s.toCore.EnCours ∧ c.s.procElu ≠ c.s.procIdle ∧
      ∃ (k : Reprise) (m : Motif) (s' : Kernel), segment c e c.s = .ok (.ordonnanceur k, s') ∧
        m ≠ .cede ∧ Sortie m k c.s.toCore s'.toCore := by
  obtain ⟨⟨r, rfl, hsv⟩ | ⟨r, ⟨rfl, hsv⟩, htable⟩, -⟩ := hC <;>
    simp only [possible, decide_eq_true_eq] at hp
  · have he := h.utilisateur hp.1
    have hwp : wp (fun _ => False) (segment c (.int49 r))
        (fun x s' => x = .ordonnanceur .exitFin ∧ Sortie .exit .exitFin c.s.toCore s'.toCore) c.s := by
      rw [segment, if_pos hp, traitantIT49Switch, hsv]
      exact wp_exit h.stable he hp.2 _ fun s' hs => ⟨rfl, hs⟩
    obtain ⟨x, s', hseg, rfl, hs⟩ := wp_exists hwp
    exact ⟨he, hp.2, _, _, s', hseg, by decide, hs⟩
  · have he := h.utilisateur hp.1
    have hwp : wp (fun _ => False) (segment c (.int49 r)) (fun x s' =>
        x = .ordonnanceur (.retour 0) ∧ Sortie .suicide (.retour 0) c.s.toCore s'.toCore) c.s := by
      rw [segment, if_pos hp, traitantIT49Switch, hsv]
      exact wp_kill_soi h.stable he hp.2 htable fun s' hs => ⟨rfl, hs⟩
    obtain ⟨x, s', hseg, rfl, hs⟩ := wp_exists hwp
    exact ⟨he, hp.2, _, _, s', hseg, by decide, hs⟩

/-- What stops `free_mourant_queue` stops `ordonnanceur`. -/
theorem ordonnanceur_faute {s : Kernel} {k : Reprise} {f : Faute}
    (hv : s.vivant s.procElu = true)
    (hrun : freeMourantQueue { s with toCore := s.toCore.empile k } = .error f) :
    ordonnanceur k s = .error f := by
  have hwp : wp (fun x => x = f) (ordonnanceur k) (fun _ _ => False) s := by
    simp only [ordonnanceur, ecrire, surCore, wp_bind, wp_get, hv, if_true, wp_modify]
    refine wp_of (fun _ _ hx => ?_) fun x hx => ?_
    · cases hrun.symm.trans hx
    · cases hrun.symm.trans hx
      rfl
  cases hr : ordonnanceur k s with
  | ok a => exact (wp_ok hwp hr).elim
  | error x => rw [wp_error hwp hr]

/-- A freed process that still runs is found out by the check of its canary. -/
theorem ordonnanceur_libere {s s' : Kernel} {k : Reprise} (hv : s.vivant s.procElu = true)
    (hrun : freeMourantQueue { s with toCore := s.toCore.empile k } = .ok ((), s'))
    (hact : s'.elems .procActivables ≠ []) (hidle : s'.procElu ≠ s'.procIdle)
    (hlibre : s'.vivant s'.procElu = false) :
    ordonnanceur k s = .error (.accesLibere .checkCanary) := by
  have hwp : wp (fun f => f = .accesLibere .checkCanary) (ordonnanceur k) (fun _ _ => False) s := by
    simp only [ordonnanceur, ecrire, surCore, wp_bind, wp_get, hv, if_true, wp_modify]
    refine (wp_of_run hrun).mpr ?_
    simp only [queueEmpty, wp_bind, wp_get, wp_pure]
    rw [if_neg (by simpa using hact)]
    simp [commute, checkCanary, lire, hidle, hlibre]
  cases hr : ordonnanceur k s with
  | ok a => exact (wp_ok hwp hr).elim
  | error f => rw [wp_error hwp hr]

/-- The step of a condemned process that ends stops, as a rule after the process has
been freed. -/
theorem pas_condamne {c : Config} {e : Signal} (h : Accessible c) (hp : possible c e = true)
    (hC : SeCondamne c e) :
    (∃ s', c.Moissonne e s' ∧ s'.vivant c.s.procElu = false ∧
        pas c e = .error (.accesLibere .checkCanary)) ∨
      pas c e = .error (.accesNul .addPid) ∨ pas c e = .error (.memBug .freeMourantQueue) := by
  obtain ⟨he, hidle, k, m, s, hseg, hm, hs⟩ := hC.fin h.valide hp
  obtain ⟨-, hsorti⟩ := h.valide.stable.sortie he hs
  obtain ⟨hst, d, hb⟩ := h.appelMoisson hp hseg
  rw [pas_eq_ordonnanceur hseg]
  cases hrun : freeMourantQueue { s with toCore := s.toCore.empile k } with
  | error f =>
    have hE : Kernel.Entrave { s with toCore := s.toCore.empile k } f :=
      wp_error (wp_freeMourantQueue_moisson (R := fun _ _ => True)
        (Stable.foret (s := { s with toCore := s.toCore.empile k }) hst hb)
        fun _ _ _ _ _ _ _ => trivial) hrun
    have hr : ordonnanceur k s = .error f := ordonnanceur_faute hsorti.vivant hrun
    rw [hr]
    cases hE with
    | cellule => exact .inr (.inl rfl)
    | garde => exact .inr (.inr rfl)
  | ok r =>
    obtain ⟨_, s'⟩ := r
    obtain ⟨hl, hst', hvide, -⟩ := h.moissonne hp hseg hrun
    obtain ⟨helu, hidle', -⟩ := Stable.sorti_liberation hst.coherent hsorti hl
    have hlibre : s'.vivant s'.procElu = false := hs.libre h.valide.stable he hm hC.2 hl hvide
    have hne : s'.procElu ≠ s'.procIdle := by
      rw [helu, hidle']
      exact hidle
    refine .inl ⟨s', ⟨k, s, hseg, hrun⟩, helu ▸ hlibre, ?_⟩
    rw [ordonnanceur_libere hsorti.vivant hrun (activables_non_vide hst' hne) hne hlibre]
    rfl

-- ---------------------------------------------------------------------------
-- Runs
-- ---------------------------------------------------------------------------

/-- In a reachable configuration, when `free_mourant_queue` returns to `ordonnanceur` the
process that called it is still allocated, unless the step ends a condemned process. A
step that does not accesses no freed process and leaves the process that ran allocated;
a step that does stops: `free_mourant_queue` frees the process and `ordonnanceur` reads
it, or `free_mourant_queue` does not return. -/
theorem elu_jamais_libere {c : Config} (h : Accessible c) {e : Signal} (hp : possible c e = true) :
    (∀ s', c.Moissonne e s' → (s'.Detient c.s.procElu ↔ ¬ SeCondamne c e)) ∧
    (¬ SeCondamne c e →
      (∀ l, pas c e = .error (.accesLibere l) → l = .console ∨ l = .keyboardData) ∧
      ∀ c', pas c e = .ok c' → c'.s.Detient c.s.procElu) ∧
    (SeCondamne c e →
      (∃ s', c.Moissonne e s' ∧ s'.vivant c.s.procElu = false ∧
        pas c e = .error (.accesLibere .checkCanary)) ∨
      pas c e = .error (.accesNul .addPid) ∨ pas c e = .error (.memBug .freeMourantQueue)) := by
  have hv := h.valide
  refine ⟨?_, fun hC => ⟨?_, ?_⟩, pas_condamne h hp⟩
  · rintro s' ⟨k, s, hseg, hrun⟩
    obtain ⟨hl, hst, hvide, d, hb⟩ := h.moissonne hp hseg hrun
    constructor
    · intro hdet hC
      obtain ⟨he, -, k', m, s₁, hseg', hm, hs⟩ := hC.fin hv hp
      rw [hseg] at hseg'
      cases hseg'
      obtain ⟨hst₁, hsorti⟩ := hv.stable.sortie he hs
      have hlibre := hs.libre hv.stable he hm hC.2 hl hvide
      rw [(Stable.sorti_liberation hst₁.coherent hsorti hl).1, hdet.vivant] at hlibre
      cases hlibre
    · intro hC
      obtain ⟨helu, hep⟩ := segment_epargne hv hp hC (hv.segment hp hseg) hl
      exact hb.detient hst.coherent (helu ▸ hep.vivant)
  · intro l hf
    rcases (pas_raffine hv hp).2 _ hf with hx | hx
    · simpa [Faute.permise] using hx
    · cases l with
      | checkCanary =>
        obtain ⟨k, s₂, s₃, hseg, hl, hmort⟩ := hx
        have hs := wp_ok (segment_raffine hv hp) hseg
        rw [(segment_epargne hv hp hC hs hl).2.vivant] at hmort
        cases hmort
      | _ => exact hx.elim
  · intro c' hpas
    have h' : Accessible c' := .pas h hp trivial hpas
    obtain ⟨perdus, hperte⟩ := h'.perte
    exact hperte.bilan.detient h'.valide.stable.coherent
      (tour_epargne hv hp hC ((pas_raffine hv hp).1 c' hpas))

/-- The user process starts a child and ends, then the child ends. -/
def finsEnChaine : List Signal := [.suite, appel 2 0x1000000 0 1 0, appel 3 0 0 0 0, .suite]

/-- The child is freed with its father while it calls `ordonnanceur`. -/
theorem elu_jamais_libere_faux : ∃ c e s', Accessible c ∧ possible c e = true ∧
    c.Moissonne e s' ∧ s'.vivant c.s.procElu = false ∧
      pas c e = .error (.accesLibere .checkCanary) := by
  obtain ⟨c, hc, h⟩ := Accessible.scenario (l := finsEnChaine)
    (Q := fun c => (c.s.tas c.s.procElu).pere.any (fun f => decide ((c.s.tas f).etat = .mourant)) &&
      echoue c (appel 3 0 0 0 0) (.accesLibere .checkCanary)) (by decide +kernel)
  rw [Bool.and_eq_true] at h
  obtain ⟨f, hf, hm⟩ := (Option.any_eq_true _ _).mp h.1
  obtain ⟨hp, hpas⟩ := of_echoue h.2
  have hC : SeCondamne c (appel 3 0 0 0 0) :=
    ⟨.inl ⟨_, rfl, by decide⟩, .mourant hf (of_decide_eq_true hm)⟩
  rcases pas_condamne hc hp hC with ⟨s', hs', hv, -⟩ | hx | hx
  · exact ⟨c, _, s', hc, hp, hs', hv, hpas⟩
  · rw [hpas] at hx
    cases hx
  · rw [hpas] at hx
    cases hx

/-- The end of the father frees nobody. -/
theorem elu_jamais_libere_exemple : ∃ c c', Accessible c ∧ pas c (appel 3 0 0 0 0) = .ok c' ∧
    c'.s.Detient c.s.procElu := by
  obtain ⟨c, hc, h⟩ := Accessible.scenario (l := [.suite, appel 2 0x1000000 0 1 0])
    (Q := fun c => possible c (appel 3 0 0 0 0) && decide ((c.s.tas c.s.procElu).pere = none) &&
      (pas c (appel 3 0 0 0 0)).toBool) (by decide +kernel)
  simp only [Bool.and_eq_true, decide_eq_true_eq] at h
  obtain ⟨⟨hp, hpere⟩, hok⟩ := h
  have hC : ¬ SeCondamne c (appel 3 0 0 0 0) := by
    rintro ⟨-, hcond⟩
    cases hcond with
    | mourant hf _ => rw [hpere] at hf; cases hf
    | zombie hf _ _ => rw [hpere] at hf; cases hf
  cases hpas : pas c (appel 3 0 0 0 0) with
  | error f =>
    rw [hpas] at hok
    cases hok
  | ok c' => exact ⟨c, c', hc, hpas, ((elu_jamais_libere hc hp).2.1 hC).2 c' hpas⟩

end GenesisOS
