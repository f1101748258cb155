import GenesisOS.Invariants.Deceased
import GenesisOS.Refinement.Boot

/-!
# GenesisOS — blocking, waking, dying

A dead process never runs again, and a blocked one runs only once it has been
put back among the activable ones: the idle process is always there to be
elected instead.
-/

namespace GenesisOS

open Lib

-- ---------------------------------------------------------------------------
-- The dead never run again
-- ---------------------------------------------------------------------------

/-- What is left of a dead process in the state `s`: it is in no list but
`proc_mourants`, and it is not elected. -/
theorem Config.Valide.mort {c : Config} (h : c.Valide) {p : Ptr}
    (hp : c.s.vivant p = true → (c.s.tas p).etat.mort = true) :
    c.s.procElu ≠ p ∧ ∀ t, p ∈ c.s.elems t → t = .procMourants := by
  constructor
  · rintro rfl
    have hm := hp h.elu.vivant
    rw [h.elu.etat] at hm
    cases hm
  · intro t ht
    have hl : c.s.lien p = some t := LinkedQueues.link_of_mem ht
    have hm := hp (h.stable.coherent.lie p t hl)
    rw [h.stable.coherent.etat_of_lien hl] at hm
    cases t <;> first | rfl | cases hm

/-- In every run, a process that is a zombie, to be freed or freed is in no
queue but `proc_mourants`, is never elected, and only goes from zombie to dying
to freed. -/
theorem morts_definitifs {c c' : Config} {l : List Signal} {p : Ptr} (hc : Accessible c)
    (hp : p < c.s.prochain) (hm : c.s.vivant p = true → c.s.toCore.Mort p)
    (hl : execute c l = some c') :
    c'.s.procElu ≠ p ∧ (∀ t, p ∈ c'.s.elems t → t = .procMourants) ∧
      (c'.s.vivant p = true → c'.s.toCore.Mort p) ∧
      ((c.s.vivant p = true → (c.s.tas p).etat = .mourant) →
        c'.s.vivant p = true → (c'.s.tas p).etat = .mourant) ∧
      (c.s.vivant p = false → c'.s.vivant p = false) := by
  have suit : ∀ E : Etat → Prop, Etat.Final E → (c.s.vivant p = true → E (c.s.tas p).etat) →
      c'.Valide ∧ c'.s.toCore.Fini E p := fun E hE he =>
    hc.valide.execute (Core.Fini.conserve hE) (fun _ _ hi => hi.depile) ⟨hp, he⟩ hl
  obtain ⟨hv, -, hmort⟩ := suit _ Etat.final_mort fun hx => Core.mort_iff.mp (hm hx)
  obtain ⟨hne, hqueue⟩ := hv.mort hmort
  refine ⟨hne, hqueue, fun hx => Core.mort_iff.mpr (hmort hx), ?_, ?_⟩
  · exact fun hx => (suit _ Etat.final_mourant hx).2.2
  · intro hx
    cases hx' : c'.s.vivant p with
    | false => rfl
    | true =>
      exact ((suit _ Etat.final_libere fun hx' => by rw [hx] at hx'; cases hx').2.2 hx').elim

/-- The user process starts a child of greater priority, which exits: the
father runs again. -/
def filsTermine : List Signal :=
  [.suite, appel 2 0x1000000 0 2 0, .suite, appel 3 5 0 0 0, .suite]

/-- The child is a zombie, and still one after a clock tick. -/
theorem morts_definitifs_exemple : ∃ c c' p, Accessible c ∧ execute c [.int32] = some c' ∧
    (c.s.tas p).etat = .zombie ∧ c'.s.procElu ≠ p ∧
      ∀ t, p ∈ c'.s.elems t → t = .procMourants := by
  obtain ⟨c, hc, h⟩ := Accessible.scenario (l := filsTermine)
    (Q := fun c => (execute c [.int32]).isSome && (c.s.tableDesProcs 2).any fun p =>
      decide (p < c.s.prochain) && decide ((c.s.tas p).etat = .zombie)) (by decide +kernel)
  rw [Bool.and_eq_true] at h
  obtain ⟨c', hc'⟩ := Option.isSome_iff_exists.mp h.1
  obtain ⟨p, -, h⟩ := (Option.any_eq_true _ _).mp h.2
  rw [Bool.and_eq_true, decide_eq_true_eq, decide_eq_true_eq] at h
  obtain ⟨hne, hqueue, -⟩ := morts_definitifs hc h.1 (fun _ => .inl h.2) hc'
  exact ⟨c, c', p, hc, hc', h.2, hne, hqueue⟩

-- ---------------------------------------------------------------------------
-- The idle process
-- ---------------------------------------------------------------------------

/-- When another process is elected, the idle process is activable. -/
theorem Coherent.idle_activable {s : Core} (h : Coherent s) (hne : s.procElu ≠ s.procIdle) :
    (s.tas s.procIdle).etat = .activable ∧ s.procIdle ∈ s.elems .procActivables := by
  have het : (s.tas s.procIdle).etat = .activable := by
    rcases h.idleEtat with he | he
    · exact absurd (h.eq_procElu h.idle.1 he).symm hne
    · exact he
  have hpl := h.place _ h.idle.1
  unfold Core.Place at hpl
  rw [het] at hpl
  exact ⟨het, (s.chainage.mem_iff _ _).mpr hpl⟩

/-- The state in which a call of `ordonnanceur` looks for a process to elect. -/
def avantElection (k : Reprise) : M Unit := do
  let s ← get
  ecrire .ordonnanceur s.procElu fun r => { r with contexte := k }
  freeMourantQueue

theorem wp_avantElection {k : Reprise} {s : Kernel} (hv : s.vivant s.procElu = true)
    (hst : Coherent (s.toCore.empile k)) :
    wp (Cadre.tolere {}) (avantElection k)
      (fun _ s₂ => Relation.ReflTransGen Liberation (s.toCore.empile k) s₂.toCore) s := by
  simp only [avantElection, wp_bind, wp_get]
  refine wp_ecrire hv ?_
  intro s₁ h₁
  have hs₁ : s₁.toCore = s.toCore.empile k := h₁
  refine wp_freeMourantQueue (by rw [hs₁]; exact hst) ?_
  intro s₂ hl _
  rwa [hs₁] at hl

theorem lien_activables_liberation {s s' : Core} {p : Ptr} (h : Coherent s)
    (hl : Relation.ReflTransGen Liberation s s') (hp : s.lien p ≠ some .procActivables) :
    s'.lien p ≠ some .procActivables := by
  induction hl with
  | refl => exact hp
  | tail hrest hlast ih =>
    obtain ⟨q, adr, n, hq, hn, L⟩ := (h.liberation hrest).liberation_spec hlast
    rw [L.lien]
    split
    · simp
    · split
      · simp
      · exact ih

/-- Who leaves the processor without being elected or activable is not put
among the activable processes. -/
theorem Core.lien_depose {s : Core} {p : Ptr} (hp : s.lien p ≠ some .procActivables)
    (h : p ≠ s.procElu ∨ (s.tas s.procElu).etat ≠ .elu ∧ (s.tas s.procElu).etat ≠ .activable) :
    s.depose.lien p ≠ some .procActivables := by
  have ajoute : ∀ {t : Tete}, t ≠ .procActivables ∨ p ≠ s.procElu →
      (s.ajoute t s.procElu (·.prio)).lien p ≠ some .procActivables := by
    intro t ht
    by_cases hpe : p = s.procElu
    · subst hpe
      have ht := ht.resolve_right (fun hx => hx rfl)
      by_cases hl : s.lien s.procElu = none
      · rw [Core.lien_ajoute hl, if_pos rfl]
        exact fun hx => ht (Option.some.inj hx)
      · show (s.chainage.add t s.procElu _).link s.procElu ≠ _
        rw [LinkedQueues.add, dif_neg hl]
        exact hp
    · rwa [Core.lien_ajoute_of_ne hpe]
  unfold Core.depose
  split
  · exact ajoute (.inl (by simp))
  · next he =>
    have hpe := h.resolve_right fun hx => hx.1 he
    show ((s.maj s.procElu _).ajoute _ s.procElu _).lien p ≠ _
    rwa [Core.lien_ajoute_of_ne hpe]
  · next he =>
    have hpe := h.resolve_right fun hx => hx.2 he
    show ((s.maj s.procElu _).ajoute _ s.procElu _).lien p ≠ _
    rwa [Core.lien_ajoute_of_ne hpe]
  · exact hp

/-- A process that is not among the activable ones when `ordonnanceur` is
called, and does not merely give up the processor, is not elected by this call
and is not put among them. -/
theorem Election.absent {s s₀ s₃ s' : Core} {p : Ptr} (h : Coherent s) (hs : Sorti s₀ s)
    (hl : Relation.ReflTransGen Liberation s s₃) (hel : Election s₃ s')
    (hp : s.lien p ≠ some .procActivables)
    (helu : s.procElu = p → (s.tas p).etat.bloque = true ∨ (s.tas p).etat.mort = true) :
    s'.procElu ≠ p ∧ s'.lien p ≠ some .procActivables := by
  have hc₃ := h.liberation hl
  have hp₃ := lien_activables_liberation h hl hp
  obtain ⟨helu₃, hidle₃⟩ := Stable.elu_liberation h hl
  obtain ⟨-, -, hna₃⟩ := Stable.sorti_liberation h hs hl
  -- the caller is blocked or dead, so it is not the idle process
  have hidle : s.procElu = p → s.procElu ≠ s.procIdle := by
    rintro rfl hi
    rw [hi] at helu
    rcases h.idleEtat with he | he <;> rw [he] at helu <;>
      rcases helu rfl with hx | hx <;> cases hx
  cases hel with
  | aucune hvide =>
    refine ⟨fun hx => ?_, hp₃⟩
    rw [helu₃] at hx
    have hm := (hc₃.idle_activable (by rw [helu₃, hidle₃]; exact hidle hx)).2
    rw [hvide] at hm
    cases hm
  | @elit q hv hq =>
    have hd : s₃.depose.lien p ≠ some .procActivables := by
      refine Core.lien_depose hp₃ ?_
      by_cases hpe : p = s₃.procElu
      · refine .inr ⟨fun hx => ?_, hna₃⟩
        rw [hpe, helu₃] at helu
        rw [helu₃] at hx
        rcases h.survit hs.vivant hl with ⟨h', -⟩ | ⟨-, hv', -⟩
        · have he := (hx ▸ h'.etat).elu
          rw [he] at helu
          rcases helu rfl with hb | hm
          · cases hb
          · cases hm
        · rw [helu₃, hv'] at hv
          cases hv
      · exact .inl hpe
    have hql : s₃.depose.lien q = some .procActivables := LinkedQueues.link_of_top hq
    refine ⟨?_, ?_⟩
    · show q ≠ p
      rintro rfl
      exact hd hql
    · show (s₃.depose.retire q).lien p ≠ _
      rw [Core.lien_retire]
      split
      · simp
      · exact hd

-- ---------------------------------------------------------------------------
-- Steps and runs
-- ---------------------------------------------------------------------------

theorem Sortie.mort {s s' : Core} {m : Motif} {k : Reprise} (q : Sortie m k s s')
    (hm : m ≠ .cede) : (s'.tas s.procElu).etat.mort = true := by
  cases q with
  | @exitZombie _ v pere hidle hp =>
    rw [Stable.tas_reveillePere (by simp)]
    simp [Etat.mort]
  | exitMourant hidle hp => simp [Etat.mort]
  | suicideZombie hidle hp => simp [Etat.mort]
  | suicideMourant hidle hp => simp [Etat.mort]
  | _ => exact absurd rfl hm

/-- The call of `ordonnanceur` that ends the kernel code of a step. -/
structure Appel (c : Config) (e : Signal) (k : Reprise) (s' : Kernel) : Prop where
  valide : c.Valide
  possible : possible c e = true
  segment : segment c e c.s = .ok (.ordonnanceur k, s')

namespace Appel

variable {c c' : Config} {e : Signal} {k : Reprise} {s' : Kernel}

theorem sorti (h : Appel c e k s') :
    Stable (s'.toCore.empile k) ∧ Sorti c.entree (s'.toCore.empile k) :=
  h.valide.entree.1.segment_sortie (h.valide.segment h.possible h.segment)

theorem elu (h : Appel c e k s') : s'.procElu = c.s.procElu := by
  have hx : s'.procElu = c.entree.procElu := h.sorti.2.elu
  rw [hx]
  unfold Config.entree
  split <;> rfl

/-- It finds an activable process, unless the idle process calls it. -/
theorem activables (h : Appel c e k s') (hne : s'.procElu ≠ s'.procIdle) {s₂ : Kernel}
    (hs : avantElection k s' = .ok ((), s₂)) : s₂.elems .procActivables ≠ [] := by
  obtain ⟨hst, hsorti⟩ := h.sorti
  have hl := wp_ok (wp_avantElection hsorti.vivant hst.coherent) hs
  obtain ⟨helu, hidle⟩ := Stable.elu_liberation hst.coherent hl
  refine List.ne_nil_of_mem ((hst.coherent.liberation hl).idle_activable ?_).2
  rw [helu, hidle]
  exact hne

/-- Nor the processes that are not activable then, nor the caller, blocked or
dead, are elected. -/
theorem absent (h : Appel c e k s') (hpas : pas c e = .ok c') {p : Ptr}
    (hp : s'.lien p ≠ some .procActivables)
    (helu : s'.procElu = p → (s'.tas p).etat.bloque = true ∨ (s'.tas p).etat.mort = true) :
    c'.s.procElu ≠ p ∧ c'.s.lien p ≠ some .procActivables := by
  obtain ⟨hst, hsorti⟩ := h.sorti
  obtain ⟨-, s₃, hl, -, hel⟩ := of_pas_ordonnanceur h.valide h.possible h.segment hpas
  refine hel.absent hst.coherent hsorti hl hp ?_
  intro hx
  have het : ((s'.toCore.empile k).tas p).etat = (s'.tas p).etat := by
    rw [Core.empile, Core.tas_maj]
    split
    · next hy => rw [hy]
    · rfl
  rw [het]
  exact helu hx

/-- The caller is not among the activable processes. -/
theorem lien_elu (h : Appel c e k s') : s'.lien c.s.procElu ≠ some .procActivables := by
  intro hl
  have het := h.sorti.1.coherent.etat_of_lien (t := .procActivables) (p := c.s.procElu) hl
  have hna := h.sorti.2.etat
  have helu : (s'.toCore.empile k).procElu = c.s.procElu := h.elu
  rw [helu] at hna
  exact hna het

end Appel

/-- A process that is elected later has been put among the activable ones in
the meantime. -/
theorem reveil_entre {c d : Config} {l : List Signal} {p : Ptr} (h : c.Valide)
    (hp : c.s.lien p ≠ some .procActivables) (helu : c.s.procElu ≠ p)
    (hl : execute c l = some d) (hd : d.s.procElu = p) :
    ∃ l₁ e l₂ c₁ x s', l = l₁ ++ e :: l₂ ∧ execute c l₁ = some c₁ ∧
      p ∉ c₁.s.elems .procActivables ∧ segment c₁ e c₁.s = .ok (x, s') ∧
        p ∈ s'.elems .procActivables := by
  induction l generalizing c with
  | nil =>
    cases hl
    exact absurd hd helu
  | cons e l ih =>
    obtain ⟨hpo, c₁, hpas, hl⟩ := execute_cons.mp hl
    obtain ⟨x, s', hs, ht⟩ := of_pas hpas
    by_cases hx : s'.lien p = some .procActivables
    · refine ⟨[], e, l, c, x, s', rfl, rfl, ?_, hs, (s'.chainage.mem_iff p _).mpr hx⟩
      exact fun hm => hp (LinkedQueues.link_of_mem hm)
    -- otherwise the step leaves it where it is
    have hs₁ : c₁.s.procElu ≠ p ∧ c₁.s.lien p ≠ some .procActivables := by
      have hseg := h.segment hpo hs
      have helu' : s'.procElu = c.s.procElu → s'.procElu ≠ p := fun hx => by rwa [hx]
      have hentree : c.entree.procElu = c.s.procElu := by
        unfold Config.entree
        split <;> rfl
      obtain ⟨s₁, mode₁⟩ := c₁
      cases x with
      | retour v =>
        cases ht
        cases hseg with
        | retour hq _ => exact ⟨helu' ((h.entree.1.elu_calme hq).1.trans hentree), hx⟩
      | iret =>
        cases ht
        cases hseg with
        | iret hq _ => exact ⟨helu' ((h.entree.1.elu_calme hq).1.trans hentree), hx⟩
      | ordonnanceur k =>
        have ha : Appel c e k s' := ⟨h, hpo, hs⟩
        exact ha.absent hpas hx fun hx => absurd hx (helu' ha.elu)
    obtain ⟨l₁, e', l₂, c₂, x', s₂, hl', hc₂, hm, hs', hm'⟩ := ih (h.pas hpo hpas) hs₁.2 hs₁.1 hl
    refine ⟨e :: l₁, e', l₂, c₂, x', s₂, by rw [hl']; rfl, ?_, hm, hs', hm'⟩
    exact execute_cons.mpr ⟨hpo, c₁, hpas, hc₂⟩

/-- A process that calls `ordonnanceur` dead never runs again. -/
theorem Appel.jamais {c c' d : Config} {e : Signal} {k : Reprise} {s' : Kernel} {l : List Signal}
    (h : Appel c e k s') (hpas : pas c e = .ok c')
    (hm : (s'.tas c.s.procElu).etat.mort = true) (hl : execute c' l = some d) :
    d.s.procElu ≠ c.s.procElu := by
  obtain ⟨hst, hsorti⟩ := h.sorti
  obtain ⟨-, s₃, hlib, hvide, hel⟩ := of_pas_ordonnanceur h.valide h.possible h.segment hpas
  have hF := Core.Fini.conserve (p := c.s.procElu) Etat.final_mort {}
  have helu := h.elu
  have hi : (s'.toCore.empile k).Fini (fun e => e.mort = true) c.s.procElu := by
    refine ⟨hst.coherent.ancien _ (by rw [← helu]; exact hsorti.vivant), fun _ => ?_⟩
    rw [Core.empile, helu, Core.tas_maj, if_pos rfl]
    exact hm
  have h₃ : Stable s₃ := ⟨hst.coherent.liberation hlib,
    (hst.coherent.liberation hlib).orphelins_of_vide hvide⟩
  obtain ⟨-, -, hna⟩ := Stable.sorti_liberation hst.coherent hsorti hlib
  have hi' := hF.election h₃ hvide hna (Conserve.liberation hF.libere hst.coherent hi hlib) hel
  obtain ⟨hv, hfin⟩ := (h.valide.pas h.possible hpas).execute (Core.Fini.conserve Etat.final_mort)
    (fun _ _ hi => hi.depile) hi' hl
  exact (hv.mort hfin.2).1

/-- `exit`, or `kill` of the caller by itself. -/
def Finit (c : Config) (r : Registres) : Prop :=
  r.service = some .exit ∨
    r.service = some .kill ∧ c.s.tableDesProcs r.ebx.toInt = some c.s.procElu

theorem Finit.appel {c c' : Config} {r : Registres} (hf : Finit c r) (h : c.Valide)
    (hp : possible c (.int49 r) = true) (hpas : pas c (.int49 r) = .ok c') :
    ∃ k s', Appel c (.int49 r) k s' ∧ (s'.tas c.s.procElu).etat.mort = true := by
  obtain ⟨x, s', hs, ht⟩ := of_pas hpas
  have hp' := hp
  simp only [possible, decide_eq_true_eq] at hp'
  obtain ⟨hu, hidle⟩ := hp'
  have hwp : wp (Cadre.tolere { faute := fun _ => True }) (GenesisOS.segment c (.int49 r))
      (fun x s' => ∃ k, x = .ordonnanceur k ∧ (s'.tas c.s.procElu).etat.mort = true) c.s := by
    rw [GenesisOS.segment, if_pos ⟨hu, hidle⟩, traitantIT49Switch]
    rcases hf with hsv | ⟨hsv, hmoi⟩
    · rw [hsv]
      exact wp_exit h.stable (h.utilisateur hu) hidle _ fun s' q => ⟨_, rfl, q.mort (by decide)⟩
    · rw [hsv]
      refine wp_kill h.stable (h.utilisateur hu) hidle _ (fun _ _ _ => trivial) ?_
      intro x s' ha
      generalize s'.toCore = t at ha ⊢
      cases ha with
      | refus _ hne => exact absurd hmoi hne
      | suicide _ q => exact ⟨_, rfl, q.mort (by decide)⟩
      | zombie hv =>
        rw [Core.victime_moi hmoi] at hv
        cases hv
      | mourant hv =>
        rw [Core.victime_moi hmoi] at hv
        cases hv
  obtain ⟨k, rfl, hm⟩ := wp_ok hwp hs
  exact ⟨k, s', ⟨h, hp, hs⟩, hm⟩

/-- Whenever another process is elected, the idle process is activable with
priority 0. So a call of `ordonnanceur` outside the idle process finds a
process to elect; a process that blocks is elected again only after a step has
put it back among the activable processes; one that executes `exit` or kills
itself is never elected again; and `chprio` finds a process to compare with. -/
theorem blocage_effectif {c : Config} (h : Accessible c) :
    (c.s.procElu ≠ c.s.procIdle → (c.s.tas c.s.procIdle).etat = .activable ∧
      (c.s.tas c.s.procIdle).prio = 0 ∧ c.s.procIdle ∈ c.s.elems .procActivables) ∧
    (∀ e k s', possible c e = true → segment c e c.s = .ok (.ordonnanceur k, s') →
      (s'.procElu ≠ s'.procIdle → ∀ s₂, avantElection k s' = .ok ((), s₂) →
        s₂.elems .procActivables ≠ []) ∧
      ((s'.tas c.s.procElu).etat.bloque = true → ∀ c' l d, pas c e = .ok c' →
        execute c' l = some d → d.s.procElu = c.s.procElu →
          ∃ l₁ e' l₂ c₁ x s₁, l = l₁ ++ e' :: l₂ ∧ execute c' l₁ = some c₁ ∧
            c.s.procElu ∉ c₁.s.elems .procActivables ∧ segment c₁ e' c₁.s = .ok (x, s₁) ∧
              c.s.procElu ∈ s₁.elems .procActivables)) ∧
    (∀ r, possible c (.int49 r) = true → Finit c r → ∀ c' l d, pas c (.int49 r) = .ok c' →
      execute c' l = some d → d.s.procElu ≠ c.s.procElu) ∧
    ∀ e, possible c e = true →
      pas c e ≠ .error (.boucle .exit) ∧ pas c e ≠ .error (.accesNul .chprio) := by
  have hv := h.valide
  have hc := hv.stable.coherent
  refine ⟨?_, ?_, ?_, ?_⟩
  · intro hne
    obtain ⟨het, hm⟩ := hc.idle_activable hne
    exact ⟨het, hc.idle.2.2.1, hm⟩
  · intro e k s' hp hs
    have ha : Appel c e k s' := ⟨hv, hp, hs⟩
    refine ⟨fun hne s₂ => ha.activables hne, ?_⟩
    intro hb c' l d hpas hl hd
    have habs := ha.absent hpas ha.lien_elu fun _ => .inl hb
    exact reveil_entre (hv.pas hp hpas) habs.2 habs.1 hl hd
  · intro r hp hf c' l d hpas hl
    obtain ⟨k, s', ha, hm⟩ := hf.appel hv hp hpas
    exact ha.jamais hpas hm hl
  · intro e hp
    have hf := (pas_raffine hv hp).2
    constructor
    · intro hx
      rcases hf _ hx with hx | hx <;> cases hx
    · intro hx
      rcases hf _ hx with hx | hx <;> cases hx

/-- The user process sleeps, and is elected again after a clock tick. -/
theorem blocage_effectif_exemple : ∃ c c' d : Config, Accessible c ∧
    pas c (appel 16 1 0 0 0) = .ok c' ∧ execute c' [.suite, .int32] = some d ∧
      d.s.procElu = c.s.procElu ∧ ∃ l₁ e' l₂, [.suite, .int32] = l₁ ++ e' :: l₂ ∧
        ∃ c₁ x s₁, execute c' l₁ = some c₁ ∧ segment c₁ e' c₁.s = .ok (x, s₁) ∧
          c.s.procElu ∈ s₁.elems .procActivables := by
  obtain ⟨c, hc, h⟩ := Accessible.scenario (l := [.suite])
    (Q := fun c => possible c (appel 16 1 0 0 0) &&
      (segment c (appel 16 1 0 0 0) c.s).toOption.any (fun x =>
        x.1 = .ordonnanceur (.retour 0) && (x.2.tas c.s.procElu).etat.bloque) &&
      (execute c [appel 16 1 0 0 0, .suite, .int32]).any fun d => d.s.procElu = c.s.procElu)
    (by decide +kernel)
  simp only [Bool.and_eq_true] at h
  obtain ⟨⟨hp, hs⟩, hd⟩ := h
  obtain ⟨d, hd, helu⟩ := (Option.any_eq_true _ _).mp hd
  obtain ⟨-, c', hpas, hl⟩ := execute_cons.mp hd
  obtain ⟨⟨x, s'⟩, hseg, hs⟩ := (Option.any_eq_true _ _).mp hs
  rw [Bool.and_eq_true, decide_eq_true_eq] at hs
  obtain ⟨rfl, hs⟩ := hs
  have hseg : segment c (appel 16 1 0 0 0) c.s = .ok (.ordonnanceur (.retour 0), s') := by
    cases hx : segment c (appel 16 1 0 0 0) c.s with
    | error f =>
      rw [hx] at hseg
      cases hseg
    | ok r =>
      rw [hx] at hseg
      exact congrArg Except.ok (Option.some.inj hseg)
  obtain ⟨l₁, e', l₂, c₁, x, s₁, hl', hc₁, -, hs₁, hm⟩ :=
    ((blocage_effectif hc).2.1 _ _ s' hp hseg).2 hs c' _ d hpas hl (of_decide_eq_true helu)
  exact ⟨c, c', d, hc, hpas, hl, of_decide_eq_true helu, l₁, e', l₂, hl', c₁, x, s₁, hc₁, hs₁, hm⟩

end GenesisOS
