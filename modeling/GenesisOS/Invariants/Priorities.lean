import GenesisOS.Abstract.Invariant

/-!
# GenesisOS — priorities of the activable processes

An election gives the processor to an activable process of the greatest
priority, the list being sorted. Until the next one, a process of greater
priority than the elected one becomes activable only by a transition that says
so (`Etiquette.fort`): a step that wakes none keeps `PrioCorrecte`.
-/

namespace GenesisOS

open Lib

namespace Core

variable (s : Core)

/-- No activable process has a greater priority than the elected one. -/
def PrioCorrecte : Prop :=
  ∀ p, s.vivant p = true → (s.tas p).etat = .activable →
    (s.tas p).prio ≤ (s.tas s.procElu).prio

/-- An activable process of greater priority than the elected one. -/
def Presse (p : Ptr) : Prop :=
  s.vivant p = true ∧ (s.tas p).etat = .activable ∧ s.fort p = true

variable {s}

theorem prioCorrecte_iff : s.PrioCorrecte ↔ ∀ p, ¬ s.Presse p := by
  unfold PrioCorrecte Presse fort
  constructor
  · rintro h p ⟨hv, ha, hf⟩
    exact absurd (h p hv ha) (not_le.mpr (of_decide_eq_true hf))
  · intro h p hv ha
    by_contra hlt
    exact h p ⟨hv, ha, decide_eq_true (not_le.mp hlt)⟩

end Core

/-- The activable processes of greater priority are old ones. -/
def MoinsPresse (s s' : Core) : Prop := ∀ p, s'.Presse p → s.Presse p

theorem Core.PrioCorrecte.moins {s s' : Core} (h : s.PrioCorrecte) (m : MoinsPresse s s') :
    s'.PrioCorrecte := by
  rw [Core.prioCorrecte_iff] at h ⊢
  exact fun p hp => h p (m p hp)

namespace MoinsPresse

variable {s s' s'' : Core} {p : Ptr}

theorem refl : MoinsPresse s s := fun _ h => h

theorem trans (m : MoinsPresse s s') (m' : MoinsPresse s' s'') : MoinsPresse s s'' :=
  fun p h => m p (m' p h)

/-- Priorities are the same, and no process becomes activable. -/
theorem champs (hv : ∀ x, s'.vivant x = true → s.vivant x = true)
    (helu : s'.procElu = s.procElu) (hprio : ∀ x, (s'.tas x).prio = (s.tas x).prio)
    (het : ∀ x, (s'.tas x).etat = .activable → (s.tas x).etat = .activable) :
    MoinsPresse s s' := by
  rintro x ⟨hx, ha, hf⟩
  rw [Core.fort, helu, hprio, hprio] at hf
  exact ⟨hv x hx, het x ha, hf⟩

/-- No process changes. -/
theorem puis (m : MoinsPresse s s') (hv : s''.vivant = s'.vivant) (ht : s''.tas = s'.tas)
    (helu : s''.procElu = s'.procElu) : MoinsPresse s s'' := by
  refine m.trans (champs ?_ helu ?_ ?_)
  · rw [hv]
    exact fun _ hx => hx
  · rw [ht]
    exact fun _ => rfl
  · rw [ht]
    exact fun _ hx => hx

theorem note (m : MoinsPresse s s') (e : Evenement) : MoinsPresse s (s'.note e) := m.puis rfl rfl rfl

/-- One process changes, not the elected one, and ends up no more urgent. -/
theorem un (p : Ptr) (hv : s'.vivant = s.vivant) (helu : s'.procElu = s.procElu)
    (hp : p ≠ s.procElu) (ht : ∀ x, x ≠ p → s'.tas x = s.tas x)
    (hfin : (s'.tas p).etat = .activable → (s'.tas p).prio ≤ (s.tas s.procElu).prio) :
    MoinsPresse s s' := by
  rintro x ⟨hx, ha, hf⟩
  have hfort : (s'.tas s'.procElu).prio < (s'.tas x).prio := of_decide_eq_true hf
  rw [helu, ht _ hp.symm] at hfort
  have hxp : x ≠ p := by
    rintro rfl
    exact absurd (hfin ha) (not_le.mpr hfort)
  rw [ht x hxp] at ha hfort
  rw [hv] at hx
  exact ⟨hx, ha, decide_eq_true hfort⟩

/-- Fields other than the state and the priority change. -/
theorem maj {f : Processus → Processus} (hf : ∀ r, (f r).prio = r.prio ∧ (f r).etat = r.etat := by
    exact fun _ => ⟨rfl, rfl⟩) : MoinsPresse s (s.maj p f) := by
  refine champs (fun _ hx => hx) rfl ?_ ?_
  · intro x
    rw [Core.tas_maj]
    split
    · next hx => rw [hx]; exact (hf _).1
    · rfl
  · intro x ha
    rw [Core.tas_maj] at ha
    split at ha
    · next hx => rw [hx]; rwa [(hf _).2] at ha
    · exact ha

theorem eveille {f : Processus → Processus} (hp : p ≠ s.procElu) (hfort : s.fort p = false)
    (hf : ∀ r, (f r).prio = r.prio := by exact fun _ => rfl) : MoinsPresse s (s.eveille p f) := by
  refine un p rfl rfl hp ?_ ?_
  · intro x hx
    rw [Core.tas_eveille, if_neg hx]
  · intro _
    rw [Core.tas_eveille, if_pos rfl]
    exact (hf _).trans_le (not_lt.mp (of_decide_eq_false hfort))

theorem rejets {sid : Int} {sem : Semaphore} {status : Int} (h : Stable s) (he : s.EnCours)
    (hfort : ∀ p ∈ s.elems (.semaphore sid), s.fort p = false)
    (hr : Relation.ReflTransGen (Rejet sid sem status) s s') :
    MoinsPresse s s' := by
  induction hr using Relation.ReflTransGen.head_induction_on with
  | refl => exact refl
  | @head s s₁ hfirst hrest ih =>
    have hfirst' := hfirst
    obtain ⟨q, hq, rfl⟩ := hfirst'
    have hqe : q ≠ s.procElu := h.coherent.ne_procElu he (LinkedQueues.link_of_top hq)
    have m : MoinsPresse s ((s.eveille q fun r => { r with operationStatus := status }).note
        (.semRejet sem.adr q status)) :=
      (eveille hqe (hfort q (LinkedQueues.mem_of_top hq))).note _
    refine m.trans (ih (h.rejet hfirst) (h.enCours_rejet he hfirst) ?_)
    intro p hp
    have helems := Core.elems_eveille_top (f := fun r => { r with operationStatus := status }) hq
      (by simp)
    have hp' : p ∈ s.elems (.semaphore sid) := by
      rw [helems]
      exact List.mem_append_left _ hp
    exact (Core.fort_eveille (f := fun r => { r with operationStatus := status })
      (fun _ => rfl) p).trans (hfort p hp')

theorem liberation_pas (h : Coherent s) (hl : Liberation s s') : MoinsPresse s s' := by
  obtain ⟨p, adr, n, hp, hn, L⟩ := h.liberation_spec hl
  refine champs (fun x hx => (L.vivant_of hx).2) L.elu (fun x => (L.champs x).2.1) ?_
  intro x hx
  rw [L.etat_eq] at hx
  split at hx
  · cases hx
  · exact hx

theorem liberation (h : Coherent s) (hl : Relation.ReflTransGen Liberation s s') :
    MoinsPresse s s' := by
  induction hl with
  | refl => exact refl
  | tail hrest hlast ih => exact ih.trans (liberation_pas (h.liberation hrest) hlast)

theorem reveillePere {pere : Ptr}
    (hp : (s.tas pere).etat = .attendFils → pere ≠ s.procElu ∧ s.fort pere = false) :
    MoinsPresse s (s.reveillePere pere) := by
  unfold Core.reveillePere
  split
  · next ha =>
    obtain ⟨hpe, hfort⟩ := hp ha
    refine un pere rfl rfl hpe ?_ ?_
    · intro x hx
      rw [Core.tas_active, if_neg hx]
    · intro _
      rw [Core.tas_active, if_pos rfl]
      exact not_lt.mp (of_decide_eq_false hfort)
  · exact refl

-- ---------------------------------------------------------------------------
-- Quiet transitions
-- ---------------------------------------------------------------------------

theorem quiet {l : Etiquette} (h : Stable s) (he : s.EnCours) (q : Quiet l s s')
    (hl : l.fort = false) : MoinsPresse s s' := by
  have hc := h.coherent
  have neutre : ∀ {s₁ : Core}, s₁.vivant = s.vivant → s₁.tas = s.tas → s₁.procElu = s.procElu →
      MoinsPresse s s₁ := fun hv ht helu => refl.puis hv ht helu
  have emet : ∀ (f : File) (v : Int), MoinsPresse s (s.emet f v) :=
    fun f v => (refl.note (.emission f.adr s.procElu v)).trans .maj
  have recoit : ∀ (f : File) (m : Nat), MoinsPresse s (s.recoit f m) :=
    fun f m => (refl.note (.reception f.adr s.procElu m)).trans .maj
  have hne : ∀ {p : Ptr} {t : Tete}, s.chainage.top t = some p → p ≠ s.procElu :=
    fun hp => hc.ne_procElu he (LinkedQueues.link_of_top hp)
  cases q with
  | alloue hn => exact neutre rfl rfl rfl
  | ecriture adr w => exact neutre rfl rfl rfl
  | attente pid r => exact neutre rfl rfl rfl
  | rendPid hl hn ht =>
    rintro x ⟨hx, ha, hf⟩
    have hfort := of_decide_eq_true hf
    dsimp only at hx ha hfort
    rw [ht _ (hc.ancien _ he.vivant), ht x (hc.ancien x hx)] at hfort
    rw [ht x (hc.ancien x hx)] at ha
    exact ⟨hx, ha, decide_eq_true hfort⟩
  | @cree _ p r cell reste adr n hcell hp hn hpid hetat hctx hfils hprio hret =>
    have C := hc.cree_spec he r reste adr n hp
    have hpe : p ≠ s.procElu := by
      rintro rfl
      have hx := (hc.nouveau hp).1
      rw [he.vivant] at hx
      cases hx
    rintro x ⟨hx, ha, hf⟩
    have hfort : ((s.cree p r reste adr n).tas s.procElu).prio <
        ((s.cree p r reste adr n).tas x).prio := of_decide_eq_true hf
    rw [(C.champs _ hpe.symm).2.1] at hfort
    have hxp : x ≠ p := by
      rintro rfl
      rw [C.nouveau] at hfort
      exact of_decide_eq_false hl hfort
    obtain ⟨-, hprio', -, -, -, -, -, het, -⟩ := C.champs x hxp
    rw [hprio'] at hfort
    rw [het] at ha
    rw [C.vivant, if_neg hxp] at hx
    exact ⟨hx, ha, decide_eq_true hfort⟩
  | chprioElu hn hidle => cases hl
  | @chprioActivable _ p n hn hv hpid hp he' =>
    refine un p rfl rfl hp ?_ ?_
    · intro x hx
      simp [hx]
    · intro _
      simpa using hl
  | @chprioFile _ p n hn hv hpid hp he' =>
    refine un p rfl rfl hp ?_ ?_
    · intro x hx
      simp [hx]
    · intro ha
      simp [he'] at ha
  | @chprioAutre _ p n hn hv hpid hp he' _ =>
    refine un p rfl rfl hp ?_ ?_
    · intro x hx
      simp [hx]
    · intro ha
      simp [he'] at ha
  | @tueZombie _ p pere t hpid hp hz hm ht hpere =>
    -- the victim dies, then its father is woken
    have htas : ∀ x, x ≠ p → (((s.note (.tue p)).retire p).maj p
        fun r => { r with etat := .zombie }).tas x = s.tas x := by
      intro x hx
      rw [Core.tas_maj, if_neg hx]
      rfl
    have m : MoinsPresse s (((s.note (.tue p)).retire p).maj p fun r => { r with etat := .zombie }) := by
      refine un p rfl rfl hp htas ?_
      intro ha
      simp at ha
    refine m.trans (.reveillePere ?_)
    intro ha
    have hpp : pere ≠ p := by
      rintro rfl
      simp at ha
    rw [htas pere hpp] at ha
    refine ⟨?_, ?_⟩
    · rintro rfl
      have hx := he.etat
      rw [show (s.tas s.procElu).etat = .attendFils from ha] at hx
      cases hx
    · have hf : s.fort pere = false := by simpa [ha] using hl
      unfold Core.fort
      rw [htas pere hpp]
      exact (congrArg (fun r : Processus => decide (r.prio < (s.tas pere).prio))
        (htas s.procElu hp.symm)).trans hf
  | @tueMourant _ p t hpid hp hz hm ht hpere =>
    refine un p rfl rfl hp ?_ ?_
    · intro x hx
      simp [hx]
    · intro ha
      simp at ha
  | @recolte _ c l hcf hz hl =>
    have R := hc.recolte_spec he hcf hz hl
    refine champs (fun _ hx => hx) rfl (fun x => (R.champs x).2.1) ?_
    intro x ha
    rw [R.etat] at ha
    split at ha
    · cases ha
    · exact ha
  | liberation hlib hvide => exact .liberation hc hlib
  | @reveil _ p hp =>
    exact .eveille (hc.ne_procElu he (LinkedQueues.link_of_mem hp)) hl
  | reveilEs hp => exact .eveille (hne hp) hl
  | creeFile hl hfid h0 hN hn hadr hm => exact neutre rfl rfl rfl
  | echec hf hp => exact (eveille (hne hp) hl).note _
  | vide hf hp => exact neutre rfl rfl rfl
  | supprimeFile hf hp hn => exact neutre rfl rfl rfl
  | @remis _ fid v f p hidle hf hvide hp =>
    refine (((emet f v).trans (.eveille ?_ ?_)).note _).note _
    · exact hne hp
    · exact (Core.fort_emet p).trans hl
  | @depose _ fid v f adr n hidle hf hnon hlt hn => exact (emet f v).puis rfl rfl rfl
  | @prend _ fid f l msg m hidle hf hl hp => exact (recoit f m).puis rfl rfl rfl
  | @relaye _ fid f l msg p adr m n hidle hf hmsg hp hn =>
    refine ((recoit f m).puis rfl rfl rfl).trans (.eveille ?_ ?_)
    · exact hne hp
    · exact (Core.fort_recoit p).trans hl
  | creeSem hl hsid hcount hsem hadr hfrais hm => exact neutre rfl rfl rfl
  | rendSid hl hn => exact neutre rfl rfl rfl
  | sdelete hs hr hp hn hb =>
    refine (MoinsPresse.rejets h he ?_ hr).puis rfl rfl rfl
    intro p hpm
    exact Bool.eq_false_of_not_eq_true fun hf => by rw [hb p hpm hf] at hl; cases hl
  | sreset hs hr hp h0 hcount hb =>
    refine (MoinsPresse.rejets h he ?_ hr).puis rfl rfl rfl
    intro p hpm
    exact Bool.eq_false_of_not_eq_true fun hf => by rw [hb p hpm hf] at hl; cases hl
  | signale hs hmax hpos => exact neutre rfl rfl rfl
  | @signaleReveil _ sid sem p hs hmax hneg hp =>
    have m : MoinsPresse s ((s.majSem sid (some (sem.setCount (sem.count + 1)))).note
        (.semUnite sem.adr s.procElu)) := neutre rfl rfl rfl
    exact (m.trans (.eveille (hne hp) hl)).note _
  | prendSem hs hpos => exact neutre rfl rfl rfl

theorem calme {L : Etiquette → Prop} (h : Stable s) (hL : ∀ l, L l → l.fort = false)
    (hq : Calme L s s') : MoinsPresse s s' := by
  induction hq with
  | refl => exact refl
  | tail hrest hlast ih =>
    obtain ⟨he, l, hl, q⟩ := hlast
    exact ih.trans (quiet (h.calme hrest) he q (hL l hl))

end MoinsPresse

-- ---------------------------------------------------------------------------
-- Election and whole steps
-- ---------------------------------------------------------------------------

namespace Core.PrioCorrecte

variable {s s' : Core}

/-- The list of activable processes is sorted by current priorities. -/
theorem election (h : Stable s) (hvide : s.elems .procMourants = []) (hel : Election s s')
    (hna : (s.tas s.procElu).etat ≠ .activable) : s'.PrioCorrecte := by
  have activable : ∀ {s : Core} {x : Ptr}, Coherent s → s.vivant x = true →
      (s.tas x).etat = .activable → x ∈ s.elems .procActivables := by
    intro s x hc hv ha
    have hpl := hc.place x hv
    unfold Core.Place at hpl
    rw [ha] at hpl
    exact (s.chainage.mem_iff x _).mpr hpl
  cases hel with
  | aucune hact =>
    intro x hv ha
    have hm := activable h.coherent hv ha
    rw [hact] at hm
    cases hm
  | @elit p hv hp =>
    have D := h.depose hv hna hvide
    have hc := D.stable.coherent
    have htas : ∀ x, x ≠ p → (s.depose.elit p).tas x = s.depose.tas x := by
      intro x hx
      simp [Core.elit, hx]
    have hprio : ((s.depose.elit p).tas p).prio = (s.depose.tas p).prio := by simp [Core.elit]
    intro x hx ha
    have hxp : x ≠ p := by
      rintro rfl
      simp [Core.elit] at ha
    rw [htas x hxp] at ha ⊢
    show _ ≤ ((s.depose.elit p).tas p).prio
    rw [hprio]
    exact hc.tri.le_top hp (activable hc hx ha)

/-- A step that ends with an election gives the processor to a process of the
greatest priority; another one keeps `PrioCorrecte` unless it wakes a process
of greater priority without an election. -/
theorem tour {C : Cadre} {mode : Mode} (h : Stable s) (ht : Tour C mode s s')
    (hC : mode = .utilisateur → ¬ C.fort ∧ s.PrioCorrecte) : s'.PrioCorrecte := by
  have faible : ¬ C.fort → ∀ l, C.admetRetour l → l.fort = false :=
    fun hf l hl => Bool.eq_false_of_not_eq_true fun hx => hf (hl.2 hx)
  cases ht with
  | retour hs =>
    obtain ⟨hf, hprio⟩ := hC rfl
    cases hs with
    | retour hq he => exact hprio.moins ((MoinsPresse.calme h (faible hf) hq).note _)
  | iret hs =>
    obtain ⟨hf, hprio⟩ := hC rfl
    cases hs with
    | iret hq he => exact hprio.moins (.calme h (faible hf) hq)
  | election hs hl hvide hel =>
    obtain ⟨h₂, hsorti⟩ := h.segment_sortie hs
    have h₃ : Stable _ := ⟨h₂.coherent.liberation hl,
      (h₂.coherent.liberation hl).orphelins_of_vide hvide⟩
    exact election h₃ hvide hel (Stable.sorti_liberation h₂.coherent hsorti hl).2.2

end Core.PrioCorrecte

end GenesisOS
