import GenesisOS.Abstract.Lives

/-!
# GenesisOS — the lists of waiting processes over a step

The lists of sleeping processes, of console readers and of the processes that
wait on a file. A transition only takes processes out of such a list (`Reduit`),
except that the elected process may enter one when it leaves the processor, and
that `chprio` puts a process that waits on a file back in its place; the label of
a transition names the process whose priority it changes.
-/

namespace GenesisOS

open Lib

/-- A list of waiting processes. -/
def Tete.Attente (t : Tete) : Prop := t ≠ .procActivables ∧ t ≠ .procMourants

/-- The fields the lists of waiting processes are sorted by. -/
def Processus.cles (r : Processus) : Int × Nat := (r.prio, r.secReveille)

/-- The list `t` has only lost elements, and the processes keep the fields it is
sorted by. -/
structure Reduit (t : Tete) (s s' : Core) : Prop where
  prochain : s.prochain ≤ s'.prochain
  elems : (s'.elems t).Sublist (s.elems t)
  cles : ∀ x, x < s.prochain → (s'.tas x).cles = (s.tas x).cles

section

variable {t : Tete} {s s' s'' : Core} {p : Ptr}

namespace Reduit

theorem refl : Reduit t s s := ⟨le_rfl, .refl _, fun _ _ => rfl⟩

theorem trans (m : Reduit t s s') (m' : Reduit t s' s'') : Reduit t s s'' :=
  ⟨m.prochain.trans m'.prochain, m'.elems.trans m.elems, fun x hx =>
    (m'.cles x (hx.trans_le m.prochain)).trans (m.cles x hx)⟩

/-- Nothing that concerns the list changes. -/
theorem puis (m : Reduit t s s') (hp : s'.prochain ≤ s''.prochain) (he : s''.elems t = s'.elems t)
    (hc : ∀ x, (s''.tas x).cles = (s'.tas x).cles) : Reduit t s s'' :=
  m.trans ⟨hp, he ▸ .refl _, fun x _ => hc x⟩

theorem note (m : Reduit t s s') {e : Evenement} : Reduit t s (s'.note e) :=
  m.puis le_rfl rfl fun _ => rfl

theorem maj (m : Reduit t s s') {f : Processus → Processus} (hf : ∀ r, (f r).cles = r.cles := by intro _; rfl) :
    Reduit t s (s'.maj p f) := m.puis le_rfl rfl (Core.champ_maj hf)

theorem ajoute (m : Reduit t s s') {t' : Tete} {k : Processus → Int} (ht : t ≠ t') :
    Reduit t s (s'.ajoute t' p k) :=
  m.puis le_rfl (Core.elems_ajoute_of_ne ht) fun _ => rfl

theorem retire (m : Reduit t s s') : Reduit t s (s'.retire p) :=
  m.trans ⟨le_rfl, List.erase_sublist, fun _ _ => rfl⟩

theorem eveille (ht : t.Attente) (m : Reduit t s s') {f : Processus → Processus}
    (hf : ∀ r, (f r).cles = r.cles := by intro _; rfl) : Reduit t s (s'.eveille p f) :=
  ((m.retire (p := p)).maj (f := fun r => { f r with etat := .activable }) fun r => hf r).ajoute ht.1

theorem active (ht : t.Attente) (m : Reduit t s s') : Reduit t s (s'.active p) :=
  (m.maj (f := fun r => { r with etat := .activable })).ajoute ht.1

theorem reveillePere (ht : t.Attente) (m : Reduit t s s') : Reduit t s (s'.reveillePere p) := by
  unfold Core.reveillePere
  split
  · exact m.active ht
  · exact m

theorem rejets (ht : t.Attente) {sid status : Int} {sem : Semaphore}
    (hr : Relation.ReflTransGen (Rejet sid sem status) s s') : Reduit t s s' := by
  induction hr with
  | refl => exact refl
  | tail _ hlast ih =>
    obtain ⟨q, hq, rfl⟩ := hlast
    exact .note (.eveille ht ih)

end Reduit

/-- Freeing processes leaves the list as it is. -/
theorem Coherent.Libere.cles {adr n : Nat} (L : Coherent.Libere p adr n s s') (x : Ptr) :
    (s'.tas x).cles = (s.tas x).cles := by
  rw [L.tas]
  split
  · split <;> rfl
  · rfl

theorem Coherent.elems_liberation (h : Coherent s) (ht : t ≠ .procMourants)
    (hl : Relation.ReflTransGen Liberation s s') : s'.elems t = s.elems t := by
  induction hl with
  | refl => rfl
  | tail hrest hlast ih =>
    obtain ⟨q, adr, n, -, -, L⟩ := (h.liberation hrest).liberation_spec hlast
    exact (L.elems t ht).trans ih

theorem Coherent.liberation_listes (h : Coherent s) (ht : t.Attente)
    (hl : Relation.ReflTransGen Liberation s s') :
    s'.elems t = s.elems t ∧ ∀ x, (s'.tas x).cles = (s.tas x).cles := by
  refine ⟨h.elems_liberation ht.2 hl, ?_⟩
  induction hl with
  | refl => exact fun _ => rfl
  | tail hrest hlast ih =>
    obtain ⟨q, adr, n, -, -, L⟩ := (h.liberation hrest).liberation_spec hlast
    exact fun x => (L.cles x).trans (ih x)

theorem Election.listes (ht : t.Attente) (hel : Election s s') :
    s'.elems t = s.elems t ∧ ∀ x, (s'.tas x).cles = (s.tas x).cles := by
  have depose : s.depose.elems t = s.elems t ∧ ∀ x, (s.depose.tas x).cles = (s.tas x).cles := by
    unfold Core.depose
    split
    · exact ⟨Core.elems_ajoute_of_ne ht.2, fun _ => rfl⟩
    · exact ⟨Core.elems_active_of_ne ht.1,
        Core.champ_maj (f := fun r => { r with etat := .activable }) fun _ => rfl⟩
    · exact ⟨Core.elems_active_of_ne ht.1,
        Core.champ_maj (f := fun r => { r with etat := .activable }) fun _ => rfl⟩
    · exact ⟨rfl, fun _ => rfl⟩
  cases hel with
  | aucune _ => exact ⟨rfl, fun _ => rfl⟩
  | @elit p hv hp =>
    refine ⟨(Core.elems_elit (LinkedQueues.link_of_top hp) ht.1).trans depose.1, fun x => ?_⟩
    refine Eq.trans ?_ (depose.2 x)
    exact Core.champ_maj (s := s.depose.retire p) (f := fun r => { r with etat := .elu })
      (fun _ => rfl) x

-- ---------------------------------------------------------------------------
-- Quiet transitions
-- ---------------------------------------------------------------------------

theorem Quiet.reduit {l : Etiquette} (h : Stable s) (he : s.EnCours) (q : Quiet l s s')
    (hl : l.prio = none) (ht : t.Attente) : Reduit t s s' := by
  have hc := h.coherent
  have r : Reduit t s s := .refl
  have emet : ∀ {f : File} {v : Int}, Reduit t s (s.emet f v) := by
    intro f v
    exact r.note.maj
  have recoit : ∀ {f : File} {m : Nat}, Reduit t s (s.recoit f m) := by
    intro f m
    exact r.note.maj
  cases q with
  | alloue hn => exact r.puis hn rfl fun _ => rfl
  | rendPid hl hn htas =>
    refine ⟨hn, .refl _, fun x hx => ?_⟩
    exact congrArg Processus.cles (htas x hx)
  | @cree _ p r' cell reste adr n hl hp hn hpid hetat hctx hfils hprio hret =>
    have C := hc.cree_spec he r' reste adr n hp
    refine ⟨hp.trans hn.le, C.elems t ht.1 ▸ .refl _, fun x hx => ?_⟩
    have hxp : x ≠ p := (hx.trans_le hp).ne
    simp only [Core.cree, Core.ajoute_tas, Core.note_tas, if_neg hxp]
    split <;> rfl
  | chprioElu | chprioActivable | chprioFile | chprioAutre => cases hl
  | tueZombie hpid hp hz hm htq hpere =>
    exact .reveillePere ht (.maj r.note.retire)
  | tueMourant hpid hp hz hm htq hpere =>
    exact .ajoute (.maj r.note.retire) ht.2
  | @recolte _ c l hcf hz hl =>
    exact .ajoute (.maj (.note (.maj r))) ht.2
  | liberation hlib hvide =>
    obtain ⟨helems, hcles⟩ := hc.liberation_listes ht hlib
    exact ⟨(Vieillit.liberation hc hlib).prochain, helems ▸ .refl _, fun x _ => hcles x⟩
  | reveil hp => exact .eveille ht r
  | reveilEs hp => exact .eveille ht r
  | creeFile hl hfid h0 hN hn hadr hm =>
    refine ⟨hadr.trans hm.le, ?_, fun _ _ => rfl⟩
    show List.Sublist ((s.chainage.reset _).elems t) _
    rw [LinkedQueues.elems_reset]
    split
    · exact List.nil_sublist _
    · exact .refl _
  | creeSem hl hsid h0 hsem hadr hfrais hm =>
    refine ⟨hfrais.trans hm.le, ?_, fun _ _ => rfl⟩
    show List.Sublist ((s.chainage.reset _).elems t) _
    rw [LinkedQueues.elems_reset]
    split
    · exact List.nil_sublist _
    · exact .refl _
  | echec hf hp => exact .note (.eveille ht r)
  | supprimeFile hf hp hn => exact r.puis hn rfl fun _ => rfl
  | remis hidle hf hvide hp => exact .note (.note (.eveille ht emet))
  | depose hidle hf hnon hlt hn => exact emet.puis hn rfl fun _ => rfl
  | prend hidle hf hl hp => exact recoit.puis le_rfl rfl fun _ => rfl
  | relaye hidle hf hl hp hn =>
    refine .eveille ht ?_
    exact recoit.puis hn rfl fun _ => rfl
  | rendSid hl hn => exact r.puis hn rfl fun _ => rfl
  | sdelete hs hr hp hn hb => exact (Reduit.rejets ht hr).puis hn rfl fun _ => rfl
  | sreset hs hr hp h0 hcount hb => exact (Reduit.rejets ht hr).puis le_rfl rfl fun _ => rfl
  | @signaleReveil _ sid sem p hs hmax hneg hp =>
    refine .note (.eveille ht ?_)
    exact r.puis le_rfl rfl fun _ => rfl
  | _ => exact r.puis le_rfl rfl fun _ => rfl

theorem Calme.reduit {L : Etiquette → Prop} (h : Stable s) (hq : Calme L s s')
    (hL : ∀ l, L l → l.prio = none) (ht : t.Attente) : Reduit t s s' := by
  induction hq with
  | refl => exact .refl
  | tail hrest hlast ih =>
    obtain ⟨he, l, hl, q⟩ := hlast
    exact ih.trans (q.reduit (h.calme hrest) he (hL l hl) ht)

-- ---------------------------------------------------------------------------
-- The elected process enters a list
-- ---------------------------------------------------------------------------

/-- The list gains `p`, at most. -/
def Entree (t : Tete) (p : Ptr) (s s' : Core) : Prop :=
  s'.elems t = s.elems t ∨ s'.elems t = insertByKey (fun x => (s.tas x).prio) p (s.elems t)

theorem Core.elems_ajoute {k : Processus → Int} (hp : s.lien p = none) :
    (s.ajoute t p k).elems t = insertByKey (fun x => k (s.tas x)) p (s.elems t) :=
  (LinkedQueues.elems_add hp).trans (if_pos rfl)

theorem entree_bloqueFile {fid : Int} (hl : s.lien s.procElu = none) :
    Entree t s.procElu s (s.bloqueFile fid) := by
  by_cases ht : t = .file fid
  · subst ht
    exact .inr (Core.elems_ajoute hl)
  · exact .inl (Core.elems_ajoute_of_ne ht)

/-- A list of processes blocked by priority: all but the semaphores and the sleepers. -/
def Tete.ParPrio (t : Tete) : Prop := t.Attente ∧ t ≠ .procEndormis ∧ ∀ sid, t ≠ .semaphore sid

/-- Priorities are kept. -/
def MemePrio (s s' : Core) : Prop := ∀ x, (s'.tas x).prio = (s.tas x).prio

namespace MemePrio

theorem refl : MemePrio s s := fun _ => rfl

theorem note (m : MemePrio s s') {e : Evenement} : MemePrio s (s'.note e) := m

theorem ajoute (m : MemePrio s s') {t' : Tete} {k : Processus → Int} :
    MemePrio s (s'.ajoute t' p k) := m

theorem maj (m : MemePrio s s') {f : Processus → Processus}
    (hf : ∀ r, (f r).prio = r.prio := by intro _; rfl) : MemePrio s (s'.maj p f) :=
  fun x => (Core.prio_maj hf x).trans (m x)

theorem reveillePere (m : MemePrio s s') : MemePrio s (s'.reveillePere p) := by
  unfold Core.reveillePere
  split
  · exact fun x => (Core.prio_active x).trans (m x)
  · exact m

theorem bloqueFile (m : MemePrio s s') {fid : Int} : MemePrio s (s'.bloqueFile fid) :=
  .maj (.maj (.ajoute m))

/-- The list is sorted by the same priorities. -/
theorem entree (m : MemePrio s s') (h : Entree t p s' s'') (he : s'.elems t = s.elems t) :
    Entree t p s s'' := by
  unfold Entree at h ⊢
  rw [he, show (fun x => (s'.tas x).prio) = fun x => (s.tas x).prio from funext m] at h
  exact h

end MemePrio

/-- Leaving the processor, the elected process enters the list at its priority. -/
theorem Sortie.entree {m : Motif} {k : Reprise} (h : Stable s) (he : s.EnCours)
    (q : Sortie m k s s') (ht : t.ParPrio) : Entree t s.procElu s s' ∧ MemePrio s s' := by
  have hl := h.coherent.lien_procElu he
  have r : MemePrio s s := .refl
  cases q with
  | suspend hk => exact ⟨.inl rfl, r⟩
  | endort hidle => exact ⟨.inl (Core.elems_ajoute_of_ne ht.2.1), .ajoute (.maj r)⟩
  | @emission _ fid v f hidle hf hnon hplein =>
    have m : MemePrio s (s.emet f v) := .maj r.note
    exact ⟨m.entree (entree_bloqueFile hl) rfl, m.bloqueFile⟩
  | @reception _ fid f m hidle hf hvide =>
    have m : MemePrio s (s.recoit f m) := .maj r.note
    exact ⟨m.entree (entree_bloqueFile hl) rfl, m.bloqueFile⟩
  | wait hidle hs hmin hneg =>
    refine ⟨.inl (Core.elems_ajoute_of_ne (ht.2.2 _)), .ajoute (.maj ?_)⟩
    exact r
  | consRead hidle =>
    have m : MemePrio s (s.maj s.procElu fun r => { r with etat := .attendEs }) := .maj r
    refine ⟨?_, m.ajoute⟩
    by_cases hes : t = .procBloqueEs
    · subst hes
      exact m.entree (.inr (Core.elems_ajoute hl)) rfl
    · exact .inl (Core.elems_ajoute_of_ne hes)
  | waitpid | waitpidFils => exact ⟨.inl rfl, .maj r⟩
  | exitZombie hidle hpere =>
    exact ⟨.inl (Core.elems_reveillePere_of_ne ht.1.1), .reveillePere (.maj (.note (.maj r)))⟩
  | exitMourant hidle hpere => exact ⟨.inl rfl, .maj (.note (.maj r))⟩
  | suicideZombie hidle hpere => exact ⟨.inl rfl, .maj r.note⟩
  | suicideMourant hidle hpere => exact ⟨.inl rfl, .maj r.note⟩

-- ---------------------------------------------------------------------------
-- Whole steps
-- ---------------------------------------------------------------------------

theorem Segment.reduit {C : Cadre} {x : Suite} (h : Stable s) (hs : Segment C x s s')
    (hC : ∀ p n, ¬ C.prio p n) (ht : t.ParPrio) :
    ∃ s₁, Reduit t s s₁ ∧ Stable s₁ ∧ s₁.EnCours ∧ s₁.procElu = s.procElu ∧
      Entree t s.procElu s₁ s' ∧ MemePrio s₁ s' := by
  have sans : ∀ l, C.admet l → l.prio = none := by
    intro l hl
    cases hp : l.prio with
    | none => rfl
    | some x => exact absurd (hl.2.2.2.1 x.1 x.2 hp) (hC _ _)
  cases hs with
  | retour hq he =>
    exact ⟨s', hq.reduit h (fun l hl => sans l hl.1) ht.1, h.calme hq, he, (h.elu_calme hq).1,
      .inl rfl, .refl⟩
  | iret hq he =>
    exact ⟨s', hq.reduit h (fun l hl => sans l hl.1) ht.1, h.calme hq, he, (h.elu_calme hq).1,
      .inl rfl, .refl⟩
  | @ordonnanceur m k _ s₁ _ hq he hso hm =>
    have helu := (h.elu_calme hq).1
    obtain ⟨hent, hprio⟩ := hso.entree (h.calme hq) he ht
    rw [helu] at hent
    exact ⟨s₁, hq.reduit h sans ht.1, h.calme hq, he, helu, hent, hprio⟩

/-- Over a step without `chprio`, the list loses elements and gains the elected
process, at most. -/
theorem Tour.listes {C : Cadre} {mode : Mode} (h : Stable s) (he : s.vivant s.procElu = true)
    (hT : Tour C mode s s') (hC : ∀ p n, ¬ C.prio p n) (ht : t.ParPrio) :
    ∃ l : List Ptr, l.Sublist (s.elems t) ∧ s.procElu ∉ l ∧ (s'.elems t = l ∨
      s'.elems t = insertByKey (fun x => (s.tas x).prio) s.procElu l) ∧
        ∀ x, x < s.prochain → (s'.tas x).prio = (s.tas x).prio := by
  have hlt : s.procElu < s.prochain := h.coherent.ancien _ he
  -- from the end of the kernel code on, the list stays
  suffices hs : ∀ {x : Suite} {s₂ : Core}, Segment C x s s₂ → s'.elems t = s₂.elems t →
      (∀ x, (s'.tas x).prio = (s₂.tas x).prio) → ∃ l : List Ptr, l.Sublist (s.elems t) ∧
        s.procElu ∉ l ∧ (s'.elems t = l ∨
          s'.elems t = insertByKey (fun x => (s.tas x).prio) s.procElu l) ∧
            ∀ x, x < s.prochain → (s'.tas x).prio = (s.tas x).prio by
    cases hT with
    | retour hseg => exact hs hseg rfl fun _ => rfl
    | iret hseg => exact hs hseg rfl fun _ => rfl
    | @election k _ s₂ s₃ _ hseg hl hvide hel =>
      obtain ⟨h₂, -⟩ := h.segment_sortie hseg
      obtain ⟨hl₁, hl₂⟩ := h₂.coherent.liberation_listes ht.1 hl
      obtain ⟨he₁, he₂⟩ := hel.listes ht.1
      refine hs hseg (he₁.trans hl₁) fun x => ?_
      have hcles := (he₂ x).trans (hl₂ x)
      refine (congrArg Prod.fst hcles).trans ?_
      exact Core.prio_maj (f := fun r => { r with contexte := k }) (fun _ => rfl) x
  intro x s₂ hseg helems hprio
  obtain ⟨s₁, m, h₁, he₁, helu, hent, hm⟩ := hseg.reduit h hC ht
  have hmem : ∀ x ∈ s₁.elems t, x < s.prochain := by
    intro x hx
    have hl : s.lien x = some t := LinkedQueues.link_of_mem (m.elems.subset hx)
    exact h.coherent.ancien x (h.coherent.lie x t hl)
  have hcle : ∀ x, x < s.prochain → (s₁.tas x).prio = (s.tas x).prio :=
    fun x hx => congrArg Prod.fst (m.cles x hx)
  refine ⟨s₁.elems t, m.elems, ?_, ?_, fun x hx => (hprio x).trans ((hm x).trans (hcle x hx))⟩
  · rw [← helu]
    exact LinkedQueues.notMem_of_link_none (h₁.coherent.lien_procElu he₁)
  · rw [helems]
    rcases hent with hent | hent
    · exact .inl hent
    · refine .inr (hent.trans (insertByKey_congr (hcle _ hlt) fun x hx => hcle x (hmem x hx)))

end

end GenesisOS
