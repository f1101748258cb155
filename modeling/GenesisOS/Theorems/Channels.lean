import GenesisOS.Invariants.Channels
import GenesisOS.Refinement.Returns
import GenesisOS.Theorems.Calls

/-!
# GenesisOS — message files along a run

Every file is a channel in every reachable configuration (`Atteint.canaux`).
`preset` and `pdelete` fail each call that waits on the file, leave the other
calls alone, and cut the channel: what is delivered later was sent later
(`vide_file`).
-/

namespace GenesisOS

open Lib

theorem Atteint.canaux {P : Config → Signal → Prop} {c : Config} (h : Atteint P c) :
    c.s.toCore.Canaux :=
  h.invariant (fun _ h₀ => .initial h₀.file h₀.journal) Core.Canaux.conserve
    (fun _ _ hi => hi.depile) fun _ _ _ _ => Core.Canaux.conserve

-- ---------------------------------------------------------------------------
-- What the end of a step leaves alone
-- ---------------------------------------------------------------------------

/-- The process keeps its call and what it was given; it is at most elected, or
takes the place of the elected one. -/
structure Epargne (p : Ptr) (s s' : Core) : Prop where
  vivant : s'.vivant p = true
  etat : (s'.tas p).etat = (s.tas p).etat ∨
    ((s.tas p).etat = .elu ∨ (s.tas p).etat = .activable) ∧
      ((s'.tas p).etat = .elu ∨ (s'.tas p).etat = .activable)
  contexte : (s'.tas p).contexte = (s.tas p).contexte
  statut : (s'.tas p).operationStatus = (s.tas p).operationStatus
  valeur : (s'.tas p).fileValue = (s.tas p).fileValue
  journal : Muet p s s'

namespace Epargne

variable {p : Ptr} {s s' s'' : Core}

theorem mort (h : Epargne p s s') (hm : (s.tas p).etat.mort = false) :
    (s'.tas p).etat.mort = false := by
  rcases h.etat with he | ⟨-, he | he⟩
  · rwa [he]
  · rw [he]
    rfl
  · rw [he]
    rfl

theorem trans (h : Epargne p s s') (h' : Epargne p s' s'') : Epargne p s s'' where
  vivant := h'.vivant
  etat := by
    rcases h'.etat with he' | ⟨he', he''⟩
    · rw [he']
      exact h.etat
    · rcases h.etat with he | ⟨he, -⟩
      · rw [he] at he'
        exact .inr ⟨he', he''⟩
      · exact .inr ⟨he, he''⟩
  contexte := h'.contexte.trans h.contexte
  statut := h'.statut.trans h.statut
  valeur := h'.valeur.trans h.valeur
  journal := h.journal.trans h'.journal

theorem de (ht : s'.tas p = s.tas p) (hv : s'.vivant p = true) (hj : Muet p s s') :
    Epargne p s s' := by
  refine ⟨hv, .inl ?_, ?_, ?_, ?_, hj⟩ <;> rw [ht]

theorem liberation (h : Coherent s) (hv : s.vivant p = true) (hm : (s.tas p).etat.mort = false)
    (hl : Relation.ReflTransGen Liberation s s') : Epargne p s s' := by
  induction hl with
  | refl => exact .de rfl hv .refl
  | tail hrest hlast ih =>
    have hc := h.liberation hrest
    obtain ⟨q, adr, n, hq, -, L⟩ := hc.liberation_spec hlast
    have hm₁ := ih.mort hm
    have hne : p ≠ q := by
      rintro rfl
      have het := hc.etat_of_lien hq
      rw [het] at hm₁
      cases hm₁
    refine ih.trans ⟨?_, .inl ?_, (L.champs p).2.2.1, ?_, ?_, [.libere q], L.journal, ?_⟩
    · rw [L.vivant, if_neg hne]
      exact ih.vivant
    · rw [L.etat_eq, if_neg]
      rintro ⟨-, hz⟩
      rw [hz] at hm₁
      cases hm₁
    · rw [L.tas]
      split
      · split <;> rfl
      · rfl
    · rw [L.tas]
      split
      · split <;> rfl
      · rfl
    · intro e he
      rw [List.mem_singleton.mp he]
      nofun

theorem reste (h : Reste p s s') (hv : s.vivant p = true) : Epargne p s s' :=
  ⟨h.vivant.trans hv, h.etat, h.contexte, h.statut, h.valeur, [], by rw [h.journal, List.append_nil],
    nofun⟩

end Epargne

/-- The end of a step, for a process that is not the elected one. -/
theorem pas_epargne {c c' : Config} {e : Signal} {x : Suite} {s' : Kernel} {p : Ptr} (h : c.Valide)
    (hp : possible c e = true) (hseg : segment c e c.s = .ok (x, s')) (hpas : pas c e = .ok c')
    (hv : s'.vivant p = true) (hm : (s'.tas p).etat.mort = false) (hne : p ≠ s'.procElu) :
    Epargne p s'.toCore c'.s.toCore := by
  have ht := of_pas_segment hseg hpas
  cases x with
  | retour v =>
    rw [(of_termine_retour ht).2]
    refine .de rfl hv ⟨[.retour s'.procElu v], rfl, ?_⟩
    intro e he
    rw [List.mem_singleton.mp he]
    exact fun hx => hne (Option.some.inj hx).symm
  | iret =>
    have hs : c'.s = s' := by
      obtain ⟨t, mode⟩ := c'
      cases ht
      rfl
    rw [hs]
    exact .de rfl hv .refl
  | ordonnanceur k =>
    obtain ⟨hst, S⟩ := h.entree.1.segment_sortie (h.segment hp hseg)
    obtain ⟨-, s₃, hl, hvide, hel⟩ := of_pas_ordonnanceur h hp hseg hpas
    have htas : (s'.toCore.empile k).tas p = s'.tas p := by
      rw [Core.empile, Core.tas_maj, if_neg hne]
    have m₁ : Epargne p s'.toCore (s'.toCore.empile k) := .de htas hv .refl
    have m₂ := Epargne.liberation hst.coherent m₁.vivant (m₁.mort hm) hl
    have h₃ : Stable s₃ := ⟨hst.coherent.liberation hl,
      (hst.coherent.liberation hl).orphelins_of_vide hvide⟩
    obtain ⟨-, -, hna⟩ := Stable.sorti_liberation hst.coherent S hl
    exact (m₁.trans m₂).trans (.reste (hel.reste h₃ hvide hna) m₂.vivant)

/-- What the end of a step records. -/
theorem pas_journal {c c' : Config} {e : Signal} {x : Suite} {s' : Kernel} (h : c.Valide)
    (hp : possible c e = true) (hseg : segment c e c.s = .ok (x, s')) (hpas : pas c e = .ok c') :
    ∃ t, c'.s.journal = s'.journal ++ t ∧
      ∀ e ∈ t, (∃ v, e = .retour s'.procElu v) ∨ ∃ q, e = .libere q := by
  have ht := of_pas_segment hseg hpas
  cases x with
  | retour v =>
    rw [(of_termine_retour ht).2]
    exact ⟨[.retour s'.procElu v], rfl, by simp⟩
  | iret =>
    have hs : c'.s = s' := by
      obtain ⟨t, mode⟩ := c'
      cases ht
      rfl
    rw [hs]
    exact ⟨[], by simp, by simp⟩
  | ordonnanceur k =>
    obtain ⟨hst, S⟩ := h.entree.1.segment_sortie (h.segment hp hseg)
    obtain ⟨-, s₃, hl, hvide, hel⟩ := of_pas_ordonnanceur h hp hseg hpas
    have h₃ : Stable s₃ := ⟨hst.coherent.liberation hl,
      (hst.coherent.liberation hl).orphelins_of_vide hvide⟩
    obtain ⟨-, -, hna⟩ := Stable.sorti_liberation hst.coherent S hl
    rw [(hel.reste (p := 0) h₃ hvide hna).journal]
    obtain ⟨t, ht, hq⟩ := Ajoute.liberation hst.coherent hl
    exact ⟨t, ht, fun e he => .inr (hq e he)⟩

-- ---------------------------------------------------------------------------
-- `preset` and `pdelete`
-- ---------------------------------------------------------------------------

/-- What the first loop of `preset` and `pdelete` makes of a process: nothing, or
its call on the file fails. -/
inductive Echoue (fid : Int) (f : File) (s s' : Core) (p : Ptr) (j : List Evenement) : Prop
  | reste (ht : s'.tas p = s.tas p) (hl : s'.lien p = s.lien p) (hj : ∀ e ∈ j, e.acteur ≠ some p)
  | echec (hl : s.lien p = some (.file fid)) (hl' : s'.lien p = some .procActivables)
      (he : (s'.tas p).etat = .activable) (hj : evenementsDe p j = [.echec f.adr p])

theorem echecs_spec {fid : Int} {f : File} {s s' : Core}
    (hr : Relation.ReflTransGen (Echec fid f) s s') :
    s'.vivant = s.vivant ∧ s'.procElu = s.procElu ∧ ∃ j, s'.journal = s.journal ++ j ∧
      (∀ e ∈ j, ∃ p, e = .echec f.adr p) ∧ ∀ p, Echoue fid f s s' p j := by
  induction hr with
  | refl => exact ⟨rfl, rfl, [], by simp, by simp, fun p => .reste rfl rfl (by simp)⟩
  | @tail s₁ s₂ _ hlast ih =>
    obtain ⟨q, hq, rfl⟩ := hlast
    obtain ⟨hv, helu, j, hj, hech, hsp⟩ := ih
    have hl : s₁.lien q = some (.file fid) := LinkedQueues.link_of_top hq
    refine ⟨hv, helu, j ++ [.echec f.adr q], ?_, ?_, ?_⟩
    · rw [← List.append_assoc, ← hj]
      rfl
    · intro e he
      rcases List.mem_append.mp he with he | he
      · exact hech e he
      · exact ⟨q, List.mem_singleton.mp he⟩
    · intro p
      have hl₂ : (s₁.eveille q fun r => { r with fid := -1, operationStatus := 0 }).lien p =
          if p = q then some .procActivables else s₁.lien p := Core.lien_eveille _
      have ht₂ := Core.tas_eveille (s := s₁) (p := q) (x := p)
        fun r => { r with fid := -1, operationStatus := 0 }
      by_cases hp : p = q
      · subst hp
        rw [if_pos rfl] at hl₂ ht₂
        cases hsp p with
        | reste ht hlp hm =>
          refine .echec (by rw [← hlp]; exact hl) hl₂ (by rw [Core.note_tas, ht₂]) ?_
          rw [evenementsDe_append, evenementsDe_muet hm]
          simp [evenementsDe, Evenement.acteur]
        | echec _ hl' =>
          rw [hl] at hl'
          cases hl'
      · rw [if_neg hp] at hl₂ ht₂
        have hmuet : ∀ e ∈ [Evenement.echec f.adr q], e.acteur ≠ some p := by
          intro e he
          rw [List.mem_singleton.mp he]
          exact fun hx => hp (Option.some.inj hx).symm
        cases hsp p with
        | reste ht hlp hm =>
          refine .reste (by rw [Core.note_tas, ht₂, ht]) (by rw [← hlp]; exact hl₂) ?_
          intro e he
          rcases List.mem_append.mp he with he | he
          · exact hm e he
          · exact hmuet e he
        | echec hl₁ hl' het hev =>
          refine .echec hl₁ (by rw [← hl']; exact hl₂) (by rw [Core.note_tas, ht₂]; exact het) ?_
          rw [evenementsDe_append, evenementsDe_muet hmuet, List.append_nil, hev]

/-- A call of `preset` or `pdelete` on an existing file. -/
theorem AppelVideFile.spec {s s' : Core} {fid : Int} {f : File} {x : Suite}
    (h : AppelVideFile s fid x s') (hf : s.tableauFile fid = some f) :
    s'.vivant = s.vivant ∧ s'.procElu = s.procElu ∧ ∃ j, s'.journal = s.journal ++ j ++ [.vide f.adr] ∧
      (∀ e ∈ j, ∃ p, e = .echec f.adr p) ∧ (∀ p, s'.lien p ≠ some (.file fid)) ∧
        (∀ f', s'.tableauFile fid = some f' → f'.queueMsg = []) ∧
          ∀ p, Echoue fid f s s' p j := by
  have fin : ∀ {s₁ : Core}, Relation.ReflTransGen (Echec fid f) s s₁ → s₁.elems (.file fid) = [] →
      s'.vivant = s₁.vivant → s'.procElu = s₁.procElu → s'.journal = s₁.journal ++ [.vide f.adr] →
      s'.tas = s₁.tas → s'.chainage = s₁.chainage →
      (∀ f', s'.tableauFile fid = some f' → f'.queueMsg = []) →
      s'.vivant = s.vivant ∧ s'.procElu = s.procElu ∧
        ∃ j, s'.journal = s.journal ++ j ++ [.vide f.adr] ∧ (∀ e ∈ j, ∃ p, e = .echec f.adr p) ∧
          (∀ p, s'.lien p ≠ some (.file fid)) ∧
            (∀ f', s'.tableauFile fid = some f' → f'.queueMsg = []) ∧ ∀ p, Echoue fid f s s' p j := by
    intro s₁ hr hvide hv helu hj ht hch hq
    obtain ⟨hv₁, helu₁, j, hj₁, hech, hsp⟩ := echecs_spec hr
    have hlien : ∀ p, s'.lien p = s₁.lien p := fun p => congrArg (fun q => q.link p) hch
    refine ⟨hv.trans hv₁, helu.trans helu₁, j, by rw [hj, hj₁], hech, ?_, hq, ?_⟩
    · intro p hp
      rw [hlien] at hp
      have hm : p ∈ s₁.elems (.file fid) := (s₁.chainage.mem_iff p _).mpr hp
      rw [hvide] at hm
      cases hm
    · intro p
      cases hsp p with
      | reste htas hl hm => exact .reste (by rw [ht, htas]) (by rw [hlien, hl]) hm
      | echec hl hl' het hev =>
        exact .echec hl (by rw [hlien, hl']) (by rw [ht]; exact het) hev
  cases h with
  | refus hn =>
    rw [hf] at hn
    cases hn
  | @preset f₁ s₁ b hf₁ hr hvide _ _ =>
    rw [hf] at hf₁
    cases hf₁
    refine fin hr hvide rfl rfl rfl rfl rfl ?_
    intro f' hf'
    have hf' : Function.update s₁.tableauFile fid (some { f with queueMsg := [] }) fid = some f' := hf'
    rw [Function.update_self] at hf'
    cases hf'
    rfl
  | @pdelete f₁ s₁ b adr n hf₁ hr hvide _ _ hn =>
    rw [hf] at hf₁
    cases hf₁
    refine fin hr hvide rfl rfl rfl rfl rfl ?_
    intro f' hf'
    simp at hf'

/-- The law of the channel, for the events after a point where the file was
empty and nobody was sending to it. -/
theorem coupe {a : Ptr} {j k : List Evenement}
    (hj : ∀ e ∈ depuisVide a j, e.canal ≠ some a ∧ ∀ p v, e ≠ .emission a p v)
    (hordre : livres a (depuisVide a (j ++ k)) <+: acceptes a (depuisVide a (j ++ k)))
    (hemis : Emis a (depuisVide a (j ++ k))) :
    livres a (depuisVide a k) <+: acceptes a (depuisVide a k) ∧ Emis a (depuisVide a k) := by
  by_cases hv : .vide a ∈ k
  · have hK : depuisVide a (j ++ k) = depuisVide a k := since_append_of_mem ⟨_, hv, by simp⟩
    rw [hK] at hordre hemis
    exact ⟨hordre, hemis⟩
  · have hk : depuisVide a k = k := by
      refine since_eq_self ?_
      intro e he
      rw [decide_eq_false_iff_not]
      rintro rfl
      exact hv he
    have hm : ∀ e ∈ depuisVide a j, e.canal ≠ some a := fun e he => (hj e he).1
    rw [depuisVide_append hv] at hordre hemis
    rw [livres_append, acceptes_append, livres_muet hm, acceptes_muet hm] at hordre
    rw [hk]
    refine ⟨by simpa using hordre, ?_⟩
    rintro k₁ e k₂ rfl p v rfl
    have hmem := hemis (depuisVide a j ++ k₁) _ k₂ (List.append_assoc ..).symm p v rfl
    rcases List.mem_append.mp hmem with hmem | hmem
    · exact absurd rfl ((hj _ hmem).2 p v)
    · exact hmem

/-- `preset` and `pdelete` on a file: each call that waits on it fails, once and
for all; the other calls of `psend` and `preceive` in progress are spared; the
messages delivered later, by this file or another one, are those sent to it
later. A file created later with the same identifier is another one. -/
theorem vide_file {c c' : Config} {e : Signal} {r : Registres} {f : File} (h : Accessible c)
    (hp : possible c e = true) (happ : e.Appelle .preset r ∨ e.Appelle .pdelete r)
    (hf : c.s.tableauFile r.ebx.toInt = some f) (hpas : pas c e = .ok c') :
    ∃ j, c'.s.journal = c.s.journal ++ j ∧
      (∀ p ∈ c.s.elems (.file r.ebx.toInt), evenementsDe p j = [.echec f.adr p] ∧
        ((c'.s.tas p).etat = .activable ∨ (c'.s.tas p).etat = .elu) ∧
          ∀ l c'', execute c' l = some c'' → Rend p (-1) c' c'') ∧
      (∀ p, c.s.vivant p = true → (c.s.tas p).etat.mort = false →
        p ∉ c.s.elems (.file r.ebx.toInt) →
          (c.s.tas p).contexte = .psend ∨ (∃ m, (c.s.tas p).contexte = .preceive m) →
            evenementsDe p j = [] ∧ Epargne p c.s.toCore c'.s.toCore) ∧
      ∀ l c'', execute c' l = some c'' → ∃ k, c''.s.journal = c'.s.journal ++ k ∧
        livres f.adr (depuisVide f.adr k) <+: acceptes f.adr (depuisVide f.adr k) ∧
          Emis f.adr (depuisVide f.adr k) ∧ ∀ a, a ≠ f.adr →
            livres a (depuisVide a c''.s.journal) <+: acceptes a (depuisVide a c''.s.journal) ∧
              Emis a (depuisVide a c''.s.journal) := by
  have hc := h.valide
  have h' : Accessible c' := .pas h hp trivial hpas
  have hu : c.mode = .utilisateur ∧ c.s.procElu ≠ c.s.procIdle := by
    rcases happ with ⟨rfl, -⟩ | ⟨rfl, -⟩ <;> simpa only [possible, decide_eq_true_eq] using hp
  have he := hc.utilisateur hu.1
  obtain ⟨x, s', hseg, -⟩ := of_pas hpas
  have ha : AppelVideFile c.s.toCore r.ebx.toInt x s'.toCore := by
    rcases happ with ⟨rfl, hsv⟩ | ⟨rfl, hsv⟩ <;> rw [segment, if_pos hu, traitantIT49Switch, hsv] at hseg
    · exact wp_ok (wp_preset (C := {}) hc.stable he _ fun _ _ ha => ha) hseg
    · exact wp_ok (wp_pdelete (C := {}) hc.stable he _ fun _ _ ha => ha) hseg
  obtain ⟨hv, helu, j, hj, hech, hlibre, -, hsp⟩ := ha.spec hf
  obtain ⟨t, ht, hfin⟩ := pas_journal hc hp hseg hpas
  -- the end of the step concerns the caller only
  have hmuet : ∀ p, p ≠ c.s.procElu → ∀ e ∈ .vide f.adr :: t, e.acteur ≠ some p := by
    intro p hpe e hx
    rcases List.mem_cons.mp hx with rfl | hx
    · intro hy
      cases hy
    · rcases hfin e hx with ⟨v, rfl⟩ | ⟨q, rfl⟩
      · rw [helu]
        exact fun hx => hpe (Option.some.inj hx).symm
      · intro hy
        cases hy
  have hj' : c'.s.journal = c.s.journal ++ (j ++ .vide f.adr :: t) := by
    rw [ht, hj, List.append_assoc, List.append_assoc]
    rfl
  refine ⟨j ++ .vide f.adr :: t, hj', ?_, ?_, ?_⟩
  · intro p hm
    have hl : c.s.lien p = some (.file r.ebx.toInt) := LinkedQueues.link_of_mem hm
    have hne := hc.stable.coherent.ne_procElu he hl
    cases hsp p with
    | reste _ hl' =>
      rw [hl] at hl'
      exact absurd hl' (hlibre p)
    | echec _ hl' het hev =>
      have hvp : s'.vivant p = true := by
        rw [hv]
        exact hc.stable.coherent.lie p _ hl
      have hep := pas_epargne hc hp hseg hpas hvp (by rw [het]; rfl) (by rw [helu]; exact hne)
      have hev' : evenementsDe p (j ++ .vide f.adr :: t) = [.echec f.adr p] := by
        rw [evenementsDe_append, hev, evenementsDe_muet (hmuet p hne), List.append_nil]
      refine ⟨hev', ?_, ?_⟩
      · rcases hep.etat with hx | ⟨-, hx⟩
        · rw [hx]
          exact .inl het
        · exact hx.symm
      · intro l c'' hl''
        refine h'.rend ?_ hl''
        have hnr : ∀ u, .retour p u ∉ j ++ .vide f.adr :: t := by
          intro u hx
          rcases List.mem_append.mp hx with hx | hx
          · obtain ⟨q, hq⟩ := hech _ hx
            cases hq
          · exact hmuet p hne _ hx rfl
        have hsu := h.suivi.appels p (hc.stable.coherent.lie p _ hl)
          (by rw [hc.stable.coherent.etat_of_lien hl]; rfl)
        rw [hj', appelEnCours_suite hnr, hev']
        obtain ⟨a, -, ⟨-, hx⟩ | ⟨m, -, hx⟩⟩ := hsu.de_file hc.stable.coherent hl <;>
        · rw [hx]
          exact .echec (by simp)
  · intro p hvp hm hnot hk
    have hl : c.s.lien p ≠ some (.file r.ebx.toInt) :=
      fun hx => hnot ((c.s.chainage.mem_iff p _).mpr hx)
    have hne : p ≠ c.s.procElu := by
      rintro rfl
      rcases he.contexte with hx | hx <;> rcases hk with hk | ⟨m, hk⟩ <;>
      · have hk' : (c.s.toCore.tas c.s.procElu).contexte = _ := hk
        rw [hx] at hk'
        cases hk'
    cases hsp p with
    | echec hl' => exact absurd hl' hl
    | reste htas _ hmj =>
      have m₁ : Epargne p c.s.toCore s'.toCore := by
        refine .de htas (by rw [hv]; exact hvp) ⟨j ++ [.vide f.adr], by rw [hj, List.append_assoc], ?_⟩
        intro e hx
        rcases List.mem_append.mp hx with hx | hx
        · exact hmj e hx
        · rw [List.mem_singleton.mp hx]
          intro hy
          cases hy
      have m₂ := pas_epargne hc hp hseg hpas m₁.vivant (m₁.mort hm) (by rw [helu]; exact hne)
      refine ⟨?_, m₁.trans m₂⟩
      rw [evenementsDe_append, evenementsDe_muet hmj, evenementsDe_muet (hmuet p hne)]
      rfl
  · intro l c'' hl
    obtain ⟨h'', k, hk⟩ := h'.journal hl
    have hca := h''.canaux
    refine ⟨k, hk, ?_⟩
    have hcut := coupe (a := f.adr) (j := c'.s.journal) (k := k) ?_ (by rw [← hk]; exact hca.ordre _)
      (by rw [← hk]; exact hca.emis _)
    · exact ⟨hcut.1, hcut.2, fun a _ => ⟨hca.ordre a, hca.emis a⟩⟩
    · have hnv : .vide f.adr ∉ t := by
        intro hx
        rcases hfin _ hx with ⟨v, hq⟩ | ⟨q, hq⟩ <;> cases hq
      rw [ht, hj, depuisVide_append hnv, depuisVide_vide, List.nil_append]
      intro e hx
      rcases hfin e hx with ⟨v, rfl⟩ | ⟨q, rfl⟩ <;>
      · refine ⟨?_, by simp⟩
        intro hy
        cases hy

/-- The father resets the file its child waits on: the `psend` of the child, whose
priority is greater, returns -1. -/
theorem vide_file_exemple : ∃ c c' c'' p, Accessible c ∧ p ∈ c.s.elems (.file 9) ∧
    pas c (appel 12 9 0 0 0) = .ok c' ∧ execute c' [.suite] = some c'' ∧ Rend p (-1) c' c'' ∧
      .retour p (-1) ∈ c''.s.journal := by
  obtain ⟨c, hc, h⟩ := Accessible.scenario (l := attenteFile)
    (Q := fun c => (c.s.tableauFile 9).isSome && (c.s.tableDesProcs 2).any fun p =>
      p ∈ c.s.elems (.file 9) && (execute c [appel 12 9 0 0 0, .suite]).any fun c'' =>
        Evenement.retour p (-1) ∈ c''.s.journal) (by decide +kernel)
  rw [Bool.and_eq_true] at h
  obtain ⟨f, hf⟩ := Option.isSome_iff_exists.mp h.1
  obtain ⟨p, -, h⟩ := (Option.any_eq_true _ _).mp h.2
  rw [Bool.and_eq_true, decide_eq_true_eq] at h
  obtain ⟨c'', hl, hmem⟩ := (Option.any_eq_true _ _).mp h.2
  obtain ⟨hp, c', hpas, hl⟩ := execute_cons.mp hl
  obtain ⟨j, -, hw, -⟩ := vide_file hc hp (.inl ⟨rfl, by decide⟩) hf hpas
  exact ⟨c, c', c'', p, hc, h.1, hpas, hl, (hw p h.1).2.2 _ c'' hl, of_decide_eq_true hmem⟩

-- ---------------------------------------------------------------------------
-- A file that is neither reset nor deleted
-- ---------------------------------------------------------------------------

/-- What a `psend` that returned 0 recorded. -/
theorem Verdict.emission {p a : Ptr} {l : List Evenement} {v w : Int} (h : Verdict p l w)
    (h0 : w = 0) (hm : .emission a p v ∈ l) : l = [.emission a p v, .accepte a p v] := by
  cases h with
  | autre hx =>
    obtain ⟨adr, u, hu⟩ := hx _ hm
    cases hu
  | emis =>
    simp only [List.mem_cons, Evenement.emission.injEq, reduceCtorEq, List.not_mem_nil, or_false] at hm
    obtain ⟨rfl, -, rfl⟩ := hm
    rfl
  | recu | recolte =>
    rcases List.mem_append.mp hm with hm | hm
    · simp at hm
    · obtain ⟨adr, u, hu⟩ := mem_stocke hm
      cases hu
  | _ => simp_all

/-- What a `preceive` that returned 0 recorded. -/
theorem Verdict.reception {p a : Ptr} {l : List Evenement} {m : Nat} {w : Int} (h : Verdict p l w)
    (h0 : w = 0) (hm : .reception a p m ∈ l) :
    ∃ v, l = [.reception a p m, .livre a p v] ++ stocke p m (BitVec.ofInt 32 v) := by
  cases h with
  | autre hx =>
    obtain ⟨adr, u, hu⟩ := hx _ hm
    cases hu
  | recu =>
    rcases List.mem_append.mp hm with hm | hm
    · simp only [List.mem_cons, Evenement.reception.injEq, reduceCtorEq, List.not_mem_nil,
        or_false] at hm
      obtain ⟨rfl, -, rfl⟩ := hm
      exact ⟨_, rfl⟩
    · obtain ⟨adr, u, hu⟩ := mem_stocke hm
      cases hu
  | recolte =>
    rcases List.mem_append.mp hm with hm | hm
    · simp at hm
    · obtain ⟨adr, u, hu⟩ := mem_stocke hm
      cases hu
  | _ => simp_all

/-- A `psend` on an existing file records its message first. -/
theorem AppelPsend.journal {s s' : Core} {fid v : Int} {x : Suite} {f : File}
    (h : AppelPsend s fid v x s') (hf : s.tableauFile fid = some f) :
    ∃ k, s'.journal = s.journal ++ .emission f.adr s.procElu v :: k := by
  cases h with
  | refus hn =>
    rw [hf] at hn
    cases hn
  | remis hf' | bloque hf' | depose hf' =>
    rw [hf] at hf'
    cases hf'
    exact ⟨_, by simp [Core.emet, Core.eveille, Core.bloqueFile]; rfl⟩

theorem AppelPreceive.journal {s s' : Core} {fid : Int} {m : Nat} {x : Suite} {f : File}
    (h : AppelPreceive s fid m x s') (hf : s.tableauFile fid = some f) :
    ∃ k, s'.journal = s.journal ++ .reception f.adr s.procElu m :: k := by
  cases h with
  | refus hn =>
    rw [hf] at hn
    cases hn
  | bloque hf' | prend hf' | relaye hf' =>
    rw [hf] at hf'
    cases hf'
    exact ⟨_, by simp [Core.recoit, Core.eveille, Core.bloqueFile]; rfl⟩

-- ---------------------------------------------------------------------------
-- The store of the message
-- ---------------------------------------------------------------------------

def Evenement.estEcriture : Evenement → Bool
  | .ecriture .. => true
  | _ => false

/-- The stores the journal records, and the memory. -/
def Kernel.depots (s : Kernel) : List Evenement × (Nat → UInt8) :=
  (s.journal.filter Evenement.estEcriture, s.memoire)

/-- The last store is at `adr`, and the memory holds what it stored. -/
def EnMemoire (adr : Nat) (s : Kernel) : Prop :=
  ∃ p w, s.depots.1.getLast? = some (.ecriture p adr w) ∧ motA s.depots.2 adr = w

section

variable {s : Kernel} {l : Lieu} {p : Ptr}

theorem depots_lire : Keeps (fun _ => True) Kernel.depots (lire l p) :=
  .of_bind .of_get fun _ => .of_ite (.of_pure _) (.of_throw trivial)

theorem depots_ecrire {f : Processus → Processus} : Keeps (fun _ => True) Kernel.depots (ecrire l p f) :=
  .of_bind .of_get fun _ => .of_ite (fun _ => rfl) (.of_throw trivial)

theorem depots_queueAdd {t : Tete} {cle : Processus → Int} :
    Keeps (fun _ => True) Kernel.depots (queueAdd p t cle) :=
  .of_bind .of_get fun _ => .of_ite (fun _ => rfl) (.of_throw trivial)

theorem depots_note {e : Evenement} (he : e.estEcriture = false) :
    Keeps (fun _ => True) Kernel.depots (note e) := by
  intro s
  show ((s.journal ++ [e]).filter _, s.memoire) = _
  simp [List.filter_append, he, Kernel.depots]

theorem depots_retireProc {fid : Int} : Keeps (fun _ => True) Kernel.depots (retireProc fid) := by
  refine .of_bind .of_get fun s => .of_bind (.of_ite (.of_pure _) (.of_throw trivial)) fun _ =>
    .of_bind (.of_bind .of_get fun s => ?_) fun o => ?_
  · cases s.chainage.top (.file fid) with
    | none => exact .of_pure _
    | some p => exact .of_bind (fun _ => rfl) fun _ => .of_pure _
  · cases o with
    | none => exact .of_throw trivial
    | some p => exact .of_pure _

theorem depots_addMsg {fid v : Int} {f : File} :
    Keeps (fun _ => True) Kernel.depots (addMsg fid f v) := by
  refine .of_bind (.of_ite (.of_pure _) (.of_throw trivial)) fun _ => .of_bind ?_ fun adr =>
    .of_bind (fun _ => rfl) fun _ => .of_pure _
  intro s
  simp only [memAllocNonNul, memAlloc, wp_bind, wp_get]
  split
  · rfl
  · trivial

theorem EnMemoire.congr {s s' : Kernel} {adr : Nat} (h : EnMemoire adr s) (hs : s'.depots = s.depots) :
    EnMemoire adr s' := by
  obtain ⟨p, w, hlast, hw⟩ := h
  exact ⟨p, w, hs ▸ hlast, hs ▸ hw⟩

theorem EnMemoire.motA {s : Kernel} {adr : Nat} {p : Ptr} {w : BitVec 32} (h : EnMemoire adr s)
    (hw : s.depots.1.getLast? = some (.ecriture p adr w)) : motA s.memoire adr = w := by
  obtain ⟨q, u, hlast, hu⟩ := h
  rw [hw] at hlast
  cases hlast
  exact hu

theorem wp_enMemoire_ecrireMot {adr : Nat} {w : BitVec 32} :
    wp (fun _ => True) (ecrireMot adr w) (fun _ s' => EnMemoire adr s') s := by
  unfold ecrireMot
  split
  · refine ⟨s.procElu, w, ?_, motA_poserMot ..⟩
    show ((s.journal ++ [_]).filter _).getLast? = _
    simp [List.filter_append, Evenement.estEcriture]
  · trivial

/-- A call of `preceive` that does not block stores the message. -/
theorem wp_enMemoire_preceive {fid : Int} {m : Nat} (h0 : m ≠ 0) :
    wp (fun _ => True) (preceive fid m) (fun x s' =>
      x = .retour 0 ∨ x = .ordonnanceur (.retour 0) → EnMemoire m s') s := by
  have tout : ∀ {α : Type} {m : M α} {s : Kernel} {Q : α → Kernel → Prop}, (∀ a s', Q a s') →
      wp (fun _ => True) m Q s :=
    fun hQ => wp_of (fun a s' _ => hQ a s') fun _ _ => trivial
  simp only [preceive, wp_bind, wp_get]
  split
  · rw [wp_pure]
    simp
  split
  · trivial
  next f _ =>
  simp only [wp_bind]
  refine tout fun elu s₁ => tout fun _ s₂ => tout fun _ s₃ => ?_
  split
  · rw [wp_bind]
    exact tout fun _ _ => by simp
  · rw [wp_bind]
    refine tout fun a s₄ => ?_
    rw [wp_bind]
    refine tout fun _ s₅ => ?_
    rw [wp_bind]
    refine wp_imp wp_enMemoire_ecrireMot fun _ s₆ h => ?_
    -- what follows the store neither stores nor writes memory
    have suite : Keeps (fun _ => True) Kernel.depots (do
        let s ← get
        if s.elems (.file fid) ≠ [] then do
          let proc ← retireProc fid
          let r ← lire .preceive proc
          ecrire .preceive proc fun r => { r with fid := -1 }
          let _ ← addMsg fid a.1 r.fileValue
          note (.accepte a.1.adr proc r.fileValue)
          ecrire .preceive proc fun r => { r with operationStatus := 1, etat := .activable }
          queueAdd proc .procActivables (·.prio)
          pure (finFile (r.prio > elu.prio))
        else pure (.retour 0)) := by
      refine .of_bind .of_get fun s => .of_ite ?_ (.of_pure _)
      refine .of_bind depots_retireProc fun proc => .of_bind depots_lire fun r => ?_
      refine .of_bind depots_ecrire fun _ => .of_bind depots_addMsg fun _ => ?_
      refine .of_bind (depots_note rfl) fun _ => .of_bind depots_ecrire fun _ => ?_
      exact .of_bind depots_queueAdd fun _ => .of_pure _
    exact wp_imp (suite s₆) fun _ s' hs' _ => h.congr hs'

/-- A call of `preceive` that blocked stores the message when it resumes. -/
theorem wp_enMemoire_preceiveReprise {m : Nat} (h0 : m ≠ 0) :
    wp (fun _ => True) (preceiveReprise m) (fun x s' => x = .retour 0 → EnMemoire m s') s := by
  simp only [preceiveReprise, wp_bind, wp_get]
  refine wp_of (fun elu s₁ _ => ?_) fun _ _ => trivial
  split
  · rw [wp_pure]
    simp
  · rw [wp_bind]
    exact wp_imp wp_enMemoire_ecrireMot fun _ _ h _ => h

end

/-- What a call of `preceive` that returns 0 records. -/
theorem AppelPreceive.recu {s s' : Core} {fid : Int} {m : Nat} {x : Suite} {f : File}
    (h : AppelPreceive s fid m x s') (hc : Coherent s) (he : s.EnCours) (h0 : m ≠ 0)
    (hf : s.tableauFile fid = some f) (hx : x = .retour 0 ∨ x = .ordonnanceur (.retour 0)) :
    ∃ v k, s'.journal = s.journal ++ ([.reception f.adr s.procElu m, .livre f.adr s.procElu v,
        .ecriture s.procElu m (BitVec.ofInt 32 v)] ++ k) ∧
      ∀ e ∈ k, e.acteur ≠ some s.procElu ∧ e.estRetour = false ∧ e.estEcriture = false := by
  cases h with
  | refus => simp at hx
  | bloque => simp at hx
  | @prend f' l msg hf' =>
    rw [hf] at hf'
    cases hf'
    exact ⟨msg.message, [], by simp [Core.recoit, Core.ecrit, h0], by simp⟩
  | @relaye f' l msg p adr n hf' hl hp =>
    rw [hf] at hf'
    cases hf'
    have hne : p ≠ s.procElu := hc.ne_procElu he (LinkedQueues.link_of_top hp)
    refine ⟨msg.message, [.accepte f.adr p (s.tas p).fileValue], ?_, ?_⟩
    · simp [Core.recoit, Core.ecrit, Core.eveille, h0]
    · simpa [Evenement.acteur, Evenement.estRetour, Evenement.estEcriture] using hne

/-- The step calls `preceive(fid, m)` on the file at `a`, or continues such a call
that has blocked. -/
def EnPreceive (c : Config) (e : Signal) (fid : Int) (a : Ptr) (m : Nat) : Prop :=
  (∃ r, e.Appelle .preceive r ∧ isUserSpace r.ecx = true ∧ r.ebx.toInt = fid ∧
    r.ecx.toNat = m) ∨
  e = .suite ∧ (c.s.tas c.s.procElu).contexte = .preceive m ∧
    .reception a c.s.procElu m ∈ appelEnCours c.s.procElu c.s.journal

/-- When a `preceive` returns 0, the message it has been delivered is in memory. -/
theorem EnPreceive.enMemoire {c : Config} {e : Signal} {f : File} {fid : Int} {m : Nat} {x : Suite}
    {s' : Kernel} (h : Accessible c) (hp : possible c e = true)
    (hf : c.s.tableauFile fid = some f) (he : EnPreceive c e fid f.adr m) (h0 : m ≠ 0)
    (hseg : segment c e c.s = .ok (x, s'))
    (hx : x = .retour 0 ∨ x = .ordonnanceur (.retour 0)) :
    ∃ v, appelEnCours c.s.procElu s'.journal = [.reception f.adr c.s.procElu m,
        .livre f.adr c.s.procElu v, .ecriture c.s.procElu m (BitVec.ofInt 32 v)] ∧
      motA s'.memoire m = BitVec.ofInt 32 v := by
  have hv := h.valide
  rcases he with ⟨r, ⟨rfl, hsv⟩, hus, rfl, rfl⟩ | ⟨rfl, hctx, hrec⟩
  · simp only [possible, decide_eq_true_eq] at hp
    have henc := hv.utilisateur hp.1
    rw [segment, if_pos hp, traitantIT49Switch, hsv] at hseg
    simp only [hus, Bool.not_true, Bool.false_eq_true, if_false] at hseg
    have ha : AppelPreceive c.s.toCore r.ebx.toInt r.ecx.toNat x s'.toCore :=
      wp_ok (wp_preceive (C := {}) hv.stable henc _ _ fun _ _ ha => ha) hseg
    obtain ⟨v, k, hj, hk⟩ := ha.recu hv.stable.coherent henc h0 hf hx
    refine ⟨v, ?_, (wp_ok (wp_enMemoire_preceive h0) hseg hx).motA (p := c.s.procElu) ?_⟩
    · rw [hj, appelEnCours_append, h.suivi.utilisateur hv hp.1, evenementsDe_append,
        evenementsDe_muet fun e he => (hk e he).1]
      · simp [evenementsDe, Evenement.acteur]
      · intro e he
        rcases List.mem_append.mp he with he | he
        · simp only [List.mem_cons, List.not_mem_nil, or_false] at he
          rcases he with rfl | rfl | rfl <;> rfl
        · exact (hk e he).2.1
    · have hmuet : k.filter Evenement.estEcriture = [] :=
        List.filter_eq_nil_iff.mpr fun e he => by rw [(hk e he).2.2]; decide
      show (s'.journal.filter _).getLast? = _
      rw [hj, List.filter_append, List.filter_append, hmuet, List.append_nil]
      simp [Evenement.estEcriture]
  · have hn : c.mode = .noyau := of_decide_eq_true hp
    have hS := h.suivi.elu hv.elu.vivant (by rw [hv.elu.etat]; rfl)
    rw [hctx] at hS
    have hchamp : ∀ {α : Type} {g : Processus → α}, (∀ r, g { r with contexte := .iret } = g r) →
        g (c.entree.tas c.entree.procElu) = g (c.s.tas c.s.procElu) := fun hg => by
      rw [c.procElu_entree, Config.entree_noyau hn]
      exact Core.champ_maj hg _
    have hwp : wp (Cadre.tolere {}) (segment c .suite) (fun x s' => x = .retour (-1) ∨
        x = .retour 0 ∧ (c.entree.tas c.entree.procElu).operationStatus ≠ 0 ∧ s'.toCore =
          c.entree.ecrit m (BitVec.ofInt 32 (c.entree.tas c.entree.procElu).fileValue)) c.s := by
      refine hv.wp_suite hn ?_
      rw [hctx]
      exact wp_preceiveReprise hv.entree.2 m (fun _ => .inl rfl) fun _ hst hs' => .inr ⟨rfl, hst, hs'⟩
    have hr := wp_ok (hv.wp_suite hn (by rw [hctx]; exact wp_enMemoire_preceiveReprise h0)) hseg
    rcases wp_ok hwp hseg with rfl | ⟨rfl, hst, hs'⟩
    · simp at hx
    rw [hchamp (g := Processus.operationStatus) fun _ => rfl] at hst
    have hj : s'.journal = c.s.journal ++
        [.ecriture c.s.procElu m (BitVec.ofInt 32 (c.s.tas c.s.procElu).fileValue)] := by
      rw [hs', Core.ecrit_journal, if_neg h0, hchamp (g := Processus.fileValue) fun _ => rfl,
        c.journal_entree, c.procElu_entree]
    refine ⟨(c.s.tas c.s.procElu).fileValue, ?_, (hr rfl).motA (p := c.s.procElu) ?_⟩
    · rw [hj, appelEnCours_concat rfl rfl]
      generalize appelEnCours c.s.procElu c.s.journal = l at hS hrec
      cases hS with
      | libre hk => cases hk
      | recoit hx =>
        rw [hv.elu.etat] at hx
        cases hx
      | recu =>
        simp only [List.mem_cons, Evenement.reception.injEq, reduceCtorEq, List.not_mem_nil, or_false,
          and_true] at hrec
        rw [hrec]
        rfl
      | recuEchec _ hx => exact absurd hx hst
    · show (s'.journal.filter _).getLast? = _
      rw [hj, List.filter_append]
      simp [Evenement.estEcriture]

/-- The file at `a`, in entry `fid`, is a channel for `n` messages at most in the
configuration `c`: it accepted what it delivered, followed by its queue; each
call that returned 0 put in or took out one message, and the code that ends such
a reception leaves the message in memory. -/
structure Canal (fid : Int) (a : Ptr) (n : Int) (c : Config) : Prop where
  fifo : ∃ f, c.s.tableauFile fid = some f ∧ f.adr = a ∧
    Fifo (acceptes a c.s.journal) (livres a c.s.journal) f.contenu ∧ (f.contenu.length : Int) ≤ n
  emis : Emis a c.s.journal
  envois : ∀ j₁ j₂ p v, c.s.journal = j₁ ++ .retour p 0 :: j₂ →
    .emission a p v ∈ appelEnCours p j₁ → appelEnCours p j₁ = [.emission a p v, .accepte a p v]
  receptions : ∀ j₁ j₂ p m, c.s.journal = j₁ ++ .retour p 0 :: j₂ →
    .reception a p m ∈ appelEnCours p j₁ →
      ∃ v, appelEnCours p j₁ = [.reception a p m, .livre a p v] ++ stocke p m (BitVec.ofInt 32 v)
  memoire : ∀ e m x s', possible c e = true → EnPreceive c e fid a m → m ≠ 0 →
    segment c e c.s = .ok (x, s') → x = .retour 0 ∨ x = .ordonnanceur (.retour 0) →
      ∃ v, appelEnCours c.s.procElu s'.journal = [.reception a c.s.procElu m,
          .livre a c.s.procElu v, .ecriture c.s.procElu m (BitVec.ofInt 32 v)] ∧
        motA s'.memoire m = BitVec.ofInt 32 v
  psend : ∀ e r c', possible c e = true → e.Appelle .psend r → r.ebx.toInt = fid → pas c e = .ok c' →
    ∃ k, c'.s.journal = c.s.journal ++ .emission a c.s.procElu r.ecx.toInt :: k
  preceive : ∀ e r c', possible c e = true → e.Appelle .preceive r → r.ebx.toInt = fid →
    isUserSpace r.ecx = true → pas c e = .ok c' →
      ∃ k, c'.s.journal = c.s.journal ++ .reception a c.s.procElu r.ecx.toNat :: k

theorem Accessible.canal {c : Config} {fid n : Int} {a : Ptr} (h : Accessible c)
    (ho : c.s.toCore.Ouvert fid a n) : Canal fid a n c := by
  have hc := h.valide
  have hca := h.canaux
  obtain ⟨⟨f, hf, rfl, rfl⟩, hjamais⟩ := ho
  have hK : depuisVide f.adr c.s.journal = c.s.journal := by
    refine since_eq_self ?_
    intro e he
    rw [decide_eq_false_iff_not]
    rintro rfl
    exact hjamais he
  have hfifo := hca.fifo fid f hf
  have hemis := hca.emis f.adr
  rw [hK] at hfifo hemis
  have huser : ∀ {e : Signal} {r : Registres} {sv : Service}, possible c e = true → e.Appelle sv r →
      c.mode = .utilisateur ∧ c.s.procElu ≠ c.s.procIdle := by
    rintro e r sv hp ⟨rfl, -⟩
    simpa only [possible, decide_eq_true_eq] using hp
  refine ⟨⟨f, hf, rfl, hfifo, ?_⟩, hemis, ?_, ?_,
    fun e m x s' hp he h0 hseg hx => he.enMemoire h hp hf h0 hseg hx, ?_, ?_⟩
  · obtain ⟨-, -, -, -, hle⟩ := hc.stable.coherent.file fid f hf
    rw [File.contenu, List.length_reverse, List.length_map]
    exact hle
  · intro j₁ j₂ p v hj hm
    exact (h.suivi.reponses j₁ _ j₂ hj p 0 rfl).emission rfl hm
  · intro j₁ j₂ p m hj hm
    exact (h.suivi.reponses j₁ _ j₂ hj p 0 rfl).reception rfl hm
  · intro e r c' hp happ hfid hpas
    have hu := huser hp happ
    obtain ⟨rfl, hsv⟩ := happ
    obtain ⟨x, s', hseg, -⟩ := of_pas hpas
    obtain ⟨t, ht, -⟩ := pas_journal hc hp hseg hpas
    rw [segment, if_pos hu, traitantIT49Switch, hsv] at hseg
    have ha : AppelPsend c.s.toCore r.ebx.toInt r.ecx.toInt x s'.toCore :=
      wp_ok (wp_psend (C := {}) hc.stable (hc.utilisateur hu.1) _ _ fun _ _ ha => ha) hseg
    obtain ⟨k, hk⟩ := ha.journal (hfid ▸ hf)
    exact ⟨k ++ t, by rw [ht, hk, List.append_assoc]; rfl⟩
  · intro e r c' hp happ hfid hus hpas
    have hu := huser hp happ
    obtain ⟨rfl, hsv⟩ := happ
    obtain ⟨x, s', hseg, -⟩ := of_pas hpas
    obtain ⟨t, ht, -⟩ := pas_journal hc hp hseg hpas
    rw [segment, if_pos hu, traitantIT49Switch, hsv] at hseg
    simp only [hus, Bool.not_true, Bool.false_eq_true, if_false] at hseg
    have ha : AppelPreceive c.s.toCore r.ebx.toInt r.ecx.toNat x s'.toCore :=
      wp_ok (wp_preceive (C := {}) hc.stable (hc.utilisateur hu.1) _ _ fun _ _ ha => ha) hseg
    obtain ⟨k, hk⟩ := ha.journal (hfid ▸ hf)
    exact ⟨k ++ t, by rw [ht, hk, List.append_assoc]; rfl⟩

/-- A file that `pcreate` made is a channel, as long as it is neither reset nor
deleted. -/
theorem file_canal {c c₁ : Config} {e : Signal} {r : Registres} {fid : Int} (h : Accessible c)
    (hp : possible c e = true) (happ : e.Appelle .pcreate r) (hpas : pas c e = .ok c₁)
    (hret : c₁.s.journal = c.s.journal ++ [.retour c.s.procElu fid]) (h0 : 0 ≤ fid) :
    ∃ a, ∀ c₂, Poursuit (fun c e => ¬ VideFile c e a) c₁ c₂ → Canal fid a r.ebx.toInt c₂ := by
  have hc := h.valide
  have h₁ : Accessible c₁ := .pas h hp trivial hpas
  obtain ⟨rfl, hsv⟩ := happ
  have hwp : wp (Cadre.tolere {}) (traitantIT49Switch r)
      (fun x s' => AppelPcreate c.s.toCore r.ebx.toInt x s'.toCore) c.s := by
    rw [traitantIT49Switch, hsv]
    exact wp_pcreate hc.stable.coherent _ fun _ _ ha => ha
  obtain ⟨x, s', ha, ht⟩ := of_pas_int49 hp hwp hpas
  have ho : ∃ a, c₁.s.toCore.Ouvert fid a r.ebx.toInt := by
    generalize hs : s'.toCore = t at ha
    cases ha with
    | refus =>
      obtain ⟨-, hs'⟩ := of_termine_retour ht
      rw [hs', hs] at hret
      have hx := List.append_cancel_left hret
      simp only [List.cons.injEq, Evenement.retour.injEq, and_true] at hx
      omega
    | @cree l cell adr m hn hl hpos hN hadr hm =>
      obtain ⟨-, hs'⟩ := of_termine_retour ht
      rw [hs', hs] at hret ⊢
      have hx := List.append_cancel_left hret
      simp only [List.cons.injEq, Evenement.retour.injEq, and_true] at hx
      refine ⟨adr, ⟨⟨{ adr := adr, fid := cell.fid, maxMsg := r.ebx.toInt, queueMsg := [] }, ?_, rfl,
        rfl⟩, ?_⟩⟩
      · rw [← hx.2]
        exact Function.update_self ..
      · intro hmem
        rcases List.mem_append.mp hmem with hmem | hmem
        · exact absurd (h.canaux.neuf _ hmem adr rfl) (not_lt.mpr hadr)
        · simp at hmem
  obtain ⟨a, ho⟩ := ho
  refine ⟨a, fun c₂ hrun => (hrun.accessible h₁).canal ?_⟩
  refine (hrun.invariant h₁ (I := fun s => s.Canaux ∧ s.Ouvert fid a r.ebx.toInt) ⟨h₁.canaux, ho⟩ ?_ ?_).2
  · rintro s - - ⟨hca, ho⟩
    exact ⟨hca.depile, ho.rien (k := []) rfl (List.append_nil _).symm (by simp)⟩
  · intro c e _ _ hP
    exact Core.Ouvert.conserve hP

/-- No signal of `l` calls `preset` or `pdelete`. -/
def sansVide (l : List Signal) : Bool :=
  l.all fun
    | .int49 r => r.service ≠ some .preset ∧ r.service ≠ some .pdelete
    | _ => true

theorem not_videFile {l : List Signal} (h : sansVide l = true) {e : Signal} (he : e ∈ l) (c : Config)
    (a : Ptr) : ¬ VideFile c e a := by
  rintro ⟨r, f, ⟨rfl, hsv⟩ | ⟨rfl, hsv⟩, -⟩
  · exact (of_decide_eq_true (List.all_eq_true.mp h _ he)).1 hsv
  · exact (of_decide_eq_true (List.all_eq_true.mp h _ he)).2 hsv

/-- A child sends two messages to a file of one message. -/
theorem file_canal_exemple : ∃ c c₁ c₂ a, Accessible c ∧ pas c (appel 9 1 0 0 0) = .ok c₁ ∧
    execute c₁ (attenteFile.drop 2) = some c₂ ∧ Canal 9 a 1 c₂ := by
  obtain ⟨c, hc, h⟩ := Accessible.scenario (l := [.suite])
    (Q := fun c => match execute c [appel 9 1 0 0 0] with
      | none => false
      | some c₁ => c₁.s.journal = c.s.journal ++ [.retour c.s.procElu 9] ∧
          (execute c₁ (attenteFile.drop 2)).isSome) (by decide +kernel)
  split at h
  · cases h
  next c₁ hl =>
  obtain ⟨hp, c₁', hpas, hl'⟩ := execute_cons.mp hl
  cases hl'
  obtain ⟨hret, hs⟩ := of_decide_eq_true h
  obtain ⟨c₂, hc₂⟩ := Option.isSome_iff_exists.mp hs
  obtain ⟨a, ha⟩ := file_canal hc hp ⟨rfl, by decide⟩ hpas hret (by decide)
  exact ⟨c, c₁, c₂, a, hc, hpas, hc₂, ha c₂ (Poursuit.refl.execute
    (fun e he c => not_videFile (l := attenteFile.drop 2) (by decide) he c a) hc₂)⟩

end GenesisOS
