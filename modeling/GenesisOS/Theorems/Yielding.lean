import GenesisOS.Refinement.Returns
import GenesisOS.Theorems.Channels
import GenesisOS.Theorems.Lifecycle
import GenesisOS.Theorems.RoundRobin

/-!
# GenesisOS — giving up the processor by changing one's priority

A `chprio` of the caller itself always calls `ordonnanceur`: what it compares the
new priority with is an address. The caller is then put behind the activable
processes of its new priority, so it keeps the processor only when its new
priority is greater than all of theirs. Its value is the previous priority,
whenever it returns.
-/

namespace GenesisOS

open Lib

-- ---------------------------------------------------------------------------
-- Calls that gave up the processor before returning
-- ---------------------------------------------------------------------------

/-- The code of a step up to its end records no return. -/
theorem Segment.sansRetour {C : Cadre} {x : Suite} {s s' : Core} (h : Stable s)
    (hs : Segment C x s s') :
    ∃ j, s'.journal = s.journal ++ j ∧ ∀ e ∈ j, e.estRetour = false := by
  have calme : ∀ {L : Etiquette → Prop} {s₁ : Core}, Calme L s s₁ →
      ∃ j, s₁.journal = s.journal ++ j ∧ ∀ e ∈ j, e.estRetour = false := by
    intro L s₁ hq
    induction hq with
    | refl => exact ⟨[], by simp, by simp⟩
    | tail hrest hlast ih =>
      obtain ⟨he, l, -, q⟩ := hlast
      obtain ⟨j, hj, hn⟩ := ih
      obtain ⟨k, hk, hm⟩ := Gagne.quiet (h.calme hrest) he q
      refine ⟨j ++ k, by rw [hk, hj, List.append_assoc], ?_⟩
      intro e hx
      rcases List.mem_append.mp hx with hx | hx
      · exact hn e hx
      · exact (hm e hx).1
  cases hs with
  | retour hq he => exact calme hq
  | iret hq he => exact calme hq
  | ordonnanceur hq he hso hm =>
    obtain ⟨j, hj, hn⟩ := calme hq
    obtain ⟨k, hk, hm⟩ := Gagne.sortie he hso
    refine ⟨j ++ k, by rw [← List.append_assoc, ← hj]; exact hk, ?_⟩
    intro e hx
    rcases List.mem_append.mp hx with hx | hx
    · exact hn e hx
    · exact (hm e hx).1

/-- A step records a return of the elected process only. -/
theorem pas_sansRetour {c c' : Config} {e : Signal} {p : Ptr} (h : c.Valide)
    (hp : possible c e = true) (hpas : pas c e = .ok c') (hne : p ≠ c.s.procElu) :
    ∃ j, c'.s.journal = c.s.journal ++ j ∧ ∀ v, .retour p v ∉ j := by
  obtain ⟨x, s', hseg, -⟩ := of_pas hpas
  have hR := h.segment hp hseg
  obtain ⟨j, hj, hn⟩ := hR.sansRetour h.entree.1
  obtain ⟨k, hk, hm⟩ := pas_journal h hp hseg hpas
  have helu : s'.procElu = c.s.procElu := (h.entree.1.elu_segment hR).trans c.procElu_entree
  refine ⟨j ++ k, ?_, ?_⟩
  · rw [hk, hj, List.append_assoc, c.journal_entree]
  · intro v hx
    rcases List.mem_append.mp hx with hx | hx
    · cases hn _ hx
    · rcases hm _ hx with ⟨w, hw⟩ | ⟨q, hq⟩
      · cases hw
        exact hne helu
      · cases hq


/-- Without an election, the elected process stays. -/
theorem pas_elu {c c' : Config} {e : Signal} (h : c.Valide) (hp : possible c e = true)
    (hpas : pas c e = .ok c') (hu : c'.mode = .utilisateur) : c'.s.procElu = c.s.procElu := by
  obtain ⟨x, s', hseg, ht⟩ := of_pas hpas
  have helu := (h.entree.1.elu_segment (h.segment hp hseg)).trans c.procElu_entree
  cases x with
  | retour v =>
    rw [(of_termine_retour ht).2]
    exact helu
  | iret =>
    obtain ⟨s₁, mode⟩ := c'
    cases ht
    exact helu
  | ordonnanceur k =>
    rw [(of_pas_ordonnanceur h hp hseg hpas).1] at hu
    cases hu

/-- The first return of `p` in the events of `j`, if there is one, is `v`. -/
def PremierRetour (p : Ptr) (v : Int) (j : List Evenement) : Prop :=
  ∃ j₁ j₂, j = j₁ ++ .retour p v :: j₂ ∧ ∀ u, .retour p u ∉ j₁

theorem PremierRetour.unique {p : Ptr} {v w : Int} {j j₁ j₂ : List Evenement}
    (h : PremierRetour p v j) (hj : j = j₁ ++ .retour p w :: j₂) (hn : ∀ u, .retour p u ∉ j₁) :
    w = v := by
  have premier : ∀ {k l : List Evenement} {u : Int}, (∀ x, .retour p x ∉ k) →
      (k ++ .retour p u :: l).find? (fun e => e.acteur = some p ∧ e.estRetour) =
        some (.retour p u) := by
    intro k l u hk
    have hnone : k.find? (fun e => e.acteur = some p ∧ e.estRetour) = none := by
      rw [List.find?_eq_none]
      intro e he hx
      simp only [decide_eq_true_eq] at hx
      cases e with
      | retour q x =>
        obtain rfl : q = p := Option.some.inj hx.1
        exact hk x he
      | _ => exact absurd hx.2 nofun
    rw [List.find?_append, hnone]
    simp [Evenement.acteur, Evenement.estRetour]
  obtain ⟨k₁, k₂, hk, hn'⟩ := h
  have h₁ := premier (l := j₂) (u := w) hn
  rw [← hj, hk, premier hn'] at h₁
  cases h₁
  rfl

/-- The state of a run in which `p` owes the value `v`. -/
structure Differe (p : Ptr) (v : Int) (c c' : Config) : Prop where
  accessible : Accessible c'
  ancien : p < c'.s.prochain
  journal : ∃ j, c'.s.journal = c.s.journal ++ j ∧ (PremierRetour p v j ∨
    (∀ u, .retour p u ∉ j) ∧ (c'.s.vivant p = true →
      (c'.s.tas p).contexte = .retour v ∧ (c'.s.procElu = p → c'.mode = .noyau)))

/-- Elected again, the process returns the value it owes. -/
theorem pas_retourDiffere {c : Config} {v : Int} (h : c.Valide)
    (hctx : (c.s.tas c.s.procElu).contexte = .retour v) :
    ∃ c', pas c .suite = .ok c' ∧ c'.mode = .utilisateur ∧
      c'.s.journal = c.s.journal ++ [.retour c.s.procElu v] := by
  have hv := h.elu.vivant
  have hw : wp (fun _ => False) (segment c .suite) (fun x s' => x = .retour v ∧
      s'.procElu = c.s.procElu ∧ s'.journal = c.s.journal) c.s := by
    simp [segment, lire, ecrire, surCore, hv, hctx, reprend]
  obtain ⟨c', s', hc', ⟨helu, hj⟩, hm, hs'⟩ := pas_retour hw
  refine ⟨c', hc', hm, ?_⟩
  rw [hs', Core.note, helu, hj]

theorem Differe.pas {p : Ptr} {v : Int} {c c₁ c₂ : Config} {e : Signal} (h : Differe p v c c₁)
    (hp : possible c₁ e = true) (hpas : GenesisOS.pas c₁ e = .ok c₂) : Differe p v c c₂ := by
  have hv := h.accessible.valide
  have hl : execute c₁ [e] = some c₂ := execute_cons.mpr ⟨hp, c₂, hpas, rfl⟩
  obtain ⟨-, hvi⟩ := hv.execute (fun C => Conserve.vieillit C c₁.s.toCore)
    (fun _ _ hi => hi.trans (.de le_rfl rfl)) .refl hl
  refine ⟨.pas h.accessible hp trivial hpas, h.ancien.trans_le hvi.prochain, ?_⟩
  obtain ⟨j, hj, hor⟩ := h.journal
  -- a step of another process
  have autre : p ≠ c₁.s.procElu → (∀ u, .retour p u ∉ j) → (c₂.s.vivant p = true →
      (c₂.s.tas p).contexte = .retour v) → ∃ j, c₂.s.journal = c.s.journal ++ j ∧
        (PremierRetour p v j ∨ (∀ u, .retour p u ∉ j) ∧ (c₂.s.vivant p = true →
          (c₂.s.tas p).contexte = .retour v ∧ (c₂.s.procElu = p → c₂.mode = .noyau))) := by
    intro hne hmuet hctx
    obtain ⟨k, hk, hn⟩ := pas_sansRetour hv hp hpas hne
    refine ⟨j ++ k, by rw [hk, hj, List.append_assoc], .inr ⟨?_, fun hv₂ => ⟨hctx hv₂, ?_⟩⟩⟩
    · intro u hx
      rcases List.mem_append.mp hx with hx | hx
      · exact hmuet u hx
      · exact hn u hx
    · intro helu
      cases hm : c₂.mode with
      | noyau => rfl
      | utilisateur => exact absurd (helu.symm.trans (pas_elu hv hp hpas hm)) hne
  rcases hor with ⟨j₁, j₂, hpre, hn⟩ | ⟨hmuet, hctx⟩
  · obtain ⟨-, k, hk⟩ := h.accessible.journal hl
    refine ⟨j ++ k, by rw [hk, hj, List.append_assoc], .inl ⟨j₁, j₂ ++ k, ?_, hn⟩⟩
    rw [hpre, List.append_assoc, List.cons_append]
  · cases hvp : c₁.s.vivant p with
    | false =>
      refine autre ?_ hmuet ?_
      · rintro rfl
        rw [hv.elu.vivant] at hvp
        cases hvp
      · intro hv₂
        rw [hvi.vivant p h.ancien hvp] at hv₂
        cases hv₂
    | true =>
      obtain ⟨hc, hm⟩ := hctx hvp
      by_cases hpe : p = c₁.s.procElu
      · subst hpe
        have hnoyau := hm rfl
        obtain rfl : e = .suite := by
          cases e <;> simp [possible, hnoyau] at hp
          rfl
        obtain ⟨c₃, hc₃, -, hj₃⟩ := pas_retourDiffere hv hc
        rw [hpas] at hc₃
        cases hc₃
        exact ⟨j ++ [.retour c₁.s.procElu v], by rw [hj₃, hj, List.append_assoc],
          .inl ⟨j, [], rfl, hmuet⟩⟩
      · refine autre hpe hmuet ?_
        intro hv₂
        rcases pas_vient hv hp hpas hv₂ with ⟨-, ⟨-, hs⟩ | ⟨hx, -⟩⟩ | ⟨hx, -⟩
        · exact hs.1.trans hc
        · rw [hvp] at hx
          cases hx
        · exact absurd hx hpe

/-- A process that has only to return `v` returns `v`, whatever the others do. -/
theorem Accessible.rend_differe {c c' : Config} {l : List Signal} {p : Ptr} {v : Int}
    (h : Accessible c) (hv : c.s.vivant p = true) (hctx : (c.s.tas p).contexte = .retour v)
    (hm : c.s.procElu = p → c.mode = .noyau) (hl : execute c l = some c') : Rend p v c c' := by
  have hd : Differe p v c c' := by
    refine execute_induction (I := Differe p v c) (fun hd hp hpas => hd.pas hp hpas) ?_ hl
    exact ⟨h, h.valide.stable.coherent.ancien p hv, [], by simp, .inr ⟨by simp, fun _ => ⟨hctx, hm⟩⟩⟩
  obtain ⟨j, hj, hor⟩ := hd.journal
  refine ⟨j, hj, ?_, ?_⟩
  · intro j₁ j₂ w hj' hn
    rcases hor with hpre | ⟨hmuet, -⟩
    · exact hpre.unique hj' hn
    · exact absurd (by rw [hj']; simp) (hmuet w)
  · rintro rfl hmuet
    have hv' := hd.accessible.valide
    rcases hor with ⟨j₁, j₂, hpre, -⟩ | ⟨-, hctx'⟩
    · exact absurd (by rw [hpre]; simp) (hmuet v)
    · obtain ⟨hc', hm'⟩ := hctx' hv'.elu.vivant
      exact ⟨by simp [possible, hm' rfl], pas_retourDiffere hv' hc'⟩

-- ---------------------------------------------------------------------------
-- `chprio` of the caller
-- ---------------------------------------------------------------------------

/-- The code of `chprio` on the caller always asks for an election. -/
theorem AppelChprio.soi {s s' : Core} {pid n : Int} {r : Suite} (h : Coherent s) (he : s.EnCours)
    (hidle : s.procElu ≠ s.procIdle) (hpid : s.tableDesProcs pid = some s.procElu) (hn : 0 < n)
    (hmax : n ≤ PRIO_MAX) (ha : AppelChprio s pid n r s') :
    r = .ordonnanceur (.retour (s.tas s.procElu).prio) ∧
      s' = s.maj s.procElu fun r => { r with prio := n } := by
  have autre : ∀ {p : Ptr}, s.tableDesProcs pid = some p → p ≠ s.procElu → False := by
    intro p hp hne
    rw [hpid] at hp
    exact hne (Option.some.inj hp).symm
  cases ha with
  | refus hr =>
    obtain ⟨hv, rfl⟩ := h.table _ _ hpid
    rcases hr with h0 | h0 | h0 | hz
    · have hpos : (s.tas s.procElu).pid = 0 := le_antisymm h0 (h.pid _ hv).1
      rw [hpos, ← h.idle.2.1, h.inscrit _ h.idle.1] at hpid
      exact absurd (Option.some.inj hpid).symm hidle
    · omega
    · omega
    · have hx := hz _ hpid
      rw [he.etat] at hx
      cases hx
  | elu => exact ⟨rfl, rfl⟩
  | activable h0 hp hn hmax hne => exact (autre hp hne).elim
  | file h0 hp hn hmax hne => exact (autre hp hne).elim
  | autre h0 hp hn hmax hne => exact (autre hp hne).elim

/-- The call is a `chprio` of the caller itself with a legal priority. -/
structure ChprioSoi (c : Config) (r : Registres) : Prop where
  possible : GenesisOS.possible c (.int49 r) = true
  service : r.service = some .chprio
  pid : c.s.tableDesProcs r.ebx.toInt = some c.s.procElu
  positif : 1 ≤ r.ecx.toInt
  max : r.ecx.toInt ≤ PRIO_MAX

/-- What the elected process finds when it calls `ordonnanceur` without blocking:
it keeps the processor exactly when its priority is greater than that of every
activable process. -/
theorem Stable.cede {s s₃ s' : Core} {k : Reprise} (h : Stable s) (he : s.EnCours)
    (hact : s.elems .procActivables ≠ []) (hst : Stable (s.empile k))
    (hl : Relation.ReflTransGen Liberation (s.empile k) s₃) (hel : Election s₃ s') :
    s'.vivant s.procElu = true ∧ (s'.tas s.procElu).contexte = k ∧
      ((∀ q ∈ s.elems .procActivables, (s.tas q).prio < (s.tas s.procElu).prio) →
        s'.procElu = s.procElu ∧ s'.elems .procActivables = s.elems .procActivables) ∧
      ∀ q ∈ s.elems .procActivables, (s.tas s.procElu).prio ≤ (s.tas q).prio →
        s'.procElu ≠ s.procElu := by
  obtain ⟨helems, helu, hchamps⟩ := hst.coherent.liberation_reste hl
  have hlien : s.lien s.procElu = none := h.coherent.lien_procElu he
  have hnot : s.procElu ∉ s.elems .procActivables := LinkedQueues.notMem_of_link_none hlien
  have helems₃ : s₃.elems .procActivables = s.elems .procActivables := helems _ (by decide)
  have hprio : ∀ x, (s₃.tas x).prio = (s.tas x).prio := by
    intro x
    refine (hchamps x).1.trans ?_
    exact Core.prio_maj (f := fun r => { r with contexte := k }) (fun _ => rfl) x
  have htas : (s.empile k).tas s.procElu = { s.tas s.procElu with contexte := k } := by
    rw [Core.empile, Core.tas_maj, if_pos rfl]
  have hctx : (s₃.tas s.procElu).contexte = k := by
    rw [(hchamps _).2.1, htas]
  have het : (s₃.tas s.procElu).etat = .elu := by
    rw [(hchamps _).2.2 (by rw [htas, he.etat]; decide), htas]
    exact he.etat
  cases hel with
  | aucune hvide => exact absurd (helems₃ ▸ hvide) hact
  | @elit q hv hq =>
    have helu₃ : s₃.procElu = s.procElu := helu
    have hl₃ : s₃.lien s₃.procElu = none := by
      have hpl := (hst.coherent.liberation hl).place _ hv
      unfold Core.Place at hpl
      rw [helu₃, het] at hpl
      rw [helu₃]
      exact hpl.2
    -- the caller is put back among the activable processes, by its priority
    have hdep : s₃.depose = s₃.active s₃.procElu := by
      unfold Core.depose
      rw [helu₃, het]
    have hdepose : s₃.depose.elems .procActivables =
        insertByKey (fun x => (s.tas x).prio) s.procElu (s.elems .procActivables) := by
      have hkey : (fun x => ((s₃.maj s₃.procElu fun r => { r with etat := .activable }).tas x).prio) =
          fun x => (s.tas x).prio := funext fun x =>
        (Core.prio_maj (f := fun r => { r with etat := .activable }) (fun _ => rfl) x).trans (hprio x)
      rw [hdep, ← helems₃, ← helu₃, ← hkey]
      exact (LinkedQueues.elems_add hl₃).trans (if_pos rfl)
    have htop : (insertByKey (fun x => (s.tas x).prio) s.procElu
        (s.elems .procActivables)).getLast? = some q := by
      rw [← hdepose]
      exact hq
    have hctx' : ((s₃.depose.elit q).tas s.procElu).contexte = k := by
      rw [Core.elit, hdep]
      refine (Core.champ_maj (s := (s₃.active _).retire q) (f := fun r => { r with etat := .elu })
        (fun _ => rfl) _).trans ?_
      exact (Core.champ_maj (s := s₃) (f := fun r => { r with etat := .activable })
        (fun _ => rfl) _).trans hctx
    have helit : (s₃.depose.elit q).elems .procActivables =
        (s₃.depose.elems .procActivables).erase q := rfl
    have hv' : (s₃.depose.elit q).vivant s.procElu = true := by
      rw [← helu₃, hdep]
      exact hv
    refine ⟨hv', hctx', ?_, ?_⟩
    · intro hlt
      rw [insertByKey_of_lt hlt, List.getLast?_concat] at htop
      obtain rfl := Option.some.inj htop
      refine ⟨rfl, ?_⟩
      rw [helit, hdepose, insertByKey_of_lt hlt, List.erase_append_right _ hnot]
      simp
    · intro x hx hle hxe
      rw [getLast?_insertByKey hx hle] at htop
      have hqe : q = s.procElu := hxe
      exact hnot (hqe ▸ List.mem_of_getLast? htop)

/-- After the call: its value, and when the caller keeps the processor. -/
theorem ChprioSoi.cede {c c' : Config} {r : Registres} (h : ChprioSoi c r) (hv : c.Valide)
    (hpas : pas c (.int49 r) = .ok c') :
    c'.mode = .noyau ∧ c'.s.vivant c.s.procElu = true ∧
      (c'.s.tas c.s.procElu).contexte = .retour (c.s.tas c.s.procElu).prio ∧
      ((∀ q ∈ c.s.elems .procActivables, (c.s.tas q).prio < r.ecx.toInt) →
        c'.s.procElu = c.s.procElu ∧ c'.s.elems .procActivables = c.s.elems .procActivables) ∧
      ∀ q ∈ c.s.elems .procActivables, r.ecx.toInt ≤ (c.s.tas q).prio →
        c'.s.procElu ≠ c.s.procElu := by
  have hposs := h.possible
  simp only [GenesisOS.possible, decide_eq_true_eq] at hposs
  have henc := hv.utilisateur hposs.1
  have hst := hv.stable
  have h0 : 0 < r.ecx.toInt := by
    have := h.positif
    omega
  obtain ⟨x, s', hseg, -⟩ := of_pas hpas
  have hx := hseg
  rw [segment, if_pos hposs, traitantIT49Switch, h.service] at hx
  obtain ⟨rfl, hs'⟩ := (wp_ok (wp_chprio (C := {}) hst henc hposs.2 _ _ fun _ _ ha => ha) hx).soi
    hst.coherent henc hposs.2 h.pid h0 h.max
  obtain ⟨hmode, s₃, hl, -, hel⟩ := of_pas_ordonnanceur hv h.possible hseg hpas
  have hst₂ := (hv.entree.1.segment_sortie (hv.segment h.possible hseg)).1
  have q : Quiet { fort := true, prio := some (c.s.procElu, r.ecx.toInt) } c.s.toCore s'.toCore := by
    rw [hs']
    exact .chprioElu h0 hposs.2
  have helems : s'.elems .procActivables = c.s.elems .procActivables := by rw [hs']; rfl
  have helu : s'.procElu = c.s.procElu := by rw [hs']; rfl
  have hne : ∀ {q}, q ∈ c.s.elems .procActivables → (s'.tas q).prio = (c.s.tas q).prio := by
    intro q hq
    rw [hs', Core.tas_maj, if_neg]
    exact hst.coherent.ne_procElu henc (LinkedQueues.link_of_mem hq)
  have hn : (s'.tas c.s.procElu).prio = r.ecx.toInt := by rw [hs', Core.tas_maj, if_pos rfl]
  obtain ⟨hvp, hctx, hgarde, hperd⟩ := (hst.quiet henc q).cede (hst.enCours_quiet henc q)
    (helems ▸ activables_non_vide hst hposs.2) hst₂ hl hel
  rw [helems, helu] at hgarde hperd
  rw [helu] at hvp hctx
  refine ⟨hmode, hvp, hctx, fun hlt => hgarde fun q hq => ?_, fun q hq hle => hperd q hq ?_⟩
  · rw [hne hq, hn]
    exact hlt q hq
  · rw [hne hq, hn]
    exact hle

/-- The call changes the priority of the caller and asks for an election. -/
theorem ChprioSoi.demande {c : Config} {r : Registres} (h : ChprioSoi c r) (hv : c.Valide) :
    segment c (.int49 r) c.s = .ok (.ordonnanceur (.retour (c.s.tas c.s.procElu).prio),
      { c.s with
        toCore := c.s.toCore.maj c.s.procElu fun p => { p with prio := r.ecx.toInt } }) := by
  have hposs := h.possible
  simp only [GenesisOS.possible, decide_eq_true_eq] at hposs
  have henc := hv.utilisateur hposs.1
  obtain ⟨top, htop⟩ := queueTopPrio_isSome (activables_non_vide hv.stable hposs.2)
  have hlt : r.ecx.toInt < top := h.max.trans_lt (queueTopPrio_noyau htop)
  have hnp : ¬ (r.ecx.toInt ≤ 0 ∨ r.ecx.toInt > PRIO_MAX) := by
    have := h.positif
    have := h.max
    omega
  have hpid : ¬ (r.ebx.toInt ≤ 0 ∨ r.ebx.toInt ≥ MAX_PROCESS) := by
    obtain ⟨-, hp⟩ := hv.stable.coherent.table _ _ h.pid
    obtain ⟨h0, hN⟩ := hv.stable.coherent.pid _ henc.vivant
    have hne : (c.s.tas c.s.procElu).pid ≠ 0 := fun hz => hposs.2
      (hv.stable.coherent.pid_injective henc.vivant hv.stable.coherent.idle.1
        (hz.trans hv.stable.coherent.idle.2.1.symm))
    omega
  refine wp_run.mp ?_
  rw [segment, if_pos hposs, traitantIT49Switch, h.service]
  simp only [chprio, if_neg hpid, if_neg hnp, wp_bind, wp_get, h.pid]
  refine wp_lire henc.vivant ?_
  rw [if_neg (by rw [henc.etat]; decide)]
  simp only [ecrire, surCore, wp_bind, wp_get, henc.vivant, if_true, wp_modify, htop, hlt, wp_pure,
    and_self]

/-- The call completes exactly when `ordonnanceur` can free the dead and finds the
canary of the caller intact. -/
theorem ChprioSoi.complete {c : Config} {r : Registres} (h : ChprioSoi c r) (hc : Accessible c) :
    (∃ c', pas c (.int49 r) = .ok c') ↔
      c.s.CanariIntact c.s.procElu ∧ ∀ f, ¬ c.s.Entrave f := by
  have hv := hc.valide
  have hposs := h.possible
  simp only [GenesisOS.possible, decide_eq_true_eq] at hposs
  have henc := hv.utilisateur hposs.1
  have hact := activables_non_vide hv.stable hposs.2
  obtain ⟨perdus, hperte⟩ := hc.perte
  obtain ⟨f, hf, hseg⟩ : ∃ f : Processus → Processus, (f = fun p => { p with prio := r.ecx.toInt }) ∧
      segment c (.int49 r) c.s = .ok (.ordonnanceur (.retour (c.s.tas c.s.procElu).prio),
        { c.s with toCore := c.s.toCore.maj c.s.procElu f }) := ⟨_, rfl, h.demande hv⟩
  have hst := (hv.entree.1.segment_sortie (hv.segment h.possible hseg)).1
  have hb : Bilan ({ c.s with toCore := c.s.toCore.maj c.s.procElu f } : Kernel).avoirs perdus := by
    rw [avoirs_maj fun _ => by rw [hf]; rfl]
    exact hperte.bilan
  have helu : (c.s.toCore.maj c.s.procElu f).Elu :=
    ⟨henc.vivant, (Core.champ_maj (g := Processus.etat) (fun _ => by rw [hf]) _).trans henc.etat⟩
  -- neither what is to be freed nor the canary depends on the priority
  have hE : ∀ x, ({ c.s with toCore := c.s.toCore.maj c.s.procElu f } : Kernel).Entrave x ↔
      c.s.Entrave x := fun x =>
    Kernel.entrave_maj (fun _ => by rw [hf]) (fun _ => by rw [hf]) fun _ => by rw [hf]; rfl
  have hcan : ({ c.s with toCore := c.s.toCore.maj c.s.procElu f } : Kernel).CanariIntact
      c.s.procElu ↔ c.s.CanariIntact c.s.procElu := Kernel.canariIntact_maj fun _ => by rw [hf]; rfl
  rw [pas_eq_ordonnanceur hseg, and_comm]
  refine Iff.trans ?_ ((ordonnanceur_ok hst hb helu hposs.2 hact).trans
    (and_congr (forall_congr' fun x => not_congr (hE x)) hcan))
  cases ordonnanceur (.retour (c.s.tas c.s.procElu).prio)
      { c.s with toCore := c.s.toCore.maj c.s.procElu f } with
  | error f => constructor <;> rintro ⟨_, hx⟩ <;> cases hx
  | ok a => exact ⟨fun _ => ⟨a.2, rfl⟩, fun _ => ⟨_, rfl⟩⟩

/-- An activable process has a priority greater than `n`. -/
def Core.Depasse (s : Core) (n : Int) : Prop :=
  ∃ q, s.vivant q = true ∧ (s.tas q).etat = .activable ∧ n < (s.tas q).prio

/-- The processor goes from the caller to another process only if an activable
process has a priority greater than `n`; otherwise the caller keeps it, and the
list of activable processes is unchanged. -/
def SansCession (n : Int) (s s' : Core) : Prop :=
  (s'.procElu ≠ s.procElu → s.Depasse n) ∧
    (¬ s.Depasse n → s'.procElu = s.procElu ∧
      s'.elems .procActivables = s.elems .procActivables)

/-- After the call, the processor has been given up for nothing exactly when an
activable process has the new priority and none has a greater one. -/
theorem ChprioSoi.sansCession_iff {c c' : Config} {r : Registres} (h : ChprioSoi c r)
    (hv : c.Valide) (hpas : pas c (.int49 r) = .ok c') :
    SansCession r.ecx.toInt c.s.toCore c'.s.toCore ↔
      (c.s.toCore.Depasse r.ecx.toInt ∨
        ∀ q, c.s.vivant q = true → (c.s.tas q).etat = .activable →
          (c.s.tas q).prio ≠ r.ecx.toInt) := by
  have hco := hv.stable.coherent
  obtain ⟨-, -, -, hgarde, hperd⟩ := h.cede hv hpas
  have hmem : ∀ q, q ∈ c.s.elems .procActivables ↔
      c.s.vivant q = true ∧ (c.s.tas q).etat = .activable := by
    intro q
    rw [c.s.chainage.mem_iff]
    constructor
    · exact fun hq => ⟨hco.lie q _ hq, hco.etat_of_lien hq⟩
    · rintro ⟨hq, he⟩
      have hpl := hco.place q hq
      unfold Core.Place at hpl
      rwa [he] at hpl
  constructor
  · rintro ⟨hdep, hreste⟩
    by_cases hD : c.s.toCore.Depasse r.ecx.toInt
    · exact .inl hD
    · refine .inr fun q hq he heq => ?_
      exact hperd q ((hmem q).mpr ⟨hq, he⟩) heq.ge (hreste hD).1
  · rintro (hD | hne)
    · exact ⟨fun _ => hD, fun hx => absurd hD hx⟩
    · by_cases hD : c.s.toCore.Depasse r.ecx.toInt
      · exact ⟨fun _ => hD, fun hx => absurd hD hx⟩
      · have hlt : ∀ q ∈ c.s.elems .procActivables, (c.s.tas q).prio < r.ecx.toInt := by
          intro q hq
          obtain ⟨hvq, he⟩ := (hmem q).mp hq
          refine lt_of_le_of_ne (not_lt.mp fun hx => hD ⟨q, hvq, he, hx⟩) (hne q hvq he)
        exact ⟨fun hx => absurd (hgarde hlt).1 hx, fun _ => hgarde hlt⟩

/-- A `chprio` of the caller itself completes, returns the previous priority and
gives up the processor only for a process of greater priority, exactly when the
election it always asks for does no harm: the canary of the caller is intact,
nothing stops `free_mourant_queue`, and no activable process has the new priority
unless one has a greater one. The previous priority is returned whenever the call
completes. -/
theorem chprio_sans_cession {c : Config} {r : Registres} (hc : Accessible c) (h : ChprioSoi c r) :
    (∀ c', pas c (.int49 r) = .ok c' → ∀ l c'', execute c' l = some c'' →
      Rend c.s.procElu (c.s.tas c.s.procElu).prio c' c'') ∧
    ((∃ c', pas c (.int49 r) = .ok c' ∧
        (∀ l c'', execute c' l = some c'' →
          Rend c.s.procElu (c.s.tas c.s.procElu).prio c' c'') ∧
        SansCession r.ecx.toInt c.s.toCore c'.s.toCore) ↔
      (c.s.CanariIntact c.s.procElu ∧ ∀ f, ¬ c.s.Entrave f) ∧
        (c.s.toCore.Depasse r.ecx.toInt ∨
          ∀ q, c.s.vivant q = true → (c.s.tas q).etat = .activable →
            (c.s.tas q).prio ≠ r.ecx.toInt)) := by
  have hv := hc.valide
  have hrend : ∀ c', pas c (.int49 r) = .ok c' → ∀ l c'', execute c' l = some c'' →
      Rend c.s.procElu (c.s.tas c.s.procElu).prio c' c'' := by
    intro c' hpas l c'' hl
    obtain ⟨hmode, hvp, hctx, -, -⟩ := h.cede hv hpas
    have hacc : Accessible c' := .pas hc h.possible trivial hpas
    exact hacc.rend_differe hvp hctx (fun _ => hmode) hl
  refine ⟨hrend, ?_, ?_⟩
  · rintro ⟨c', hpas, -, hsans⟩
    exact ⟨(h.complete hc).mp ⟨c', hpas⟩, (h.sansCession_iff hv hpas).mp hsans⟩
  · rintro ⟨hok, hD⟩
    obtain ⟨c', hpas⟩ := (h.complete hc).mpr hok
    exact ⟨c', hpas, hrend c' hpas, (h.sansCession_iff hv hpas).mpr hD⟩

/-- The user process has started a child of its own priority. -/
def filsEgal : List Signal := [.suite, appel 2 0x1000000 0 1 0]

/-- The call `chprio(1, n)`. -/
def chprioUn (n : BitVec 32) : Registres := ⟨7, 1, n, 0, 0, 0⟩

theorem ChprioSoi.un {c : Config} {n : BitVec 32} (hp : GenesisOS.possible c (.int49 (chprioUn n)) = true)
    (hpid : c.s.tableDesProcs 1 = some c.s.procElu) (h1 : 1 ≤ n.toInt) (hM : n.toInt ≤ PRIO_MAX) :
    ChprioSoi c (chprioUn n) := ⟨hp, rfl, hpid, h1, hM⟩

/-- Setting its priority to the value it has, the user process loses the
processor to its child of equal priority. -/
theorem chprio_sans_cession_faux : ∃ c c' r, Accessible c ∧ ChprioSoi c r ∧
    pas c (.int49 r) = .ok c' ∧ ¬ SansCession r.ecx.toInt c.s.toCore c'.s.toCore := by
  obtain ⟨c, hc, h⟩ := Accessible.scenario (l := filsEgal)
    (Q := fun c => decide (c.s.tableDesProcs 1 = some c.s.procElu) &&
      decide (∀ q ∈ c.s.elems .procActivables, (c.s.tas q).prio ≤ 1) &&
      (execute c [.int49 (chprioUn 1)]).any fun c' => decide (c'.s.procElu ≠ c.s.procElu))
    (by decide +kernel)
  simp only [Bool.and_eq_true, decide_eq_true_eq] at h
  obtain ⟨⟨hpid, hprio⟩, hl⟩ := h
  obtain ⟨c', hl, hne⟩ := (Option.any_eq_true _ _).mp hl
  rw [decide_eq_true_eq] at hne
  obtain ⟨hp, hpas⟩ := of_execute_un hl
  refine ⟨c, c', chprioUn 1, hc, .un hp hpid (by decide) (by decide), hpas, ?_⟩
  rintro ⟨hdep, -⟩
  obtain ⟨q, hv, he, hlt⟩ := hdep hne
  have hpl := hc.valide.stable.coherent.place q hv
  unfold Core.Place at hpl
  rw [he] at hpl
  exact absurd (hprio q ((c.s.chainage.mem_iff _ _).mpr hpl)) (not_le.mpr hlt)

/-- With a greater priority, it keeps the processor. -/
theorem chprio_sans_cession_exemple : ∃ c c', Accessible c ∧ ChprioSoi c (chprioUn 2) ∧
    pas c (.int49 (chprioUn 2)) = .ok c' ∧ SansCession 2 c.s.toCore c'.s.toCore := by
  obtain ⟨c, hc, h⟩ := Accessible.scenario (l := filsEgal)
    (Q := fun c => decide (c.s.tableDesProcs 1 = some c.s.procElu) &&
      decide (∀ q ∈ c.s.elems .procActivables, (c.s.tas q).prio ≤ 1) &&
      decide (c.s.elems .procMourants = []) && possible c (.int49 (chprioUn 2)) &&
      decide (c.s.CanariIntact c.s.procElu))
    (by decide +kernel)
  simp only [Bool.and_eq_true, decide_eq_true_eq] at h
  obtain ⟨⟨⟨⟨hpid, hprio⟩, hvide⟩, hp⟩, hcan⟩ := h
  have hsoi : ChprioSoi c (chprioUn 2) := .un hp hpid (by decide) (by decide)
  have hne : ∀ q, c.s.vivant q = true → (c.s.tas q).etat = .activable → (c.s.tas q).prio ≠ 2 := by
    intro q hv he heq
    have hpl := hc.valide.stable.coherent.place q hv
    unfold Core.Place at hpl
    rw [he] at hpl
    have hle := hprio q ((c.s.chainage.mem_iff _ _).mpr hpl)
    rw [heq] at hle
    exact absurd hle (by decide)
  obtain ⟨c', hpas, -, hsans⟩ := (chprio_sans_cession hc hsoi).2.mpr
    ⟨⟨hcan, fun f hf => hf.mourants hvide⟩, .inr hne⟩
  exact ⟨c, c', hc, hsoi, hpas, hsans⟩

end GenesisOS
