import GenesisOS.Refinement.Calls
import GenesisOS.Invariants.Filiation

/-!
# GenesisOS — return points over a step

Where the return points of a configuration come from: that of the process that
was elected is the one its kernel code ended with, a new process has none yet,
and the others keep theirs (`pas_vient`). A process that is not the
elected one dies in a step only if the step is a `kill` of it (`pas_survie`).
-/

namespace GenesisOS

open Lib

/-- The process keeps its return point, and does not start to wait for a character. -/
def Suit (p : Ptr) (s s' : Core) : Prop :=
  (s'.tas p).contexte = (s.tas p).contexte ∧
    ((s'.tas p).etat = .attendEs → (s.tas p).etat = .attendEs)

/-- Where a process other than the elected one comes from. -/
def Vient (p : Ptr) (s s' : Core) : Prop :=
  (s.vivant p = true ∧ Suit p s s') ∨ (s.vivant p = false ∧ (s'.tas p).contexte = .debut)

section

variable {p : Ptr} {s s' s'' : Core}

-- ---------------------------------------------------------------------------
-- Return points
-- ---------------------------------------------------------------------------

theorem Etat.Devient.es {e : Etat} (h : Devient e .attendEs) : e = .attendEs := by
  cases h with
  | reste => rfl
  | meurt _ hm => cases hm

theorem Evolue.suit (h : Evolue p s s') (hv : s'.vivant p = true) : Suit p s s' := by
  cases h with
  | reste h =>
    refine ⟨h.contexte, fun hes => ?_⟩
    have het := h.etat
    rw [hes] at het
    exact het.es
  | libere _ hv' _ =>
    rw [hv] at hv'
    cases hv'
  | relache _ _ he hc =>
    refine ⟨hc, fun hes => ?_⟩
    rw [hes] at he
    cases he.es

theorem Reste.suit (h : Reste p s s') : Suit p s s' := by
  refine ⟨h.contexte, fun hes => ?_⟩
  rcases h.etat with he | ⟨-, he | he⟩
  · rwa [← he]
  · rw [hes] at he
    cases he
  · rw [hes] at he
    cases he

theorem Vient.refl (hv : s.vivant p = true) : Vient p s s := .inl ⟨hv, rfl, id⟩

theorem Vient.suit (h : Vient p s s') (h' : Suit p s' s'') : Vient p s s'' := by
  rcases h with ⟨hv, hc, hes⟩ | ⟨hv, hc⟩
  · exact .inl ⟨hv, h'.1.trans hc, fun hx => hes (h'.2 hx)⟩
  · exact .inr ⟨hv, h'.1.trans hc⟩

theorem Quiet.vient {l : Etiquette} (h : Stable s) (he : s.EnCours) (q : Quiet l s s')
    (hp : p ≠ s.procElu) (hv' : s'.vivant p = true) : Vient p s s' := by
  cases hv : s.vivant p with
  | true => exact .inl ⟨hv, (q.evolue h he hv hp).suit hv'⟩
  | false => exact .inr ⟨hv, q.nouveau h he hv hv'⟩

theorem Stable.vieillit_calme {L : Etiquette → Prop} (h : Stable s) (hq : Calme L s s') :
    Vieillit s s' := by
  induction hq with
  | refl => exact .refl
  | tail hrest hlast ih =>
    obtain ⟨-, l, -, q⟩ := hlast
    exact ih.trans (q.vieillit (h.calme hrest))

theorem Stable.vient_calme {L : Etiquette → Prop} (h : Stable s) (hq : Calme L s s')
    (hp : p ≠ s.procElu) (hv' : s'.vivant p = true) : Vient p s s' := by
  induction hq with
  | refl => exact .refl hv'
  | tail hrest hlast ih =>
    obtain ⟨he, l, -, q⟩ := hlast
    have h₁ := h.calme hrest
    have hp₁ := hp
    rw [← (h.elu_calme hrest).1] at hp₁
    rcases q.vient h₁ he hp₁ hv' with ⟨hv, hs⟩ | ⟨hv, hc⟩
    · exact (ih hv).suit hs
    · refine .inr ⟨?_, hc⟩
      cases hx : s.vivant p with
      | false => rfl
      | true =>
        -- a freed address is not used again
        have hlt := (h.coherent.ancien p hx).trans_le (h.vieillit_calme hrest).prochain
        rw [(q.vieillit h₁).vivant p hlt hv] at hv'
        cases hv'

theorem Survit.suit (h : Survit p s s') (hv : s'.vivant p = true) : Suit p s s' := h.evolue.suit hv

theorem Sortie.suit {m : Motif} {k : Reprise} (h : Stable s) (he : s.EnCours) (q : Sortie m k s s')
    (hv : s.vivant p = true) (hp : p ≠ s.procElu) : Suit p s (s'.empile k) :=
  (Evolue.reste (q.inchange h he hv hp)).suit (q.inchange h he hv hp).vivant

/-- The end of a step, from the return point of the process that leaves the
processor. -/
theorem Stable.suit_fin (h : Stable s) (hl : Relation.ReflTransGen Liberation s s')
    (hvide : s'.elems .procMourants = []) (hna : (s'.tas s'.procElu).etat ≠ .activable)
    (hel : Election s' s'') (hv : s''.vivant p = true) : s.vivant p = true ∧ Suit p s s'' := by
  have hc := h.coherent.liberation hl
  have r : Reste p s' s'' := hel.reste ⟨hc, hc.orphelins_of_vide hvide⟩ hvide hna
  have hv₁ : s'.vivant p = true := r.vivant ▸ hv
  have hv₀ := (MemeRegistre.liberation h.coherent hl).vivant p hv₁
  have hs := (h.coherent.survit hv₀ hl).suit hv₁
  exact ⟨hv₀, r.suit.1.trans hs.1, fun hx => hs.2 (r.suit.2 hx)⟩

end

-- ---------------------------------------------------------------------------
-- Steps
-- ---------------------------------------------------------------------------

section

variable {c c' : Config} {e : Signal}

theorem Config.vivant_entree (c : Config) : c.entree.vivant = c.s.vivant := by
  unfold Config.entree
  split <;> rfl

theorem Config.procElu_entree (c : Config) : c.entree.procElu = c.s.procElu := by
  unfold Config.entree
  split <;> rfl

theorem Config.journal_entree (c : Config) : c.entree.journal = c.s.journal := by
  unfold Config.entree
  split <;> rfl

theorem Config.tas_entree {p : Ptr} (c : Config) (hp : p ≠ c.s.procElu) :
    c.entree.tas p = c.s.tas p := by
  unfold Config.entree
  split
  · rfl
  · rw [Core.empile, Core.tas_maj, if_neg hp]

/-- A return point that the step may leave to the process that was elected. -/
def PointElu (c : Config) (e : Signal) (r : Reprise) : Prop :=
  r = .iret ∨ r = .debut ∨ ∃ s', segment c e c.s = .ok (.ordonnanceur r, s')

/-- The return points after a step. -/
theorem pas_vient {p : Ptr} (h : c.Valide) (hp : possible c e = true)
    (hpas : pas c e = .ok c') (hv : c'.s.vivant p = true) :
    (p ≠ c.s.procElu ∧ Vient p c.s.toCore c'.s.toCore) ∨
      (p = c.s.procElu ∧ PointElu c e (c'.s.tas p).contexte) := by
  obtain ⟨x, s', hseg, ht⟩ := of_pas hpas
  have hR := h.segment hp hseg
  obtain ⟨hst, he⟩ := h.entree
  have entree : p ≠ c.s.procElu → Vient p c.entree c'.s.toCore → Vient p c.s.toCore c'.s.toCore := by
    intro hpe hx
    rw [Vient, Suit, c.vivant_entree, c.tas_entree hpe] at hx
    exact hx
  -- without an election, the elected process has no return point
  have calme : ∀ {L : Etiquette → Prop}, Calme L c.entree s'.toCore → s'.toCore.EnCours →
      c'.s.tas = s'.tas → c'.s.vivant = s'.vivant → (p ≠ c.s.procElu ∧ Vient p c.s.toCore c'.s.toCore) ∨
        (p = c.s.procElu ∧ PointElu c e (c'.s.tas p).contexte) := by
    intro L hq he' htas hviv
    have helu := (hst.elu_calme hq).1
    rw [c.procElu_entree] at helu
    by_cases hpe : p = c.s.procElu
    · refine .inr ⟨hpe, ?_⟩
      have hx := he'.contexte
      rw [helu, ← hpe, ← htas] at hx
      rcases hx with hx | hx
      · exact .inl hx
      · exact .inr (.inl hx)
    · refine .inl ⟨hpe, entree hpe ?_⟩
      have hvi := hst.vient_calme hq (by rwa [c.procElu_entree]) (by rw [← hviv]; exact hv)
      rw [Vient, Suit] at hvi ⊢
      rw [htas]
      exact hvi
  cases x with
  | retour v =>
    obtain ⟨-, hs'⟩ := of_termine_retour ht
    cases hR with
    | retour hq he' => exact calme hq he' (by rw [hs']; rfl) (by rw [hs']; rfl)
  | iret =>
    have hs' : c'.s = s' := by
      obtain ⟨t, mode⟩ := c'
      cases ht
      rfl
    cases hR with
    | iret hq he' => exact calme hq he' (by rw [hs']) (by rw [hs'])
  | ordonnanceur k =>
    obtain ⟨-, s₃, hl, hvide, hel⟩ := of_pas_ordonnanceur h hp hseg hpas
    obtain ⟨h₂, hsorti⟩ := hst.segment_sortie hR
    obtain ⟨-, -, hna⟩ := Stable.sorti_liberation h₂.coherent hsorti hl
    obtain ⟨hv₂, hfin⟩ := h₂.suit_fin hl hvide hna hel hv
    have helu : s'.procElu = c.s.procElu := hsorti.elu.trans c.procElu_entree
    by_cases hpe : p = c.s.procElu
    · refine .inr ⟨hpe, .inr (.inr ⟨s', ?_⟩)⟩
      rw [hfin.1, Core.empile, Core.tas_maj, if_pos (hpe.trans helu.symm)]
      exact hseg
    · refine .inl ⟨hpe, entree hpe ?_⟩
      cases hR with
      | @ordonnanceur m k s s₁ s' hq he₁ hso hm hx =>
        have h₁ := hst.calme hq
        have hp₁ : p ≠ s₁.procElu := by
          rw [(hst.elu_calme hq).1, c.procElu_entree]
          exact hpe
        have hv₁ : s₁.vivant p = true := by
          rw [← hso.vivant]
          exact hv₂
        have hvi := hst.vient_calme hq (by rwa [c.procElu_entree]) hv₁
        exact (hvi.suit (hso.suit h₁ he₁ hv₁ hp₁)).suit hfin

end

end GenesisOS
