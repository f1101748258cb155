import GenesisOS.Abstract.Lives

/-!
# GenesisOS — the dead stay dead

A process in a final state, or freed, is so after every transition: no
transition wakes a process that has left the waiting lists, and an address is
never allocated twice.
-/

namespace GenesisOS

open Lib

/-- Dead states that a process does not leave. -/
structure Etat.Final (E : Etat → Prop) : Prop where
  mort : ∀ e, E e → e.mort = true
  condamne : E .zombie → E .mourant

/-- The process that was at `p` is freed or in one of the states `E`. -/
def Core.Fini (E : Etat → Prop) (p : Ptr) (s : Core) : Prop :=
  p < s.prochain ∧ (s.vivant p = true → E (s.tas p).etat)

variable {E : Etat → Prop} {p : Ptr} {s s' : Core}

theorem Etat.Final.devient (hE : Etat.Final E) {e e' : Etat} (he : E e) (h : Etat.Devient e e') :
    E e' := by
  cases h with
  | reste => exact he
  | reveil hb =>
    have hm := hE.mort e he
    cases e <;> simp_all [Etat.dort, Etat.mort]
  | meurt hm hm' =>
    rw [hE.mort e he] at hm
    cases hm
  | condamne => exact hE.condamne he

theorem Etat.final_mort : Etat.Final fun e => e.mort = true := ⟨fun _ h => h, fun _ => rfl⟩

theorem Etat.final_mourant : Etat.Final fun e => e = .mourant := by
  refine ⟨?_, fun _ => rfl⟩
  rintro _ rfl
  rfl

theorem Etat.final_libere : Etat.Final fun _ => False := ⟨fun _ => False.elim, id⟩

namespace Core.Fini

/-- A live process in a final state was one before. -/
theorem avant (h : s.Fini E p) (hv : Vieillit s s') (hp : s'.vivant p = true) :
    s.vivant p = true ∧ E (s.tas p).etat := by
  cases hx : s.vivant p with
  | true => exact ⟨rfl, h.2 hx⟩
  | false =>
    rw [hv.vivant p h.1 hx] at hp
    cases hp

theorem ne_procElu (hE : Etat.Final E) (he : s.EnCours) (h : E (s.tas p).etat) : p ≠ s.procElu := by
  rintro rfl
  rw [he.etat] at h
  have hm := hE.mort _ h
  cases hm

theorem conserve (hE : Etat.Final E) (C : Cadre) : Conserve C (Core.Fini E p) where
  quiet := by
    intro l s s' h he hi _ q
    have hvi := q.vieillit h
    refine ⟨hi.1.trans_le hvi.prochain, fun hp => ?_⟩
    obtain ⟨hv, het⟩ := hi.avant hvi hp
    cases q.evolue h he hv (ne_procElu hE he het) with
    | reste h' => exact hE.devient het h'.etat
    | libere _ hv' _ =>
      rw [hv'] at hp
      cases hp
    | relache hr =>
      -- who waits on a file or on a semaphore is not dead
      have hm := hE.mort _ het
      cases hr with
      | livre hl => rw [h.coherent.etat_of_lien hl] at hm; cases hm
      | accepte hl => rw [h.coherent.etat_of_lien hl] at hm; cases hm
      | echec hl => rw [h.coherent.etat_of_lien hl] at hm; cases hm
      | accorde hl => rw [h.coherent.etat_of_lien hl] at hm; cases hm
      | rejet hl => rw [h.coherent.etat_of_lien hl] at hm; cases hm
  sortie := by
    intro m k s s' h he hi _ q
    have hvi := q.vieillit
    refine ⟨hi.1.trans_le hvi.prochain, fun hp => ?_⟩
    obtain ⟨hv, het⟩ := hi.avant hvi hp
    exact hE.devient het (q.inchange h he hv (ne_procElu hE he het)).etat
  libere := by
    intro s s' h hi hl
    have hvi := Vieillit.liberation_pas h hl
    refine ⟨hi.1.trans_le hvi.prochain, fun hp => ?_⟩
    obtain ⟨hv, het⟩ := hi.avant hvi hp
    rcases h.survit_pas hv hl with ⟨h', -⟩ | ⟨-, hv', -⟩
    · exact hE.devient het h'.etat
    · rw [hv'] at hp
      cases hp
  election := by
    intro s s' h hvide hna hi hel
    have hvi := hel.vieillit h hvide hna
    refine ⟨hi.1.trans_le hvi.prochain, fun hp => ?_⟩
    obtain ⟨hv, het⟩ := hi.avant hvi hp
    rcases (hel.reste (p := p) h hvide hna).etat with hx | ⟨hx, -⟩
    · rwa [hx]
    · have hm := hE.mort _ het
      rcases hx with hx | hx <;> rw [hx] at hm <;> cases hm
  retour := fun _ _ _ hi => hi

theorem depile (h : s.Fini E p) : (s.empile .iret).Fini E p := by
  refine ⟨h.1, fun hv => ?_⟩
  have hx := h.2 hv
  rw [Core.empile, Core.tas_maj]
  split
  · next hp => rwa [hp] at hx
  · exact hx

end Core.Fini

/-- No address is allocated twice. -/
theorem Conserve.vieillit (C : Cadre) (s₀ : Core) : Conserve C (Vieillit s₀) where
  quiet hst _ h _ q := h.trans (q.vieillit hst)
  sortie _ _ h _ q := h.trans q.vieillit
  libere hc h hl := h.trans (Vieillit.liberation_pas hc hl)
  election hst hvide hna h hel := h.trans (hel.vieillit hst hvide hna)
  retour _ _ _ h := h.trans (.de le_rfl rfl)

end GenesisOS
