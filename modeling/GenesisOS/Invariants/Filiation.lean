import GenesisOS.Abstract.Lives

/-!
# GenesisOS — the register of births and deaths

What the journal tells of a live process (`Registre`): `start` created it for
its father, which is older; a dead one executed `exit` or was killed, once, and
holds the value it left; and its death was reported to at most one `waitpid`.

Most transitions record nothing of the kind and leave the living and the dead
as they are: they keep the register (`MemeRegistre`).
-/

namespace GenesisOS

open Lib

/-! ## Definitions -/

/-- The event belongs to the register: a birth, a death, or its report. -/
def Evenement.acte : Evenement → Bool
  | .cree .. | .exit .. | .tue _ | .recolte .. => true
  | _ => false

/-- The process born, dead or reported in an event of the register. -/
def Evenement.sujet : Evenement → Option Ptr
  | .cree _ p _ | .exit p _ | .tue p | .recolte _ p => some p
  | _ => none

/-- The process whose death is reported. -/
def Evenement.recolte? : Evenement → Option Ptr
  | .recolte _ p => some p
  | _ => none

namespace Core

/-- The events of the register. -/
def actes (s : Core) : List Evenement := s.journal.filter Evenement.acte

theorem mem_actes {s : Core} {e : Evenement} (he : e.acte = true) :
    e ∈ s.actes ↔ e ∈ s.journal := by
  unfold actes
  rw [List.mem_filter]
  exact and_iff_left he

end Core

/-- The process executed `exit(v)`, or was killed and left 0. -/
def Trepas (p : Ptr) (v : Int) (j : List Evenement) : Prop :=
  (.exit p v ∈ j ∧ .tue p ∉ j ∧ ∀ w, .exit p w ∈ j → w = v) ∨
    (.tue p ∈ j ∧ (∀ w, .exit p w ∉ j) ∧ v = 0)

/-- The process was created by `start`, for an older father, which it keeps
until it loses it. -/
def Core.Ne (s : Core) (p : Ptr) : Prop :=
  ∃ f, .cree f p (s.tas p).pid ∈ s.actes ∧ ((s.tas p).pere = none ∨ (s.tas p).pere = f) ∧
    ∀ g, f = some g → g < p

/-- The register agrees with the processes. -/
structure Core.Registre (s : Core) : Prop where
  naissance : ∀ p, s.vivant p = true → (p = s.procIdle ∧ (s.tas p).pere = none) ∨ s.Ne p
  vie : ∀ p, s.vivant p = true → (s.tas p).etat.mort = false →
    (s.tas p).retval = 0 ∧ .tue p ∉ s.actes ∧ ∀ v, .exit p v ∉ s.actes
  mort : ∀ p, s.vivant p = true → (s.tas p).etat.mort = true → Trepas p (s.tas p).retval s.actes
  recolte : ∀ f p, .recolte f p ∈ s.actes → s.vivant p = true → (s.tas p).etat = .mourant
  unique : (s.actes.filterMap Evenement.recolte?).Nodup
  ancien : ∀ e ∈ s.actes, ∀ p, e.sujet = some p → p < s.prochain

/-- Nothing happens that belongs to the register, but that processes are freed
or lose their father. -/
structure MemeRegistre (s s' : Core) : Prop where
  idle : s'.procIdle = s.procIdle
  prochain : s.prochain ≤ s'.prochain
  vivant : ∀ p, s'.vivant p = true → s.vivant p = true
  champs : ∀ p, s'.vivant p = true → (s'.tas p).pid = (s.tas p).pid ∧
    (s'.tas p).retval = (s.tas p).retval ∧
    ((s'.tas p).pere = none ∨ (s'.tas p).pere = (s.tas p).pere) ∧
    (s'.tas p).etat.mort = (s.tas p).etat.mort ∧
    ((s.tas p).etat = .mourant → (s'.tas p).etat = .mourant)
  actes : s'.actes = s.actes

-- ---------------------------------------------------------------------------
-- Transitions that keep the register
-- ---------------------------------------------------------------------------

namespace MemeRegistre

variable {s s' s'' : Core} {p : Ptr}

theorem refl : MemeRegistre s s :=
  ⟨rfl, le_rfl, fun _ h => h, fun _ _ => ⟨rfl, rfl, .inr rfl, rfl, id⟩, rfl⟩

theorem trans (m : MemeRegistre s s') (m' : MemeRegistre s' s'') : MemeRegistre s s'' where
  idle := m'.idle.trans m.idle
  prochain := m.prochain.trans m'.prochain
  vivant p h := m.vivant p (m'.vivant p h)
  champs p h := by
    obtain ⟨hpid', hre', hpe', hm', hmo'⟩ := m'.champs p h
    obtain ⟨hpid, hre, hpe, hm, hmo⟩ := m.champs p (m'.vivant p h)
    refine ⟨hpid'.trans hpid, hre'.trans hre, ?_, hm'.trans hm, fun hx => hmo' (hmo hx)⟩
    rcases hpe' with hx | hx
    · exact .inl hx
    · rw [hx]
      exact hpe
  actes := m'.actes.trans m.actes

/-- The processes are the same, or differ in other fields. -/
theorem de (hidle : s'.procIdle = s.procIdle) (hpro : s.prochain ≤ s'.prochain)
    (hv : s'.vivant = s.vivant)
    (ht : ∀ p, s.vivant p = true → (s'.tas p).pid = (s.tas p).pid ∧
      (s'.tas p).retval = (s.tas p).retval ∧ (s'.tas p).pere = (s.tas p).pere ∧
      (s'.tas p).etat.mort = (s.tas p).etat.mort ∧
      ((s.tas p).etat = .mourant → (s'.tas p).etat = .mourant))
    (ha : s'.actes = s.actes) : MemeRegistre s s' := by
  refine ⟨hidle, hpro, fun p h => by rwa [hv] at h, ?_, ha⟩
  intro p h
  rw [hv] at h
  obtain ⟨hpid, hre, hpe, hm, hmo⟩ := ht p h
  exact ⟨hpid, hre, .inr hpe, hm, hmo⟩

/-- No process changes. -/
theorem neutre (hidle : s'.procIdle = s.procIdle) (hpro : s.prochain ≤ s'.prochain)
    (hv : s'.vivant = s.vivant) (ht : s'.tas = s.tas) (ha : s'.actes = s.actes) :
    MemeRegistre s s' := de hidle hpro hv (fun p _ => by rw [ht]; exact ⟨rfl, rfl, rfl, rfl, id⟩) ha

theorem actes_note {e : Evenement} (he : e.acte = false) : (s.note e).actes = s.actes := by
  unfold Core.actes
  rw [Core.note_journal, List.filter_append, List.filter_singleton, he]
  exact List.append_nil _

theorem note {e : Evenement} (m : MemeRegistre s s') (he : e.acte = false) :
    MemeRegistre s (s'.note e) := m.trans (.neutre rfl le_rfl rfl rfl (actes_note he))

theorem ecrit (m : MemeRegistre s s') {adr : Nat} {w : BitVec 32} :
    MemeRegistre s (s'.ecrit adr w) := by
  by_cases ha : adr = 0
  · rwa [ha, Core.ecrit_zero]
  · rw [Core.ecrit_of_ne ha]
    exact m.note rfl

/-- One process changes, neither dying nor coming back from death. -/
theorem maj (m : MemeRegistre s s') {f : Processus → Processus}
    (hf : (f (s'.tas p)).pid = (s'.tas p).pid ∧ (f (s'.tas p)).retval = (s'.tas p).retval ∧
      (f (s'.tas p)).pere = (s'.tas p).pere ∧
      (f (s'.tas p)).etat.mort = (s'.tas p).etat.mort ∧
      ((s'.tas p).etat = .mourant → (f (s'.tas p)).etat = .mourant) := by
        exact ⟨rfl, rfl, rfl, rfl, id⟩) : MemeRegistre s (s'.maj p f) := by
  refine m.trans (.de rfl le_rfl rfl ?_ rfl)
  intro x _
  rw [Core.tas_maj]
  split
  · next hx =>
    subst hx
    exact hf
  · exact ⟨rfl, rfl, rfl, rfl, id⟩

/-- A process that is not dead becomes activable. -/
theorem eveille (m : MemeRegistre s s') {f : Processus → Processus}
    (hp : (s'.tas p).etat.mort = false)
    (hf : ∀ r, (f r).pid = r.pid ∧ (f r).retval = r.retval ∧ (f r).pere = r.pere := by
      exact fun _ => ⟨rfl, rfl, rfl⟩) : MemeRegistre s (s'.eveille p f) := by
  refine m.trans (.de rfl le_rfl rfl ?_ rfl)
  intro x _
  rw [Core.tas_eveille]
  split
  · next hx =>
    subst hx
    refine ⟨(hf _).1, (hf _).2.1, (hf _).2.2, hp.symm, ?_⟩
    intro hx
    rw [hx] at hp
    cases hp
  · exact ⟨rfl, rfl, rfl, rfl, id⟩

/-- A process in a waiting list is not dead. -/
theorem pas_mort (h : Coherent s) {t : Tete} (hp : s.lien p = some t) (ht : t ≠ .procMourants) :
    (s.tas p).etat.mort = false := by
  have he := h.etat_of_lien hp
  cases t <;> first | exact absurd rfl ht | (rw [he]; rfl)

theorem reveillePere (m : MemeRegistre s s') : MemeRegistre s (s'.reveillePere p) := by
  unfold Core.reveillePere
  split
  · next he =>
    refine (m.maj (p := p) (f := fun r => { r with etat := .activable }) ?_).trans
      (.neutre rfl le_rfl rfl rfl rfl)
    rw [he]
    exact ⟨rfl, rfl, rfl, rfl, nofun⟩
  · exact m

theorem rejets (h : Stable s) {sid status : Int} {sem : Semaphore}
    (hr : Relation.ReflTransGen (Rejet sid sem status) s s') : MemeRegistre s s' := by
  induction hr with
  | refl => exact refl
  | tail hrest hlast ih =>
    obtain ⟨q, hq, rfl⟩ := hlast
    exact (ih.eveille (pas_mort (h.rejets hrest).1.coherent (LinkedQueues.link_of_top hq)
      (by simp))).note rfl

theorem liberation_pas (h : Coherent s) (hl : Liberation s s') : MemeRegistre s s' := by
  obtain ⟨p, adr, n, hp, hn, L⟩ := h.liberation_spec hl
  refine ⟨L.idle, by rw [L.prochain]; exact hn, fun x hx => (L.vivant_of hx).2, ?_, ?_⟩
  · intro x _
    refine ⟨(L.champs x).1, ?_, ?_, ?_, ?_⟩
    · rw [L.tas x]
      split
      · split <;> rfl
      · rfl
    · rw [L.pere_eq]
      split
      · exact .inl rfl
      · exact .inr rfl
    · rw [L.etat_eq]
      split
      · next hz =>
        rw [hz.2]
        rfl
      · rfl
    · intro hm
      rw [L.etat_eq]
      split
      · rfl
      · exact hm
  · unfold Core.actes
    rw [L.journal, List.filter_append]
    exact List.append_nil _

theorem liberation (h : Coherent s) (hl : Relation.ReflTransGen Liberation s s') :
    MemeRegistre s s' := by
  induction hl with
  | refl => exact refl
  | tail hrest hlast ih => exact ih.trans (liberation_pas (h.liberation hrest) hlast)

end MemeRegistre

-- ---------------------------------------------------------------------------
-- Births, deaths and their report
-- ---------------------------------------------------------------------------

theorem Trepas.append {p : Ptr} {v : Int} {j : List Evenement} {e : Evenement} (h : Trepas p v j)
    (he : e.sujet ≠ some p ∨ e.recolte?.isSome = true) : Trepas p v (j ++ [e]) := by
  have hne : ∀ e', e'.sujet = some p → e'.recolte? = none → e' ∈ j ++ [e] → e' ∈ j := by
    intro e' hs hr hm
    rcases List.mem_append.mp hm with hm | hm
    · exact hm
    · rw [← List.mem_singleton.mp hm] at he
      rcases he with he | he
      · exact absurd hs he
      · rw [hr] at he
        cases he
  rcases h with ⟨hx, ht, hu⟩ | ⟨ht, hx, hv⟩
  · exact .inl ⟨List.mem_append_left _ hx, fun hm => ht (hne _ rfl rfl hm),
      fun w hm => hu w (hne _ rfl rfl hm)⟩
  · exact .inr ⟨List.mem_append_left _ ht, fun w hm => hx w (hne _ rfl rfl hm), hv⟩

namespace Core.Registre

variable {s s' : Core} {p : Ptr}

theorem congr (h : s.Registre) (m : MemeRegistre s s') : s'.Registre where
  naissance p hv := by
    obtain ⟨hpid, -, hpe, -, -⟩ := m.champs p hv
    rw [m.idle, Core.Ne, m.actes, hpid]
    rcases h.naissance p (m.vivant p hv) with ⟨hi, hpn⟩ | ⟨f, hf, hpf, hlt⟩
    · refine .inl ⟨hi, ?_⟩
      rcases hpe with hx | hx
      · exact hx
      · rw [hx, hpn]
    · refine .inr ⟨f, hf, ?_, hlt⟩
      rcases hpe with hx | hx
      · exact .inl hx
      · rwa [hx]
  vie p hv hm := by
    obtain ⟨-, hre, -, hmo, -⟩ := m.champs p hv
    rw [hmo] at hm
    rw [hre, m.actes]
    exact h.vie p (m.vivant p hv) hm
  mort p hv hm := by
    obtain ⟨-, hre, -, hmo, -⟩ := m.champs p hv
    rw [hmo] at hm
    rw [hre, m.actes]
    exact h.mort p (m.vivant p hv) hm
  recolte f p hr hv := by
    rw [m.actes] at hr
    exact (m.champs p hv).2.2.2.2 (h.recolte f p hr (m.vivant p hv))
  unique := by
    rw [m.actes]
    exact h.unique
  ancien e he p hp := by
    rw [m.actes] at he
    exact (h.ancien e he p hp).trans_le m.prochain

theorem actes_append {e : Evenement} (he : e.acte = true) {j : List Evenement} :
    (j ++ [e]).filter Evenement.acte = j.filter Evenement.acte ++ [e] := by
  rw [List.filter_append, List.filter_singleton, he]
  rfl

/-- The process `p` dies with the value `v`. -/
theorem meurt (h : s.Registre) (hc : Coherent s) (hv : s.vivant p = true)
    (hm : (s.tas p).etat.mort = false) {e : Evenement} {v : Int}
    (he : e = .exit p v ∨ e = .tue p ∧ v = 0) (ha : s'.actes = s.actes ++ [e])
    (hviv : s'.vivant = s.vivant) (hidle : s'.procIdle = s.procIdle)
    (hpro : s'.prochain = s.prochain) (hautre : ∀ x, x ≠ p → s'.tas x = s.tas x)
    (hp : (s'.tas p).pid = (s.tas p).pid ∧ (s'.tas p).pere = (s.tas p).pere ∧
      (s'.tas p).retval = v ∧ (s'.tas p).etat.mort = true) : s'.Registre := by
  obtain ⟨hpid, hpe, hre, hmo⟩ := hp
  obtain ⟨-, hpt, hpx⟩ := h.vie p hv hm
  have hsujet : e.sujet = some p := by
    rcases he with rfl | ⟨rfl, -⟩ <;> rfl
  have hrec : e.recolte? = none := by
    rcases he with rfl | ⟨rfl, -⟩ <;> rfl
  -- the event names no other process
  have hold : ∀ {e' : Evenement}, e' ∈ s'.actes → e' ∈ s.actes ∨ e' = e := by
    intro e' hm
    rw [ha] at hm
    rcases List.mem_append.mp hm with hm | hm
    · exact .inl hm
    · exact .inr (List.mem_singleton.mp hm)
  have hother : ∀ {e' : Evenement} {x : Ptr}, e'.sujet = some x → x ≠ p → e' ∈ s'.actes →
      e' ∈ s.actes := by
    intro e' x hs hx hm
    refine (hold hm).resolve_right ?_
    rintro rfl
    rw [hsujet] at hs
    exact hx (Option.some.inj hs).symm
  have hnew : ∀ {e' : Evenement}, e' ∈ s.actes → e' ∈ s'.actes := by
    intro e' hm
    rw [ha]
    exact List.mem_append_left _ hm
  refine ⟨?_, ?_, ?_, ?_, ?_, ?_⟩
  · intro x hx
    rw [hviv] at hx
    have hchamps : (s'.tas x).pid = (s.tas x).pid ∧ (s'.tas x).pere = (s.tas x).pere := by
      by_cases hxp : x = p
      · rw [hxp]
        exact ⟨hpid, hpe⟩
      · rw [hautre x hxp]
        exact ⟨rfl, rfl⟩
    rw [hidle, Core.Ne, hchamps.1, hchamps.2]
    rcases h.naissance x hx with hi | ⟨f, hf, hpf, hlt⟩
    · exact .inl hi
    · exact .inr ⟨f, hnew hf, hpf, hlt⟩
  · intro x hx hxm
    have hxp : x ≠ p := by
      rintro rfl
      rw [hmo] at hxm
      cases hxm
    rw [hviv] at hx
    rw [hautre x hxp] at hxm ⊢
    obtain ⟨h0, ht, he'⟩ := h.vie x hx hxm
    exact ⟨h0, fun hx => ht (hother rfl hxp hx), fun w hx => he' w (hother rfl hxp hx)⟩
  · intro x hx hxm
    rw [hviv] at hx
    by_cases hxp : x = p
    · subst hxp
      rw [hre, ha]
      rcases he with rfl | ⟨rfl, rfl⟩
      · refine .inl ⟨by simp, fun hx => ?_, fun w hx => ?_⟩
        · exact hpt (by simpa using hx)
        · rcases List.mem_append.mp hx with hx | hx
          · exact absurd hx (hpx w)
          · simpa using hx
      · refine .inr ⟨by simp, fun w hx => ?_, rfl⟩
        exact hpx w (by simpa using hx)
    · rw [hautre x hxp] at hxm ⊢
      rw [ha]
      refine (h.mort x hx hxm).append (.inl ?_)
      rw [hsujet]
      exact fun hx => hxp (Option.some.inj hx).symm
  · intro f x hr hx
    rw [hviv] at hx
    have hr' : .recolte f x ∈ s.actes := by
      refine (hold hr).resolve_right ?_
      rintro rfl
      cases hrec
    have hxm := h.recolte f x hr' hx
    by_cases hxp : x = p
    · rw [hxp] at hxm
      rw [hxm] at hm
      cases hm
    · rwa [hautre x hxp]
  · rw [ha, List.filterMap_append]
    simpa [hrec] using h.unique
  · intro e' he' x hx
    rw [hpro]
    rcases hold he' with he' | rfl
    · exact h.ancien e' he' x hx
    · rw [hsujet] at hx
      rw [← Option.some.inj hx]
      exact hc.ancien p hv

theorem cree (h : s.Registre) (hc : Coherent s) (he : s.EnCours) {r : Processus}
    {reste : List PidLibre} {adr n : Nat} (hp : s.prochain ≤ p) (hn : p < n)
    (hetat : r.etat = .activable) (hret : r.retval = 0) : (s.cree p r reste adr n).Registre := by
  have C := hc.cree_spec he r reste adr n hp
  have ha : (s.cree p r reste adr n).actes = s.actes ++
      [.cree (if s.procElu = s.procIdle then none else some s.procElu) p r.pid] := actes_append rfl
  have hold : ∀ {e : Evenement}, e ∈ (s.cree p r reste adr n).actes → e.sujet ≠ some p →
      e ∈ s.actes := by
    intro e hm hs
    rw [ha] at hm
    rcases List.mem_append.mp hm with hm | hm
    · exact hm
    · rw [List.mem_singleton.mp hm] at hs
      exact absurd rfl hs
  have hnew : ∀ {e : Evenement}, e ∈ s.actes → e ∈ (s.cree p r reste adr n).actes := by
    intro e hm
    rw [ha]
    exact List.mem_append_left _ hm
  -- the register does not know the new process yet
  have hinconnu : ∀ {e : Evenement}, e ∈ s.actes → e.sujet ≠ some p :=
    fun hm hs => absurd (h.ancien _ hm p hs) (not_lt.mpr hp)
  refine ⟨?_, ?_, ?_, ?_, ?_, ?_⟩
  · intro x hx
    by_cases hxp : x = p
    · subst hxp
      right
      unfold Core.Ne
      rw [C.nouveau]
      refine ⟨_, ?_, .inr rfl, ?_⟩
      · rw [ha]
        simp
      · intro g hg
        split at hg
        · cases hg
        · rw [← Option.some.inj hg]
          exact (hc.ancien _ he.vivant).trans_le hp
    · obtain ⟨hpid, -, -, -, -, -, -, -, hpe⟩ := C.champs x hxp
      rw [C.vivant, if_neg hxp] at hx
      unfold Core.Ne
      rw [hpid, hpe]
      rcases h.naissance x hx with hi | ⟨f, hf, hpf, hlt⟩
      · exact .inl hi
      · exact .inr ⟨f, hnew hf, hpf, hlt⟩
  · intro x hx hm
    by_cases hxp : x = p
    · subst hxp
      rw [C.nouveau]
      refine ⟨hret, fun hm => ?_, fun v hm => ?_⟩
      · rw [ha] at hm
        exact hinconnu (by simpa using hm) rfl
      · rw [ha] at hm
        exact hinconnu (e := .exit x v) (by simpa using hm) rfl
    · obtain ⟨-, -, -, -, hre, -, -, het, -⟩ := C.champs x hxp
      rw [C.vivant, if_neg hxp] at hx
      rw [het] at hm
      rw [hre]
      obtain ⟨h0, ht, hex⟩ := h.vie x hx hm
      have hs : (some x : Option Ptr) ≠ some p := fun hx => hxp (Option.some.inj hx)
      exact ⟨h0, fun hm => ht (hold hm hs), fun v hm => hex v (hold hm hs)⟩
  · intro x hx hm
    have hxp : x ≠ p := by
      rintro rfl
      rw [C.nouveau] at hm
      change r.etat.mort = true at hm
      rw [hetat] at hm
      cases hm
    obtain ⟨-, -, -, -, hre, -, -, het, -⟩ := C.champs x hxp
    rw [C.vivant, if_neg hxp] at hx
    rw [het] at hm
    rw [hre, ha]
    refine (h.mort x hx hm).append (.inl ?_)
    exact fun hs => hxp (Option.some.inj hs).symm
  · intro f x hr hx
    have hr' : .recolte f x ∈ s.actes := by
      rw [ha] at hr
      simpa using hr
    have hxp : x ≠ p := by
      rintro rfl
      exact hinconnu hr' rfl
    obtain ⟨-, -, -, -, -, -, -, het, -⟩ := C.champs x hxp
    rw [C.vivant, if_neg hxp] at hx
    rw [het]
    exact h.recolte f x hr' hx
  · rw [ha, List.filterMap_append]
    exact (List.append_nil _).symm ▸ h.unique
  · intro e hm x hx
    have hpn : (s.cree p r reste adr n).prochain = n := rfl
    rw [hpn]
    by_cases hs : x = p
    · rwa [hs]
    · exact (h.ancien e (hold hm (by rw [hx]; exact fun hx => hs (Option.some.inj hx))) x hx).trans
        (hp.trans_lt hn)

theorem recolter (h : s.Registre) (hc : Coherent s) (he : s.EnCours) {c : Ptr} {l : List Fils}
    (hcf : c ∈ s.fils s.procElu) (hz : (s.tas c).etat = .zombie)
    (hl : retireFils c (s.tas s.procElu).filsTete = some l) : (s.recolte c l).Registre := by
  have R := hc.recolte_spec he hcf hz hl
  have hcv := (hc.fils _ _ he.vivant hcf).1
  have ha : (s.recolte c l).actes = s.actes ++ [.recolte s.procElu c] := actes_append rfl
  have hold : ∀ {e : Evenement}, e ∈ (s.recolte c l).actes → e.recolte? = none → e ∈ s.actes := by
    intro e hm hs
    rw [ha] at hm
    rcases List.mem_append.mp hm with hm | hm
    · exact hm
    · rw [List.mem_singleton.mp hm] at hs
      cases hs
  have hre : ∀ x, ((s.recolte c l).tas x).retval = (s.tas x).retval :=
    fun x => (R.champs x).2.2.2.2.1
  have hmo : ∀ x, ((s.recolte c l).tas x).etat.mort = (s.tas x).etat.mort := by
    intro x
    rw [R.etat]
    split
    · next hx =>
      rw [hx, hz]
      rfl
    · rfl
  refine ⟨?_, ?_, ?_, ?_, ?_, ?_⟩
  · intro x hx
    rw [R.pere, Core.Ne, (R.champs x).1, R.pere, ha]
    rcases h.naissance x hx with ⟨hi, hpn⟩ | ⟨f, hf, hpf, hlt⟩
    · refine .inl ⟨hi, ?_⟩
      split
      · rfl
      · exact hpn
    · refine .inr ⟨f, List.mem_append_left _ hf, ?_, hlt⟩
      split
      · exact .inl rfl
      · exact hpf
  · intro x hx hm
    rw [hmo] at hm
    rw [hre]
    obtain ⟨h0, ht, hex⟩ := h.vie x hx hm
    exact ⟨h0, fun hm => ht (hold hm rfl), fun v hm => hex v (hold hm rfl)⟩
  · intro x hx hm
    rw [hmo] at hm
    rw [hre, ha]
    exact (h.mort x hx hm).append (.inr rfl)
  · intro f x hr hx
    rw [R.etat]
    split
    · rfl
    · next hxc =>
      refine h.recolte f x ?_ hx
      rw [ha] at hr
      rcases List.mem_append.mp hr with hr | hr
      · exact hr
      · cases List.mem_singleton.mp hr
        exact absurd rfl hxc
  · rw [ha, List.filterMap_append]
    refine List.nodup_append.mpr ⟨h.unique, by simp [Evenement.recolte?], ?_⟩
    intro x hx y hy
    rintro rfl
    obtain ⟨e, hm, hs⟩ := List.mem_filterMap.mp hx
    obtain rfl : x = c := List.mem_singleton.mp hy
    cases e <;> cases hs
    -- a zombie has not been reported
    have hm := h.recolte _ _ hm hcv
    rw [hz] at hm
    cases hm
  · intro e hm x hx
    rw [ha] at hm
    rcases List.mem_append.mp hm with hm | hm
    · exact h.ancien e hm x hx
    · rw [List.mem_singleton.mp hm] at hx
      rw [← Option.some.inj hx]
      exact hc.ancien c hcv

-- ---------------------------------------------------------------------------
-- Every transition
-- ---------------------------------------------------------------------------

/-- A transition that neither kills nor creates nor frees a process keeps the register. -/
theorem memeRegistre_quiet {l : Etiquette} (hst : Stable s) (he : s.EnCours) (q : Quiet l s s') :
    MemeRegistre s s' ∨ l.victime ≠ none ∨
      (∃ p r reste adr n, s' = s.cree p r reste adr n ∧ s.prochain ≤ p ∧ p < n ∧
        r.etat = .activable ∧ r.retval = 0) ∨
      ∃ c l', s' = s.recolte c l' ∧ c ∈ s.fils s.procElu ∧ (s.tas c).etat = .zombie ∧
        retireFils c (s.tas s.procElu).filsTete = some l' := by
  have hc := hst.coherent
  have r := MemeRegistre.refl (s := s)
  have emet : ∀ (f : File) (v : Int), MemeRegistre s (s.emet f v) :=
    fun f v => (r.note (e := .emission f.adr s.procElu v) rfl).maj
  have recoit : ∀ (f : File) (m : Nat), MemeRegistre s (s.recoit f m) :=
    fun f m => (r.note (e := .reception f.adr s.procElu m) rfl).maj
  have prio : ∀ {p : Ptr} {n : Int}, MemeRegistre s (s.maj p fun r => { r with prio := n }) :=
    fun {p n} => r.maj
  have bloque : ∀ {p : Ptr} {t : Tete}, s.lien p = some t → t ≠ .procMourants →
      (s.tas p).etat.mort = false := fun hp ht => MemeRegistre.pas_mort hc hp ht
  -- the lists, tables and counters may change as well
  have et : ∀ {s₁ s₂ : Core}, MemeRegistre s s₁ → s₂.procIdle = s₁.procIdle →
      s₁.prochain ≤ s₂.prochain → s₂.vivant = s₁.vivant → s₂.tas = s₁.tas →
        s₂.actes = s₁.actes → MemeRegistre s s₂ :=
    fun m hi hp hv ht ha => m.trans (.neutre hi hp hv ht ha)
  cases q with
  | alloue hn => exact .inl <| et r rfl hn rfl rfl rfl
  | ecriture adr w => exact .inl r.ecrit
  | attente pid rv => exact .inl (r.note rfl)
  | rendPid hl hn ht =>
    refine .inl (.de rfl hn rfl ?_ rfl)
    intro p hv
    dsimp only
    rw [ht p (hc.ancien p hv)]
    exact ⟨rfl, rfl, rfl, rfl, id⟩
  | cree hl hp hn hpid hetat hctx hfils hprio hret =>
    exact .inr (.inr (.inl ⟨_, _, _, _, _, rfl, hp, hn, hetat, hret⟩))
  | chprioElu hn hidle => exact .inl prio
  | chprioActivable hn hv hpid hp he' => exact .inl <| et prio rfl le_rfl rfl rfl rfl
  | chprioFile hn hv hpid hp he' => exact .inl <| et prio rfl le_rfl rfl rfl rfl
  | chprioAutre hn hv hpid hp he' _ => exact .inl prio
  | tueZombie hpid hp hz hm ht hpere => exact .inr (.inl nofun)
  | tueMourant hpid hp hz hm ht hpere => exact .inr (.inl nofun)
  | recolte hcf hz hl => exact .inr (.inr (.inr ⟨_, _, rfl, hcf, hz, hl⟩))
  | liberation hlib hvide => exact .inl (.liberation hc hlib)
  | reveil hp => exact .inl (r.eveille (bloque (LinkedQueues.link_of_mem hp) (by decide)))
  | reveilEs hp => exact .inl (r.eveille (bloque (LinkedQueues.link_of_top hp) (by decide)))
  | creeFile hl hfid h0 hN hn hadr hm => exact .inl <| et r rfl (hadr.trans hm.le) rfl rfl rfl
  | echec hf hp =>
    exact .inl ((r.eveille (bloque (LinkedQueues.link_of_top hp) (by simp))).note rfl)
  | vide hf hp => exact .inl <| et r rfl le_rfl rfl rfl (MemeRegistre.actes_note rfl)
  | supprimeFile hf hp hn => exact .inl <| et r rfl hn rfl rfl rfl
  | @remis _ fid v f p hidle hf hvide hp =>
    have hne := hc.ne_procElu he (LinkedQueues.link_of_top hp)
    refine .inl ((((emet f v).eveille ?_).note rfl).note rfl)
    simpa [Core.emet, hne] using bloque (LinkedQueues.link_of_top hp) (by simp)
  | @depose _ fid v f adr n hidle hf hnon hlt hn =>
    have m : MemeRegistre (s.emet f v) (((s.emet f v).majFile fid
        (some { f with queueMsg := ⟨adr, v⟩ :: f.queueMsg })).alloue n) :=
      .neutre rfl hn rfl rfl rfl
    exact .inl (((emet f v).trans m).note rfl)
  | @prend _ fid f l msg m hidle hf hl hp =>
    have m' : MemeRegistre (s.recoit f m) ((s.recoit f m).majFile fid
        (some { f with queueMsg := l })) := .neutre rfl le_rfl rfl rfl rfl
    exact .inl ((((recoit f m).trans m').note rfl).ecrit)
  | @relaye _ fid f l msg p adr m n hidle hf hl hp hn =>
    have hne := hc.ne_procElu he (LinkedQueues.link_of_top hp)
    have m' : MemeRegistre (s.recoit f m) (((s.recoit f m).majFile fid
        (some { f with queueMsg := ⟨adr, (s.tas p).fileValue⟩ :: l })).alloue n) :=
      .neutre rfl hn rfl rfl rfl
    refine .inl ((((((recoit f m).trans m').note rfl).ecrit).note rfl).eveille ?_)
    simpa [Core.recoit, hne] using bloque (LinkedQueues.link_of_top hp) (by simp)
  | creeSem hl hsid hcount hsem hadr hfrais hm =>
    exact .inl <| et r rfl (hfrais.trans hm.le) rfl rfl (MemeRegistre.actes_note rfl)
  | rendSid hl hn => exact .inl <| et r rfl hn rfl rfl rfl
  | sdelete hs hr hp hn hb => exact .inl <| et (.rejets hst hr) rfl hn rfl rfl rfl
  | sreset hs hr hp h0 hcount hb => exact .inl <| et (.rejets hst hr) rfl le_rfl rfl rfl rfl
  | signale hs hmax hpos => exact .inl <| et r rfl le_rfl rfl rfl (MemeRegistre.actes_note rfl)
  | @signaleReveil _ sid sem p hs hmax hneg hp =>
    have m : MemeRegistre s ((s.majSem sid (some (sem.setCount (sem.count + 1)))).note
        (.semUnite sem.adr s.procElu)) := .neutre rfl le_rfl rfl rfl (MemeRegistre.actes_note rfl)
    exact .inl ((m.eveille (bloque (LinkedQueues.link_of_top hp) (by simp))).note rfl)
  | @prendSem _ sid sem hs hpos =>
    have m : MemeRegistre s (s.majSem sid (some (sem.setCount (sem.count - 1)))) :=
      .neutre rfl le_rfl rfl rfl rfl
    exact .inl ((m.note rfl).note rfl)

theorem quiet {l : Etiquette} (h : s.Registre) (hst : Stable s) (he : s.EnCours)
    (q : Quiet l s s') : s'.Registre := by
  have hc := hst.coherent
  rcases memeRegistre_quiet hst he q with m | hl | ⟨p, r, reste, adr, n, rfl, hp, hn, hetat, hret⟩ |
    ⟨c, l', rfl, hcf, hz, hl⟩
  · exact h.congr m
  · -- a process is killed
    cases q with
    | @tueZombie _ p pere t hpid hp hz hm ht hpere =>
      have hv := hc.lie p t ht
      have hmo : (s.tas p).etat.mort = false := by
        cases hx : (s.tas p).etat <;> simp_all [Etat.mort]
      refine Core.Registre.congr (s := ((s.note (.tue p)).retire p).maj p
        fun r => { r with etat := .zombie }) ?_ (.reveillePere .refl)
      refine h.meurt hc hv hmo (.inr ⟨rfl, rfl⟩) (actes_append rfl) rfl rfl rfl ?_ ?_
      · intro x hx
        simp [hx]
      · simp [(h.vie p hv hmo).1, Etat.mort]
    | @tueMourant _ p t hpid hp hz hm ht hpere =>
      have hv := hc.lie p t ht
      have hmo : (s.tas p).etat.mort = false := by
        cases hx : (s.tas p).etat <;> simp_all [Etat.mort]
      refine h.meurt hc hv hmo (.inr ⟨rfl, rfl⟩) (actes_append rfl) rfl rfl rfl ?_ ?_
      · intro x hx
        simp [hx]
      · simp [(h.vie p hv hmo).1, Etat.mort]
    | _ => exact absurd rfl hl
  · exact h.cree hc he hp hn hetat hret
  · exact h.recolter hc he hcf hz hl

theorem empile (h : s.Registre) {k : Reprise} : (s.empile k).Registre :=
  h.congr (MemeRegistre.refl.maj)

theorem sortie {m : Motif} {k : Reprise} (h : s.Registre) (hst : Stable s) (he : s.EnCours)
    (q : Sortie m k s s') : (s'.empile k).Registre := by
  have hc := hst.coherent
  have hmo : (s.tas s.procElu).etat.mort = false := by rw [he.etat]; rfl
  have h0 := (h.vie _ he.vivant hmo).1
  -- the elected process blocks
  have bloque : ∀ {s₁ : Core}, s₁.procIdle = s.procIdle → s₁.prochain = s.prochain →
      s₁.vivant = s.vivant → (∀ x, x ≠ s.procElu → s₁.tas x = s.tas x) →
      ((s₁.tas s.procElu).pid = (s.tas s.procElu).pid ∧
        (s₁.tas s.procElu).retval = (s.tas s.procElu).retval ∧
        (s₁.tas s.procElu).pere = (s.tas s.procElu).pere ∧
        (s₁.tas s.procElu).etat.mort = false) → s₁.actes = s.actes → (s₁.empile k).Registre := by
    intro s₁ hi hp hv ht ⟨hpid, hre, hpe, het⟩ ha
    refine (h.congr (.de hi hp.ge hv ?_ ha)).empile
    intro x _
    by_cases hx : x = s.procElu
    · subst hx
      refine ⟨hpid, hre, hpe, by rw [het, hmo], ?_⟩
      rw [he.etat]
      exact nofun
    · rw [ht x hx]
      exact ⟨rfl, rfl, rfl, rfl, id⟩
  cases q with
  | suspend hk => exact h.empile
  | endort hidle => exact bloque rfl rfl rfl (fun x hx => by simp [hx]) (by simp [Etat.mort]) rfl
  | @emission _ fid v f hidle hf hnon hplein =>
    refine bloque rfl rfl rfl (fun x hx => ?_) ?_
      (MemeRegistre.actes_note (e := .emission f.adr s.procElu v) rfl)
    · simp [Core.bloqueFile, Core.emet, hx]
    · simp [Core.bloqueFile, Core.emet, Etat.mort]
  | @reception _ fid f m hidle hf hvide =>
    refine bloque rfl rfl rfl (fun x hx => ?_) ?_
      (MemeRegistre.actes_note (e := .reception f.adr s.procElu m) rfl)
    · simp [Core.bloqueFile, Core.recoit, hx]
    · simp [Core.bloqueFile, Core.recoit, Etat.mort]
  | @wait _ sid sem hidle hs hmin hneg =>
    exact bloque rfl rfl rfl (fun x hx => by simp [hx]) (by simp [Etat.mort])
      (MemeRegistre.actes_note (e := .semPrise sem.adr s.procElu) rfl)
  | consRead hidle => exact bloque rfl rfl rfl (fun x hx => by simp [hx]) (by simp [Etat.mort]) rfl
  | waitpid hidle hcf hpid h0 hz =>
    exact bloque rfl rfl rfl (fun x hx => by simp [hx]) (by simp [Etat.mort]) rfl
  | waitpidFils hidle hne hz h0 =>
    exact bloque rfl rfl rfl (fun x hx => by simp [hx]) (by simp [Etat.mort]) rfl
  | @exitZombie _ v pere hidle hpere =>
    refine Core.Registre.empile (Core.Registre.congr (s := ((s.maj s.procElu fun r =>
      { r with retval := v }).note (.exit s.procElu v)).maj s.procElu fun r =>
        { r with etat := .zombie }) ?_ (.reveillePere .refl))
    refine h.meurt hc he.vivant hmo (.inl rfl) (actes_append rfl) rfl rfl rfl ?_ ?_
    · intro x hx
      simp [hx]
    · simp [Etat.mort]
  | @exitMourant _ v hidle hpere =>
    refine Core.Registre.empile ?_
    refine h.meurt hc he.vivant hmo (.inl rfl) (actes_append rfl) rfl rfl rfl ?_ ?_
    · intro x hx
      simp [hx]
    · simp [Etat.mort]
  | suicideZombie hidle hpere =>
    refine Core.Registre.empile ?_
    refine h.meurt hc he.vivant hmo (.inr ⟨rfl, rfl⟩) (actes_append rfl) rfl rfl rfl ?_ ?_
    · intro x hx
      simp [hx]
    · simp [h0, Etat.mort]
  | suicideMourant hidle hpere =>
    refine Core.Registre.empile ?_
    refine h.meurt hc he.vivant hmo (.inr ⟨rfl, rfl⟩) (actes_append rfl) rfl rfl rfl ?_ ?_
    · intro x hx
      simp [hx]
    · simp [h0, Etat.mort]

theorem election (h : s.Registre) (hst : Stable s) (hvide : s.elems .procMourants = [])
    (hna : (s.tas s.procElu).etat ≠ .activable) (hel : Election s s') : s'.Registre := by
  cases hel with
  | aucune _ => exact h
  | @elit p hv hp =>
    have D := hst.depose hv hna hvide
    have hact := D.stable.coherent.etat_of_lien (LinkedQueues.link_of_top hp)
    have m : MemeRegistre s s.depose := by
      unfold Core.depose
      split
      · exact .neutre rfl le_rfl rfl rfl rfl
      · next hx =>
        refine (MemeRegistre.refl.maj (p := s.procElu) (f := fun r => { r with etat := .activable })
          ?_).trans (.neutre rfl le_rfl rfl rfl rfl)
        rw [hx]
        exact ⟨rfl, rfl, rfl, rfl, nofun⟩
      · next hx => exact absurd hx hna
      · exact .refl
    refine h.congr (m.trans (.de rfl le_rfl rfl ?_ rfl))
    intro x _
    by_cases hx : x = p
    · subst hx
      simp [Core.elit, hact, Etat.mort]
    · simp [Core.elit, hx]

theorem conserve (C : Cadre) : Conserve C Core.Registre where
  quiet hst he h _ q := h.quiet hst he q
  sortie hst he h _ q := h.sortie hst he q
  libere hc h hl := h.congr (.liberation_pas hc hl)
  election hst hvide hna h hel := h.election hst hvide hna hel
  retour _ _ _ h := h.congr (MemeRegistre.refl.note rfl)

end Core.Registre

end GenesisOS
