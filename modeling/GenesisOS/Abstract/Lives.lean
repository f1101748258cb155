import GenesisOS.Abstract.Invariant

/-!
# GenesisOS — the life of a process

What a transition makes of a process that is not the elected one, said once
for all of them (`Quiet.evolue`, `Sortie.evolue`, `Coherent.evolue_liberation`):

* its state follows the life cycle (`Etat.Devient`), which death ends;
* its return point and the results it holds stay (`Inchange`), unless the
  transition releases it from a message file or a semaphore (`Relache`);
* only its release adds an event of its calls to the journal.
-/

namespace GenesisOS

open Lib

/-! ## Definitions -/

/-- The process is blocked. -/
def Etat.bloque : Etat → Bool
  | .endormi | .attendFils | .attendFile | .attendSemaphore | .attendEs => true
  | _ => false

/-- The process is blocked in a call that no other call is told to release: it
sleeps, or waits for a child or for the keyboard. -/
def Etat.dort : Etat → Bool
  | .endormi | .attendFils | .attendEs => true
  | _ => false

/-- The process is a zombie or is to be freed. -/
def Etat.mort : Etat → Bool
  | .zombie | .mourant => true
  | _ => false

/-- What can become of the state of a process that is not elected. -/
inductive Etat.Devient : Etat → Etat → Prop
  | reste {e : Etat} : Devient e e
  | reveil {e : Etat} (h : e.dort = true) : Devient e .activable
  | meurt {e e' : Etat} (h : e.mort = false) (h' : e'.mort = true) : Devient e e'
  | condamne : Devient .zombie .mourant

theorem Etat.Devient.trans {e e' e'' : Etat} (h : Devient e e') (h' : Devient e' e'') :
    Devient e e'' := by
  cases h with
  | reste => exact h'
  | reveil hb =>
    cases h' with
    | reste => exact .reveil hb
    | reveil hb' => cases hb'
    | meurt hm hm' =>
      refine .meurt ?_ hm'
      cases e <;> simp_all [Etat.dort, Etat.mort]
  | meurt hm hm' =>
    cases h' with
    | reste => exact .meurt hm hm'
    | reveil hb => cases e' <;> simp_all [Etat.dort, Etat.mort]
    | meurt hm'' hm''' => exact .meurt hm hm'''
    | condamne => exact .meurt hm rfl
  | condamne =>
    cases h' with
    | reste => exact .condamne
    | reveil hb => cases hb
    | meurt hm _ => cases hm

/-- Only an election makes a process the elected one. -/
theorem Etat.Devient.elu {e : Etat} (h : Devient e .elu) : e = .elu := by
  cases h with
  | reste => rfl
  | meurt _ hm => cases hm

theorem Core.mort_iff {s : Core} {p : Ptr} : s.Mort p ↔ (s.tas p).etat.mort = true := by
  unfold Core.Mort
  cases (s.tas p).etat <;> simp [Etat.mort]

/-- The process whose call an event belongs to. -/
def Evenement.acteur : Evenement → Option Ptr
  | .attente p _ _ | .recolte p _ | .emission _ p _ | .reception _ p _ | .accepte _ p _
  | .livre _ p _ | .echec _ p | .semPrise _ p | .semAccorde _ p | .semRejet _ p _
  | .ecriture p _ _ | .retour p _ => some p
  | .cree .. | .exit .. | .tue _ | .libere _ | .vide _ | .semCree .. | .semUnite .. => none

/-- The journal gains events that satisfy `P`. -/
def Ajoute (P : Evenement → Prop) (s s' : Core) : Prop :=
  ∃ k, s'.journal = s.journal ++ k ∧ ∀ e ∈ k, P e

/-- The journal gains events, none of them in a call of `p`. -/
def Muet (p : Ptr) (s s' : Core) : Prop :=
  ∃ j, s'.journal = s.journal ++ j ∧ ∀ e ∈ j, e.acteur ≠ some p

/-- What a transition that does not concern the process `p` leaves it. -/
structure Inchange (p : Ptr) (s s' : Core) : Prop where
  vivant : s'.vivant p = true
  etat : Etat.Devient (s.tas p).etat (s'.tas p).etat
  contexte : (s'.tas p).contexte = (s.tas p).contexte
  statut : (s'.tas p).operationStatus = (s.tas p).operationStatus
  valeur : (s'.tas p).fileValue = (s.tas p).fileValue
  retval : (s'.tas p).retval = (s.tas p).retval
  pid : (s'.tas p).pid = (s.tas p).pid
  file : ∀ fid f', s'.lien p = some (.file fid) → s'.tableauFile fid = some f' →
    s.lien p = some (.file fid) ∧ ∃ f, s.tableauFile fid = some f ∧ f.adr = f'.adr
  sem : ∀ sid sem', s'.lien p = some (.semaphore sid) → s'.tableauSem sid = some sem' →
    s.lien p = some (.semaphore sid) ∧ ∃ sem, s.tableauSem sid = some sem ∧ sem.adr = sem'.adr
  journal : Muet p s s'

/-- The process `p`, waiting on a file or a semaphore, is released: the event
recorded, and the `operationStatus` and `fileValue` it finds. -/
inductive Relache (s : Core) (p : Ptr) : Evenement → Int → Int → Prop
  | livre {fid v : Int} {f : File} (hp : s.lien p = some (.file fid))
      (hf : s.tableauFile fid = some f) (hvide : f.queueMsg = []) :
      Relache s p (.livre f.adr p v) 1 v
  | accepte {fid : Int} {f : File} (hp : s.lien p = some (.file fid))
      (hf : s.tableauFile fid = some f) (hnon : f.queueMsg ≠ []) :
      Relache s p (.accepte f.adr p (s.tas p).fileValue) 1 (s.tas p).fileValue
  | echec {fid : Int} {f : File} (hp : s.lien p = some (.file fid))
      (hf : s.tableauFile fid = some f) : Relache s p (.echec f.adr p) 0 (s.tas p).fileValue
  | accorde {sid : Int} {sem : Semaphore} (hp : s.lien p = some (.semaphore sid))
      (hs : s.tableauSem sid = some sem) : Relache s p (.semAccorde sem.adr p) 1 (s.tas p).fileValue
  | rejet {sid v : Int} {sem : Semaphore} (hp : s.lien p = some (.semaphore sid))
      (hs : s.tableauSem sid = some sem) (hv : v = -3 ∨ v = -4) :
      Relache s p (.semRejet sem.adr p v) v (s.tas p).fileValue

/-- What a transition makes of a live process that is not the elected one. -/
inductive Evolue (p : Ptr) (s s' : Core) : Prop
  | reste (h : Inchange p s s')
  | libere (hm : (s.tas p).etat.mort = true) (hv : s'.vivant p = false) (hj : Muet p s s')
  | relache {e : Evenement} {st va : Int} {j k : List Evenement} (h : Relache s p e st va)
      (hv : s'.vivant p = true) (he : Etat.Devient .activable (s'.tas p).etat)
      (hc : (s'.tas p).contexte = (s.tas p).contexte) (hst : (s'.tas p).operationStatus = st)
      (hva : (s'.tas p).fileValue = va) (hre : (s'.tas p).retval = (s.tas p).retval)
      (hpid : (s'.tas p).pid = (s.tas p).pid) (hj : s'.journal = s.journal ++ j ++ e :: k)
      (hmuet : (∀ x ∈ j, x.acteur ≠ some p) ∧ ∀ x ∈ k, x.acteur ≠ some p)

-- ---------------------------------------------------------------------------
-- What is recorded
-- ---------------------------------------------------------------------------

namespace Ajoute

variable {P Q : Evenement → Prop} {s s' s'' : Core} {e : Evenement}

theorem refl : Ajoute P s s := ⟨[], by simp⟩

theorem trans (h : Ajoute P s s') (h' : Ajoute P s' s'') : Ajoute P s s'' := by
  obtain ⟨j, hj, hP⟩ := h
  obtain ⟨j', hj', hP'⟩ := h'
  refine ⟨j ++ j', by rw [hj', hj, List.append_assoc], ?_⟩
  intro e he
  rcases List.mem_append.mp he with he | he
  · exact hP e he
  · exact hP' e he

theorem mono (h : Ajoute P s s') (hPQ : ∀ e, P e → Q e) : Ajoute Q s s' := by
  obtain ⟨j, hj, hP⟩ := h
  exact ⟨j, hj, fun e he => hPQ e (hP e he)⟩

theorem meme (h : Ajoute P s s') (hj : s''.journal = s'.journal := by rfl) : Ajoute P s s'' := by
  obtain ⟨j, hj', hP⟩ := h
  exact ⟨j, hj.trans hj', hP⟩

theorem note (h : Ajoute P s s') (he : P e)
    (hj : s''.journal = s'.journal ++ [e] := by rfl) : Ajoute P s s'' :=
  h.trans ⟨[e], hj, by simpa using he⟩

theorem ecrit (h : Ajoute P s s') (hP : ∀ p adr w, P (.ecriture p adr w)) {a : Nat}
    {w : BitVec 32} : Ajoute P s (s'.ecrit a w) := by
  by_cases ha : a = 0
  · rwa [ha, Core.ecrit_zero]
  · rw [Core.ecrit_of_ne ha]
    exact h.note (hP _ _ _)

theorem reveillePere (h : Ajoute P s s') {q : Ptr} : Ajoute P s (s'.reveillePere q) := by
  unfold Core.reveillePere
  split
  · exact h.meme
  · exact h

theorem rejets {sid status : Int} {sem : Semaphore}
    (hr : Relation.ReflTransGen (Rejet sid sem status) s s') :
    Ajoute (fun e => ∃ p, e = .semRejet sem.adr p status) s s' := by
  induction hr with
  | refl => exact refl
  | tail _ hlast ih =>
    obtain ⟨p, hp, rfl⟩ := hlast
    exact ih.note ⟨p, rfl⟩

theorem liberation (h : Coherent s) (hl : Relation.ReflTransGen Liberation s s') :
    Ajoute (fun e => ∃ q, e = .libere q) s s' := by
  induction hl with
  | refl => exact refl
  | tail hrest hlast ih =>
    obtain ⟨q, adr, n, -, -, L⟩ := (h.liberation hrest).liberation_spec hlast
    exact ih.note ⟨q, rfl⟩ L.journal

end Ajoute

-- ---------------------------------------------------------------------------
-- Transitions that do not concern a process
-- ---------------------------------------------------------------------------

namespace Muet

variable {p : Ptr} {s s' s'' : Core}

theorem refl : Muet p s s := ⟨[], by simp⟩

theorem trans (m : Muet p s s') (m' : Muet p s' s'') : Muet p s s'' := by
  obtain ⟨j, hj, h⟩ := m
  obtain ⟨j', hj', h'⟩ := m'
  refine ⟨j ++ j', by rw [hj', hj, List.append_assoc], ?_⟩
  intro e he
  rcases List.mem_append.mp he with he | he
  · exact h e he
  · exact h' e he

theorem de (hj : s'.journal = s.journal) : Muet p s s' := ⟨[], by simpa using hj⟩

theorem note (m : Muet p s s') {e : Evenement} (he : e.acteur ≠ some p) : Muet p s (s'.note e) :=
  m.trans ⟨[e], rfl, by simpa using he⟩

theorem ecrit (m : Muet p s s') {adr : Nat} {w : BitVec 32} (hp : s'.procElu ≠ p) :
    Muet p s (s'.ecrit adr w) := by
  refine m.trans ⟨if adr = 0 then [] else [.ecriture s'.procElu adr w], rfl, ?_⟩
  intro e he
  split at he
  · cases he
  · rw [List.mem_singleton.mp he]
    simpa [Evenement.acteur] using hp

end Muet

namespace Inchange

variable {p q : Ptr} {s s' s'' : Core}

theorem refl (hv : s.vivant p = true) : Inchange p s s :=
  ⟨hv, .reste, rfl, rfl, rfl, rfl, rfl, fun _ f hp hf => ⟨hp, f, hf, rfl⟩,
    fun _ sem hp hs => ⟨hp, sem, hs, rfl⟩, .refl⟩

theorem trans (h : Inchange p s s') (h' : Inchange p s' s'') : Inchange p s s'' where
  vivant := h'.vivant
  etat := h.etat.trans h'.etat
  contexte := h'.contexte.trans h.contexte
  statut := h'.statut.trans h.statut
  valeur := h'.valeur.trans h.valeur
  retval := h'.retval.trans h.retval
  pid := h'.pid.trans h.pid
  file fid f'' hp hf := by
    obtain ⟨hp', f', hf', ha'⟩ := h'.file fid f'' hp hf
    obtain ⟨hp'', f, hf'', ha⟩ := h.file fid f' hp' hf'
    exact ⟨hp'', f, hf'', ha.trans ha'⟩
  sem sid sem'' hp hs := by
    obtain ⟨hp', sem', hs', ha'⟩ := h'.sem sid sem'' hp hs
    obtain ⟨hp'', sem, hs'', ha⟩ := h.sem sid sem' hp' hs'
    exact ⟨hp'', sem, hs'', ha.trans ha'⟩
  journal := h.journal.trans h'.journal

/-- The files and semaphores are the same, or keep their address. -/
theorem tables (hl : s'.lien p = s.lien p)
    (hf : ∀ fid f', s'.tableauFile fid = some f' →
      ∃ f, s.tableauFile fid = some f ∧ f.adr = f'.adr)
    (hs : ∀ sid sem', s'.tableauSem sid = some sem' →
      ∃ sem, s.tableauSem sid = some sem ∧ sem.adr = sem'.adr)
    (hv : s'.vivant p = true) (ht : s'.tas p = s.tas p) (hj : Muet p s s') : Inchange p s s' where
  vivant := hv
  etat := by rw [ht]; exact .reste
  contexte := by rw [ht]
  statut := by rw [ht]
  valeur := by rw [ht]
  retval := by rw [ht]
  pid := by rw [ht]
  file fid f' hp hf' := ⟨hl ▸ hp, hf fid f' hf'⟩
  sem sid sem' hp hs' := ⟨hl ▸ hp, hs sid sem' hs'⟩
  journal := hj

/-- The process is not touched at all. -/
theorem neutre (hv : s'.vivant p = true) (ht : s'.tas p = s.tas p) (hl : s'.lien p = s.lien p)
    (hf : s'.tableauFile = s.tableauFile) (hs : s'.tableauSem = s.tableauSem) (hj : Muet p s s') :
    Inchange p s s' := by
  refine tables hl ?_ ?_ hv ht hj
  · intro fid f' hf'
    exact ⟨f', by rwa [hf] at hf', rfl⟩
  · intro sid sem' hs'
    exact ⟨sem', by rwa [hs] at hs', rfl⟩

/-- The process moves to another list, or leaves its own, or changes its
priority. -/
theorem deplace (hv : s'.vivant p = true) (he : Etat.Devient (s.tas p).etat (s'.tas p).etat)
    (ht : (s'.tas p).contexte = (s.tas p).contexte ∧
      (s'.tas p).operationStatus = (s.tas p).operationStatus ∧
      (s'.tas p).fileValue = (s.tas p).fileValue ∧ (s'.tas p).retval = (s.tas p).retval ∧
      (s'.tas p).pid = (s.tas p).pid)
    (hl : ∀ t, s'.lien p = some t → (∀ fid, t ≠ .file fid) ∧ (∀ sid, t ≠ .semaphore sid) ∨
      s.lien p = some t)
    (hf : s'.tableauFile = s.tableauFile) (hs : s'.tableauSem = s.tableauSem) (hj : Muet p s s') :
    Inchange p s s' := by
  obtain ⟨hc, hst, hva, hre, hpid⟩ := ht
  refine ⟨hv, he, hc, hst, hva, hre, hpid, ?_, ?_, hj⟩
  · intro fid f' hp hf'
    rw [hf] at hf'
    rcases hl _ hp with ⟨hx, -⟩ | hx
    · exact absurd rfl (hx fid)
    · exact ⟨hx, f', hf', rfl⟩
  · intro sid sem' hp hs'
    rw [hs] at hs'
    rcases hl _ hp with ⟨-, hx⟩ | hx
    · exact absurd rfl (hx sid)
    · exact ⟨hx, sem', hs', rfl⟩

theorem note (h : Inchange p s s') {e : Evenement} (he : e.acteur ≠ some p) :
    Inchange p s (s'.note e) :=
  ⟨h.vivant, h.etat, h.contexte, h.statut, h.valeur, h.retval, h.pid, h.file, h.sem,
    h.journal.note he⟩

theorem ecrit (h : Inchange p s s') {adr : Nat} {w : BitVec 32} (hp : s'.procElu ≠ p) :
    Inchange p s (s'.ecrit adr w) :=
  ⟨h.vivant, h.etat, h.contexte, h.statut, h.valeur, h.retval, h.pid, h.file, h.sem,
    h.journal.ecrit hp⟩

theorem alloue (h : Inchange p s s') {n : Nat} : Inchange p s (s'.alloue n) :=
  ⟨h.vivant, h.etat, h.contexte, h.statut, h.valeur, h.retval, h.pid, h.file, h.sem, h.journal⟩

theorem maj (h : Inchange p s s') {f : Processus → Processus} (hp : p ≠ q) :
    Inchange p s (s'.maj q f) := by
  refine h.trans (neutre h.vivant ?_ rfl rfl rfl (.de rfl))
  rw [Core.tas_maj, if_neg hp]

theorem ajoute (h : Inchange p s s') {t : Tete} {cle : Processus → Int} (hp : p ≠ q) :
    Inchange p s (s'.ajoute t q cle) :=
  h.trans (neutre h.vivant rfl (Core.lien_ajoute_of_ne hp) rfl rfl (.de rfl))

theorem eveille (h : Inchange p s s') {f : Processus → Processus} (hp : p ≠ q) :
    Inchange p s (s'.eveille q f) := by
  refine h.trans (neutre h.vivant ?_ ?_ rfl rfl (.de rfl))
  · rw [Core.tas_eveille, if_neg hp]
  · rw [Core.lien_eveille, if_neg hp]

theorem majFile (h : Inchange p s s') {fid : Int} {f f' : File}
    (hf : s'.tableauFile fid = some f) (ha : f'.adr = f.adr := by rfl) :
    Inchange p s (s'.majFile fid (some f')) := by
  refine h.trans (tables rfl ?_ (fun _ sem hs => ⟨sem, hs, rfl⟩) h.vivant rfl (.de rfl))
  intro i g hg
  by_cases hi : i = fid
  · subst hi
    rw [Core.majFile_tableauFile, Function.update_self] at hg
    exact ⟨f, hf, by rw [← Option.some.inj hg, ha]⟩
  · rw [Core.majFile_tableauFile, Function.update_of_ne hi] at hg
    exact ⟨g, hg, rfl⟩

theorem majSem (h : Inchange p s s') {sid : Int} {sem sem' : Semaphore}
    (hs : s'.tableauSem sid = some sem) (ha : sem'.adr = sem.adr := by rfl) :
    Inchange p s (s'.majSem sid (some sem')) := by
  refine h.trans (tables rfl (fun _ f hf => ⟨f, hf, rfl⟩) ?_ h.vivant rfl (.de rfl))
  intro i g hg
  by_cases hi : i = sid
  · subst hi
    rw [Core.majSem_tableauSem, Function.update_self] at hg
    exact ⟨sem, hs, by rw [← Option.some.inj hg, ha]⟩
  · rw [Core.majSem_tableauSem, Function.update_of_ne hi] at hg
    exact ⟨g, hg, rfl⟩

theorem emet (h : Inchange p s s') {f : File} {v : Int} (hp : s'.procElu ≠ p) :
    Inchange p s (s'.emet f v) :=
  (h.note (e := .emission f.adr s'.procElu v) (by simpa [Evenement.acteur] using hp)).maj
    (q := s'.procElu) hp.symm

theorem recoit (h : Inchange p s s') {f : File} {m : Nat} (hp : s'.procElu ≠ p) :
    Inchange p s (s'.recoit f m) :=
  (h.note (e := .reception f.adr s'.procElu m) (by simpa [Evenement.acteur] using hp)).maj
    (q := s'.procElu) hp.symm

end Inchange

namespace Evolue

variable {p q : Ptr} {s s' s'' : Core}

theorem puis (h : Evolue p s s') (h' : s'.vivant p = true → Inchange p s' s'')
    (hlib : s'.vivant p = false → s''.vivant p = false ∧ Muet p s' s'') : Evolue p s s'' := by
  cases h with
  | reste h => exact .reste (h.trans (h' h.vivant))
  | libere hm hv hj => exact .libere hm (hlib hv).1 (hj.trans (hlib hv).2)
  | @relache e st va j j₁ h hv he hc hst hva hre hpid hj hmuet =>
    obtain ⟨hv', he', hc', hst', hva', hre', hpid', -, -, j₂, hj', hmuet'⟩ := h' hv
    refine .relache (j := j) (k := j₁ ++ j₂) h hv' (he.trans he') (hc'.trans hc) (hst'.trans hst)
      (hva'.trans hva) (hre'.trans hre) (hpid'.trans hpid) ?_ ⟨hmuet.1, ?_⟩
    · rw [hj', hj, List.append_assoc, List.cons_append]
    · intro x hx
      rcases List.mem_append.mp hx with hx | hx
      · exact hmuet.2 x hx
      · exact hmuet' x hx

/-- The transition that releases the process records it last. -/
theorem fin {e : Evenement} {st va i : Int} {j : List Evenement} (h : Relache s p e st va)
    (hv : s'.vivant p = true)
    (ht : s'.tas p = { s.tas p with
      fid := i, fileValue := va, operationStatus := st, etat := .activable })
    (hj : s'.journal = s.journal ++ (j ++ [e])) (hmuet : ∀ x ∈ j, x.acteur ≠ some p) :
    Evolue p s s' := by
  refine .relache (j := j) (k := []) h hv ?_ ?_ ?_ ?_ ?_ ?_ ?_ ⟨hmuet, nofun⟩
  · rw [ht]
    exact .reste
  · rw [ht]
  · rw [ht]
  · rw [ht]
  · rw [ht]
  · rw [ht]
  · rw [hj, List.append_assoc]

/-- The process is woken out of a list, without being released from a call. -/
theorem eveille (hv : s.vivant p = true) (he : (s.tas p).etat.dort = true) :
    Evolue p s (s.eveille p id) := by
  refine .reste (.deplace hv ?_ ?_ ?_ rfl rfl (.de rfl))
  · rw [Core.tas_eveille, if_pos rfl]
    exact .reveil he
  · rw [Core.tas_eveille, if_pos rfl]
    exact ⟨rfl, rfl, rfl, rfl, rfl⟩
  · intro t ht
    rw [Core.lien_eveille, if_pos rfl] at ht
    cases ht
    exact .inl ⟨by simp, by simp⟩

/-- The process may have been woken in `waitpid`. -/
theorem reveillePere (hv : s.vivant p = true)
    (hl : (s.tas q).etat = .attendFils → s.lien q = none) : Inchange p s (s.reveillePere q) := by
  unfold Core.reveillePere
  split
  · next hq =>
    by_cases hp : p = q
    · subst hp
      refine .deplace hv ?_ ?_ ?_ rfl rfl (.de rfl)
      · rw [Core.tas_active, if_pos rfl, hq]
        exact .reveil rfl
      · rw [Core.tas_active, if_pos rfl]
        exact ⟨rfl, rfl, rfl, rfl, rfl⟩
      · intro t ht
        rw [Core.lien_active (hl hq), if_pos rfl] at ht
        cases ht
        exact .inl ⟨by simp, by simp⟩
    · refine .neutre hv ?_ ?_ rfl rfl (.de rfl)
      · rw [Core.tas_active, if_neg hp]
      · rw [Core.lien_active (hl hq), if_neg hp]
  · exact .refl hv

end Evolue

-- ---------------------------------------------------------------------------
-- Quiet transitions
-- ---------------------------------------------------------------------------

section

variable {p : Ptr} {s s' : Core}

/-- What `free_mourant_queue` makes of a process: only the dead are freed. -/
def Survit (p : Ptr) (s s' : Core) : Prop :=
  (Inchange p s s' ∧ ((s'.tas p).etat.mort = true → (s.tas p).etat.mort = true)) ∨
    ((s.tas p).etat.mort = true ∧ s'.vivant p = false ∧ Muet p s s')

theorem Coherent.survit_pas (h : Coherent s) (hv : s.vivant p = true) (hl : Liberation s s') :
    Survit p s s' := by
  obtain ⟨q, adr, n, hq, hn, L⟩ := h.liberation_spec hl
  have hj : Muet p s s' := ⟨[.libere q], L.journal, by simp [Evenement.acteur]⟩
  by_cases hp : p = q
  · subst hp
    refine .inr ⟨?_, ?_, hj⟩
    · rw [h.etat_of_lien hq]
      rfl
    · rw [L.vivant, if_pos rfl]
  refine .inl ⟨.deplace ?_ ?_ ?_ ?_ L.file L.sem hj, ?_⟩
  · rw [L.vivant, if_neg hp]
    exact hv
  · rw [L.etat_eq]
    split
    · next hz =>
      rw [hz.2]
      exact .condamne
    · exact .reste
  · rw [L.tas p]
    split
    · split <;> exact ⟨rfl, rfl, rfl, rfl, rfl⟩
    · exact ⟨rfl, rfl, rfl, rfl, rfl⟩
  · intro t hx
    rw [L.lien, if_neg hp] at hx
    split at hx
    · cases hx
      exact .inl ⟨by simp, by simp⟩
    · exact .inr hx
  · rw [L.etat_eq]
    split
    · next hz =>
      intro _
      rw [hz.2]
      rfl
    · exact id

theorem Coherent.survit (h : Coherent s) (hv : s.vivant p = true)
    (hl : Relation.ReflTransGen Liberation s s') : Survit p s s' := by
  induction hl with
  | refl => exact .inl ⟨.refl hv, id⟩
  | @tail s₁ s₂ hrest hlast ih =>
    have hc := h.liberation hrest
    rcases ih with ⟨h₁, hm₁⟩ | ⟨hm, hv₁, hj₁⟩
    · rcases hc.survit_pas h₁.vivant hlast with ⟨h₂, hm₂⟩ | ⟨hm₂, hv₂, hj₂⟩
      · exact .inl ⟨h₁.trans h₂, fun hm => hm₁ (hm₂ hm)⟩
      · exact .inr ⟨hm₁ hm₂, hv₂, h₁.journal.trans hj₂⟩
    · obtain ⟨q, adr, n, -, -, L⟩ := hc.liberation_spec hlast
      refine .inr ⟨hm, ?_, hj₁.trans ⟨[.libere q], L.journal, by simp [Evenement.acteur]⟩⟩
      rw [L.vivant, hv₁, ite_self]

theorem Survit.evolue (h : Survit p s s') : Evolue p s s' := by
  rcases h with ⟨h, -⟩ | ⟨hm, hv, hj⟩
  · exact .reste h
  · exact .libere hm hv hj

/-- Releasing the processes that wait on a semaphore. -/
theorem Stable.evolue_rejets (h : Stable s) (hv : s.vivant p = true) {sid status : Int}
    {sem : Semaphore} (hs : s.tableauSem sid = some sem) (hst : status = -3 ∨ status = -4)
    (hr : Relation.ReflTransGen (Rejet sid sem status) s s') :
    Evolue p s s' ∧ s'.vivant p = true := by
  induction hr with
  | refl => exact ⟨.reste (.refl hv), hv⟩
  | @tail s₁ s₂ hrest hlast ih =>
    obtain ⟨hev, hv₁⟩ := ih
    obtain ⟨q, hq, rfl⟩ := hlast
    have hlq : s₁.lien q = some (.semaphore sid) := LinkedQueues.link_of_top hq
    refine ⟨?_, hv₁⟩
    by_cases hp : p = q
    · subst hp
      cases hev with
      | reste h₁ =>
        obtain ⟨j, hj, hmuet⟩ := h₁.journal
        have htab := (h.rejets hrest).2
        obtain ⟨hl, -⟩ := h₁.sem sid sem hlq (by rw [htab]; exact hs)
        have ht : ((s₁.eveille p fun r => { r with operationStatus := status }).note
            (.semRejet sem.adr p status)).tas p =
              { s₁.tas p with operationStatus := status, etat := .activable } := by
          rw [Core.note_tas, Core.tas_eveille, if_pos rfl]
        have hj' : s₁.journal ++ [.semRejet sem.adr p status] =
            s.journal ++ j ++ [.semRejet sem.adr p status] := by rw [hj]
        refine .relache (.rejet hl hs hst) hv₁ ?_ ?_ ?_ ?_ ?_ ?_ hj' ⟨hmuet, nofun⟩
        · rw [ht]
          exact .reste
        · rw [ht]
          exact h₁.contexte
        · rw [ht]
        · rw [ht]
          exact h₁.valeur
        · rw [ht]
          exact h₁.retval
        · rw [ht]
          exact h₁.pid
      | libere _ hv' _ =>
        rw [hv₁] at hv'
        cases hv'
      | relache _ _ he =>
        -- a process already released is not in the list any more
        have het := (h.rejets hrest).1.coherent.etat_of_lien hlq
        rw [het] at he
        cases he with
        | meurt _ hm => cases hm
    · refine hev.puis (fun _ => ((Inchange.refl hv₁).eveille hp).note ?_) ?_
      · simpa [Evenement.acteur] using Ne.symm hp
      · intro hx
        rw [hv₁] at hx
        cases hx

theorem Quiet.evolue {l : Etiquette} (h : Stable s) (he : s.EnCours) (hv : s.vivant p = true)
    (hp : p ≠ s.procElu) (q : Quiet l s s') : Evolue p s s' := by
  have hc := h.coherent
  have r := Inchange.refl hv
  have muet : ∀ {e : Evenement}, e.acteur = some s.procElu → e.acteur ≠ some p := by
    intro e he' hx
    rw [he'] at hx
    exact hp (Option.some.inj hx).symm
  -- a process other than `p` is released
  have autre : ∀ {q : Ptr}, p ≠ q → ∀ {e : Evenement}, e.acteur = some q → e.acteur ≠ some p := by
    intro q hq e he' hx
    rw [he'] at hx
    exact hq (Option.some.inj hx).symm
  have prio : ∀ {q : Ptr} {t : Tete} {n : Int}, s.lien q = some t → Inchange p s
      (((s.maj q fun r => { r with prio := n }).retire q).ajoute t q (·.prio)) := by
    intro q t n hl
    have hlien := Core.lien_deplace (s := s) (u := s.maj q fun r => { r with prio := n }) (p := q)
      (x := p) (t := t) (k := (·.prio)) rfl
    refine .deplace hv ?_ ?_ ?_ rfl rfl (.de rfl)
    · simp only [Core.ajoute_tas, Core.retire_tas, Core.tas_maj]
      split
      · next hx => rw [hx]; exact .reste
      · exact .reste
    · simp only [Core.ajoute_tas, Core.retire_tas, Core.tas_maj]
      split
      · next hx => rw [hx]; exact ⟨rfl, rfl, rfl, rfl, rfl⟩
      · exact ⟨rfl, rfl, rfl, rfl, rfl⟩
    · intro t' ht'
      rw [hlien] at ht'
      split at ht'
      · next hx => rw [hx, hl]; exact .inr ht'
      · exact .inr ht'
  cases q with
  | alloue hn => exact .reste (.neutre hv rfl rfl rfl rfl (.de rfl))
  | ecriture adr w => exact .reste (r.ecrit hp.symm)
  | attente pid ret => exact .reste (r.note (muet rfl))
  | rendPid hl hn ht => exact .reste (.neutre hv (ht p (hc.ancien p hv)) rfl rfl rfl (.de rfl))
  | @cree _ q rq cell reste adr n hl hq hn hpid hetat hctx hfils hprio hret =>
    have hpq : p ≠ q := fun hx => absurd (hx ▸ hc.ancien p hv) (not_lt.mpr hq)
    refine .reste (.neutre ?_ ?_ ?_ rfl rfl ⟨[.cree _ q rq.pid], rfl, by simp [Evenement.acteur]⟩)
    · show Function.update s.vivant q true p = true
      rwa [Function.update_of_ne hpq]
    · show (if p = q then _ else if p = s.procElu ∧ _ then _ else s.tas p) = s.tas p
      rw [if_neg hpq, if_neg fun hx => hp hx.1]
    · exact Core.lien_ajoute_of_ne hpq
  | chprioElu hn hidle => exact .reste (r.maj hp)
  | @chprioActivable _ q n hn hvq hpid hq hq' =>
    have hpl := hc.place q hvq
    unfold Core.Place at hpl
    rw [hq'] at hpl
    exact .reste (prio hpl)
  | @chprioFile _ q n hn hvq hpid hq hq' =>
    have hpl := hc.place q hvq
    unfold Core.Place at hpl
    rw [hq'] at hpl
    exact .reste (prio hpl)
  | @chprioAutre _ q n hn hvq hpid hq hq' hq'' =>
    refine .reste (.deplace hv ?_ ?_ (fun t ht => .inr ht) rfl rfl (.de rfl))
    · rw [Core.tas_maj]
      split
      · next hx => rw [hx]; exact .reste
      · exact .reste
    · rw [Core.tas_maj]
      split
      · next hx => rw [hx]; exact ⟨rfl, rfl, rfl, rfl, rfl⟩
      · exact ⟨rfl, rfl, rfl, rfl, rfl⟩
  | @tueZombie _ q pere t hpid hq hz hm ht hpere =>
    have hpv := (hc.pere q pere (hc.lie q t ht) hm hpere).1
    -- the victim first, then its father
    have h₁ : Inchange p s (((s.note (.tue q)).retire q).maj q fun r => { r with etat := .zombie }) := by
      refine .deplace hv ?_ ?_ ?_ rfl rfl ⟨[.tue q], rfl, by simp [Evenement.acteur]⟩
      · rw [Core.tas_maj]
        split
        · next hx =>
          rw [hx]
          refine .meurt ?_ rfl
          cases het : (s.tas q).etat <;> simp_all [Etat.mort]
        · exact .reste
      · rw [Core.tas_maj]
        split
        · next hx => rw [hx]; exact ⟨rfl, rfl, rfl, rfl, rfl⟩
        · exact ⟨rfl, rfl, rfl, rfl, rfl⟩
      · intro t' ht'
        rw [Core.lien_maj, Core.lien_retire] at ht'
        split at ht'
        · cases ht'
        · exact .inr ht'
    refine .reste (h₁.trans (Evolue.reveillePere h₁.vivant fun hx => ?_))
    rw [Core.lien_maj, Core.lien_retire]
    split
    · rfl
    · next hne =>
      rw [Core.tas_maj, if_neg hne] at hx
      exact hc.lien_of_attendFils hpv hx
  | @tueMourant _ q t hpid hq hz hm ht hpere =>
    have h₁ : Inchange p s ((((s.note (.tue q)).retire q).maj q
        fun r => { r with etat := .mourant }).ajoute .procMourants q (·.prio)) := by
      refine .deplace hv ?_ ?_ ?_ rfl rfl ⟨[.tue q], rfl, by simp [Evenement.acteur]⟩
      · rw [Core.ajoute_tas, Core.tas_maj]
        split
        · next hx =>
          rw [hx]
          refine .meurt ?_ rfl
          cases het : (s.tas q).etat <;> simp_all [Etat.mort]
        · exact .reste
      · rw [Core.ajoute_tas, Core.tas_maj]
        split
        · next hx => rw [hx]; exact ⟨rfl, rfl, rfl, rfl, rfl⟩
        · exact ⟨rfl, rfl, rfl, rfl, rfl⟩
      · intro t' ht'
        rw [Core.lien_ajoute (by simp [Core.lien_retire])] at ht'
        split at ht'
        · cases ht'
          exact .inl ⟨by simp, by simp⟩
        · next hne =>
          rw [Core.lien_maj, Core.lien_retire, if_neg hne] at ht'
          exact .inr ht'
    exact .reste h₁
  | @recolte _ c l hcf hz hl =>
    have hce := Coherent.ne_procElu_of_zombie he hz
    have hcl := hc.lien_of_zombie (hc.fils _ c he.vivant hcf).1 hz
    have ht : (s.recolte c l).tas p =
        if p = c then { s.tas c with etat := .mourant, pere := none } else s.tas p := by
      rw [Core.tas_recolte, if_neg hce, if_neg hp]
    refine .reste (.deplace hv ?_ ?_ ?_ rfl rfl ⟨[.recolte s.procElu c], rfl, ?_⟩)
    · rw [ht]
      split
      · next hx => rw [hx, hz]; exact .condamne
      · exact .reste
    · rw [ht]
      split
      · next hx => rw [hx]; exact ⟨rfl, rfl, rfl, rfl, rfl⟩
      · exact ⟨rfl, rfl, rfl, rfl, rfl⟩
    · intro t' ht'
      rw [Core.lien_recolte hcl] at ht'
      split at ht'
      · cases ht'
        exact .inl ⟨by simp, by simp⟩
      · exact .inr ht'
    · intro e hx
      rw [List.mem_singleton.mp hx]
      exact muet rfl
  | liberation hl hvide => exact (hc.survit hv hl).evolue
  | @reveil _ q hq =>
    have hl : s.lien q = some .procEndormis := LinkedQueues.link_of_mem hq
    by_cases hpq : p = q
    · subst hpq
      exact .eveille hv (by rw [hc.etat_of_lien hl]; rfl)
    · exact .reste (r.eveille hpq)
  | @reveilEs _ q hq =>
    have hl : s.lien q = some .procBloqueEs := LinkedQueues.link_of_top hq
    by_cases hpq : p = q
    · subst hpq
      exact .eveille hv (by rw [hc.etat_of_lien hl]; rfl)
    · exact .reste (r.eveille hpq)
  | @creeFile _ fid n adr l cell m hl hfid h0 hN hn hadr hm =>
    have hnone := hfid ▸ (hc.fidLibre cell (by rw [hl]; simp)).2.2
    have hlien : (s.chainage.reset (.file fid)).link p = s.lien p := by
      refine LinkedQueues.link_reset.trans (if_neg fun hx => ?_)
      obtain ⟨f, hf⟩ := hc.lieFile p fid hx
      rw [hnone] at hf
      cases hf
    refine .reste ⟨hv, .reste, rfl, rfl, rfl, rfl, rfl, ?_, ?_, .de rfl⟩
    · intro i f' hx hf'
      have hx' : s.lien p = some (.file i) := hlien.symm.trans hx
      have hi : i ≠ fid := by
        rintro rfl
        obtain ⟨f, hf⟩ := hc.lieFile p i hx'
        rw [hnone] at hf
        cases hf
      exact ⟨hx', f', (Function.update_of_ne hi _ _).symm.trans hf', rfl⟩
    · exact fun sid sem hx hs => ⟨hlien.symm.trans hx, sem, hs, rfl⟩
  | @echec _ fid f q hf hq =>
    have hl : s.lien q = some (.file fid) := LinkedQueues.link_of_top hq
    by_cases hpq : p = q
    · subst hpq
      refine .fin (i := -1) (j := []) (.echec hl hf) hv ?_ rfl (by simp)
      rw [Core.note_tas, Core.tas_eveille, if_pos rfl]
    · exact .reste ((r.eveille hpq).note (autre hpq rfl))
  | vide hf hq => exact .reste ((r.majFile hf).note (by intro hx; cases hx))
  | @supprimeFile _ fid f adr n hf hq hn =>
    refine .reste (.tables rfl ?_ (fun _ sem hs => ⟨sem, hs, rfl⟩) hv rfl (.de rfl))
    intro i f' hf'
    by_cases hi : i = fid
    · subst hi
      cases (Function.update_self i none s.tableauFile).symm.trans hf'
    · exact ⟨f', (Function.update_of_ne hi _ _).symm.trans hf', rfl⟩
  | @remis _ fid v f q hidle hf hvide hq =>
    have hl : s.lien q = some (.file fid) := LinkedQueues.link_of_top hq
    by_cases hpq : p = q
    · subst hpq
      refine .fin (i := -1) (j := [.emission f.adr s.procElu v, .accepte f.adr s.procElu v])
        (.livre (v := v) hl hf hvide) hv ?_ ?_ ?_
      · simp [Core.emet, Core.tas_eveille, hp]
      · simp [Core.emet, Core.eveille]
      · simpa [Evenement.acteur] using hp.symm
    · exact .reste ((((r.emet hp.symm).eveille hpq).note (muet rfl)).note (autre hpq rfl))
  | depose hidle hf hnon hlt hn =>
    exact .reste ((((r.emet hp.symm).majFile hf).alloue).note (muet rfl))
  | prend hidle hf hl hq =>
    exact .reste ((((r.recoit hp.symm).majFile hf).note (muet rfl)).ecrit hp.symm)
  | @relaye _ fid f l msg q adr m n hidle hf hl hq hn =>
    have hlq : s.lien q = some (.file fid) := LinkedQueues.link_of_top hq
    by_cases hpq : p = q
    · subst hpq
      refine .fin (i := -1) (j := [.reception f.adr s.procElu m,
        .livre f.adr s.procElu msg.message] ++
          if m = 0 then [] else [.ecriture s.procElu m (BitVec.ofInt 32 msg.message)])
        (.accepte hlq hf (by rw [hl]; simp)) hv ?_ ?_ ?_
      · simp [Core.recoit, Core.tas_eveille, hp]
      · simp [Core.recoit, Core.eveille]
      · intro e hx
        refine muet ?_
        simp only [List.cons_append, List.nil_append, List.mem_cons] at hx
        rcases hx with rfl | rfl | hx
        · rfl
        · rfl
        · split at hx
          · cases hx
          · rw [List.mem_singleton.mp hx]
            rfl
    · exact .reste ((((((r.recoit hp.symm).majFile hf).alloue.note (muet rfl)).ecrit
        hp.symm).note (autre hpq rfl)).eveille hpq)
  | @creeSem _ sid n adr l cell m sem hl hsid h0 hsem hadr hfrais hm =>
    have hnone := hsid ▸ (hc.sidLibre cell (by rw [hl]; simp)).2.2
    have hlien : (s.chainage.reset (.semaphore sid)).link p = s.lien p := by
      refine LinkedQueues.link_reset.trans (if_neg fun hx => ?_)
      obtain ⟨sem, hs⟩ := hc.lieSem p sid hx
      rw [hnone] at hs
      cases hs
    refine .reste ⟨hv, .reste, rfl, rfl, rfl, rfl, rfl, ?_, ?_, ⟨[.semCree adr n], rfl, ?_⟩⟩
    · exact fun fid f hx hf => ⟨hlien.symm.trans hx, f, hf, rfl⟩
    · intro i sem' hx hs'
      have hx' : s.lien p = some (.semaphore i) := hlien.symm.trans hx
      have hi : i ≠ sid := by
        rintro rfl
        obtain ⟨sem, hs⟩ := hc.lieSem p i hx'
        rw [hnone] at hs
        cases hs
      exact ⟨hx', sem', (Function.update_of_ne hi _ _).symm.trans hs', rfl⟩
    · simp [Evenement.acteur]
  | rendSid hl hn => exact .reste (.neutre hv rfl rfl rfl rfl (.de rfl))
  | @sdelete _ s₁ sid sem adr n b hs hrej hvide hn hb =>
    obtain ⟨hev, hv₁⟩ := h.evolue_rejets hv hs (.inl rfl) hrej
    refine hev.puis (fun _ => .tables rfl (fun _ f hf => ⟨f, hf, rfl⟩) ?_ hv₁ rfl (.de rfl)) ?_
    · intro i sem' hs'
      by_cases hi : i = sid
      · subst hi
        rw [Core.majSem_tableauSem, Function.update_self] at hs'
        cases hs'
      · exact ⟨sem', (Function.update_of_ne hi _ _).symm.trans hs', rfl⟩
    · intro hx
      rw [hv₁] at hx
      cases hx
  | @sreset _ s₁ sid n sem b hs hrej hvide h0 hcn hb =>
    obtain ⟨hev, hv₁⟩ := h.evolue_rejets hv hs (.inr rfl) hrej
    have hs₁ : s₁.tableauSem sid = some sem := by rw [(h.rejets hrej).2, hs]
    refine hev.puis (fun _ => (Inchange.refl hv₁).majSem hs₁) ?_
    intro hx
    rw [hv₁] at hx
    cases hx
  | signale hs hmax hpos => exact .reste ((r.majSem hs).note (by intro hx; cases hx))
  | @signaleReveil _ sid sem q hs hmax hneg hq =>
    have hl : s.lien q = some (.semaphore sid) := LinkedQueues.link_of_top hq
    by_cases hpq : p = q
    · subst hpq
      refine .fin (i := (s.tas p).fid) (j := [.semUnite sem.adr s.procElu]) (.accorde hl hs) hv ?_ ?_ ?_
      · simp [Core.tas_eveille]
      · simp [Core.eveille]
      · simp [Evenement.acteur]
    · exact .reste ((((r.majSem hs).note (by simp [Evenement.acteur])).eveille hpq).note (autre hpq rfl))
  | prendSem hs hpos => exact .reste (((r.majSem hs).note (muet rfl)).note (muet rfl))

-- ---------------------------------------------------------------------------
-- Leaving the processor
-- ---------------------------------------------------------------------------

/-- The elected process leaves the processor: the others are not concerned. -/
theorem Sortie.inchange {m : Motif} {k : Reprise} (h : Stable s) (he : s.EnCours)
    (hv : s.vivant p = true) (hp : p ≠ s.procElu) (q : Sortie m k s s') :
    Inchange p s (s'.empile k) := by
  have hc := h.coherent
  have r := Inchange.refl hv
  have muet : ∀ {e : Evenement}, e.acteur = some s.procElu → e.acteur ≠ some p := by
    intro e he' hx
    rw [he'] at hx
    exact hp (Option.some.inj hx).symm
  have bloqueFile : ∀ {s₁ : Core} {fid : Int}, Inchange p s s₁ → s₁.procElu = s.procElu →
      Inchange p s (s₁.bloqueFile fid) := by
    intro s₁ fid h₁ helu
    have hp₁ : p ≠ s₁.procElu := by rwa [helu]
    exact ((h₁.ajoute hp₁).maj (q := s₁.procElu) hp₁).maj (q := s₁.procElu) hp₁
  cases q with
  | suspend hk => exact r.maj hp
  | endort hidle => exact ((r.maj hp).ajoute hp).maj hp
  | emission hidle hf hnon hplein => exact (bloqueFile (r.emet hp.symm) rfl).maj hp
  | reception hidle hf hvide => exact (bloqueFile (r.recoit hp.symm) rfl).maj hp
  | wait hidle hs hmin hneg =>
    exact ((((r.majSem hs).note (muet rfl)).maj hp).ajoute hp).maj hp
  | consRead hidle => exact ((r.maj hp).ajoute hp).maj hp
  | waitpid hidle hcf hpid h0 hz => exact (r.maj hp).maj hp
  | waitpidFils hidle hne hz h0 => exact (r.maj hp).maj hp
  | @exitZombie _ v pere hidle hpere =>
    have hpv := (hc.pere _ pere he.vivant (by rw [he.etat]; decide) hpere).1
    have h₁ : Inchange p s (((s.maj s.procElu fun r => { r with retval := v }).note
        (.exit s.procElu v)).maj s.procElu fun r => { r with etat := .zombie }) :=
      ((r.maj hp).note (by simp [Evenement.acteur])).maj hp
    have h₂ := h₁.trans (Evolue.reveillePere (q := pere) h₁.vivant fun hx => ?_)
    · have helu : ((((s.maj s.procElu fun r => { r with retval := v }).note
          (.exit s.procElu v)).maj s.procElu fun r => { r with etat := .zombie }).reveillePere
            pere).procElu = s.procElu := Stable.champs_reveillePere.1
      exact h₂.maj (by rw [helu]; exact hp)
    · by_cases hpe : pere = s.procElu
      · rw [hpe]
        exact hc.lien_procElu he
      · refine hc.lien_of_attendFils hpv ?_
        simpa [hpe] using hx
  | exitMourant hidle hpere => exact (((r.maj hp).note (by simp [Evenement.acteur])).maj hp).maj hp
  | suicideZombie hidle hpere => exact ((r.note (by simp [Evenement.acteur])).maj hp).maj hp
  | suicideMourant hidle hpere => exact ((r.note (by simp [Evenement.acteur])).maj hp).maj hp

/-- What an election leaves of a process: it only exchanges the states of the
process that is elected and of the one that is not any more. -/
structure Reste (p : Ptr) (s s' : Core) : Prop where
  vivant : s'.vivant p = s.vivant p
  etat : (s'.tas p).etat = (s.tas p).etat ∨
    ((s.tas p).etat = .elu ∨ (s.tas p).etat = .activable) ∧
      ((s'.tas p).etat = .elu ∨ (s'.tas p).etat = .activable)
  contexte : (s'.tas p).contexte = (s.tas p).contexte
  statut : (s'.tas p).operationStatus = (s.tas p).operationStatus
  valeur : (s'.tas p).fileValue = (s.tas p).fileValue
  retval : (s'.tas p).retval = (s.tas p).retval
  pid : (s'.tas p).pid = (s.tas p).pid
  lien : ∀ t, s'.lien p = some t → t = .procMourants ∨ t = .procActivables ∨ s.lien p = some t
  file : s'.tableauFile = s.tableauFile
  sem : s'.tableauSem = s.tableauSem
  journal : s'.journal = s.journal

namespace Reste

theorem refl : Reste p s s :=
  ⟨rfl, .inl rfl, rfl, rfl, rfl, rfl, rfl, fun _ ht => .inr (.inr ht), rfl, rfl, rfl⟩

theorem trans {s'' : Core} (h : Reste p s s') (h' : Reste p s' s'') : Reste p s s'' where
  vivant := h'.vivant.trans h.vivant
  etat := by
    rcases h'.etat with he' | ⟨he', he''⟩
    · rw [he']
      exact h.etat
    · rcases h.etat with he | ⟨he, -⟩
      · rw [he] at he'
        exact .inr ⟨he', he''⟩
      · exact .inr ⟨he, he''⟩
  contexte := h'.contexte.trans h.contexte
  statut := h'.statut.trans h.statut
  valeur := h'.valeur.trans h.valeur
  retval := h'.retval.trans h.retval
  pid := h'.pid.trans h.pid
  lien t ht := by
    rcases h'.lien t ht with hx | hx | hx
    · exact .inl hx
    · exact .inr (.inl hx)
    · exact h.lien t hx
  file := h'.file.trans h.file
  sem := h'.sem.trans h.sem
  journal := h'.journal.trans h.journal

theorem ajoute {q : Ptr} {t : Tete} (ht : t = .procMourants ∨ t = .procActivables) :
    Reste p s (s.ajoute t q (·.prio)) := by
  refine ⟨rfl, .inl rfl, rfl, rfl, rfl, rfl, rfl, ?_, rfl, rfl, rfl⟩
  intro t' ht'
  by_cases hl : s.lien q = none
  · rw [Core.lien_ajoute hl] at ht'
    split at ht'
    · cases ht'
      rcases ht with rfl | rfl
      · exact .inl rfl
      · exact .inr (.inl rfl)
    · exact .inr (.inr ht')
  · refine .inr (.inr ?_)
    have : (s.chainage.add t q fun x => (s.tas x).prio).link p = some t' := ht'
    rwa [LinkedQueues.add, dif_neg hl] at this

/-- A process that was elected or activable becomes the other. -/
theorem maj {q : Ptr} {et : Etat} (hq : (s.tas q).etat = .elu ∨ (s.tas q).etat = .activable)
    (het : et = .elu ∨ et = .activable) : Reste p s (s.maj q fun r => { r with etat := et }) := by
  by_cases hp : p = q
  · subst hp
    refine ⟨rfl, .inr ⟨hq, ?_⟩, ?_, ?_, ?_, ?_, ?_, fun _ ht => .inr (.inr ht), rfl, rfl, rfl⟩ <;>
      rw [Core.tas_maj, if_pos rfl]
    exact het
  · refine ⟨rfl, .inl ?_, ?_, ?_, ?_, ?_, ?_, fun _ ht => .inr (.inr ht), rfl, rfl, rfl⟩ <;>
      rw [Core.tas_maj, if_neg hp]

theorem depose : Reste p s s.depose := by
  unfold Core.depose
  split
  · exact ajoute (.inl rfl)
  · next hq => exact (maj (.inl hq) (.inr rfl)).trans (ajoute (.inr rfl))
  · next hq => exact (maj (.inr hq) (.inr rfl)).trans (ajoute (.inr rfl))
  · exact refl

theorem elit {q : Ptr} (hq : (s.tas q).etat = .activable) : Reste p s (s.elit q) := by
  have h₁ : Reste p s (s.retire q) := by
    refine ⟨rfl, .inl rfl, rfl, rfl, rfl, rfl, rfl, ?_, rfl, rfl, rfl⟩
    intro t ht
    rw [Core.lien_retire] at ht
    split at ht
    · cases ht
    · exact .inr (.inr ht)
  have h₂ := h₁.trans (maj (q := q) (.inr hq) (.inl rfl))
  exact ⟨h₂.vivant, h₂.etat, h₂.contexte, h₂.statut, h₂.valeur, h₂.retval, h₂.pid, h₂.lien, h₂.file,
    h₂.sem, h₂.journal⟩

end Reste

theorem Election.reste (h : Stable s) (hvide : s.elems .procMourants = []) (hel : Election s s')
    (hna : (s.tas s.procElu).etat ≠ .activable) : Reste p s s' := by
  cases hel with
  | aucune _ => exact .refl
  | elit hv hq =>
    have hd := h.depose hv hna hvide
    exact Reste.depose.trans (.elit (hd.stable.coherent.etat_of_lien (LinkedQueues.link_of_top hq)))

-- ---------------------------------------------------------------------------
-- Allocated addresses
-- ---------------------------------------------------------------------------

/-- An address is allocated once: it is used again neither by a process nor by
any other block. -/
structure Vieillit (s s' : Core) : Prop where
  prochain : s.prochain ≤ s'.prochain
  vivant : ∀ p, p < s.prochain → s.vivant p = false → s'.vivant p = false

namespace Vieillit

theorem refl : Vieillit s s := ⟨le_rfl, fun _ _ h => h⟩

theorem trans {s'' : Core} (h : Vieillit s s') (h' : Vieillit s' s'') : Vieillit s s'' :=
  ⟨h.prochain.trans h'.prochain, fun p hp hv =>
    h'.vivant p (hp.trans_le h.prochain) (h.vivant p hp hv)⟩

theorem de (hp : s.prochain ≤ s'.prochain) (hv : s'.vivant = s.vivant) : Vieillit s s' :=
  ⟨hp, fun p _ h => by rw [hv]; exact h⟩

theorem rejets {sid status : Int} {sem : Semaphore}
    (hr : Relation.ReflTransGen (Rejet sid sem status) s s') : Vieillit s s' := by
  induction hr with
  | refl => exact refl
  | tail _ hlast ih =>
    obtain ⟨q, hq, rfl⟩ := hlast
    exact ih.trans (.de le_rfl rfl)

theorem liberation_pas (h : Coherent s) (hl : Liberation s s') : Vieillit s s' := by
  obtain ⟨q, adr, n, hq, hn, L⟩ := h.liberation_spec hl
  refine ⟨by rw [L.prochain]; exact hn, ?_⟩
  intro p _ hv
  rw [L.vivant, hv, ite_self]

theorem liberation (h : Coherent s) (hl : Relation.ReflTransGen Liberation s s') :
    Vieillit s s' := by
  induction hl with
  | refl => exact refl
  | tail hrest hlast ih => exact ih.trans (liberation_pas (h.liberation hrest) hlast)

theorem reveillePere (h : Vieillit s s') {q : Ptr} : Vieillit s (s'.reveillePere q) := by
  unfold Core.reveillePere
  split
  · exact h.trans (.de le_rfl rfl)
  · exact h

end Vieillit

theorem Quiet.vieillit {l : Etiquette} (h : Stable s) (q : Quiet l s s') : Vieillit s s' := by
  have memes : ∀ {s₁ : Core}, s₁.prochain = s.prochain → s₁.vivant = s.vivant → Vieillit s s₁ :=
    fun hp hv => .de hp.ge hv
  cases q with
  | alloue hn => exact .de hn rfl
  | rendPid hl hn ht => exact .de hn rfl
  | @cree _ p r cell reste adr n hl hp hn hpid hetat hctx hfils hprio hret =>
    refine ⟨hp.trans hn.le, ?_⟩
    intro x hx hv
    exact (Function.update_of_ne (hx.trans_le hp).ne _ _).trans hv
  | tueZombie hpid hp hz hm ht hpere =>
    refine .reveillePere ?_
    exact memes rfl rfl
  | liberation hl hvide => exact .liberation h.coherent hl
  | creeFile hl hfid h0 hN hn hadr hm => exact .de (hadr.trans hm.le) rfl
  | supprimeFile hf hp hn => exact .de hn rfl
  | depose hidle hf hnon hlt hn => exact .de hn rfl
  | relaye hidle hf hl hp hn => exact .de hn rfl
  | creeSem hl hsid h0 hsem hadr hfrais hm => exact .de (hfrais.trans hm.le) rfl
  | rendSid hl hn => exact .de hn rfl
  | sdelete hs hr hp hn hb => exact (Vieillit.rejets hr).trans (.de hn rfl)
  | sreset hs hr hp h0 hc hb => exact (Vieillit.rejets hr).trans (.de le_rfl rfl)
  | _ => exact memes rfl rfl

theorem Sortie.vieillit {m : Motif} {k : Reprise} (q : Sortie m k s s') :
    Vieillit s (s'.empile k) := by
  suffices hv : Vieillit s s' from hv.trans (.de le_rfl rfl)
  cases q with
  | exitZombie hidle hpere =>
    refine .reveillePere ?_
    exact .de le_rfl rfl
  | _ => exact .de le_rfl rfl

theorem Election.vieillit (h : Stable s) (hvide : s.elems .procMourants = []) (hel : Election s s')
    (hna : (s.tas s.procElu).etat ≠ .activable) : Vieillit s s' := by
  refine ⟨?_, fun p _ hv => by rw [(hel.reste (p := p) h hvide hna).vivant, hv]⟩
  cases hel with
  | aucune _ => exact le_rfl
  | elit _ _ =>
    refine le_of_eq ?_
    show s.prochain = s.depose.prochain
    unfold Core.depose
    split <;> rfl

end

end GenesisOS
