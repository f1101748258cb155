import GenesisOS.Invariants.Files
import GenesisOS.Invariants.Filiation
import GenesisOS.Lib.Trace

/-!
# GenesisOS — the calls in progress

What the journal tells of the call a process is in: the events of the process
since its last return (`appelEnCours`). `Verdict` says which value a call
returns after which events, and `Suspens` what the kernel variables keep of a
call that is suspended, from which its end will compute that value:

* a process still waiting has recorded the beginning of its call, and waits in
  the queue of the file or semaphore it names;
* a process that was released finds in `operationStatus` and `fileValue` what
  the event that released it recorded;
* whatever happens to other processes changes neither (`Suspens.evolue`).
-/

namespace GenesisOS

open Lib

-- ---------------------------------------------------------------------------
-- Events of a process
-- ---------------------------------------------------------------------------

def Evenement.estRetour : Evenement → Bool
  | .retour .. => true
  | _ => false

/-- The events of the process `p`. -/
def evenementsDe (p : Ptr) (j : List Evenement) : List Evenement :=
  j.filter fun e => e.acteur = some p

/-- The events of the call that the process `p` is in. -/
def appelEnCours (p : Ptr) (j : List Evenement) : List Evenement :=
  since Evenement.estRetour (evenementsDe p j)

section

variable {p : Ptr} {j k : List Evenement} {e : Evenement}

theorem evenementsDe_append : evenementsDe p (j ++ k) = evenementsDe p j ++ evenementsDe p k :=
  List.filter_append ..

theorem evenementsDe_muet (h : ∀ e ∈ j, e.acteur ≠ some p) : evenementsDe p j = [] := by
  refine List.filter_eq_nil_iff.mpr ?_
  intro e he
  simpa using h e he

@[simp] theorem appelEnCours_nil : appelEnCours p [] = [] := rfl

/-- What others do is no part of the call. -/
theorem appelEnCours_muet (h : ∀ e ∈ k, e.acteur ≠ some p) :
    appelEnCours p (j ++ k) = appelEnCours p j := by
  rw [appelEnCours, evenementsDe_append, evenementsDe_muet h, List.append_nil]
  rfl

theorem appelEnCours_append (h : ∀ e ∈ k, e.estRetour = false) :
    appelEnCours p (j ++ k) = appelEnCours p j ++ evenementsDe p k := by
  rw [appelEnCours, evenementsDe_append]
  refine since_append ?_
  intro e he
  exact h e (List.mem_of_mem_filter he)

theorem appelEnCours_concat (he : e.acteur = some p) (hr : e.estRetour = false) :
    appelEnCours p (j ++ [e]) = appelEnCours p j ++ [e] := by
  rw [appelEnCours_append (by simpa using hr)]
  simp [evenementsDe, he]

theorem appelEnCours_retour {v : Int} : appelEnCours p (j ++ [.retour p v]) = [] := by
  simp [appelEnCours, evenementsDe, Evenement.acteur, since_concat, Evenement.estRetour]

end

-- ---------------------------------------------------------------------------
-- What a call returns
-- ---------------------------------------------------------------------------

/-- The store of a word through a pointer that may be null. -/
def stocke (p : Ptr) (adr : Nat) (w : BitVec 32) : List Evenement :=
  if adr = 0 then [] else [.ecriture p adr w]

/-- The value `v` that a call of `p` returns after the events `l`. -/
inductive Verdict (p : Ptr) : List Evenement → Int → Prop
  /-- A call that is refused, or of which the journal records nothing else. -/
  | autre {l : List Evenement} {v : Int} (h : ∀ e ∈ l, ∃ adr w, e = .ecriture p adr w) :
      Verdict p l v
  | emis {f : Ptr} {v : Int} : Verdict p [.emission f p v, .accepte f p v] 0
  | emisEchec {f : Ptr} {v : Int} : Verdict p [.emission f p v, .echec f p] (-1)
  | recu {f : Ptr} {m : Nat} {v : Int} :
      Verdict p ([.reception f p m, .livre f p v] ++ stocke p m (BitVec.ofInt 32 v)) 0
  | recuEchec {f : Ptr} {m : Nat} : Verdict p [.reception f p m, .echec f p] (-1)
  | accorde {a : Ptr} : Verdict p [.semPrise a p, .semAccorde a p] 0
  | rejete {a : Ptr} {v : Int} (hv : v < 0) : Verdict p [.semPrise a p, .semRejet a p v] v
  | sansFils {pid : Int} {r : Nat} : Verdict p [.attente p pid r] (-1)
  | recolte {pid v w : Int} {r : Nat} {c : Ptr} (h0 : 0 ≤ v) (hpid : 0 ≤ pid → v = pid) :
      Verdict p ([.attente p pid r, .recolte p c] ++ stocke p r (BitVec.ofInt 32 w)) v

/-- Every call that has returned has returned what its events say. -/
def Reponses (j : List Evenement) : Prop :=
  Justified (fun j e => ∀ p v, e = .retour p v → Verdict p (appelEnCours p j) v) j

theorem Reponses.append {j k : List Evenement} (h : Reponses j)
    (hk : ∀ e ∈ k, e.estRetour = false) : Reponses (j ++ k) := by
  refine Justified.append h ?_
  rintro _ he j p v rfl
  exact absurd (hk _ he) (by simp [Evenement.estRetour])

-- ---------------------------------------------------------------------------
-- Suspended calls
-- ---------------------------------------------------------------------------

namespace Core

/-- If the process waits on a message file, it is the one at `a`. -/
def Sur (s : Core) (p a : Ptr) : Prop :=
  ∀ fid f, s.lien p = some (.file fid) → s.tableauFile fid = some f → f.adr = a

/-- If the process waits on a semaphore, it is the one at `a`. -/
def SurSem (s : Core) (p a : Ptr) : Prop :=
  ∀ sid sem, s.lien p = some (.semaphore sid) → s.tableauSem sid = some sem → sem.adr = a

/-- The process waits neither on a file nor on a semaphore. -/
def Relaxe (s : Core) (p : Ptr) : Prop :=
  (s.tas p).etat ≠ .attendFile ∧ (s.tas p).etat ≠ .attendSemaphore

/-- What the kernel keeps of the call of `p` suspended at `k`, whose events so
far are `l`. -/
inductive Suspens (s : Core) (p : Ptr) : Reprise → List Evenement → Prop
  | libre {k : Reprise} (hk : k.trace = false) : Suspens s p k []
  | rendu {v : Int} {l : List Evenement} (h : Verdict p l v) : Suspens s p (.retour v) l
  -- message files
  | emet {a : Ptr} (he : (s.tas p).etat = .attendFile) (ha : s.Sur p a) :
      Suspens s p .psend [.emission a p (s.tas p).fileValue]
  | emis {a : Ptr} {v : Int} (he : s.Relaxe p) (hst : (s.tas p).operationStatus = 1) :
      Suspens s p .psend [.emission a p v, .accepte a p v]
  | emisEchec {a : Ptr} {v : Int} (he : s.Relaxe p) (hst : (s.tas p).operationStatus = 0) :
      Suspens s p .psend [.emission a p v, .echec a p]
  | recoit {a : Ptr} {m : Nat} (he : (s.tas p).etat = .attendFile) (ha : s.Sur p a) :
      Suspens s p (.preceive m) [.reception a p m]
  | recu {a : Ptr} {m : Nat} (he : s.Relaxe p) (hst : (s.tas p).operationStatus = 1) :
      Suspens s p (.preceive m) [.reception a p m, .livre a p (s.tas p).fileValue]
  | recuEchec {a : Ptr} {m : Nat} (he : s.Relaxe p) (hst : (s.tas p).operationStatus = 0) :
      Suspens s p (.preceive m) [.reception a p m, .echec a p]
  -- semaphores
  | attend {a : Ptr} (he : (s.tas p).etat = .attendSemaphore) (ha : s.SurSem p a) :
      Suspens s p .wait [.semPrise a p]
  | accorde {a : Ptr} (he : s.Relaxe p) (hst : (s.tas p).operationStatus = 1) :
      Suspens s p .wait [.semPrise a p, .semAccorde a p]
  | rejete {a : Ptr} (he : s.Relaxe p) (hst : (s.tas p).operationStatus < 0) :
      Suspens s p .wait [.semPrise a p, .semRejet a p (s.tas p).operationStatus]
  -- children
  | waitpid {pid : Int} {c : Ptr} {r : Nat} : Suspens s p (.waitpid pid c r) [.attente p pid r]
  | waitpidFils {pid : Int} {r : Nat} : Suspens s p (.waitpidFils pid r) [.attente p pid r]

/-- A live process is in the call its return point continues. -/
def EnSuspens (s : Core) (p : Ptr) : Prop :=
  s.vivant p = true → (s.tas p).etat.mort = false →
    s.Suspens p (s.tas p).contexte (appelEnCours p s.journal)

end Core

-- ---------------------------------------------------------------------------
-- The other processes
-- ---------------------------------------------------------------------------

namespace Core.Suspens

variable {s s' : Core} {p : Ptr} {k : Reprise} {l : List Evenement}

/-- Neither what the process waits for nor what it was given changes. -/
theorem congr (h : s.Suspens p k l)
    (he : (s'.tas p).etat = (s.tas p).etat ∨ s.Relaxe p ∧ s'.Relaxe p)
    (hst : (s'.tas p).operationStatus = (s.tas p).operationStatus)
    (hva : (s'.tas p).fileValue = (s.tas p).fileValue) (hf : ∀ a, s.Sur p a → s'.Sur p a)
    (hs : ∀ a, s.SurSem p a → s'.SurSem p a) : s'.Suspens p k l := by
  have relaxe : s.Relaxe p → s'.Relaxe p := by
    intro hx
    rcases he with he | ⟨-, hx'⟩
    · rwa [Core.Relaxe, he]
    · exact hx'
  have attend : ∀ {e : Etat}, (s.tas p).etat = e → e = .attendFile ∨ e = .attendSemaphore →
      (s'.tas p).etat = e := by
    intro e hx hor
    rcases he with he | ⟨hr, -⟩
    · rw [he, hx]
    · rcases hor with rfl | rfl
      · exact absurd hx hr.1
      · exact absurd hx hr.2
  cases h with
  | libre hk => exact .libre hk
  | rendu h => exact .rendu h
  | emet he ha =>
    rw [← hva]
    exact .emet (attend he (.inl rfl)) (hf _ ha)
  | emis he hx => exact .emis (relaxe he) (hst.trans hx)
  | emisEchec he hx => exact .emisEchec (relaxe he) (hst.trans hx)
  | recoit he ha => exact .recoit (attend he (.inl rfl)) (hf _ ha)
  | recu he hx =>
    rw [← hva]
    exact .recu (relaxe he) (hst.trans hx)
  | recuEchec he hx => exact .recuEchec (relaxe he) (hst.trans hx)
  | attend he ha => exact .attend (attend he (.inr rfl)) (hs _ ha)
  | accorde he hx => exact .accorde (relaxe he) (hst.trans hx)
  | rejete he hx =>
    rw [← hst]
    exact .rejete (relaxe he) (by rw [hst]; exact hx)
  | waitpid => exact .waitpid
  | waitpidFils => exact .waitpidFils

/-- A live process that waits on a file or a semaphore goes on waiting. -/
theorem relaxe_devient {e e' : Etat} (h : Etat.Devient e e') (hm : e'.mort = false) :
    e' = e ∨ (e ≠ .attendFile ∧ e ≠ .attendSemaphore) ∧
      e' ≠ .attendFile ∧ e' ≠ .attendSemaphore := by
  cases h with
  | reste => exact .inl rfl
  | reveil hd =>
    refine .inr ⟨⟨?_, ?_⟩, nofun, nofun⟩ <;>
    · rintro rfl
      cases hd
  | meurt _ hx =>
    rw [hm] at hx
    cases hx
  | condamne => cases hm

/-- The process is not concerned. -/
theorem inchange (h : s.Suspens p k l) (hi : Inchange p s s') (hm : (s'.tas p).etat.mort = false) :
    s'.Suspens p k l := by
  refine h.congr (relaxe_devient hi.etat hm) hi.statut hi.valeur ?_ ?_
  · intro a ha fid f' hp hf'
    obtain ⟨hp', f, hf, hadr⟩ := hi.file fid f' hp hf'
    rw [← hadr]
    exact ha fid f hp' hf
  · intro a ha sid sem' hp hs'
    obtain ⟨hp', sem, hs, hadr⟩ := hi.sem sid sem' hp hs'
    rw [← hadr]
    exact ha sid sem hp' hs

/-- A process that waits on a file is in a `psend` or a `preceive`. -/
theorem de_file (h : s.Suspens p (s.tas p).contexte l) (hc : Coherent s) {fid : Int}
    (hp : s.lien p = some (.file fid)) : ∃ a, s.Sur p a ∧
      (((s.tas p).contexte = .psend ∧ l = [.emission a p (s.tas p).fileValue]) ∨
        ∃ m, (s.tas p).contexte = .preceive m ∧ l = [.reception a p m]) := by
  have he := hc.etat_of_lien hp
  rcases (hc.suspendu p (hc.lie p _ hp)).file he with hk | ⟨m, hk⟩
  · rw [hk] at h
    cases h with
    | libre hx => cases hx
    | emet _ ha => exact ⟨_, ha, .inl ⟨hk, rfl⟩⟩
    | emis hx | emisEchec hx => exact absurd he hx.1
  · rw [hk] at h
    cases h with
    | libre hx => cases hx
    | recoit _ ha => exact ⟨_, ha, .inr ⟨m, hk, rfl⟩⟩
    | recu hx | recuEchec hx => exact absurd he hx.1

/-- A process that waits on a semaphore is in a `wait`. -/
theorem de_sem (h : s.Suspens p (s.tas p).contexte l) (hc : Coherent s) {sid : Int}
    (hp : s.lien p = some (.semaphore sid)) :
    ∃ a, s.SurSem p a ∧ (s.tas p).contexte = .wait ∧ l = [.semPrise a p] := by
  have he := hc.etat_of_lien hp
  have hk := (hc.suspendu p (hc.lie p _ hp)).semaphore he
  rw [hk] at h
  cases h with
  | libre hx => cases hx
  | attend _ ha => exact ⟨_, ha, hk, rfl⟩
  | accorde hx | rejete hx => exact absurd he hx.2

/-- The process is released: it finds what the event says. -/
theorem relache {e : Evenement} {st va : Int} (h : s.Suspens p (s.tas p).contexte l)
    (hc : Coherent s) (hh : s.Homogene) (hr : Relache s p e st va) (he : s'.Relaxe p)
    (hst : (s'.tas p).operationStatus = st) (hva : (s'.tas p).fileValue = va) :
    s'.Suspens p (s.tas p).contexte (l ++ [e]) := by
  cases hr with
  | @livre fid v f hp hf hvide =>
    obtain ⟨a, ha, ⟨hk, rfl⟩ | ⟨m, hk, rfl⟩⟩ := h.de_file hc hp
    · -- nobody waits to send on an empty file
      obtain ⟨-, -, -, hpos, -⟩ := hc.file fid f hf
      rcases hh fid f p hf hp with ⟨-, m, hm⟩ | ⟨hplein, -⟩
      · rw [hk] at hm
        cases hm
      · rw [getNbMsg, hvide] at hplein
        exact absurd hpos (by rw [← hplein]; simp)
    · rw [hk, ha fid f hp hf, ← hva]
      exact .recu he hst
  | @accepte fid f hp hf hnon =>
    obtain ⟨a, ha, ⟨hk, rfl⟩ | ⟨m, hk, rfl⟩⟩ := h.de_file hc hp
    · rw [hk, ha fid f hp hf]
      exact .emis he hst
    · -- nobody waits to receive while there are messages
      rcases hh fid f p hf hp with ⟨hvide, -⟩ | ⟨-, hm⟩
      · exact absurd hvide hnon
      · rw [hk] at hm
        cases hm
  | @echec fid f hp hf =>
    obtain ⟨a, ha, ⟨hk, rfl⟩ | ⟨m, hk, rfl⟩⟩ := h.de_file hc hp
    · rw [hk, ha fid f hp hf]
      exact .emisEchec he hst
    · rw [hk, ha fid f hp hf]
      exact .recuEchec he hst
  | @accorde sid sem hp hs =>
    obtain ⟨a, ha, hk, rfl⟩ := h.de_sem hc hp
    rw [hk, ha sid sem hp hs]
    exact .accorde he hst
  | @rejet sid v sem hp hs hv =>
    obtain ⟨a, ha, hk, rfl⟩ := h.de_sem hc hp
    rw [hk, ha sid sem hp hs, ← hst]
    exact .rejete he (by rw [hst]; omega)

end Core.Suspens

theorem Relache.acteur {s : Core} {p : Ptr} {e : Evenement} {st va : Int}
    (h : Relache s p e st va) : e.acteur = some p ∧ e.estRetour = false := by
  cases h <;> exact ⟨rfl, rfl⟩

/-- What a transition makes of the call of a process that is not the elected
one. -/
theorem Core.EnSuspens.evolue {s s' : Core} {p : Ptr} (h : s.EnSuspens p) (hc : Coherent s)
    (hh : s.Homogene) (hv : s.vivant p = true) (hev : Evolue p s s') : s'.EnSuspens p := by
  intro hv' hm'
  cases hev with
  | reste hi =>
    obtain ⟨j, hj, hmuet⟩ := hi.journal
    have hm : (s.tas p).etat.mort = false := by
      cases hm : (s.tas p).etat.mort with
      | false => rfl
      | true =>
        have he := hi.etat
        generalize (s.tas p).etat = e at he hm
        generalize (s'.tas p).etat = e' at he hm'
        cases he with
        | reste =>
          rw [hm] at hm'
          cases hm'
        | reveil hd => cases e <;> simp_all [Etat.dort, Etat.mort]
        | meurt hx _ =>
          rw [hm] at hx
          cases hx
        | condamne => cases hm'
    rw [hi.contexte, hj, appelEnCours_muet hmuet]
    exact (h hv hm).inchange hi hm'
  | libere hm hx hj =>
    rw [hx] at hv'
    cases hv'
  | @relache e st va j k hr hx he hctx hst hva hre hpid hj hmuet =>
    obtain ⟨hacteur, hretour⟩ := hr.acteur
    -- a process that waits is not dead
    have hm : (s.tas p).etat.mort = false := by
      cases hr with
      | livre hp | accepte hp | echec hp | accorde hp | rejet hp =>
        rw [hc.etat_of_lien hp]
        rfl
    have hrelaxe : s'.Relaxe p := by
      rcases Core.Suspens.relaxe_devient he hm' with hx | ⟨-, hx⟩
      · rw [Core.Relaxe, hx]
        exact ⟨by decide, by decide⟩
      · exact hx
    have hl : appelEnCours p s'.journal = appelEnCours p s.journal ++ [e] := by
      rw [hj, List.append_cons, appelEnCours_muet hmuet.2, appelEnCours_concat hacteur hretour,
        appelEnCours_muet hmuet.1]
    rw [hctx, hl]
    exact (h hv hm).relache hc hh hr hrelaxe hst hva

-- ---------------------------------------------------------------------------
-- New events and new processes
-- ---------------------------------------------------------------------------

/-- The journal gains events, none of them a return, of processes alive in `s`,
and of the elected one only if `trace` says so. -/
def Gagne (trace : Bool) (s s' : Core) : Prop :=
  ∃ j, s'.journal = s.journal ++ j ∧ ∀ e ∈ j, e.estRetour = false ∧
    ∀ p, e.acteur = some p → s.vivant p = true ∧ (p = s.procElu → trace = true)

namespace Gagne

variable {b : Bool} {s s' s'' : Core} {p : Ptr} {e : Evenement}

theorem refl : Gagne b s s := ⟨[], by simp⟩

theorem puis (m : Gagne b s s') {j : List Evenement} (hj : s''.journal = s'.journal ++ j)
    (h : ∀ e ∈ j, e.estRetour = false ∧
      ∀ p, e.acteur = some p → s.vivant p = true ∧ (p = s.procElu → b = true)) : Gagne b s s'' := by
  obtain ⟨j₁, hj₁, h₁⟩ := m
  refine ⟨j₁ ++ j, by rw [hj, hj₁, List.append_assoc], ?_⟩
  intro e he
  rcases List.mem_append.mp he with he | he
  · exact h₁ e he
  · exact h e he

theorem meme (m : Gagne b s s') (hj : s''.journal = s'.journal) : Gagne b s s'' :=
  m.puis (j := []) (by simpa using hj) (by simp)

/-- An event of no process. -/
theorem muet (m : Gagne b s s') (hj : s''.journal = s'.journal ++ [e]) (he : e.acteur = none) :
    Gagne b s s'' := by
  refine m.puis hj ?_
  intro x hx
  rw [List.mem_singleton.mp hx]
  refine ⟨?_, fun p hp => ?_⟩
  · cases e <;> first | rfl | cases he
  · rw [he] at hp
    cases hp

/-- An event of a live process. -/
theorem de (m : Gagne b s s') (hj : s''.journal = s'.journal ++ [e]) (he : e.acteur = some p)
    (hv : s.vivant p = true) (hp : p = s.procElu → b = true) (hr : e.estRetour = false := by rfl) :
    Gagne b s s'' := by
  refine m.puis hj ?_
  intro x hx
  rw [List.mem_singleton.mp hx]
  refine ⟨hr, fun q hq => ?_⟩
  rw [he] at hq
  cases hq
  exact ⟨hv, hp⟩

theorem ecrit (m : Gagne true s s') (hv : s.vivant s'.procElu = true) {a : Nat} {w : BitVec 32} :
    Gagne true s (s'.ecrit a w) := by
  by_cases ha : a = 0
  · rwa [ha, Core.ecrit_zero]
  · rw [Core.ecrit_of_ne ha]
    exact m.de rfl rfl hv fun _ => rfl

theorem rejets (h : Stable s) (he : s.EnCours) {sid status : Int} {sem : Semaphore}
    (hr : Relation.ReflTransGen (Rejet sid sem status) s s') : Gagne b s s' := by
  suffices hs : Gagne b s s' ∧ s'.vivant = s.vivant ∧ s'.procElu = s.procElu from hs.1
  induction hr with
  | refl => exact ⟨refl, rfl, rfl⟩
  | @tail s₁ s₂ hrest hlast ih =>
    obtain ⟨q, hq, rfl⟩ := hlast
    obtain ⟨m, hv, helu⟩ := ih
    have hl : s₁.lien q = some (.semaphore sid) := LinkedQueues.link_of_top hq
    have hc₁ := (h.rejets hrest).1.coherent
    have hne := hc₁.ne_procElu (h.enCours_rejets he hrest) hl
    refine ⟨m.de (p := q) rfl rfl ?_ ?_, hv, helu⟩
    · rw [← hv]
      exact hc₁.lie q _ hl
    · exact fun hx => absurd (hx.trans helu.symm) hne

theorem liberation (h : Coherent s) (hl : Relation.ReflTransGen Liberation s s') : Gagne b s s' := by
  induction hl with
  | refl => exact refl
  | tail hrest hlast ih =>
    obtain ⟨q, adr, n, -, -, L⟩ := (h.liberation hrest).liberation_spec hlast
    exact ih.muet L.journal rfl

theorem quiet {l : Etiquette} (h : Stable s) (he : s.EnCours) (q : Quiet l s s') :
    Gagne l.trace s s' := by
  have hc := h.coherent
  have hv := he.vivant
  have r : ∀ {b : Bool}, Gagne b s s := refl
  -- a process that waits is alive, and is not the elected one
  have attente : ∀ {p : Ptr} {t : Tete}, s.chainage.top t = some p →
      s.vivant p = true ∧ ∀ {b : Bool}, p = s.procElu → b = true := by
    intro p t hp
    have hl : s.lien p = some t := LinkedQueues.link_of_top hp
    exact ⟨hc.lie p t hl, fun hx => absurd hx (hc.ne_procElu he hl)⟩
  have elu : ∀ {p : Ptr}, p = s.procElu → true = true := fun _ => rfl
  have pere : ∀ {s₁ : Core} {b : Bool} {p : Ptr}, Gagne b s s₁ → Gagne b s (s₁.reveillePere p) := by
    intro s₁ b p m
    unfold Core.reveillePere
    split
    · exact m.meme rfl
    · exact m
  cases q with
  | ecriture adr w => exact r.ecrit hv
  | attente pid rv => exact r.de (p := s.procElu) rfl rfl hv elu
  | cree hl hp hn hpid hetat hctx hfils hprio hret => exact r.muet rfl rfl
  | tueZombie hpid hp hz hm ht hpere =>
    refine pere ?_
    exact r.muet rfl rfl
  | tueMourant hpid hp hz hm ht hpere => exact r.muet rfl rfl
  | recolte hcf hz hl => exact r.de (p := s.procElu) rfl rfl hv elu
  | liberation hl hvide => exact liberation hc hl
  | echec hf hp => exact r.de rfl rfl (attente hp).1 (attente hp).2
  | vide hf hp => exact r.muet rfl rfl
  | @remis _ fid v f p hidle hf hvide hp =>
    have m₁ : Gagne true s (s.emet f v) := r.de (p := s.procElu) rfl rfl hv elu
    have m₂ : Gagne true s (((s.emet f v).eveille p fun r =>
        { r with fid := -1, fileValue := v, operationStatus := 1 }).note
          (.accepte f.adr s.procElu v)) := m₁.de (p := s.procElu) rfl rfl hv elu
    exact m₂.de rfl rfl (attente hp).1 (attente hp).2
  | @depose _ fid v f adr n hidle hf hnon hlt hn =>
    have m₁ : Gagne true s (s.emet f v) := r.de (p := s.procElu) rfl rfl hv elu
    exact m₁.de (p := s.procElu) rfl rfl hv elu
  | @prend _ fid f l msg m hidle hf hl hp =>
    have m₁ : Gagne true s (s.recoit f m) := r.de (p := s.procElu) rfl rfl hv elu
    have m₂ : Gagne true s (((s.recoit f m).majFile fid (some { f with queueMsg := l })).note
        (.livre f.adr s.procElu msg.message)) := m₁.de (p := s.procElu) rfl rfl hv elu
    exact m₂.ecrit hv
  | @relaye _ fid f l msg p a m n hidle hf hl hp hn =>
    have m₁ : Gagne true s (s.recoit f m) := r.de (p := s.procElu) rfl rfl hv elu
    have m₂ : Gagne true s ((((s.recoit f m).majFile fid
        (some { f with queueMsg := ⟨a, (s.tas p).fileValue⟩ :: l })).alloue n).note
          (.livre f.adr s.procElu msg.message)) := m₁.de (p := s.procElu) rfl rfl hv elu
    have m₃ := m₂.ecrit (a := m) (w := BitVec.ofInt 32 msg.message) hv
    exact m₃.de (e := .accepte f.adr p (s.tas p).fileValue) rfl rfl (attente hp).1 (attente hp).2
  | creeSem hl hsid hcount hsem hadr hfrais hm => exact r.muet rfl rfl
  | sdelete hs hr hp hn hb => exact (rejets h he hr).meme rfl
  | sreset hs hr hp h0 hcount hb => exact (rejets h he hr).meme rfl
  | signale hs hmax hpos => exact r.muet rfl rfl
  | @signaleReveil _ sid sem p hs hmax hneg hp =>
    have m₁ : Gagne false s ((s.majSem sid (some (sem.setCount (sem.count + 1)))).note
        (.semUnite sem.adr s.procElu)) := r.muet rfl rfl
    exact m₁.de rfl rfl (attente hp).1 (attente hp).2
  | @prendSem _ sid sem hs hpos =>
    have m₁ : Gagne true s ((s.majSem sid (some (sem.setCount (sem.count - 1)))).note
        (.semPrise sem.adr s.procElu)) := r.de (p := s.procElu) rfl rfl hv elu
    exact m₁.de (p := s.procElu) rfl rfl hv elu
  | _ => exact r.meme rfl

theorem sortie {m : Motif} {k : Reprise} (he : s.EnCours) (q : Sortie m k s s') :
    Gagne k.trace s (s'.empile k) := by
  have hv := he.vivant
  have r : ∀ {b : Bool}, Gagne b s s := refl
  cases q with
  | emission hidle hf hnon hplein => exact r.de (p := s.procElu) rfl rfl hv fun _ => rfl
  | reception hidle hf hvide => exact r.de (p := s.procElu) rfl rfl hv fun _ => rfl
  | wait hidle hs hmin hneg => exact r.de (p := s.procElu) rfl rfl hv fun _ => rfl
  | @exitZombie _ v pere hidle hpere =>
    have m₁ : Gagne false s (((s.maj s.procElu fun r => { r with retval := v }).note
        (.exit s.procElu v)).maj s.procElu fun r => { r with etat := .zombie }) := r.muet rfl rfl
    unfold Core.reveillePere
    split
    · exact m₁.meme rfl
    · exact m₁.meme rfl
  | exitMourant hidle hpere => exact r.muet rfl rfl
  | suicideZombie hidle hpere => exact r.muet rfl rfl
  | suicideMourant hidle hpere => exact r.muet rfl rfl
  | _ => exact r.meme rfl

end Gagne

/-- A process that a transition brings to life is about to enter its code. -/
theorem Quiet.nouveau {l : Etiquette} {s s' : Core} {p : Ptr} (h : Stable s) (he : s.EnCours)
    (q : Quiet l s s') (hv : s.vivant p = false) (hv' : s'.vivant p = true) :
    (s'.tas p).contexte = .debut := by
  have ancien : ∀ {P : Prop}, (s'.vivant p = true → s.vivant p = true) → P := by
    intro P hx
    rw [hx hv'] at hv
    cases hv
  cases q with
  | @cree _ q r cell reste adr n hl hq hn hpid hetat hctx hfils hprio hret =>
    have C := h.coherent.cree_spec he r reste adr n hq
    by_cases hp : p = q
    · rw [hp, C.nouveau]
      exact hctx
    · rw [C.vivant, if_neg hp, hv] at hv'
      cases hv'
  | @tueZombie _ q pere t hpid hp hz hm ht hpere =>
    refine ancien ?_
    exact (MemeRegistre.refl (s := ((s.note (.tue q)).retire q).maj q
      fun r => { r with etat := .zombie })).reveillePere.vivant p
  | liberation hl hvide => exact ancien ((MemeRegistre.liberation h.coherent hl).vivant p)
  | sdelete hs hr hp hn hb => exact ancien ((MemeRegistre.rejets h hr).vivant p)
  | sreset hs hr hp h0 hc hb => exact ancien ((MemeRegistre.rejets h hr).vivant p)
  | _ => exact ancien id

theorem Sortie.vivant {m : Motif} {k : Reprise} {s s' : Core} (q : Sortie m k s s') :
    s'.vivant = s.vivant := by
  cases q with
  | exitZombie hidle hpere =>
    unfold Core.reveillePere
    split <;> rfl
  | _ => rfl

-- ---------------------------------------------------------------------------
-- Everything but the elected process
-- ---------------------------------------------------------------------------

/-- The processes of the events are there, every call that has returned has
returned what it should, and the calls in progress are as the kernel keeps
them, that of the elected process apart. -/
structure Core.Ailleurs (s : Core) : Prop where
  neuf : ∀ e ∈ s.journal, ∀ p, e.acteur = some p → p < s.prochain
  autres : ∀ p, p ≠ s.procElu → s.EnSuspens p
  reponses : Reponses s.journal

/-- The journal agrees with every call in progress. -/
structure Core.Suivi (s : Core) : Prop extends s.Ailleurs where
  elu : s.EnSuspens s.procElu

theorem Core.Suivi.appels {s : Core} (h : s.Suivi) (p : Ptr) : s.EnSuspens p := by
  by_cases hp : p = s.procElu
  · rw [hp]
    exact h.elu
  · exact h.autres p hp

/-- A process is not known to the journal before it exists. -/
theorem Core.Ailleurs.inconnu {s : Core} (h : s.Ailleurs) {p : Ptr} (hp : s.prochain ≤ p) :
    appelEnCours p s.journal = [] := by
  have hm : ∀ e ∈ s.journal, e.acteur ≠ some p :=
    fun e he hx => absurd (h.neuf e he p hx) (not_lt.mpr hp)
  have hn := appelEnCours_muet (j := []) hm
  simpa using hn

namespace Gagne

variable {b : Bool} {s s' : Core}

theorem neuf (m : Gagne b s s') (hc : Coherent s) (hpro : s.prochain ≤ s'.prochain)
    (h : ∀ e ∈ s.journal, ∀ p, e.acteur = some p → p < s.prochain) :
    ∀ e ∈ s'.journal, ∀ p, e.acteur = some p → p < s'.prochain := by
  obtain ⟨j, hj, hnew⟩ := m
  intro e he p hp
  rw [hj] at he
  rcases List.mem_append.mp he with he | he
  · exact (h e he p hp).trans_le hpro
  · exact (hc.ancien p ((hnew e he).2 p hp).1).trans_le hpro

theorem reponses (m : Gagne b s s') (h : Reponses s.journal) : Reponses s'.journal := by
  obtain ⟨j, hj, hnew⟩ := m
  rw [hj]
  exact h.append fun e he => (hnew e he).1

/-- The events of a process that did not exist yet. -/
theorem mort (m : Gagne b s s') {p : Ptr} (hv : s.vivant p = false) :
    appelEnCours p s'.journal = appelEnCours p s.journal := by
  obtain ⟨j, hj, hnew⟩ := m
  rw [hj]
  refine appelEnCours_muet ?_
  intro e he hp
  rw [((hnew e he).2 p hp).1] at hv
  cases hv

/-- The events of the elected process, when there are none. -/
theorem elu (m : Gagne false s s') :
    appelEnCours s.procElu s'.journal = appelEnCours s.procElu s.journal := by
  obtain ⟨j, hj, hnew⟩ := m
  rw [hj]
  refine appelEnCours_muet ?_
  intro e he hp
  exact absurd (((hnew e he).2 _ hp).2 rfl) nofun

end Gagne

namespace Core.Ailleurs

variable {s s' : Core}

theorem quiet {l : Etiquette} (h : s.Ailleurs) (hst : Stable s) (he : s.EnCours)
    (hh : s.Homogene) (q : Quiet l s s') : s'.Ailleurs := by
  have hc := hst.coherent
  have m := Gagne.quiet hst he q
  have hvi := q.vieillit hst
  refine ⟨m.neuf hc hvi.prochain h.neuf, ?_, m.reponses h.reponses⟩
  intro p hp
  rw [(hst.elu_quiet q).1] at hp
  cases hv : s.vivant p with
  | true => exact (h.autres p hp).evolue hc hh hv (q.evolue hst he hv hp)
  | false =>
    intro hv' _
    have hn : s.prochain ≤ p := by
      refine not_lt.mp fun hx => ?_
      rw [hvi.vivant p hx hv] at hv'
      cases hv'
    rw [q.nouveau hst he hv hv', m.mort hv, h.inconnu hn]
    exact .libre rfl

theorem calme {L : Etiquette → Prop} (h : s.Ailleurs) (hst : Stable s) (hh : s.Homogene)
    (hq : Calme L s s') : s'.Ailleurs ∧ s'.Homogene := by
  induction hq with
  | refl => exact ⟨h, hh⟩
  | tail hrest hlast ih =>
    obtain ⟨he, l, -, q⟩ := hlast
    have h₁ := hst.calme hrest
    exact ⟨ih.1.quiet h₁ he ih.2 q, ih.2.quiet h₁ he q⟩

/-- The elected process leaves the processor with a call in progress. -/
theorem sortie {m : Motif} {k : Reprise} (h : s.Ailleurs) (hst : Stable s) (he : s.EnCours)
    (hh : s.Homogene) (q : Sortie m k s s')
    (hk : (s'.tas s.procElu).etat.mort = false →
      s'.Suspens s.procElu k (appelEnCours s.procElu s'.journal)) : (s'.empile k).Suivi := by
  have hc := hst.coherent
  have g := Gagne.sortie he q
  obtain ⟨-, S⟩ := hst.sortie he q
  have helu : s'.procElu = s.procElu := S.elu
  have htas : (s'.empile k).tas s.procElu = { s'.tas s.procElu with contexte := k } := by
    rw [Core.empile, helu, Core.tas_maj, if_pos rfl]
  refine ⟨⟨g.neuf hc (q.vieillit).prochain h.neuf, ?_, g.reponses h.reponses⟩, ?_⟩
  · intro p hp
    rw [S.elu] at hp
    cases hv : s.vivant p with
    | true => exact (h.autres p hp).evolue hc hh hv (.reste (q.inchange hst he hv hp))
    | false =>
      intro hv' _
      rw [Core.empile, Core.maj_vivant, q.vivant, hv] at hv'
      cases hv'
  · rw [S.elu]
    intro _ hm
    rw [htas] at hm ⊢
    refine (hk hm).congr (.inl ?_) ?_ ?_ (fun _ ha => ha) fun _ ha => ha
    · rw [htas]
    · rw [htas]
    · rw [htas]

end Core.Ailleurs

namespace Core.Suivi

variable {s s' : Core}

theorem of_appels (hn : ∀ e ∈ s.journal, ∀ p, e.acteur = some p → p < s.prochain)
    (ha : ∀ p, s.EnSuspens p) (hr : Reponses s.journal) : s.Suivi :=
  ⟨⟨hn, fun p _ => ha p, hr⟩, ha _⟩

theorem liberation (h : s.Suivi) (hc : Coherent s) (hh : s.Homogene)
    (hl : Relation.ReflTransGen Liberation s s') : s'.Suivi := by
  have m := Gagne.liberation (b := false) hc hl
  refine of_appels (m.neuf hc (Vieillit.liberation hc hl).prochain h.neuf) ?_ (m.reponses h.reponses)
  intro p
  cases hv : s.vivant p with
  | true => exact (h.appels p).evolue hc hh hv (hc.survit hv hl).evolue
  | false =>
    intro hv' _
    rw [(MemeRegistre.liberation hc hl).vivant p hv'] at hv
    cases hv

theorem election (h : s.Suivi) (hst : Stable s) (hvide : s.elems .procMourants = [])
    (hna : (s.tas s.procElu).etat ≠ .activable) (hel : Election s s') : s'.Suivi := by
  have hr : ∀ p, Reste p s s' := fun p => hel.reste hst hvide hna
  have hj := (hr s.procElu).journal
  have hv := hel.vieillit hst hvide hna
  refine of_appels ?_ ?_ (by rw [hj]; exact h.reponses)
  · rw [hj]
    exact fun e he p hp => (h.neuf e he p hp).trans_le hv.prochain
  · intro p hv' hm'
    have r := hr p
    have het : (s'.tas p).etat = (s.tas p).etat ∨ s.Relaxe p ∧ s'.Relaxe p := by
      rcases r.etat with he | ⟨he, he'⟩
      · exact .inl he
      · refine .inr ⟨⟨?_, ?_⟩, ⟨?_, ?_⟩⟩
        · rcases he with he | he <;> rw [he] <;> nofun
        · rcases he with he | he <;> rw [he] <;> nofun
        · rcases he' with he | he <;> rw [he] <;> nofun
        · rcases he' with he | he <;> rw [he] <;> nofun
    have hm : (s.tas p).etat.mort = false := by
      rcases r.etat with he | ⟨he, -⟩
      · rwa [← he]
      · rcases he with he | he <;> rw [he] <;> rfl
    rw [r.contexte, hj]
    rw [r.vivant] at hv'
    refine (h.appels p hv' hm).congr het r.statut r.valeur ?_ ?_
    · intro a ha fid f hp hf
      rw [r.file] at hf
      rcases r.lien _ hp with hx | hx | hx
      · cases hx
      · cases hx
      · exact ha fid f hx hf
    · intro a ha sid sem hp hs
      rw [r.sem] at hs
      rcases r.lien _ hp with hx | hx | hx
      · cases hx
      · cases hx
      · exact ha sid sem hx hs

end Core.Suivi

end GenesisOS
