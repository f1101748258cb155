import GenesisOS.Abstract.Transitions

/-!
# GenesisOS — the coherence invariant

What the tables, lists and structures of the kernel say of each other between
two steps, `Coherent`, and that the abstract transitions keep it:

* a process is in the list its state names, and in no other (`Place`);
* the table of processes, the free identifiers and the live structures agree;
* `pere` and `filsTete` are inverse of each other, except for dying processes;
* a blocked process is suspended in the call that blocked it (`Suspendu`).

Most transitions touch one process: `Coherent.touche` handles them all, from
what holds of that process before and after.
-/

namespace GenesisOS

namespace Core

variable (s : Core)

/-- The list that holds a process is the one its state names. -/
def Place (p : Ptr) : Prop :=
  match (s.tas p).etat with
  | .elu => p = s.procElu ∧ s.lien p = none
  | .activable => s.lien p = some .procActivables
  | .endormi => s.lien p = some .procEndormis
  | .mourant => s.lien p = some .procMourants ∨ p = s.procElu ∧ s.lien p = none
  | .zombie | .attendFils => s.lien p = none
  | .attendFile => s.lien p = some (.file (s.tas p).fid)
  | .attendSemaphore => ∃ sid, s.lien p = some (.semaphore sid)
  | .attendEs => s.lien p = some .procBloqueEs

/-- The process is a zombie or is to be freed. -/
def Mort (p : Ptr) : Prop := (s.tas p).etat = .zombie ∨ (s.tas p).etat = .mourant

/-- The return point of a process agrees with its state. -/
structure Suspendu (p : Ptr) : Prop where
  file : (s.tas p).etat = .attendFile →
    (s.tas p).contexte = .psend ∨ ∃ m, (s.tas p).contexte = .preceive m
  semaphore : (s.tas p).etat = .attendSemaphore → (s.tas p).contexte = .wait
  es : (s.tas p).etat = .attendEs → ∃ string length, (s.tas p).contexte = .consRead string length
  fils : (s.tas p).etat = .attendFils →
    (∃ pid c r, (s.tas p).contexte = .waitpid pid c r) ∨
      ∃ pid r, (s.tas p).contexte = .waitpidFils pid r
  exit : (s.tas p).contexte = .exitFin → s.Mort p
  waitpid : ¬ s.Mort p → ∀ pid c r, (s.tas p).contexte = .waitpid pid c r →
    0 ≤ pid ∧ c ∈ s.fils p ∧ (s.tas c).pid = pid
  waitpidFils : ¬ s.Mort p → ∀ pid r, (s.tas p).contexte = .waitpidFils pid r →
    pid < 0 ∧ s.fils p ≠ []

end Core

/-- The coherence of the kernel variables. -/
structure Coherent (s : Core) : Prop where
  -- lists
  place : ∀ p, s.vivant p = true → s.Place p
  lie : ∀ p t, s.lien p = some t → s.vivant p = true
  lieFile : ∀ p fid, s.lien p = some (.file fid) → ∃ f, s.tableauFile fid = some f
  lieSem : ∀ p sid, s.lien p = some (.semaphore sid) → ∃ sem, s.tableauSem sid = some sem
  tri : s.chainage.Sorted .procActivables fun p => (s.tas p).prio
  -- message files and semaphores
  file : ∀ fid f, s.tableauFile fid = some f →
    0 ≤ fid ∧ fid < NBQUEUE ∧ f.fid = fid ∧ 0 < f.maxMsg ∧ getNbMsg f ≤ f.maxMsg
  fidLibre : ∀ c ∈ s.fidListe, 0 ≤ c.fid ∧ c.fid < NBQUEUE ∧ s.tableauFile c.fid = none
  fidUnique : (s.fidListe.map FidLibre.fid).Nodup
  sem : ∀ sid sem, s.tableauSem sid = some sem → 0 ≤ sid ∧ sid < NBSEM
  sidLibre : ∀ c ∈ s.sidListe, 0 ≤ c.sid ∧ c.sid < NBSEM ∧ s.tableauSem c.sid = none
  sidUnique : (s.sidListe.map SidLibre.sid).Nodup
  -- table of processes
  table : ∀ i p, s.tableDesProcs i = some p → s.vivant p = true ∧ (s.tas p).pid = i
  inscrit : ∀ p, s.vivant p = true → s.tableDesProcs (s.tas p).pid = some p
  pid : ∀ p, s.vivant p = true → 0 ≤ (s.tas p).pid ∧ (s.tas p).pid < MAX_PROCESS
  pidLibre : ∀ c ∈ s.pidLibreTete, 0 < c.pid ∧ c.pid < MAX_PROCESS ∧ s.tableDesProcs c.pid = none
  pidUnique : (s.pidLibreTete.map PidLibre.pid).Nodup
  ancien : ∀ p, s.vivant p = true → p < s.prochain
  -- filiation
  pere : ∀ c f, s.vivant c = true → (s.tas c).etat ≠ .mourant → (s.tas c).pere = some f →
    s.vivant f = true ∧ c ∈ s.fils f
  fils : ∀ f c, s.vivant f = true → c ∈ s.fils f →
    s.vivant c = true ∧ (s.tas c).pere = some f ∧ (s.tas c).etat ≠ .mourant
  filsUnique : ∀ f, s.vivant f = true → (s.fils f).Nodup
  orphelin : ∀ p, s.vivant p = true → (s.tas p).etat = .mourant →
    (s.tas p).pere = none ∨ s.lien p = some .procMourants
  -- the idle process
  idle : s.vivant s.procIdle = true ∧ (s.tas s.procIdle).pid = 0 ∧ (s.tas s.procIdle).prio = 0 ∧
    s.fils s.procIdle = []
  idleEtat : (s.tas s.procIdle).etat = .elu ∨ (s.tas s.procIdle).etat = .activable
  idleContexte : (s.tas s.procIdle).contexte.volontaire = true
  prio : ∀ p, s.vivant p = true → p ≠ s.procIdle → 0 < (s.tas p).prio
  -- suspended calls
  suspendu : ∀ p, s.vivant p = true → s.Suspendu p

/-- Nothing is left to free: no dying process has a father. -/
def Core.Orphelins (s : Core) : Prop :=
  ∀ p, s.vivant p = true → (s.tas p).etat = .mourant → (s.tas p).pere = none

namespace Coherent

variable {s s' : Core} {p q c f : Ptr}

-- ---------------------------------------------------------------------------
-- First consequences
-- ---------------------------------------------------------------------------

/-- The state of a linked process, by the list that holds it. -/
theorem etat_of_lien (h : Coherent s) {t : Tete} (hp : s.lien p = some t) :
    (s.tas p).etat = match t with
      | .procActivables => .activable
      | .procEndormis => .endormi
      | .procMourants => .mourant
      | .procBloqueEs => .attendEs
      | .file _ => .attendFile
      | .semaphore _ => .attendSemaphore := by
  have hpl := h.place p (h.lie p t hp)
  unfold Core.Place at hpl
  rw [hp] at hpl
  cases he : (s.tas p).etat <;> rw [he] at hpl <;> simp at hpl
  all_goals try subst hpl; rfl
  obtain ⟨sid, rfl⟩ := hpl
  rfl

theorem lien_procElu (h : Coherent s) (he : s.EnCours) : s.lien s.procElu = none := by
  have hpl := h.place _ he.vivant
  unfold Core.Place at hpl
  rw [he.etat] at hpl
  exact hpl.2

theorem eq_procElu (h : Coherent s) (hv : s.vivant p = true) (he : (s.tas p).etat = .elu) :
    p = s.procElu := by
  have hpl := h.place _ hv
  unfold Core.Place at hpl
  rw [he] at hpl
  exact hpl.1

theorem ne_procElu (h : Coherent s) (he : s.EnCours) {t : Tete} (hp : s.lien p = some t) :
    p ≠ s.procElu := by
  rintro rfl
  rw [h.lien_procElu he] at hp
  cases hp

theorem vivant_of_top (h : Coherent s) {t : Tete} (hp : s.chainage.top t = some p) :
    s.vivant p = true := h.lie _ _ (Lib.LinkedQueues.link_of_top hp)

theorem fid_of_lien (h : Coherent s) {fid : Int} (hp : s.lien p = some (.file fid)) :
    (s.tas p).fid = fid := by
  have hpl := h.place p (h.lie p _ hp)
  have he : (s.tas p).etat = .attendFile := h.etat_of_lien hp
  unfold Core.Place at hpl
  rw [he, hp] at hpl
  simpa using hpl.symm

/-- Two live processes with one identifier are one process. -/
theorem pid_injective (h : Coherent s) (hp : s.vivant p = true) (hq : s.vivant q = true)
    (he : (s.tas p).pid = (s.tas q).pid) : p = q := by
  have h₁ := h.inscrit p hp
  rw [he, h.inscrit q hq] at h₁
  simpa using h₁.symm

theorem ne_idle_of_pid (h : Coherent s) (hp : 0 < (s.tas p).pid) : p ≠ s.procIdle := by
  rintro rfl
  rw [h.idle.2.1] at hp
  exact absurd hp (by decide)

theorem ne_idle_of_pere (h : Coherent s) (hv : s.vivant f = true) (hc : c ∈ s.fils f) :
    f ≠ s.procIdle := by
  rintro rfl
  rw [h.idle.2.2.2] at hc
  cases hc

theorem ne_idle_of_etat (h : Coherent s) (he : (s.tas p).etat ≠ .elu) (he' : (s.tas p).etat ≠ .activable) :
    p ≠ s.procIdle := by
  rintro rfl
  rcases h.idleEtat with hi | hi
  · exact he hi
  · exact he' hi

end Coherent

-- ---------------------------------------------------------------------------
-- Transitions that touch one process
-- ---------------------------------------------------------------------------

/-- `s'` differs from `s` in the structure and the link of `q` only, and `q`
keeps its identifier and its family. -/
structure Touche (q : Ptr) (s s' : Core) : Prop where
  vivant : s'.vivant = s.vivant
  autre : ∀ p, p ≠ q → s'.tas p = s.tas p
  lien : ∀ p, p ≠ q → s'.lien p = s.lien p
  elu : s'.procElu = s.procElu
  idle : s'.procIdle = s.procIdle
  table : s'.tableDesProcs = s.tableDesProcs
  pids : s'.pidLibreTete = s.pidLibreTete
  file : s'.tableauFile = s.tableauFile
  fids : s'.fidListe = s.fidListe
  sem : s'.tableauSem = s.tableauSem
  sids : s'.sidListe = s.sidListe
  prochain : s'.prochain = s.prochain
  pid : (s'.tas q).pid = (s.tas q).pid
  pere : (s'.tas q).pere = (s.tas q).pere
  fils : (s'.tas q).filsTete = (s.tas q).filsTete

namespace Touche

variable {s s' : Core} {p q : Ptr}

theorem pid_eq (t : Touche q s s') (p : Ptr) : (s'.tas p).pid = (s.tas p).pid := by
  by_cases hp : p = q
  · rw [hp, t.pid]
  · rw [t.autre p hp]

theorem pere_eq (t : Touche q s s') (p : Ptr) : (s'.tas p).pere = (s.tas p).pere := by
  by_cases hp : p = q
  · rw [hp, t.pere]
  · rw [t.autre p hp]

theorem fils_eq (t : Touche q s s') (p : Ptr) : s'.fils p = s.fils p := by
  unfold Core.fils
  by_cases hp : p = q
  · rw [hp, t.fils]
  · rw [t.autre p hp]

theorem place (t : Touche q s s') (hp : p ≠ q) : s'.Place p ↔ s.Place p := by
  unfold Core.Place
  rw [t.autre p hp, t.lien p hp, t.elu]

theorem suspendu (t : Touche q s s') (hp : p ≠ q) (h : s.Suspendu p) : s'.Suspendu p := by
  have hmort : s'.Mort p ↔ s.Mort p := by unfold Core.Mort; rw [t.autre p hp]
  refine ⟨?_, ?_, ?_, ?_, ?_, ?_, ?_⟩
  all_goals simp only [t.autre p hp, t.fils_eq, t.pid_eq, hmort]
  · exact h.file
  · exact h.semaphore
  · exact h.es
  · exact h.fils
  · exact h.exit
  · exact h.waitpid
  · exact h.waitpidFils

end Touche

namespace Coherent

variable {s s' : Core} {p q c f : Ptr}

/-- A transition that touches one process keeps the coherence, if that process
ends up coherent: a process in the list its state names, never back from
death, dying without a father, and the idle process unchanged. -/
theorem touche (h : Coherent s) (t : Touche q s s') (hq : s.vivant q = true)
    (hplace : s'.Place q) (hsus : s'.Suspendu q)
    (hfile : ∀ fid, s'.lien q = some (.file fid) → ∃ f, s.tableauFile fid = some f)
    (hsem : ∀ sid, s'.lien q = some (.semaphore sid) → ∃ sem, s.tableauSem sid = some sem)
    (htri : s'.chainage.Sorted .procActivables fun p => (s'.tas p).prio)
    (hmort : (s.tas q).etat = .mourant → (s'.tas q).etat = .mourant)
    (hpere : (s'.tas q).etat = .mourant → (s.tas q).etat = .mourant ∨ (s.tas q).pere = none)
    (horph : (s'.tas q).etat = .mourant →
      (s.tas q).pere = none ∨ s'.lien q = some .procMourants)
    (hprio : q ≠ s.procIdle → 0 < (s'.tas q).prio)
    (hidle : q = s.procIdle → (s'.tas q).prio = 0 ∧
      ((s'.tas q).etat = .elu ∨ (s'.tas q).etat = .activable) ∧
      (s'.tas q).contexte.volontaire = true) : Coherent s' where
  place p hp := by
    by_cases hpq : p = q
    · exact hpq ▸ hplace
    · rw [t.place hpq]
      exact h.place p (by rwa [t.vivant] at hp)
  lie p x hp := by
    rw [t.vivant]
    by_cases hpq : p = q
    · rwa [hpq]
    · rw [t.lien p hpq] at hp
      exact h.lie p x hp
  lieFile p fid hp := by
    rw [t.file]
    by_cases hpq : p = q
    · exact hfile fid (hpq ▸ hp)
    · rw [t.lien p hpq] at hp
      exact h.lieFile p fid hp
  lieSem p sid hp := by
    rw [t.sem]
    by_cases hpq : p = q
    · exact hsem sid (hpq ▸ hp)
    · rw [t.lien p hpq] at hp
      exact h.lieSem p sid hp
  tri := htri
  file := by rw [t.file]; exact h.file
  fidLibre := by rw [t.fids, t.file]; exact h.fidLibre
  fidUnique := by rw [t.fids]; exact h.fidUnique
  sem := by rw [t.sem]; exact h.sem
  sidLibre := by rw [t.sids, t.sem]; exact h.sidLibre
  sidUnique := by rw [t.sids]; exact h.sidUnique
  table i p := by
    rw [t.table, t.vivant, t.pid_eq]
    exact h.table i p
  inscrit p := by
    rw [t.table, t.vivant, t.pid_eq]
    exact h.inscrit p
  pid p := by
    rw [t.vivant, t.pid_eq]
    exact h.pid p
  pidLibre := by rw [t.pids, t.table]; exact h.pidLibre
  pidUnique := by rw [t.pids]; exact h.pidUnique
  ancien := by rw [t.vivant, t.prochain]; exact h.ancien
  pere c f hc hm hf := by
    rw [t.vivant] at hc ⊢
    rw [t.pere_eq] at hf
    rw [t.fils_eq]
    refine h.pere c f hc ?_ hf
    by_cases hcq : c = q
    · subst hcq
      exact fun he => hm (hmort he)
    · rwa [t.autre c hcq] at hm
  fils f c hf hc := by
    rw [t.vivant] at hf ⊢
    rw [t.fils_eq] at hc
    rw [t.pere_eq]
    obtain ⟨hv, hp, hm⟩ := h.fils f c hf hc
    refine ⟨hv, hp, ?_⟩
    by_cases hcq : c = q
    · subst hcq
      intro he
      rcases hpere he with he | he
      · exact hm he
      · rw [hp] at he
        cases he
    · rwa [t.autre c hcq]
  filsUnique f hf := by
    rw [t.vivant] at hf
    rw [t.fils_eq]
    exact h.filsUnique f hf
  orphelin p hp hm := by
    rw [t.vivant] at hp
    rw [t.pere_eq]
    by_cases hpq : p = q
    · subst hpq
      exact horph hm
    · rw [t.autre p hpq] at hm
      rw [t.lien p hpq]
      exact h.orphelin p hp hm
  idle := by
    rw [t.vivant, t.idle, t.pid_eq, t.fils_eq]
    obtain ⟨hv, hpid, hpr, hfi⟩ := h.idle
    refine ⟨hv, hpid, ?_, hfi⟩
    by_cases hi : s.procIdle = q
    · rw [hi]
      exact (hidle hi.symm).1
    · rwa [t.autre _ hi]
  idleEtat := by
    rw [t.idle]
    by_cases hi : s.procIdle = q
    · rw [hi]
      exact (hidle hi.symm).2.1
    · rw [t.autre _ hi]
      exact h.idleEtat
  idleContexte := by
    rw [t.idle]
    by_cases hi : s.procIdle = q
    · rw [hi]
      exact (hidle hi.symm).2.2
    · rw [t.autre _ hi]
      exact h.idleContexte
  prio p hp hi := by
    rw [t.vivant] at hp
    rw [t.idle] at hi
    by_cases hpq : p = q
    · subst hpq
      exact hprio hi
    · rw [t.autre p hpq]
      exact h.prio p hp hi
  suspendu p hp := by
    by_cases hpq : p = q
    · exact hpq ▸ hsus
    · exact t.suspendu hpq (h.suspendu p (by rwa [t.vivant] at hp))

end Coherent

end GenesisOS
