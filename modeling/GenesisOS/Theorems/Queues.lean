import GenesisOS.Refinement.Boot

/-!
# GenesisOS — process states and queues

At every return to user mode a process is in the queue its state names and in
no other, and `queue_add` never finds its element linked. `queue_del` finds
its element in no queue in one case: `kill` of a process blocked in `waitpid`.
-/

namespace GenesisOS

open Lib

namespace Core

variable (s : Core)

/-- The process is once in the queue of `t` and in no other queue. -/
def Seul (p : Ptr) (t : Tete) : Prop :=
  ∀ t', (s.elems t').count p = if t' = t then 1 else 0

/-- The process is in no queue. -/
def NullePart (p : Ptr) : Prop := ∀ t, p ∉ s.elems t

/-- The process is in the queue its state names and in no other. -/
def DansSaFile (p : Ptr) : Prop :=
  match (s.tas p).etat with
  | .activable => s.Seul p .procActivables
  | .endormi => s.Seul p .procEndormis
  | .attendFile => (∃ f, s.tableauFile (s.tas p).fid = some f) ∧ s.Seul p (.file (s.tas p).fid)
  | .attendSemaphore => ∃ sid sem, s.tableauSem sid = some sem ∧ s.Seul p (.semaphore sid)
  | .attendEs => s.Seul p .procBloqueEs
  | .mourant => s.Seul p .procMourants
  | .elu => p = s.procElu ∧ s.NullePart p
  | .zombie | .attendFils => s.NullePart p

variable {s : Core} {p : Ptr}

theorem seul_of_lien {t : Tete} (hp : s.lien p = some t) : s.Seul p t := by
  intro t'
  split
  · next ht =>
    subst ht
    exact List.count_eq_one_of_mem (s.chainage.nodup t') ((s.chainage.mem_iff p t').mpr hp)
  · next ht =>
    refine List.count_eq_zero_of_not_mem ?_
    intro hm
    have hl : s.lien p = some t' := LinkedQueues.link_of_mem hm
    rw [hp] at hl
    exact ht (Option.some.inj hl).symm

theorem nullePart_of_lien (hp : s.lien p = none) : s.NullePart p :=
  fun _ => LinkedQueues.notMem_of_link_none hp

end Core

/-- The queue of a process, while the elected process runs. -/
theorem Coherent.dansSaFile {s : Core} (h : Coherent s) (he : s.EnCours) {p : Ptr}
    (hv : s.vivant p = true) : s.DansSaFile p := by
  have hpl := h.place p hv
  unfold Core.Place at hpl
  unfold Core.DansSaFile
  cases het : (s.tas p).etat <;> rw [het] at hpl
  case elu => exact ⟨hpl.1, Core.nullePart_of_lien hpl.2⟩
  case activable => exact Core.seul_of_lien hpl
  case endormi => exact Core.seul_of_lien hpl
  case mourant =>
    rcases hpl with hl | ⟨hp, -⟩
    · exact Core.seul_of_lien hl
    · rw [hp, he.etat] at het
      cases het
  case zombie => exact Core.nullePart_of_lien hpl
  case attendFils => exact Core.nullePart_of_lien hpl
  case attendFile => exact ⟨h.lieFile p _ hpl, Core.seul_of_lien hpl⟩
  case attendSemaphore =>
    obtain ⟨sid, hl⟩ := hpl
    obtain ⟨sem, hs⟩ := h.lieSem p sid hl
    exact ⟨sid, sem, hs, Core.seul_of_lien hl⟩
  case attendEs => exact Core.seul_of_lien hpl

-- ---------------------------------------------------------------------------
-- The victim of `kill`
-- ---------------------------------------------------------------------------

/-- The step is a call of `kill` that finds another process in the state `et`. -/
def Tue (et : Etat) (c : Config) (e : Signal) : Prop :=
  ∃ r p, e.Appelle .kill r ∧ c.s.toCore.victime r.ebx.toInt = some p ∧ (c.s.tas p).etat = et

theorem Config.entree_int49 {c : Config} {r : Registres} (hp : possible c (.int49 r) = true) :
    c.entree = c.s.toCore := by
  simp only [possible, decide_eq_true_eq] at hp
  exact Config.entree_utilisateur hp.1

/-- The signals of `l` call `kill` nowhere. -/
def sansKill (l : List Signal) : Bool :=
  l.all fun
    | .int49 r => r.service ≠ some .kill
    | _ => true

theorem not_appelle_of_sansKill {l : List Signal} (h : sansKill l = true) {r : Registres}
    (he : .int49 r ∈ l) : r.service ≠ some .kill :=
  of_decide_eq_true (List.all_eq_true.mp h _ he)

theorem not_tue_of_sansKill {l : List Signal} (h : sansKill l = true) {et : Etat} {e : Signal}
    (he : e ∈ l) (c : Config) : ¬ Tue et c e := by
  rintro ⟨r, p, ⟨rfl, hsv⟩, -⟩
  exact not_appelle_of_sansKill h he hsv

/-- `kill` takes a process in `waitpid` out of a queue it is not in. -/
theorem kill_attendFils {s : Kernel} {pid : Int} {p : Ptr} (h : Coherent s.toCore)
    (hv : s.toCore.victime pid = some p) (hf : (s.tas p).etat = .attendFils) :
    wp (· = .assertion .queueDel) (kill pid) (fun _ _ => False) s := by
  obtain ⟨hvp, -, hpe, hz, hm⟩ := h.of_victime hv
  have hl : s.lien p = none := h.lien_of_attendFils hvp hf
  unfold Core.victime at hv
  split at hv
  · next hpid =>
    obtain ⟨hp, -⟩ := Option.filter_eq_some_iff.mp hv
    have hpid' : ¬ (pid ≤ 0 ∨ MAX_PROCESS ≤ pid) := by omega
    have hvp' : s.vivant p = true := hvp
    simp [kill, lire, note, surCore, queueDel, hpid', hp, hvp', hz, hm, hpe]
    exact fun hne => absurd hl hne
  · cases hv

/-- A step whose kernel code stops at a fault. -/
theorem pas_error {c : Config} {e : Signal} {f : Faute}
    (h : wp (· = f) (segment c e) (fun _ _ => False) c.s) : pas c e = .error f := by
  unfold pas
  have hwp : wp (· = f) (segment c e >>= termine) (fun _ _ => False) c.s := by
    rw [wp_bind]
    exact wp_imp h fun _ _ hx => hx.elim
  unfold wp at hwp
  split at hwp
  · exact hwp.elim
  · next f' hf =>
    rw [hf, hwp]

theorem pas_kill_attendFils {c : Config} {e : Signal} (h : c.Valide) (hp : possible c e = true)
    (ht : Tue .attendFils c e) : pas c e = .error (.assertion .queueDel) := by
  obtain ⟨r, p, ⟨rfl, hsv⟩, hv, hf⟩ := ht
  have hp' := hp
  simp only [possible, decide_eq_true_eq] at hp'
  refine pas_error ?_
  rw [segment, if_pos hp', traitantIT49Switch, hsv]
  exact kill_attendFils h.stable.coherent hv hf

-- ---------------------------------------------------------------------------
-- Runs
-- ---------------------------------------------------------------------------

/-- In every reachable configuration, the processes of the table are in their
queues at a return to user mode, and a step fails an assertion of the queues
exactly when it kills a process blocked in `waitpid`. -/
theorem files_et_etats {c : Config} (h : Accessible c) :
    (c.mode = .utilisateur →
      ∀ pid p, c.s.tableDesProcs pid = some p → c.s.toCore.DansSaFile p) ∧
    ∀ e, possible c e = true →
      ((pas c e = .error (.assertion .queueAdd) ∨ pas c e = .error (.assertion .queueDel)) ↔
        Tue .attendFils c e) := by
  have hc := h.valide
  constructor
  · intro hm pid p hp
    exact hc.stable.coherent.dansSaFile (hc.utilisateur hm) (hc.stable.coherent.table pid p hp).1
  intro e hp
  constructor
  · rintro (hf | hf)
    · rcases (pas_raffine hc hp).2 _ hf with hx | hx
      · cases hx
      · exact hx.elim
    · rcases (pas_raffine hc hp).2 _ hf with hx | ⟨r, p, he, hv, het⟩
      · cases hx
      · obtain ⟨rfl, hsv⟩ := he
        rw [Config.entree_int49 hp] at hv het
        exact ⟨r, p, ⟨rfl, hsv⟩, hv, het⟩
  · intro ht
    exact .inr (pas_kill_attendFils hc hp ht)

/-- The user process starts a child and waits for it; the child runs. -/
def pereEnAttente : List Signal :=
  [.suite, appel 2 0x1000000 0 1 0, appel 17 2 0 0 0, .suite]

/-- The child kills its father. -/
theorem files_et_etats_faux : ∃ c e, Accessible c ∧ possible c e = true ∧
    pas c e = .error (.assertion .queueDel) := by
  obtain ⟨c, hc, h⟩ := Accessible.scenario (l := pereEnAttente)
    (Q := fun c => echoue c (appel 4 1 0 0 0) (.assertion .queueDel)) (by decide +kernel)
  exact ⟨c, _, hc, of_echoue h⟩

/-- In the same configuration the father is in no queue, as it should be, and
another call of the child fails no assertion. -/
theorem files_et_etats_exemple : ∃ c, Accessible c ∧
    (∃ p, c.s.tableDesProcs 1 = some p ∧ c.s.toCore.DansSaFile p) ∧
    pas c (appel 4 2 0 0 0) ≠ .error (.assertion .queueDel) := by
  obtain ⟨c, hc, h⟩ := Accessible.scenario (l := pereEnAttente)
    (Q := fun c => decide (c.mode = .utilisateur) && possible c (appel 4 2 0 0 0) &&
      (c.s.tableDesProcs 1).isSome && (c.s.toCore.victime 2).isNone) (by decide +kernel)
  simp only [Bool.and_eq_true, decide_eq_true_eq, Option.isSome_iff_exists, Option.isNone_iff_eq_none] at h
  obtain ⟨⟨⟨hm, hp⟩, p, hp₁⟩, hv⟩ := h
  refine ⟨c, hc, ⟨p, hp₁, (files_et_etats hc).1 hm 1 p hp₁⟩, ?_⟩
  intro hf
  obtain ⟨r, q, ⟨hr, -⟩, hq, -⟩ := ((files_et_etats hc).2 _ hp).mp (.inr hf)
  cases hr
  rw [show (2 : BitVec 32).toInt = 2 from rfl, hv] at hq
  cases hq

end GenesisOS
