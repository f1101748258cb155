import GenesisOS.Model.Machine
import Mathlib.Logic.Relation

/-!
# GenesisOS — abstract transitions of the kernel

What a piece of kernel code can do to the scheduling part of the state, said
once. A step of the machine is a sequence of *quiet* transitions, made while
the elected process stays elected, followed either by a return to user mode or
by an *exit* transition, in which the elected process blocks, dies or merely
gives up the processor; then `free_mourant_queue` frees dead processes and
`ordonnanceur` elects.

Each transition carries the guards the code has tested, so that an invariant
is proved by one case analysis on these relations and holds of every run of
the code (`Refinement/`).
-/

namespace GenesisOS

namespace Core

variable (s : Core)

/-- The children of a process. -/
def fils (p : Ptr) : List Ptr := (s.tas p).filsTete.map Fils.procFils

/-- The elected process runs: nothing but user code is left on its stack. -/
structure EnCours : Prop where
  vivant : s.vivant s.procElu = true
  etat : (s.tas s.procElu).etat = .elu
  contexte : (s.tas s.procElu).contexte = .iret ∨ (s.tas s.procElu).contexte = .debut

/-- The elected process has just been elected. -/
structure Elu : Prop where
  vivant : s.vivant s.procElu = true
  etat : (s.tas s.procElu).etat = .elu

/-- The process has a greater priority than the elected one. -/
def fort (p : Ptr) : Bool := (s.tas p).prio > (s.tas s.procElu).prio

/-- Take a process out of the list that holds it, update its fields and make
it activable. -/
def eveille (p : Ptr) (f : Processus → Processus) : Core :=
  ((s.retire p).maj p fun r => { f r with etat := .activable }).ajoute .procActivables p (·.prio)

/-- Make a process that is in no list activable. -/
def active (p : Ptr) : Core :=
  (s.maj p fun r => { r with etat := .activable }).ajoute .procActivables p (·.prio)

/-- Wake a father blocked in `waitpid`. -/
def reveillePere (pere : Ptr) : Core :=
  if (s.tas pere).etat = .attendFils then s.active pere else s

/-- The beginning of `psend` on the file `f`. -/
def emet (f : File) (v : Int) : Core :=
  (s.note (.emission f.adr s.procElu v)).maj s.procElu
    fun r => { r with fileValue := v, operationStatus := 1 }

/-- The beginning of `preceive` on the file `f`. -/
def recoit (f : File) (m : Nat) : Core :=
  (s.note (.reception f.adr s.procElu m)).maj s.procElu
    fun r => { r with fileValue := -1, operationStatus := 1 }

/-- Replace the structure of a file. -/
@[simps] def majFile (fid : Int) (f : Option File) : Core :=
  { s with tableauFile := Function.update s.tableauFile fid f }

/-- Replace the structure of a semaphore. -/
@[simps] def majSem (sid : Int) (sem : Option Semaphore) : Core :=
  { s with tableauSem := Function.update s.tableauSem sid sem }

/-- Advance the allocation counter. -/
@[simps] def alloue (n : Nat) : Core := { s with prochain := n }

/-- Store a word for the elected process, unless the pointer is null. -/
@[simps] def ecrit (adr : Nat) (w : BitVec 32) : Core :=
  { s with journal := s.journal ++ if adr = 0 then [] else [.ecriture s.procElu adr w] }

/-- The elected process blocks on the file in entry `fid`. -/
def bloqueFile (fid : Int) : Core :=
  ((s.ajoute (.file fid) s.procElu (·.prio)).maj s.procElu fun r => { r with fid := fid }).maj
    s.procElu fun r => { r with etat := .attendFile }

/-- A child of a process being freed: a zombie is to be freed too, another one
loses its father. -/
def detache (c : Ptr) : Core :=
  if (s.tas c).etat = .zombie then
    (s.maj c fun r => { r with etat := .mourant }).ajoute .procMourants c (·.prio)
  else s.maj c fun r => { r with pere := none }

/-- One turn of `free_mourant_queue`. -/
def libere (p : Ptr) (adr n : Nat) : Core :=
  let s' := (s.fils p).foldl detache (s.retire p)
  { s' with
    tableDesProcs := Function.update s'.tableDesProcs (s.tas p).pid none
    pidLibreTete := ⟨adr, (s.tas p).pid⟩ :: s'.pidLibreTete
    prochain := n
    vivant := Function.update s'.vivant p false
    journal := s'.journal ++ [.libere p] }

/-- The creation of the process `p` from the record `r`. -/
def cree (p : Ptr) (r : Processus) (reste : List PidLibre) (adr n : Nat) : Core :=
  let pere := if s.procElu = s.procIdle then none else some s.procElu
  let s' := { s with
    pidLibreTete := reste
    prochain := n
    vivant := Function.update s.vivant p true
    tableDesProcs := Function.update s.tableDesProcs r.pid (some p)
    tas := fun x =>
      if x = p then { r with pere := pere }
      else if x = s.procElu ∧ s.procElu ≠ s.procIdle then
        { s.tas x with filsTete := ⟨adr, p⟩ :: (s.tas x).filsTete }
      else s.tas x }
  (s'.note (.cree pere p r.pid)).ajoute .procActivables p (·.prio)

/-- The end of `waitpid`: the elected process, whose children become `l`, takes
the value of the zombie `c`. -/
def recolte (c : Ptr) (l : List Fils) : Core :=
  (((s.maj s.procElu fun r => { r with filsTete := l }).note
    (.recolte s.procElu c)).maj c fun r => { r with etat := .mourant, pere := none }).ajoute
      .procMourants c (·.prio)

/-- Save the return point of the elected process. -/
def empile (k : Reprise) : Core := s.maj s.procElu fun r => { r with contexte := k }

-- ---------------------------------------------------------------------------
-- Their effect on structures and links
-- ---------------------------------------------------------------------------

variable {s : Core} {p x : Ptr} {t : Tete}

theorem tas_maj (f : Processus → Processus) :
    (s.maj p f).tas x = if x = p then f (s.tas p) else s.tas x := by
  simp [Function.update_apply]

@[simp] theorem lien_maj (f : Processus → Processus) : (s.maj p f).lien x = s.lien x := rfl

@[simp] theorem lien_note (e : Evenement) : (s.note e).lien x = s.lien x := rfl

@[simp] theorem elems_maj (f : Processus → Processus) : (s.maj p f).elems t = s.elems t := rfl

@[simp] theorem elems_note (e : Evenement) : (s.note e).elems t = s.elems t := rfl

@[simp] theorem fils_note (e : Evenement) : (s.note e).fils p = s.fils p := rfl

@[simp] theorem ecrit_zero (w : BitVec 32) : s.ecrit 0 w = s := by simp [ecrit]

theorem ecrit_of_ne {adr : Nat} {w : BitVec 32} (h : adr ≠ 0) :
    s.ecrit adr w = s.note (.ecriture s.procElu adr w) := by simp [ecrit, note, h]

theorem lien_retire : (s.retire p).lien x = if x = p then none else s.lien x :=
  Lib.LinkedQueues.link_remove

theorem lien_ajoute {cle : Processus → Int} (hp : s.lien p = none) :
    (s.ajoute t p cle).lien x = if x = p then some t else s.lien x :=
  Lib.LinkedQueues.link_add hp

theorem lien_ajoute_of_ne {cle : Processus → Int} (hx : x ≠ p) :
    (s.ajoute t p cle).lien x = s.lien x := by
  by_cases hp : s.lien p = none
  · rw [lien_ajoute hp, if_neg hx]
  · show (s.chainage.add t p _).link x = s.chainage.link x
    rw [Lib.LinkedQueues.add, dif_neg hp]

theorem tas_eveille (f : Processus → Processus) :
    (s.eveille p f).tas x =
      if x = p then { f (s.tas p) with etat := .activable } else s.tas x := by
  simp [eveille, Function.update_apply]

theorem lien_eveille (f : Processus → Processus) :
    (s.eveille p f).lien x = if x = p then some .procActivables else s.lien x := by
  unfold eveille
  rw [lien_ajoute (by simp [lien_retire])]
  by_cases hx : x = p <;> simp [hx, lien_retire]

/-- Priorities compare as before when they have not changed. -/
theorem fort_congr {u : Core} (helu : u.procElu = s.procElu)
    (hprio : ∀ x, (u.tas x).prio = (s.tas x).prio) (p : Ptr) : u.fort p = s.fort p := by
  unfold fort
  rw [helu, hprio, hprio]

/-- A field that the update of a process leaves alone. -/
theorem champ_maj {α : Type} {g : Processus → α} {f : Processus → Processus}
    (hf : ∀ r, g (f r) = g r) (x : Ptr) : g ((s.maj p f).tas x) = g (s.tas x) := by
  rw [tas_maj]
  split
  · next hx => rw [hx]; exact hf _
  · rfl

theorem prio_maj {f : Processus → Processus} (hf : ∀ r, (f r).prio = r.prio) (x : Ptr) :
    ((s.maj p f).tas x).prio = (s.tas x).prio := champ_maj hf x

theorem prio_eveille {f : Processus → Processus} (hf : ∀ r, (f r).prio = r.prio) (x : Ptr) :
    ((s.eveille p f).tas x).prio = (s.tas x).prio :=
  champ_maj (s := s.retire p) (f := fun r => { f r with etat := .activable }) (fun r => hf r) x

theorem fort_eveille {f : Processus → Processus} (hf : ∀ r, (f r).prio = r.prio) (x : Ptr) :
    (s.eveille p f).fort x = s.fort x :=
  fort_congr (s := s) (u := s.eveille p f) rfl (prio_eveille hf) x

theorem fort_emet {f : File} {v : Int} (x : Ptr) : (s.emet f v).fort x = s.fort x :=
  fort_congr (s := s) (u := s.emet f v) rfl
    (prio_maj (s := s.note _) (f := fun r => { r with fileValue := v, operationStatus := 1 })
      fun _ => rfl) x

theorem fort_recoit {f : File} {m : Nat} (x : Ptr) : (s.recoit f m).fort x = s.fort x :=
  fort_congr (s := s) (u := s.recoit f m) rfl
    (prio_maj (s := s.note _) (f := fun r => { r with fileValue := -1, operationStatus := 1 })
      fun _ => rfl) x

/-- Moving a process to another list. -/
theorem lien_deplace {u : Core} {k : Processus → Int} (hl : u.chainage = s.chainage) :
    ((u.retire p).ajoute t p k).lien x = if x = p then some t else s.lien x := by
  rw [lien_ajoute (by simp [lien_retire])]
  split
  · rfl
  · next hx =>
    rw [lien_retire, if_neg hx]
    exact congrArg (fun q => q.link x) hl

theorem elems_ajoute_of_ne {t' : Tete} {cle : Processus → Int} (ht : t' ≠ t) :
    (s.ajoute t p cle).elems t' = s.elems t' := by
  by_cases hp : s.lien p = none
  · exact (Lib.LinkedQueues.elems_add hp).trans (if_neg ht)
  · show (s.chainage.add t p _).elems t' = s.chainage.elems t'
    rw [Lib.LinkedQueues.add, dif_neg hp]

theorem elems_retire_of_ne (hp : s.lien p ≠ some t) : (s.retire p).elems t = s.elems t :=
  Lib.LinkedQueues.elems_remove_of_ne hp

/-- Waking a process takes it out of its list and leaves the others alone. -/
theorem elems_eveille {f : Processus → Processus} (ht : t ≠ .procActivables) :
    (s.eveille p f).elems t = (s.retire p).elems t := elems_ajoute_of_ne ht

theorem elems_eveille_of_ne {t' : Tete} {f : Processus → Processus} (hp : s.lien p = some t')
    (ht' : t ≠ t') (ht : t ≠ .procActivables) : (s.eveille p f).elems t = s.elems t := by
  rw [elems_eveille ht, elems_retire_of_ne]
  rw [hp]
  exact fun hx => ht' (Option.some.inj hx).symm

theorem elems_eveille_top {f : Processus → Processus} (hp : s.chainage.top t = some p)
    (ht : t ≠ .procActivables) : s.elems t = (s.eveille p f).elems t ++ [p] := by
  rw [elems_eveille ht]
  exact Lib.LinkedQueues.elems_remove_top hp

theorem elems_active_of_ne (ht : t ≠ .procActivables) : (s.active p).elems t = s.elems t :=
  elems_ajoute_of_ne ht

theorem elems_reveillePere_of_ne (ht : t ≠ .procActivables) :
    (s.reveillePere p).elems t = s.elems t := by
  unfold reveillePere
  split
  · exact elems_active_of_ne ht
  · rfl

theorem tas_active :
    (s.active p).tas x = if x = p then { s.tas p with etat := .activable } else s.tas x := by
  simp [active, Function.update_apply]

theorem lien_active (hp : s.lien p = none) :
    (s.active p).lien x = if x = p then some .procActivables else s.lien x := by
  unfold active
  rw [lien_ajoute (by simpa using hp), lien_maj]

theorem prio_active (x : Ptr) : ((s.active p).tas x).prio = (s.tas x).prio :=
  champ_maj (f := fun r => { r with etat := .activable }) (fun _ => rfl) x

theorem fort_reveillePere (x : Ptr) : (s.reveillePere p).fort x = s.fort x := by
  unfold reveillePere
  split
  · exact fort_congr (s := s) (u := s.active p) rfl prio_active x
  · rfl

end Core

/-! ## Quiet transitions -/

/-- A message file or a semaphore, by the address of its structure. -/
inductive Objet where
  | file (f : Ptr)
  | sem (s : Ptr)

/-- What is told of a quiet transition besides its effect: whether it made a
process of greater priority than the elected one activable, the list in which
`kill` found its victim, whether the journal gained an event of the elected
process, the file or semaphore that is being emptied, the process to which
`chprio` gave a priority, and the sleeping process that was woken. -/
structure Etiquette where
  fort : Bool := false
  victime : Option Tete := none
  trace : Bool := false
  efface : Option Objet := none
  prio : Option (Ptr × Int) := none
  reveil : Option Ptr := none

/-- Release one process waiting on a semaphore with an error status. -/
def Rejet (sid : Int) (sem : Semaphore) (status : Int) (s s' : Core) : Prop :=
  ∃ p, s.chainage.top (.semaphore sid) = some p ∧
    s' = (s.eveille p fun r => { r with operationStatus := status }).note
      (.semRejet sem.adr p status)

/-- The call of one process waiting on a message file fails. -/
def Echec (fid : Int) (f : File) (s s' : Core) : Prop :=
  ∃ p, s.chainage.top (.file fid) = some p ∧
    s' = (s.eveille p fun r => { r with fid := -1, operationStatus := 0 }).note (.echec f.adr p)

/-- One turn of `free_mourant_queue`. -/
def Liberation (s s' : Core) : Prop :=
  ∃ p adr n, s.chainage.top .procMourants = some p ∧ s.prochain ≤ n ∧ s' = s.libere p adr n

/-- What the kernel can do while the elected process stays elected. -/
inductive Quiet : Etiquette → Core → Core → Prop
  | alloue {s : Core} {n : Nat} (hn : s.prochain ≤ n) : Quiet {} s (s.alloue n)
  | ecriture {s : Core} (adr : Nat) (w : BitVec 32) : Quiet { trace := true } s (s.ecrit adr w)
  | attente {s : Core} (pid : Int) (retvalp : Nat) :
      Quiet { trace := true } s (s.note (.attente s.procElu pid retvalp))
  -- processes
  | rendPid {s : Core} {cell : PidLibre} {reste : List PidLibre} {a n : Nat}
      (hl : s.pidLibreTete = cell :: reste) (hn : s.prochain ≤ n)
      {t : Ptr → Processus} (ht : ∀ p, p < s.prochain → t p = s.tas p) :
      Quiet {} s { s with tas := t, pidLibreTete := ⟨a, cell.pid⟩ :: reste, prochain := n }
  | cree {s : Core} {p : Ptr} {r : Processus} {cell : PidLibre} {reste : List PidLibre}
      {adr n : Nat} (hl : s.pidLibreTete = cell :: reste) (hp : s.prochain ≤ p) (hn : p < n)
      (hpid : r.pid = cell.pid) (hetat : r.etat = .activable) (hctx : r.contexte = .debut)
      (hfils : r.filsTete = []) (hprio : 0 < r.prio) (hret : r.retval = 0) (hplace : r.place = 0) :
      Quiet { fort := r.prio > (s.tas s.procElu).prio } s (s.cree p r reste adr n)
  | chprioElu {s : Core} {n : Int} (hn : 0 < n) (hidle : s.procElu ≠ s.procIdle) :
      Quiet { fort := true, prio := some (s.procElu, n) } s
        (s.maj s.procElu fun r => { r with prio := n })
  | chprioActivable {s : Core} {p : Ptr} {n : Int} (hn : 0 < n) (hv : s.vivant p = true)
      (hpid : 0 < (s.tas p).pid) (hp : p ≠ s.procElu) (he : (s.tas p).etat = .activable) :
      Quiet { fort := n > (s.tas s.procElu).prio, prio := some (p, n) } s
        (((s.maj p fun r => { r with prio := n }).retire p).ajoute .procActivables p (·.prio))
  | chprioFile {s : Core} {p : Ptr} {n : Int} (hn : 0 < n) (hv : s.vivant p = true)
      (hpid : 0 < (s.tas p).pid) (hp : p ≠ s.procElu) (he : (s.tas p).etat = .attendFile) :
      Quiet { prio := some (p, n) } s
        (((s.maj p fun r => { r with prio := n }).retire p).ajoute (.file (s.tas p).fid) p
          (·.prio))
  | chprioAutre {s : Core} {p : Ptr} {n : Int} (hn : 0 < n) (hv : s.vivant p = true)
      (hpid : 0 < (s.tas p).pid) (hp : p ≠ s.procElu) (he : (s.tas p).etat ≠ .activable)
      (he' : (s.tas p).etat ≠ .attendFile) :
      Quiet { prio := some (p, n) } s (s.maj p fun r => { r with prio := n })
  | tueZombie {s : Core} {p pere : Ptr} {t : Tete}
      (hpid : 0 < (s.tas p).pid) (hp : p ≠ s.procElu) (hz : (s.tas p).etat ≠ .zombie)
      (hm : (s.tas p).etat ≠ .mourant) (ht : s.lien p = some t)
      (hpere : (s.tas p).pere = some pere) :
      Quiet
        { victime := some t
          fort := decide ((s.tas pere).etat = .attendFils) && s.fort pere } s
        ((((s.note (.tue p)).retire p).maj p fun r => { r with etat := .zombie }).reveillePere pere)
  | tueMourant {s : Core} {p : Ptr} {t : Tete}
      (hpid : 0 < (s.tas p).pid) (hp : p ≠ s.procElu) (hz : (s.tas p).etat ≠ .zombie)
      (hm : (s.tas p).etat ≠ .mourant) (ht : s.lien p = some t) (hpere : (s.tas p).pere = none) :
      Quiet { victime := some t } s
        ((((s.note (.tue p)).retire p).maj p fun r => { r with etat := .mourant }).ajoute
          .procMourants p (·.prio))
  | recolte {s : Core} {c : Ptr} {l : List Fils} (hc : c ∈ s.fils s.procElu)
      (hz : (s.tas c).etat = .zombie)
      (hl : retireFils c (s.tas s.procElu).filsTete = some l) :
      Quiet { trace := true } s (s.recolte c l)
  | liberation {s s' : Core} (h : Relation.ReflTransGen Liberation s s')
      (hvide : s'.elems .procMourants = []) : Quiet {} s s'
  -- sleeping and console
  | reveil {s : Core} {p : Ptr} (hp : p ∈ s.elems .procEndormis) :
      Quiet { fort := s.fort p, reveil := some p } s (s.eveille p id)
  | reveilEs {s : Core} {p : Ptr}
      (hp : s.chainage.top .procBloqueEs = some p) :
      Quiet { fort := s.fort p } s (s.eveille p id)
  -- message files
  | creeFile {s : Core} {fid n : Int} {adr : Ptr} {l : List FidLibre} {cell : FidLibre} {m : Nat}
      (hl : s.fidListe = l ++ [cell]) (hfid : cell.fid = fid) (h0 : 0 ≤ fid) (hN : fid < NBQUEUE)
      (hn : 0 < n) (hadr : s.prochain ≤ adr) (hm : adr < m) :
      Quiet {} s
        { s with
          fidListe := l
          prochain := m
          chainage := s.chainage.reset (.file fid)
          tableauFile := Function.update s.tableauFile fid
            (some { adr := adr, fid := fid, maxMsg := n, queueMsg := [] }) }
  | echec {s : Core} {fid : Int} {f : File} {p : Ptr} (hf : s.tableauFile fid = some f)
      (hp : s.chainage.top (.file fid) = some p) :
      Quiet { fort := s.fort p, efface := some (.file f.adr) } s
        ((s.eveille p fun r => { r with fid := -1, operationStatus := 0 }).note (.echec f.adr p))
  | vide {s : Core} {fid : Int} {f : File} (hf : s.tableauFile fid = some f)
      (hp : s.elems (.file fid) = []) :
      Quiet { efface := some (.file f.adr) } s
        ((s.majFile fid (some { f with queueMsg := [] })).note (.vide f.adr))
  | supprimeFile {s : Core} {fid : Int} {f : File} {adr n : Nat} (hf : s.tableauFile fid = some f)
      (hp : s.elems (.file fid) = []) (hn : s.prochain ≤ n) :
      Quiet { efface := some (.file f.adr) } s
        { s with
          tableauFile := Function.update s.tableauFile fid none
          fidListe := Lib.insertByKey FidLibre.fid ⟨adr, fid⟩ s.fidListe
          prochain := n }
  | remis {s : Core} {fid v : Int} {f : File} {p : Ptr} (hidle : s.procElu ≠ s.procIdle)
      (hf : s.tableauFile fid = some f) (hvide : f.queueMsg = [])
      (hp : s.chainage.top (.file fid) = some p) :
      Quiet { fort := s.fort p, trace := true } s
        ((((s.emet f v).eveille p fun r =>
          { r with fid := -1, fileValue := v, operationStatus := 1 }).note
            (.accepte f.adr s.procElu v)).note (.livre f.adr p v))
  | depose {s : Core} {fid v : Int} {f : File} {adr n : Nat} (hidle : s.procElu ≠ s.procIdle)
      (hf : s.tableauFile fid = some f) (hnon : f.queueMsg ≠ [] ∨ s.elems (.file fid) = [])
      (hlt : getNbMsg f < f.maxMsg) (hn : s.prochain ≤ n) :
      Quiet { trace := true } s
        ((((s.emet f v).majFile fid (some { f with queueMsg := ⟨adr, v⟩ :: f.queueMsg })).alloue
          n).note (.accepte f.adr s.procElu v))
  | prend {s : Core} {fid : Int} {f : File} {l : List Message} {msg : Message} {m : Nat}
      (hidle : s.procElu ≠ s.procIdle)
      (hf : s.tableauFile fid = some f) (hl : f.queueMsg = l ++ [msg])
      (hp : s.elems (.file fid) = []) :
      Quiet { trace := true } s
        ((((s.recoit f m).majFile fid (some { f with queueMsg := l })).note
          (.livre f.adr s.procElu msg.message)).ecrit m (BitVec.ofInt 32 msg.message))
  | relaye {s : Core} {fid : Int} {f : File} {l : List Message} {msg : Message} {p : Ptr}
      {a m n : Nat} (hidle : s.procElu ≠ s.procIdle)
      (hf : s.tableauFile fid = some f) (hl : f.queueMsg = l ++ [msg])
      (hp : s.chainage.top (.file fid) = some p) (hn : s.prochain ≤ n) :
      Quiet { fort := s.fort p, trace := true } s
        ((((((((s.recoit f m).majFile fid
            (some { f with queueMsg := ⟨a, (s.tas p).fileValue⟩ :: l })).alloue n).note
          (.livre f.adr s.procElu msg.message)).ecrit m (BitVec.ofInt 32 msg.message)).note
            (.accepte f.adr p (s.tas p).fileValue)).eveille
              p fun r => { r with fid := -1, operationStatus := 1 }))
  -- semaphores
  | creeSem {s : Core} {sid c : Int} {adr : Ptr} {l : List SidLibre} {cell : SidLibre} {m : Nat}
      {x : Semaphore}
      (hl : s.sidListe = l ++ [cell]) (hsid : cell.sid = sid) (hc : 0 ≤ c) (hsem : x.count = c)
      (hadr : x.adr = adr) (hfrais : s.prochain ≤ adr) (hm : adr < m) (hnom : x.sid = sid) :
      Quiet {} s
        (({ s with
          sidListe := l
          prochain := m
          chainage := s.chainage.reset (.semaphore sid) }.majSem sid (some x)).note
            (.semCree adr c))
  | rendSid {s : Core} {l : List SidLibre} {cell : SidLibre} {adr n : Nat}
      (hl : s.sidListe = l ++ [cell]) (hn : s.prochain ≤ n) :
      Quiet {} s
        { s with sidListe := Lib.insertByKey SidLibre.sid ⟨adr, cell.sid⟩ l, prochain := n }
  | sdelete {s s' : Core} {sid : Int} {sem : Semaphore} {adr n : Nat} {b : Bool}
      (hs : s.tableauSem sid = some sem) (hr : Relation.ReflTransGen (Rejet sid sem (-3)) s s')
      (hp : s'.elems (.semaphore sid) = []) (hn : s'.prochain ≤ n)
      (hb : ∀ p ∈ s.elems (.semaphore sid), s.fort p = true → b = true) :
      Quiet { fort := b, efface := some (.sem sem.adr) } s
        { s'.majSem sid none with
          sidListe := Lib.insertByKey SidLibre.sid ⟨adr, sid⟩ s'.sidListe, prochain := n }
  | sreset {s s' : Core} {sid c : Int} {sem : Semaphore} {b : Bool}
      (hs : s.tableauSem sid = some sem) (hr : Relation.ReflTransGen (Rejet sid sem (-4)) s s')
      (hp : s'.elems (.semaphore sid) = []) (h0 : 0 ≤ c) (hc : c ≤ SHORTINT_MAX)
      (hb : ∀ p ∈ s.elems (.semaphore sid), s.fort p = true → b = true) :
      Quiet { fort := b, efface := some (.sem sem.adr) } s (s'.majSem sid (some (sem.setCount c)))
  | signale {s : Core} {sid : Int} {sem : Semaphore} (hs : s.tableauSem sid = some sem)
      (hmax : sem.count ≤ SHORTINT_MAX - 1) (hpos : 0 < sem.count + 1) :
      Quiet {} s
        ((s.majSem sid (some (sem.setCount (sem.count + 1)))).note (.semUnite sem.adr s.procElu))
  | signaleReveil {s : Core} {sid : Int} {sem : Semaphore} {p : Ptr}
      (hs : s.tableauSem sid = some sem) (hmax : sem.count ≤ SHORTINT_MAX - 1)
      (hneg : sem.count + 1 ≤ 0) (hp : s.chainage.top (.semaphore sid) = some p) :
      Quiet { fort := s.fort p } s
        ((((s.majSem sid (some (sem.setCount (sem.count + 1)))).note (.semUnite sem.adr s.procElu)).eveille
          p fun r => { r with operationStatus := 1 }).note (.semAccorde sem.adr p))
  | prendSem {s : Core} {sid : Int} {sem : Semaphore} (hs : s.tableauSem sid = some sem)
      (hpos : 0 < sem.count) :
      Quiet { trace := true } s
        (((s.majSem sid (some (sem.setCount (sem.count - 1)))).note
          (.semPrise sem.adr s.procElu)).note (.semAccorde sem.adr s.procElu))

/-- Sequences of quiet transitions whose labels satisfy `L`, the elected
process running all along. -/
def Calme (L : Etiquette → Prop) : Core → Core → Prop :=
  Relation.ReflTransGen fun s s' => s.EnCours ∧ ∃ e, L e ∧ Quiet e s s'

/-! ## Exit transitions -/

/-- Return points that ask nothing of the other processes: the caller of
`ordonnanceur` only gives up the processor. -/
def Reprise.volontaire : Reprise → Bool
  | .debut | .retour _ | .iret | .ticPIT | .keyboardData _ | .keyboardFin => true
  | _ => false

/-- Return points of a call that has recorded its beginning in the journal. -/
def Reprise.trace : Reprise → Bool
  | .psend | .preceive _ | .wait | .waitpid .. | .waitpidFils .. => true
  | _ => false

theorem Reprise.trace_of_volontaire {k : Reprise} (h : k.volontaire = true) : k.trace ≠ true := by
  cases k <;> simp_all [Reprise.volontaire, Reprise.trace]

/-- Why the elected process leaves the processor. -/
inductive Motif where
  | cede | exit | suicide
  deriving DecidableEq

/-- How the elected process leaves the processor, up to its call of
`ordonnanceur` with the return point `k`. -/
inductive Sortie : Motif → Reprise → Core → Core → Prop
  | suspend {k : Reprise} {s : Core} (hk : k.volontaire = true) : Sortie .cede k s s
  | endort {s : Core} {t : Nat} (hidle : s.procElu ≠ s.procIdle) :
      Sortie .cede (.retour 0) s
        ((s.maj s.procElu fun r => { r with etat := .endormi, secReveille := t }).ajoute
          .procEndormis s.procElu (·.secReveille))
  | emission {s : Core} {fid v : Int} {f : File} (hidle : s.procElu ≠ s.procIdle)
      (hf : s.tableauFile fid = some f) (hnon : f.queueMsg ≠ [] ∨ s.elems (.file fid) = [])
      (hplein : f.maxMsg = getNbMsg f) :
      Sortie .cede .psend s ((s.emet f v).bloqueFile fid)
  | reception {s : Core} {fid : Int} {f : File} {m : Nat} (hidle : s.procElu ≠ s.procIdle)
      (hf : s.tableauFile fid = some f) (hvide : f.queueMsg = []) :
      Sortie .cede (.preceive m) s ((s.recoit f m).bloqueFile fid)
  | wait {s : Core} {sid : Int} {sem : Semaphore} (hidle : s.procElu ≠ s.procIdle)
      (hs : s.tableauSem sid = some sem) (hmin : SHORTINT_MIN + 1 ≤ sem.count)
      (hneg : sem.count - 1 < 0) :
      Sortie .cede .wait s
        ((((s.majSem sid (some (sem.setCount (sem.count - 1)))).note
          (.semPrise sem.adr s.procElu)).maj s.procElu
            fun r => { r with etat := .attendSemaphore }).ajoute (.semaphore sid) s.procElu (·.place))
  | consRead {s : Core} {string length : Nat} (hidle : s.procElu ≠ s.procIdle) :
      Sortie .cede (.consRead string length) s
        ((s.maj s.procElu fun r => { r with etat := .attendEs }).ajoute .procBloqueEs s.procElu
          (·.prio))
  | waitpid {s : Core} {pid : Int} {c : Ptr} {retvalp : Nat} (hidle : s.procElu ≠ s.procIdle)
      (hc : c ∈ s.fils s.procElu) (hpid : (s.tas c).pid = pid) (h0 : 0 ≤ pid)
      (hz : (s.tas c).etat ≠ .zombie) :
      Sortie .cede (.waitpid pid c retvalp) s (s.maj s.procElu fun r => { r with etat := .attendFils })
  | waitpidFils {s : Core} {pid : Int} {retvalp : Nat} (hidle : s.procElu ≠ s.procIdle)
      (hne : s.fils s.procElu ≠ []) (hz : ∀ c ∈ s.fils s.procElu, (s.tas c).etat ≠ .zombie)
      (h0 : pid < 0) :
      Sortie .cede (.waitpidFils pid retvalp) s
        (s.maj s.procElu fun r => { r with etat := .attendFils })
  | exitZombie {s : Core} {v : Int} {pere : Ptr} (hidle : s.procElu ≠ s.procIdle)
      (hpere : (s.tas s.procElu).pere = some pere) :
      Sortie .exit .exitFin s
        ((((s.maj s.procElu fun r => { r with retval := v }).note (.exit s.procElu v)).maj s.procElu
          fun r => { r with etat := .zombie }).reveillePere pere)
  | exitMourant {s : Core} {v : Int} (hidle : s.procElu ≠ s.procIdle)
      (hpere : (s.tas s.procElu).pere = none) :
      Sortie .exit .exitFin s
        (((s.maj s.procElu fun r => { r with retval := v }).note (.exit s.procElu v)).maj s.procElu
          fun r => { r with etat := .mourant })
  | suicideZombie {s : Core} {pere : Ptr} (hidle : s.procElu ≠ s.procIdle)
      (hpere : (s.tas s.procElu).pere = some pere) :
      Sortie .suicide (.retour 0) s
        ((s.note (.tue s.procElu)).maj s.procElu fun r => { r with etat := .zombie })
  | suicideMourant {s : Core} (hidle : s.procElu ≠ s.procIdle)
      (hpere : (s.tas s.procElu).pere = none) :
      Sortie .suicide (.retour 0) s
        ((s.note (.tue s.procElu)).maj s.procElu fun r => { r with etat := .mourant })

/-! ## Election -/

/-- What the elected process becomes when `ordonnanceur` elects another one. -/
def Core.depose (s : Core) : Core :=
  match (s.tas s.procElu).etat with
  | .mourant => s.ajoute .procMourants s.procElu (·.prio)
  | .elu | .activable => s.active s.procElu
  | _ => s

/-- The tables and the journal are not touched. -/
theorem Core.depose_tables (s : Core) : s.depose.tableauFile = s.tableauFile ∧
    s.depose.tableauSem = s.tableauSem ∧ s.depose.tableDesProcs = s.tableDesProcs ∧
    s.depose.journal = s.journal := by
  unfold Core.depose
  split <;> exact ⟨rfl, rfl, rfl, rfl⟩

/-- The election of the process `p`. -/
def Core.elit (s : Core) (p : Ptr) : Core :=
  { (s.retire p).maj p fun r => { r with etat := .elu } with procElu := p }

theorem Core.elems_elit {s : Core} {p : Ptr} {t : Tete} (hp : s.lien p = some .procActivables)
    (ht : t ≠ .procActivables) : (s.elit p).elems t = s.elems t := by
  refine elems_retire_of_ne ?_
  rw [hp]
  exact fun hx => ht (Option.some.inj hx).symm

/-- The effect of `ordonnanceur` after `free_mourant_queue`. -/
inductive Election : Core → Core → Prop
  | aucune {s : Core} (hvide : s.elems .procActivables = []) : Election s s
  | elit {s : Core} {p : Ptr} (hv : s.vivant s.procElu = true)
      (hp : s.depose.chainage.top .procActivables = some p) : Election s (s.depose.elit p)

/-! ## Steps -/

/-- What a step is allowed to do: return to user mode after waking a process
of greater priority, `kill` a process in a given state, add events of the
elected process to the journal, end the elected process, empty a file or a
semaphore, give a priority to a process, wake a sleeping one, stop at a fault. -/
structure Cadre where
  fort : Prop := False
  victime : Tete → Prop := fun _ => False
  trace : Prop := False
  meurt : Motif → Core → Prop := fun _ _ => False
  efface : Objet → Prop := fun _ => False
  prio : Ptr → Int → Prop := fun _ _ => False
  reveil : Ptr → Prop := fun _ => False
  faute : Faute → Prop := fun _ => False

/-- The quiet transitions a step may make before it elects. -/
def Cadre.admet (C : Cadre) (l : Etiquette) : Prop :=
  (∀ t, l.victime = some t → C.victime t) ∧ (l.trace = true → C.trace) ∧
    (∀ a, l.efface = some a → C.efface a) ∧ (∀ p n, l.prio = some (p, n) → C.prio p n) ∧
      ∀ p, l.reveil = some p → C.reveil p

/-- The quiet transitions a step may make before it returns to user mode. -/
def Cadre.admetRetour (C : Cadre) (l : Etiquette) : Prop :=
  C.admet l ∧ (l.fort = true → C.fort)

/-- The effect of a piece of kernel code up to its end. -/
inductive Segment (C : Cadre) : Suite → Core → Core → Prop
  | retour {v : Int} {s s' : Core} (h : Calme C.admetRetour s s') (he : s'.EnCours) :
      Segment C (.retour v) s s'
  | iret {s s' : Core} (h : Calme C.admetRetour s s') (he : s'.EnCours) : Segment C .iret s s'
  | ordonnanceur {m : Motif} {k : Reprise} {s s₁ s' : Core} (h : Calme C.admet s s₁)
      (he : s₁.EnCours) (hs : Sortie m k s₁ s') (hm : m ≠ .cede → C.meurt m s₁)
      (ht : k.trace = true → C.trace := by simp [Reprise.trace]) :
      Segment C (.ordonnanceur k) s s'

/-- The effect of a whole step of the machine. -/
inductive Tour (C : Cadre) : Mode → Core → Core → Prop
  | retour {v : Int} {s s' : Core} (h : Segment C (.retour v) s s') :
      Tour C .utilisateur s (s'.note (.retour s'.procElu v))
  | iret {s s' : Core} (h : Segment C .iret s s') : Tour C .utilisateur s s'
  | election {k : Reprise} {s s₂ s₃ s' : Core} (h : Segment C (.ordonnanceur k) s s₂)
      (hl : Relation.ReflTransGen Liberation (s₂.empile k) s₃)
      (hvide : s₃.elems .procMourants = []) (hel : Election s₃ s') : Tour C .noyau s s'

end GenesisOS
