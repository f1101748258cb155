import GenesisOS.Model.Machine
import Mathlib.Data.List.Count

/-!
# GenesisOS — what the kernel code leaves alone

Only `keyboard_data` and `cons_read` touch the keyboard variables, only the clock
interrupt advances the clock, and only the services with a pointer argument
access user memory through it. All other code is `Sobre`; the services with a pointer argument are too, once the range they
may access lies in user memory (`Admet`).
-/

namespace GenesisOS

open Lib

/-- The fault is an access through a pointer argument, or out of `tampon`. -/
inductive Faute.Externe : Faute → Prop
  | page (adr : Nat) : Externe (.page adr)
  | tampon : Externe (.horsBornes .keyboardData)

/-- The other faults. -/
def Faute.Interne (f : Faute) : Prop := ¬ f.Externe

/-- The keyboard variables and the clock. -/
def Kernel.cadran (s : Kernel) : Clavier × Nat := (s.clavier, s.ticks)

/-- The code `m` leaves the keyboard variables and the clock alone, and accesses
no memory through a pointer argument. -/
abbrev Sobre {α : Type} (m : M α) : Prop := Keeps Faute.Interne Kernel.cadran m

/-- The user stack of a process. -/
def Processus.pile (r : Processus) : PileUser := ⟨r.pileUser, r.pileSizeUser⟩

/-- The fields of a process that own blocks. -/
def Processus.avoirs (r : Processus) : List Fils × (Ptr × Nat) × PileUser :=
  (r.filsTete, (r.pileKernel, r.pileSizeKernel), r.pile)

/-- A `waitpid` takes the termination value of a child. -/
def Evenement.estRecolte : Evenement → Bool
  | .recolte _ _ => true
  | _ => false

/-- The kernel heap and the user stack heap, the variables that own their blocks, and
the number of children `waitpid` has taken. -/
structure Avoirs where
  blocs : Ptr → Option Nat
  tasUser : TasUser
  prochain : Ptr
  vivant : Ptr → Bool
  processus : Ptr → List Fils × (Ptr × Nat) × PileUser
  procIdle : Ptr
  pidLibreTete : List PidLibre
  tableauFile : Int → Option File
  fidListe : List FidLibre
  tableauSem : Int → Option Ptr
  sidListe : List SidLibre
  history : Nat → Option Ligne
  indexHistory : Nat
  recoltes : Nat

def Kernel.avoirs (s : Kernel) : Avoirs where
  blocs := s.blocs
  tasUser := s.tasUser
  prochain := s.prochain
  vivant := s.vivant
  processus p := (s.tas p).avoirs
  procIdle := s.procIdle
  pidLibreTete := s.pidLibreTete
  tableauFile := s.tableauFile
  fidListe := s.fidListe
  tableauSem i := (s.tableauSem i).map Semaphore.adr
  sidListe := s.sidListe
  history := s.clavier.history
  indexHistory := s.clavier.indexHistory
  recoltes := s.journal.countP Evenement.estRecolte

/-- Code that is `Sobre` and leaves the kernel heap and its owners alone. -/
abbrev Discret {α : Type} (m : M α) : Prop :=
  Keeps Faute.Interne (fun s : Kernel => (s.cadran, s.avoirs)) m

theorem Discret.sobre {α : Type} {m : M α} (h : Discret m) : Sobre m := h.of_map Prod.fst

theorem Discret.avoirs {α : Type} {m : M α} (h : Discret m) :
    Keeps Faute.Interne Kernel.avoirs m := h.of_map Prod.snd

section

variable {α : Type} {l : Lieu} {p : Ptr} {t : Tete}

-- ---------------------------------------------------------------------------
-- Primitives that leave the heap alone
-- ---------------------------------------------------------------------------

theorem discret_surCore {f : Core → Core}
    (hf : ∀ s : Kernel, ({ s with toCore := f s.toCore } : Kernel).avoirs = s.avoirs) :
    Discret (surCore f) := fun s => Prod.ext rfl (hf s)

theorem avoirs_note {s : Kernel} {e : Evenement} (he : e.estRecolte = false) :
    ({ s with toCore := s.toCore.note e } : Kernel).avoirs = s.avoirs := by
  have hj : (s.journal ++ [e]).countP Evenement.estRecolte =
      s.journal.countP Evenement.estRecolte := by
    rw [List.countP_append, List.countP_singleton, he]
    rfl
  show ({ s.avoirs with recoltes := (s.journal ++ [e]).countP Evenement.estRecolte } : Avoirs) = _
  rw [hj]
  rfl

theorem discret_note (e : Evenement) (he : e.estRecolte = false) : Discret (note e) :=
  discret_surCore fun _ => avoirs_note he

theorem discret_assertion (l : Lieu) (c : Bool) : Discret (assertion l c) :=
  .of_ite (.of_pure _) (.of_throw nofun)

theorem discret_lire (l : Lieu) (p : Ptr) : Discret (lire l p) :=
  .of_bind .of_get fun _ => .of_ite (.of_pure _) (.of_throw nofun)

theorem avoirs_maj {s : Kernel} {p : Ptr} {f : Processus → Processus}
    (hf : ∀ r, (f r).avoirs = r.avoirs) :
    ({ s with toCore := s.toCore.maj p f } : Kernel).avoirs = s.avoirs := by
  have hp : (fun x => ((s.toCore.maj p f).tas x).avoirs) = fun x => (s.tas x).avoirs := by
    funext x
    rw [Core.maj_tas, Function.update_apply]
    split
    · next hx => rw [hf, hx]
    · rfl
  show ({ s.avoirs with processus := fun x => ((s.toCore.maj p f).tas x).avoirs } : Avoirs) = _
  rw [hp]
  rfl

theorem discret_ecrire (l : Lieu) (p : Ptr) (f : Processus → Processus)
    (hf : ∀ r, (f r).avoirs = r.avoirs) : Discret (ecrire l p f) :=
  .of_bind .of_get fun _ => .of_ite (discret_surCore fun _ => avoirs_maj hf) (.of_throw nofun)

theorem discret_queueAdd (p : Ptr) (t : Tete) (cle : Processus → Int) : Discret (queueAdd p t cle) :=
  .of_bind .of_get fun _ => .of_ite (discret_surCore fun _ => rfl) (.of_throw nofun)

theorem discret_queueDel (p : Ptr) : Discret (queueDel p) :=
  .of_bind .of_get fun _ => .of_ite (.of_throw nofun) (discret_surCore fun _ => rfl)

theorem discret_queueOut (t : Tete) : Discret (queueOut t) := by
  refine .of_bind .of_get fun s => ?_
  cases s.chainage.top t with
  | none => exact .of_pure _
  | some p => exact .of_bind (discret_surCore fun _ => rfl) fun _ => .of_pure _

theorem discret_tantQueQueueOut {corps : Ptr → M Unit} (h : ∀ p, Discret (corps p)) :
    Discret (tantQueQueueOut t corps) := by
  have tours : ∀ n, Discret (tantQueQueueOut.tours t corps n) := by
    intro n
    induction n with
    | zero => exact .of_pure _
    | succ n ih =>
      refine .of_bind (discret_queueOut t) fun o => ?_
      cases o with
      | none => exact .of_pure _
      | some p => exact .of_bind (h p) fun _ => ih
  exact .of_bind .of_get fun s => tours _

theorem discret_surConsole (f : Console → Option Console) : Discret (surConsole f) := by
  intro s
  simp only [surConsole, wp_bind, wp_get]
  split
  · rfl
  · rintro ⟨⟩

theorem discret_traiteCar (c : UInt8) : Discret (traiteCar c) := discret_surConsole _

theorem discret_printf (l : List UInt8) : Discret (printf l) := .of_forM discret_traiteCar l

-- ---------------------------------------------------------------------------
-- Primitives
-- ---------------------------------------------------------------------------

theorem sobre_surCore (f : Core → Core) : Sobre (surCore f) := fun _ => rfl

theorem sobre_note (e : Evenement) : Sobre (note e) := sobre_surCore _

theorem sobre_assertion (l : Lieu) (c : Bool) : Sobre (assertion l c) :=
  .of_ite (.of_pure _) (.of_throw nofun)

theorem sobre_lire (l : Lieu) (p : Ptr) : Sobre (lire l p) :=
  .of_bind .of_get fun _ => .of_ite (.of_pure _) (.of_throw nofun)

theorem sobre_ecrire (l : Lieu) (p : Ptr) (f : Processus → Processus) : Sobre (ecrire l p f) :=
  .of_bind .of_get fun _ => .of_ite (sobre_surCore _) (.of_throw nofun)

theorem sobre_queueAdd (p : Ptr) (t : Tete) (cle : Processus → Int) : Sobre (queueAdd p t cle) :=
  .of_bind .of_get fun _ => .of_ite (sobre_surCore _) (.of_throw nofun)

theorem sobre_queueDel (p : Ptr) : Sobre (queueDel p) :=
  .of_bind .of_get fun _ => .of_ite (.of_throw nofun) (sobre_surCore _)

theorem sobre_queueOut (t : Tete) : Sobre (queueOut t) := by
  refine .of_bind .of_get fun s => ?_
  cases s.chainage.top t with
  | none => exact .of_pure _
  | some p => exact .of_bind (sobre_surCore _) fun _ => .of_pure _

theorem sobre_queueEmpty (t : Tete) : Sobre (queueEmpty t) := .of_bind .of_get fun _ => .of_pure _

theorem sobre_memAlloc (n : Nat) : Sobre (memAlloc n) := by
  intro s
  simp only [memAlloc, wp_bind, wp_get]
  split <;> rfl

theorem sobre_memAllocNonNul (l : Lieu) (n : Nat) : Sobre (memAllocNonNul l n) := by
  refine .of_bind (sobre_memAlloc n) fun o => ?_
  cases o with
  | none => exact .of_throw nofun
  | some p => exact .of_pure _

theorem sobre_memFree (l : Lieu) (z : Ptr) (n : Nat) : Sobre (memFree l z n) := by
  intro s
  simp only [memFree, wp_bind, wp_get]
  split
  · rfl
  · rintro ⟨⟩

theorem sobre_allocProcessus : Sobre allocProcessus := by
  refine .of_bind (sobre_memAlloc _) fun o => ?_
  cases o with
  | none => exact .of_pure _
  | some p => exact .of_bind (sobre_surCore _) fun _ => .of_pure _

theorem sobre_libereProcessus (l : Lieu) (p : Ptr) : Sobre (libereProcessus l p) :=
  .of_bind (sobre_memFree _ _ _) fun _ => sobre_surCore _

theorem sobre_surConsole (f : Console → Option Console) : Sobre (surConsole f) := by
  intro s
  simp only [surConsole, wp_bind, wp_get]
  split
  · rfl
  · rintro ⟨⟩

theorem sobre_traiteCar (c : UInt8) : Sobre (traiteCar c) := sobre_surConsole _

-- ---------------------------------------------------------------------------
-- Processes
-- ---------------------------------------------------------------------------

theorem sobre_addPid (pid : Int) : Sobre (addPid pid) :=
  .of_bind (sobre_memAllocNonNul _ _) fun _ => sobre_surCore _

theorem sobre_addFils (pere fils : Ptr) : Sobre (addFils pere fils) :=
  .of_bind (sobre_memAllocNonNul _ _) fun _ => sobre_ecrire _ _ _

theorem sobre_userStackFree (l : Lieu) (z n : Nat) : Sobre (userStackFree l z n) := by
  refine .of_ite (.of_pure _) fun s => ?_
  rw [wp_bind, wp_get, wp_ite]
  refine ⟨fun _ => rfl, fun _ => ?_⟩
  rintro ⟨⟩

theorem discret_getpid : Discret getpid :=
  .of_bind .of_get fun _ => .of_bind (discret_lire _ _) fun _ => .of_pure _

theorem discret_getprio (pid : Int) : Discret (getprio pid) := by
  refine .of_ite (.of_pure _) (.of_bind .of_get fun s => ?_)
  cases s.tableDesProcs pid with
  | none => exact .of_pure _
  | some p => exact .of_bind (discret_lire _ _) fun _ => .of_pure _

theorem discret_chprio (pid newPrio : Int) : Discret (chprio pid newPrio) := by
  refine .of_ite (.of_pure _) (.of_ite (.of_pure _) (.of_bind .of_get fun s => ?_))
  cases s.tableDesProcs pid with
  | none => exact .of_pure _
  | some p =>
    refine .of_bind (discret_lire _ _) fun r => .of_ite (.of_pure _) ?_
    refine .of_bind (discret_ecrire _ _ _ fun _ => rfl) fun _ => .of_ite ?_ (.of_ite ?_ (.of_ite ?_ (.of_pure _)))
    · cases queueTopPrio s with
      | none => exact .of_throw nofun
      | some top => exact .of_ite (.of_pure _) (.of_pure _)
    · refine .of_bind (discret_queueDel _) fun _ => .of_bind (discret_queueAdd _ _ _) fun _ => ?_
      exact .of_bind (discret_lire _ _) fun _ => .of_ite (.of_pure _) (.of_pure _)
    · refine .of_bind (discret_assertion _ _) fun _ => .of_bind (discret_queueDel _) fun _ => ?_
      exact .of_bind (discret_queueAdd _ _ _) fun _ => .of_pure _

theorem sobre_freeChild (f : Fils) : Sobre (freeChild f) := by
  refine .of_bind (sobre_lire _ _) fun c => .of_ite ?_ ?_
  · refine .of_bind (sobre_ecrire _ _ _) fun _ => .of_bind (sobre_queueAdd _ _ _) fun _ => ?_
    exact sobre_memFree _ _ _
  · exact .of_bind (sobre_ecrire _ _ _) fun _ => sobre_memFree _ _ _

theorem sobre_freeMourant (p : Ptr) : Sobre (freeMourant p) := by
  refine .of_bind (.of_bind (sobre_lire _ _) fun r => .of_forM sobre_freeChild _) fun _ => ?_
  refine .of_bind (sobre_lire _ _) fun r => .of_bind (sobre_surCore _) fun _ => ?_
  refine .of_bind (sobre_addPid _) fun _ => .of_bind (sobre_memFree _ _ _) fun _ => ?_
  refine .of_bind (sobre_userStackFree _ _ _) fun _ => ?_
  exact .of_bind (sobre_libereProcessus _ _) fun _ => sobre_note _

theorem sobre_freeMourantQueue : Sobre freeMourantQueue := by
  have tours : ∀ n, Sobre (freeMourantQueue.tours n) := by
    intro n
    induction n with
    | zero =>
      refine .of_bind (sobre_queueOut _) fun o => ?_
      cases o with
      | none => exact .of_pure _
      | some p => exact .of_throw nofun
    | succ n ih =>
      refine .of_bind (sobre_queueOut _) fun o => ?_
      cases o with
      | none => exact .of_pure _
      | some p => exact .of_bind (sobre_freeMourant p) fun _ => ih
  exact .of_bind .of_get fun s => tours _

theorem discret_checkCanary (p : Ptr) : Discret (checkCanary p) :=
  .of_bind (discret_lire _ _) fun _ => .of_bind .of_get fun _ => .of_pure _

theorem discret_rangeActuel (p : Ptr) : Discret (rangeActuel p) := by
  refine .of_bind (discret_lire _ _) fun r => ?_
  cases r.etat with
  | mourant => exact discret_queueAdd _ _ _
  | elu | activable => exact .of_bind (discret_ecrire _ _ _ fun _ => rfl) fun _ => discret_queueAdd _ _ _
  | _ => exact .of_pure _

theorem discret_prendSuivant : Discret prendSuivant := by
  refine .of_bind (discret_queueOut _) fun o => ?_
  cases o with
  | none => exact .of_throw nofun
  | some p => exact .of_bind (discret_ecrire _ _ _ fun _ => rfl) fun _ => discret_surCore fun _ => rfl

theorem discret_commute : Discret commute := by
  refine .of_bind .of_get fun s => .of_ite ?_ ?_
  · refine .of_bind (discret_checkCanary _) fun b => .of_ite ?_ ?_
    · exact .of_bind (discret_rangeActuel _) fun _ => discret_prendSuivant
    · exact .of_bind (.of_throw nofun) fun _ =>
        .of_bind (discret_rangeActuel _) fun _ => discret_prendSuivant
  · exact .of_bind (discret_rangeActuel _) fun _ => discret_prendSuivant

theorem sobre_ordonnanceur (k : Reprise) : Sobre (ordonnanceur k) := by
  refine .of_bind .of_get fun s => .of_bind (sobre_ecrire _ _ _) fun _ => ?_
  refine .of_bind sobre_freeMourantQueue fun _ => ?_
  exact .of_bind (sobre_queueEmpty _) fun b => .of_ite (.of_pure _) discret_commute.sobre

theorem discret_waitClock (n : Nat) : Discret (waitClock n) :=
  .of_bind .of_get fun _ => .of_bind (discret_ecrire _ _ _ fun _ => rfl) fun _ =>
    .of_bind (discret_queueAdd _ _ _) fun _ => .of_pure _

theorem discret_verifieReveille (ticks : Nat) : Discret (verifieReveille ticks) := by
  have tours : ∀ prio n o b, Discret (verifieReveille.tours ticks prio n o b) := by
    intro prio n
    induction n with
    | zero =>
      intro o b
      cases o with
      | none => exact .of_pure _
      | some p => exact .of_throw nofun
    | succ n ih =>
      intro o b
      cases o with
      | none => exact .of_pure _
      | some p =>
        refine .of_bind .of_get fun s => .of_bind (discret_lire _ _) fun r => .of_ite ?_ (.of_pure _)
        refine .of_bind (discret_ecrire _ _ _ fun _ => rfl) fun _ => .of_bind (discret_queueDel _) fun _ => ?_
        exact .of_bind (discret_queueAdd _ _ _) fun _ => .of_bind .of_get fun s => ih _ _
  exact .of_bind .of_get fun s => .of_bind (discret_lire _ _) fun r => tours _ _ _ _

theorem discret_verifieEs : Discret verifieEs := by
  refine .of_bind (discret_queueOut _) fun o => ?_
  cases o with
  | none => exact .of_pure _
  | some p =>
    refine .of_bind (discret_ecrire _ _ _ fun _ => rfl) fun _ => .of_bind (discret_queueAdd _ _ _) fun _ => ?_
    refine .of_bind .of_get fun s => .of_bind (discret_lire _ _) fun _ => ?_
    exact .of_bind (discret_lire _ _) fun _ => .of_pure _

theorem discret_reveillePere (l : Lieu) (pere : Ptr) : Discret (reveillePere l pere) :=
  .of_bind (discret_lire _ _) fun _ =>
    .of_ite (.of_bind (discret_ecrire _ _ _ fun _ => rfl) fun _ => discret_queueAdd _ _ _) (.of_pure _)

theorem discret_exit (v : Int) : Discret (exit v) := by
  refine .of_bind .of_get fun s => .of_bind (discret_ecrire _ _ _ fun _ => rfl) fun _ => ?_
  refine .of_bind (discret_note _ rfl) fun _ => .of_bind (discret_lire _ _) fun r => ?_
  cases r.pere with
  | none => exact .of_bind (discret_ecrire _ _ _ fun _ => rfl) fun _ => .of_pure _
  | some pere =>
    exact .of_bind (discret_ecrire _ _ _ fun _ => rfl) fun _ => .of_bind (discret_reveillePere _ _) fun _ => .of_pure _

theorem sobre_kill (pid : Int) : Sobre (kill pid) := by
  refine .of_bind .of_get fun s => .of_ite (.of_pure _) ?_
  cases s.tableDesProcs pid with
  | none => exact .of_pure _
  | some p =>
    refine .of_bind (sobre_lire _ _) fun r => .of_ite (.of_pure _) ?_
    refine .of_bind (sobre_note _) fun _ => .of_ite ?_ (.of_bind (sobre_queueDel _) fun _ => ?_)
    · cases r.pere <;> exact .of_bind (sobre_ecrire _ _ _) fun _ => .of_pure _
    · have fin : Sobre (do freeMourantQueue; pure (.retour 0) : M Suite) :=
        .of_bind sobre_freeMourantQueue fun _ => .of_pure _
      cases r.pere with
      | none =>
        exact .of_bind (sobre_ecrire _ _ _) fun _ => .of_bind (sobre_queueAdd _ _ _) fun _ => fin
      | some pere =>
        exact .of_bind (sobre_ecrire _ _ _) fun _ => .of_bind (discret_reveillePere _ _).sobre fun _ => fin

theorem discret_premierZombie (l : List Fils) : Discret (premierZombie l) := by
  induction l with
  | nil => exact .of_pure _
  | cons f l ih => exact .of_bind (discret_lire _ _) fun c => .of_ite (.of_pure _) ih

theorem discret_afficheProcess (i : Int) : Discret (afficheProcess i) := by
  have affiche : ∀ {m : M Unit} l, Discret m → Discret (printf l >>= fun _ => m) := fun l hm =>
    .of_bind (discret_printf l) fun _ => hm
  have couleur : ∀ {m : M Unit} (f : Console → Option Console), Discret m →
      Discret (surConsole f >>= fun _ => m) := fun f hm => .of_bind (discret_surConsole f) fun _ => hm
  refine .of_bind .of_get fun s => ?_
  cases s.tableDesProcs i with
  | none => exact .of_pure _
  | some p =>
    refine .of_bind (discret_lire _ _) fun r => affiche _ (couleur _ (affiche _ (couleur _ (affiche _
      (couleur _ (affiche _ (couleur _ (affiche _ ?_))))))))
    cases r.pere with
    | none => exact discret_printf _
    | some pere =>
      exact .of_bind (discret_lire _ _) fun f => affiche _ (couleur _ (affiche _ (couleur _ (affiche _
        (couleur _ (affiche _ (couleur _ (affiche _ (discret_printf _)))))))))

theorem discret_afficheTableProcess : Discret afficheTableProcess :=
  .of_forM (fun i : Nat => discret_afficheProcess i) _

-- ---------------------------------------------------------------------------
-- Message files
-- ---------------------------------------------------------------------------

theorem sobre_addFid (fid : Int) : Sobre (addFid fid) :=
  .of_bind (sobre_memAllocNonNul _ _) fun _ => sobre_surCore _

theorem sobre_newFid : Sobre newFid := by
  refine .of_bind .of_get fun s => ?_
  cases s.fidListe.getLast? with
  | none => exact .of_pure _
  | some cell =>
    exact .of_bind (sobre_surCore _) fun _ => .of_bind (sobre_memFree _ _ _) fun _ => .of_pure _

theorem sobre_addMsg (fid : Int) (f : File) (v : Int) : Sobre (addMsg fid f v) :=
  .of_bind (sobre_assertion _ _) fun _ => .of_bind (sobre_memAllocNonNul _ _) fun _ =>
    .of_bind (sobre_surCore _) fun _ => .of_pure _

theorem sobre_retireMsg (fid : Int) (f : File) : Sobre (retireMsg fid f) := by
  unfold retireMsg
  cases f.queueMsg.getLast? with
  | none => exact .of_throw nofun
  | some msg =>
    exact .of_bind (sobre_surCore _) fun _ => .of_bind (sobre_memFree _ _ _) fun _ => .of_pure _

theorem discret_retireProc (fid : Int) : Discret (retireProc fid) := by
  refine .of_bind .of_get fun s => .of_bind (discret_assertion _ _) fun _ => ?_
  refine .of_bind (discret_queueOut _) fun o => ?_
  cases o with
  | none => exact .of_throw nofun
  | some p => exact .of_pure _

theorem discret_addProc (fid : Int) (f : File) (p : Ptr) : Discret (addProc fid f p) :=
  .of_bind (discret_queueAdd _ _ _) fun _ => .of_bind (discret_ecrire _ _ _ fun _ => rfl) fun _ => discret_ecrire _ _ _ fun _ => rfl

theorem sobre_pcreate (n : Int) : Sobre (pcreate n) := by
  refine .of_ite (.of_pure _) (.of_bind sobre_newFid fun fid => .of_ite (.of_pure _) ?_)
  refine .of_bind (sobre_memAllocNonNul _ _) fun _ => .of_bind (sobre_surCore _) fun _ => ?_
  exact .of_bind (sobre_surCore _) fun _ => .of_pure _

theorem discret_echoueAttente (fid : Int) (f : File) (prio : Int) :
    Discret (echoueAttente fid f prio) := by
  have tours : ∀ n b, Discret (echoueAttente.tours fid f prio n b) := by
    intro n
    induction n with
    | zero => exact fun _ => .of_pure _
    | succ n ih =>
      intro b
      refine .of_bind (discret_queueOut _) fun o => ?_
      cases o with
      | none => exact .of_pure _
      | some p =>
        refine .of_bind (discret_ecrire _ _ _ fun _ => rfl) fun _ => .of_bind (discret_queueAdd _ _ _) fun _ => ?_
        exact .of_bind (discret_note _ rfl) fun _ => .of_bind (discret_lire _ _) fun _ => ih _
  exact .of_bind .of_get fun s => tours _ _

theorem sobre_libereMessages (fid : Int) (f : File) : Sobre (libereMessages fid f) :=
  .of_bind (.of_forM (fun _ => sobre_memFree _ _ _) _) fun _ =>
    .of_bind (sobre_surCore _) fun _ => sobre_note _

theorem sobre_pdelete (fid : Int) : Sobre (pdelete fid) := by
  refine .of_bind .of_get fun s => .of_ite (.of_pure _) ?_
  cases s.tableauFile fid with
  | none => exact .of_throw nofun
  | some f =>
    refine .of_bind (sobre_lire _ _) fun _ => .of_bind (discret_echoueAttente _ _ _).sobre fun _ => ?_
    refine .of_bind (sobre_libereMessages _ _) fun _ => .of_bind (sobre_surCore _) fun _ => ?_
    exact .of_bind (sobre_addFid _) fun _ => .of_bind (sobre_memFree _ _ _) fun _ => .of_pure _

theorem sobre_preset (fid : Int) : Sobre (preset fid) := by
  refine .of_bind .of_get fun s => .of_ite (.of_pure _) ?_
  cases s.tableauFile fid with
  | none => exact .of_throw nofun
  | some f =>
    refine .of_bind (sobre_lire _ _) fun _ => .of_bind (discret_echoueAttente _ _ _).sobre fun _ => ?_
    exact .of_bind (sobre_libereMessages _ _) fun _ => .of_pure _

theorem sobre_psend (fid v : Int) : Sobre (psend fid v) := by
  refine .of_bind .of_get fun s => .of_ite (.of_pure _) ?_
  cases s.tableauFile fid with
  | none => exact .of_throw nofun
  | some f =>
    refine .of_bind (sobre_lire _ _) fun _ => .of_bind (sobre_note _) fun _ => ?_
    refine .of_bind (sobre_ecrire _ _ _) fun _ => .of_ite ?_ (.of_ite ?_ ?_)
    · refine .of_bind (discret_retireProc _).sobre fun _ => .of_bind (sobre_ecrire _ _ _) fun _ => ?_
      refine .of_bind (sobre_note _) fun _ => .of_bind (sobre_note _) fun _ => ?_
      exact .of_bind (sobre_queueAdd _ _ _) fun _ => .of_bind (sobre_lire _ _) fun _ => .of_pure _
    · exact .of_bind (discret_addProc _ _ _).sobre fun _ => .of_pure _
    · exact .of_bind (sobre_addMsg _ _ _) fun _ => .of_bind (sobre_note _) fun _ => .of_pure _

theorem discret_psendReprise : Discret psendReprise :=
  .of_bind .of_get fun _ => .of_bind (discret_lire _ _) fun _ => .of_ite (.of_pure _) (.of_pure _)

-- ---------------------------------------------------------------------------
-- Semaphores
-- ---------------------------------------------------------------------------

theorem sobre_addSid (sid : Int) : Sobre (addSid sid) :=
  .of_bind (sobre_memAllocNonNul _ _) fun _ => sobre_surCore _

theorem sobre_newSid : Sobre newSid := by
  refine .of_bind .of_get fun s => ?_
  cases s.sidListe.getLast? with
  | none => exact .of_pure _
  | some cell =>
    exact .of_bind (sobre_surCore _) fun _ => .of_bind (sobre_memFree _ _ _) fun _ => .of_pure _

theorem discret_scount (sid : Int) : Discret (scount sid) := by
  refine .of_bind .of_get fun s => .of_ite (.of_pure _) ?_
  cases s.tableauSem sid with
  | none => exact .of_throw nofun
  | some sem => exact .of_pure _

theorem sobre_screate (n : Int) : Sobre (screate n) := by
  refine .of_ite (.of_pure _) (.of_bind sobre_newSid fun sid => .of_ite (.of_pure _) ?_)
  refine .of_bind (sobre_memAlloc _) fun o => ?_
  cases o with
  | none => exact .of_bind (sobre_addSid _) fun _ => .of_pure _
  | some adr =>
    refine .of_bind (sobre_surCore _) fun _ => .of_bind (sobre_surCore _) fun _ => ?_
    exact .of_bind (sobre_note _) fun _ => .of_pure _

theorem discret_rejetteAttente (sid : Int) (sem : Semaphore) (v : Int) :
    Discret (rejetteAttente sid sem v) :=
  discret_tantQueQueueOut fun _ => .of_bind (discret_ecrire _ _ _ fun _ => rfl) fun _ =>
    .of_bind (discret_queueAdd _ _ _) fun _ => discret_note _ rfl

theorem sobre_sdelete (sid : Int) : Sobre (sdelete sid) := by
  refine .of_bind .of_get fun s => .of_ite (.of_pure _) ?_
  cases s.tableauSem sid with
  | none => exact .of_throw nofun
  | some sem =>
    refine .of_bind (discret_rejetteAttente _ _ _).sobre fun _ => .of_bind (sobre_memFree _ _ _) fun _ => ?_
    exact .of_bind (sobre_surCore _) fun _ => .of_bind (sobre_addSid _) fun _ => .of_pure _

theorem sobre_sreset (sid n : Int) : Sobre (sreset sid n) := by
  refine .of_bind .of_get fun s => .of_ite (.of_pure _) ?_
  cases s.tableauSem sid with
  | none => exact .of_throw nofun
  | some sem =>
    exact .of_bind (discret_rejetteAttente _ _ _).sobre fun _ => .of_bind (sobre_surCore _) fun _ => .of_pure _

theorem sobre_signal (sid : Int) : Sobre (signal sid) := by
  refine .of_bind .of_get fun s => .of_ite (.of_pure _) ?_
  cases s.tableauSem sid with
  | none => exact .of_throw nofun
  | some sem =>
    refine .of_ite (.of_pure _) (.of_bind (sobre_surCore _) fun _ => ?_)
    refine .of_bind (sobre_note _) fun _ => .of_ite (.of_bind (sobre_queueOut _) fun o => ?_) (.of_pure _)
    cases o with
    | none => exact .of_throw nofun
    | some p =>
      refine .of_bind (sobre_ecrire _ _ _) fun _ => .of_bind (sobre_queueAdd _ _ _) fun _ => ?_
      exact .of_bind (sobre_note _) fun _ => .of_pure _

theorem sobre_signalFois (sid : Int) (n : Nat) : Sobre (signalFois sid n) := by
  induction n with
  | zero => exact .of_pure _
  | succ n ih => exact .of_bind (sobre_signal sid) fun _ => ih

theorem sobre_signaln (sid n : Int) : Sobre (signaln sid n) := by
  refine .of_bind .of_get fun s => .of_ite (.of_pure _) ?_
  cases s.tableauSem sid with
  | none => exact .of_throw nofun
  | some sem => exact .of_ite (.of_pure _) (.of_bind (sobre_signalFois _ _) fun _ => .of_pure _)

theorem sobre_tryWait (sid : Int) : Sobre (tryWait sid) := by
  refine .of_bind .of_get fun s => .of_ite (.of_pure _) ?_
  cases s.tableauSem sid with
  | none => exact .of_throw nofun
  | some sem =>
    refine .of_ite (.of_pure _) (.of_ite (.of_pure _) ?_)
    refine .of_bind (sobre_surCore _) fun _ => .of_bind (sobre_note _) fun _ => ?_
    exact .of_bind (sobre_note _) fun _ => .of_pure _

theorem sobre_wait (sid : Int) : Sobre (wait sid) := by
  refine .of_bind .of_get fun s => .of_ite (.of_pure _) ?_
  cases s.tableauSem sid with
  | none => exact .of_throw nofun
  | some sem =>
    refine .of_ite (.of_pure _) (.of_bind (sobre_surCore _) fun _ => ?_)
    refine .of_bind (sobre_note _) fun _ => .of_ite ?_ ?_
    · exact .of_bind (sobre_ecrire _ _ _) fun _ => .of_bind (sobre_queueAdd _ _ _) fun _ => .of_pure _
    · exact .of_bind (sobre_note _) fun _ => .of_pure _

theorem discret_waitReprise : Discret waitReprise :=
  .of_bind .of_get fun _ => .of_bind (discret_lire _ _) fun _ => .of_ite (.of_pure _) (.of_pure _)

-- ---------------------------------------------------------------------------
-- Interrupts and the end of a step
-- ---------------------------------------------------------------------------

theorem discret_afficherHistorique : Discret afficherHistorique := by
  refine .of_bind .of_get fun s => .of_forM (fun i => .of_bind .of_get fun s => ?_) _
  cases s.clavier.history i with
  | none => exact .of_throw nofun
  | some h => exact .of_ite (.of_throw nofun) (discret_printf _)

theorem sobre_sansValeur {m : M Unit} (h : Sobre m) : Sobre (sansValeur m) :=
  .of_bind h fun _ => .of_pure _

theorem discret_ticPITFin : Discret ticPITFin :=
  .of_bind .of_get fun _ => .of_ite (.of_pure _) (.of_pure _)

theorem compteTic_ticks (s : Kernel) : (compteTic s).1.ticks = (s.ticks + 1) % 2 ^ 32 := by
  unfold compteTic
  dsimp only
  split <;> [(split <;> split <;> rfl); rfl]

theorem clavier_compteTic (s : Kernel) : (compteTic s).1.clavier = s.clavier := by
  unfold compteTic
  dsimp only
  split <;> [(split <;> split <;> rfl); rfl]

/-- The clock interrupt counts one tick. -/
theorem wp_ticPIT_cadran (s : Kernel) : wp Faute.Interne ticPIT
    (fun _ s' => s'.cadran = (s.clavier, (s.ticks + 1) % 2 ^ 32)) s := by
  have reveil : Sobre (do
      if ← verifieReveille (compteTic s).1.ticks then pure (.ordonnanceur .ticPIT) else ticPITFin) :=
    .of_bind (discret_verifieReveille _).sobre fun _ => .of_ite (.of_pure _) discret_ticPITFin.sobre
  have hcadran : (compteTic s).1.cadran = (s.clavier, (s.ticks + 1) % 2 ^ 32) :=
    Prod.ext (clavier_compteTic s) (compteTic_ticks s)
  simp only [ticPIT, wp_bind, wp_get, wp_set]
  rw [← hcadran]
  split
  · exact Keeps.of_bind (sobre_surConsole _) (fun _ => reveil) _
  · exact reveil _

theorem sobre_termine (x : Suite) : Sobre (termine x) := by
  cases x with
  | retour v => exact .of_bind .of_get fun _ => .of_bind (sobre_note _) fun _ => .of_pure _
  | iret => exact .of_pure _
  | ordonnanceur k => exact .of_bind (sobre_ordonnanceur k) fun _ => .of_pure _

end

-- ---------------------------------------------------------------------------
-- Accesses through a pointer argument
-- ---------------------------------------------------------------------------

/-- The `n` bytes from `adr` are user memory, or the fault is one of `E`. -/
def Admet (E : Faute → Prop) (adr n : Nat) : Prop :=
  plageUser adr n = true ∨ E (.page (premierePage adr))

section

variable {E : Faute → Prop} {γ : Type} {g : Kernel → γ} {adr n : Nat}

theorem keeps_lireOctet (h : Admet E adr 1) : Keeps E g (lireOctet adr) := by
  refine .of_bind .of_get fun s => ?_
  split
  · exact .of_pure _
  · next hp => exact .of_throw (h.resolve_left hp)

theorem keeps_lireChaineBornee (h : ∀ i < n, Admet E (adr + i) 1) :
    Keeps E g (lireChaineBornee n adr) := by
  induction n generalizing adr with
  | zero => exact .of_pure _
  | succ n ih =>
    refine .of_bind (keeps_lireOctet (h 0 (by omega))) fun c => .of_ite (.of_pure _) ?_
    refine .of_bind (ih fun i hi => ?_) fun _ => .of_pure _
    rw [Nat.add_right_comm]
    exact h (i + 1) (by omega)

theorem keeps_consWrite (hE : ∀ f : Faute, f.Interne → E f) (h : ∀ i < n, Admet E (adr + i) 1) :
    Keeps E Kernel.cadran (consWrite n adr) := by
  induction n generalizing adr with
  | zero => exact .of_pure _
  | succ n ih =>
    refine .of_bind (keeps_lireOctet (h 0 (by omega))) fun c => ?_
    refine .of_bind ((sobre_traiteCar c).mono hE) fun _ => ih fun i hi => ?_
    rw [Nat.add_right_comm]
    exact h (i + 1) (by omega)

theorem keeps_ecrireMot {w : BitVec 32} (h : Admet E adr 4) :
    Keeps E Kernel.cadran (ecrireMot adr w) := by
  unfold ecrireMot
  split
  · exact .of_modify fun _ => rfl
  · next hp => exact .of_throw (h.resolve_left hp)

theorem keeps_clockSettings {quartz ticks : Nat} (hq : Admet E quartz 4) (ht : Admet E ticks 4) :
    Keeps E Kernel.cadran (clockSettings quartz ticks) :=
  .of_bind (keeps_ecrireMot hq) fun _ => keeps_ecrireMot ht

theorem keeps_pcount {fid : Int} {count : Nat} (hE : ∀ f : Faute, f.Interne → E f)
    (h : count ≠ 0 → Admet E count 4) : Keeps E Kernel.cadran (pcount fid count) := by
  refine .of_bind .of_get fun s => .of_ite (.of_pure _) ?_
  cases s.tableauFile fid with
  | none => exact .of_throw (hE _ nofun)
  | some f =>
    by_cases h0 : count = 0
    · simp only [h0, ne_eq, not_true_eq_false, if_false]
      exact .of_pure _
    · simp only [ne_eq, h0, not_false_eq_true, if_true]
      exact .of_ite (.of_bind (keeps_ecrireMot (h h0)) fun _ => .of_pure _)
        (.of_bind (keeps_ecrireMot (h h0)) fun _ => .of_pure _)

/-- The code `m` run from `s` leaves the keyboard variables and the clock alone
and stops at faults of `E`. -/
abbrev SobreEn (E : Faute → Prop) {α : Type} (m : M α) (s : Kernel) : Prop :=
  wp E m (fun _ s' => s'.cadran = s.cadran) s

theorem sobreEn_preceive {s : Kernel} {fid : Int} {message : Nat}
    (hE : ∀ f : Faute, f.Interne → E f)
    (h : ∀ f, s.tableauFile fid = some f → f.queueMsg ≠ [] → message ≠ 0 → Admet E message 4) :
    SobreEn E (preceive fid message) s := by
  unfold SobreEn
  rw [preceive, wp_bind, wp_get]
  refine Keeps.of_ite (.of_pure _) ?_ s
  cases hf : s.tableauFile fid with
  | none => exact .of_throw (hE _ nofun)
  | some f =>
    refine .of_bind ((sobre_lire _ _).mono hE) fun elu => .of_bind ((sobre_note _).mono hE) fun _ => ?_
    refine .of_bind ((sobre_ecrire _ _ _).mono hE) fun _ => ?_
    split
    · exact .of_bind ((discret_addProc _ _ _).sobre.mono hE) fun _ => .of_pure _
    next hmsg =>
    have hne : f.queueMsg ≠ [] := by
      rintro hx
      exact hmsg (by rw [getNbMsg, hx]; rfl)
    have fin : ∀ f', Keeps E Kernel.cadran (do
        let s ← get
        if s.elems (.file fid) ≠ [] then do
          let proc ← retireProc fid
          let r ← lire .preceive proc
          ecrire .preceive proc fun r => { r with fid := -1 }
          let _ ← addMsg fid f' r.fileValue
          note (.accepte f'.adr proc r.fileValue)
          ecrire .preceive proc fun r => { r with operationStatus := 1, etat := .activable }
          queueAdd proc .procActivables (·.prio)
          pure (finFile (r.prio > elu.prio))
        else pure (.retour 0)) := by
      intro f'
      refine .mono (E := Faute.Interne) (.of_bind .of_get fun s => .of_ite ?_ (.of_pure _)) hE
      refine .of_bind (discret_retireProc _).sobre fun _ => .of_bind (sobre_lire _ _) fun _ => ?_
      refine .of_bind (sobre_ecrire _ _ _) fun _ => .of_bind (sobre_addMsg _ _ _) fun _ => ?_
      refine .of_bind (sobre_note _) fun _ => .of_bind (sobre_ecrire _ _ _) fun _ => ?_
      exact .of_bind (sobre_queueAdd _ _ _) fun _ => .of_pure _
    refine .of_bind ((sobre_retireMsg _ _).mono hE) fun x => .of_bind ((sobre_note _).mono hE) fun _ => ?_
    by_cases h0 : message = 0
    · simp only [h0, ne_eq, not_true_eq_false, if_false]
      exact fin _
    · simp only [ne_eq, h0, not_false_eq_true, if_true]
      exact .of_bind (keeps_ecrireMot (h f hf hne h0)) fun _ => fin _

theorem sobreEn_preceiveReprise {s : Kernel} {message : Nat} (hE : ∀ f : Faute, f.Interne → E f)
    (h : (s.tas s.procElu).operationStatus ≠ 0 → message ≠ 0 → Admet E message 4) :
    SobreEn E (preceiveReprise message) s := by
  unfold SobreEn
  simp only [preceiveReprise, lire, wp_bind, wp_get]
  split
  · rw [wp_pure]
    split
    · rfl
    next hst =>
    by_cases h0 : message = 0
    · simp only [h0, ne_eq, not_true_eq_false, if_false]
      rfl
    · simp only [ne_eq, h0, not_false_eq_true, if_true]
      exact Keeps.of_bind (keeps_ecrireMot (h hst h0)) (fun _ => .of_pure _) s
  · exact hE _ (by rintro ⟨⟩)

theorem keeps_waitpidFin {p : Ptr} {retvalp : Nat} (hE : ∀ f : Faute, f.Interne → E f)
    (h : retvalp ≠ 0 → Admet E retvalp 4) : Keeps E Kernel.cadran (waitpidFin p retvalp) := by
  refine .of_bind .of_get fun s => .of_bind ((sobre_lire _ _).mono hE) fun elu => ?_
  cases retireFils p elu.filsTete with
  | none => exact .of_throw (hE _ nofun)
  | some l =>
    refine .of_bind ((sobre_ecrire _ _ _).mono hE) fun _ => ?_
    refine .of_bind ((sobre_lire _ _).mono hE) fun r => .of_bind ((sobre_note _).mono hE) fun _ => ?_
    refine .of_bind ((sobre_ecrire _ _ _).mono hE) fun _ => ?_
    refine .of_bind ((sobre_queueAdd _ _ _).mono hE) fun _ => ?_
    refine .of_bind (sobre_freeMourantQueue.mono hE) fun _ => ?_
    by_cases h0 : retvalp = 0
    · simp only [h0, ne_eq, not_true_eq_false, if_false]
      exact .of_pure _
    · simp only [ne_eq, h0, not_false_eq_true, if_true]
      exact .of_bind (keeps_ecrireMot (h h0)) fun _ => .of_pure _

theorem sobreEn_waitpidBoucle {s : Kernel} {pid : Int} {p : Ptr} {retvalp : Nat}
    (hE : ∀ f : Faute, f.Interne → E f)
    (h : (s.tas p).etat = .zombie → retvalp ≠ 0 → Admet E retvalp 4) :
    SobreEn E (waitpidBoucle pid p retvalp) s := by
  unfold SobreEn
  simp only [waitpidBoucle, lire, wp_bind, wp_get]
  split
  · rw [wp_pure]
    split
    · exact (Keeps.of_bind .of_get fun _ => .of_bind (sobre_ecrire _ _ _) fun _ => .of_pure _).mono hE s
    next hz =>
    exact keeps_waitpidFin hE (h (not_not.mp hz)) s
  · exact hE _ (by rintro ⟨⟩)

/-- The search for a zombie changes nothing. -/
theorem wp_premierZombie_etat {s : Kernel} (l : List Fils) (hE : ∀ f : Faute, f.Interne → E f) :
    wp E (premierZombie l) (fun o s' => s' = s ∧
      ∀ p, o = some p → ∃ f ∈ l, f.procFils = p ∧ (s.tas p).etat = .zombie) s := by
  induction l with
  | nil => exact ⟨rfl, by simp⟩
  | cons f l ih =>
    simp only [premierZombie, lire, wp_bind, wp_get]
    split
    · rw [wp_pure]
      split
      · next hz =>
        refine ⟨rfl, fun p hp => ⟨f, List.mem_cons_self, ?_⟩⟩
        cases hp
        exact ⟨rfl, hz⟩
      · refine wp_imp ih ?_
        rintro o s' ⟨hs', ho⟩
        refine ⟨hs', fun p hp => ?_⟩
        obtain ⟨x, hx, hxp⟩ := ho p hp
        exact ⟨x, List.mem_cons_of_mem _ hx, hxp⟩
    · exact hE _ (by rintro ⟨⟩)

theorem sobreEn_waitpidFilsBoucle {s : Kernel} {pid : Int} {retvalp : Nat}
    (hE : ∀ f : Faute, f.Interne → E f)
    (h : (∃ f ∈ (s.tas s.procElu).filsTete, (s.tas f.procFils).etat = .zombie) →
      retvalp ≠ 0 → Admet E retvalp 4) :
    SobreEn E (waitpidFilsBoucle pid retvalp) s := by
  unfold SobreEn
  simp only [waitpidFilsBoucle, lire, wp_bind, wp_get]
  split
  · rw [wp_pure]
    refine wp_imp (wp_premierZombie_etat _ hE) ?_
    rintro o s₁ ⟨rfl, ho⟩
    cases o with
    | none =>
      exact (Keeps.of_bind (sobre_ecrire _ _ _) fun _ => .of_pure _).mono hE s₁
    | some p =>
      obtain ⟨f, hf, hp, hz⟩ := ho p rfl
      exact keeps_waitpidFin hE (h ⟨f, hf, hp ▸ hz⟩) s₁
  · exact hE _ (by rintro ⟨⟩)

/-- A call `waitpid(pid, ...)` finds a child that has terminated. -/
def Kernel.Recolte (s : Kernel) (pid : Int) : Prop :=
  (0 ≤ pid ∧ pid < MAX_PROCESS ∧ ∃ p, s.tableDesProcs pid = some p ∧
    (s.tas p).pere = some s.procElu ∧ (s.tas p).etat = .zombie) ∨
  pid < 0 ∧ ∃ f ∈ (s.tas s.procElu).filsTete, (s.tas f.procFils).etat = .zombie

theorem sobreEn_waitpid {s : Kernel} {pid : Int} {retvalp : Nat} (hE : ∀ f : Faute, f.Interne → E f)
    (h : s.Recolte pid → retvalp ≠ 0 → Admet E retvalp 4) : SobreEn E (waitpid pid retvalp) s := by
  unfold SobreEn
  simp only [waitpid, note, surCore, wp_bind, wp_get, wp_modify]
  split
  · rfl
  next hmax =>
  split
  · next h0 =>
    cases hp : s.tableDesProcs pid with
    | none => rfl
    | some p =>
      simp only [lire, wp_bind, wp_get]
      split
      · rw [wp_pure]
        split
        · rfl
        next hpere =>
        exact sobreEn_waitpidBoucle hE fun hz =>
          h (.inl ⟨h0, not_le.mp hmax, p, hp, not_not.mp hpere, hz⟩)
      · exact hE _ (by rintro ⟨⟩)
  next h0 =>
  simp only [lire, wp_bind, wp_get]
  split
  · rw [wp_pure]
    split
    · rfl
    · exact sobreEn_waitpidFilsBoucle hE fun hz => h (.inr ⟨not_le.mp h0, hz⟩)
  · exact hE _ (by rintro ⟨⟩)

/-- The string at `adr` ends, or `n` of its bytes are read, before user memory does. -/
def Lisible (E : Faute → Prop) (m : Nat → UInt8) (adr n : Nat) : Prop :=
  ∀ i < n, (∀ j < i, m (adr + j) ≠ 0) → Admet E (adr + i) 1

theorem wp_lireChaineBornee {s : Kernel} {γ : Type} {g : Kernel → γ} (h : Lisible E s.memoire adr n) :
    wp E (lireChaineBornee n adr) (fun _ s' => g s' = g s) s := by
  induction n generalizing adr with
  | zero => rfl
  | succ n ih =>
    have h0 := h 0 (by omega) nofun
    simp only [lireChaineBornee, lireOctet, wp_bind, wp_get]
    split
    · rw [wp_pure]
      split
      · rfl
      next hc =>
      rw [wp_bind]
      refine wp_imp (ih fun i hi hj => ?_) fun _ _ hs' => hs'
      rw [Nat.add_assoc, Nat.add_comm 1]
      refine h (i + 1) (by omega) fun j hj' => ?_
      cases j with
      | zero => exact hc
      | succ j =>
        have := hj j (by omega)
        rwa [Nat.add_assoc, Nat.add_comm 1] at this
    · next hp => exact h0.resolve_left hp

/-- A call of `start` gets as far as copying the name; user memory is then `m`,
with the stack of the new process. -/
structure Kernel.CopieNom (s : Kernel) (ssize : Nat) (prio : Int) (m : Nat → UInt8) : Prop where
  pid : ∃ cell ∈ s.pidLibreTete.head?, -1 < cell.pid
  prio : 0 < prio ∧ prio ≤ PRIO_MAX
  taille : ssize ≤ ULONG_MAX - USER_STACK_SIZE * 4
  processus : s.materiel.memAlloc s.prochain = true
  pileUser : ∃ adr, s.materiel.userStackAlloc s.prochainUser = some adr ∧
    s.tasUser.Libre ⟨adr, ssize + USER_STACK_SIZE * 4⟩ ∧
      m = PileUser.prepare ⟨adr, ssize + USER_STACK_SIZE * 4⟩ s.memoire
  pileKernel : s.materiel.memAlloc (s.prochain + 1) = true

theorem sobreEn_startProc {s : Kernel} {pid prio : Int} {taille pile : Nat} {name : Nom}
    {arg : BitVec 32} {p pileKernel : Ptr} (hE : ∀ f : Faute, f.Interne → E f)
    (h : ∀ a, name = .user a → Lisible E s.memoire a 19) :
    SobreEn E (startProc pid taille prio name arg p pile pileKernel) s := by
  unfold SobreEn
  rw [startProc, wp_bind]
  refine wp_imp (Q := fun _ s' => s'.cadran = s.cadran) ?_ fun nom s' hs' =>
    wp_imp (Keeps.mono (E := Faute.Interne) (g := Kernel.cadran) ?_ hE s') fun _ _ h'' => h''.trans hs'
  · cases name with
    | nul | noyau => rfl
    | user a => exact wp_lireChaineBornee (h a rfl)
  · refine .of_bind (sobre_ecrire _ _ _) fun _ => .of_bind (.of_modify fun _ => rfl) fun _ => ?_
    refine .of_bind (sobre_ecrire _ _ _) fun _ => .of_bind (sobre_surCore _) fun _ => ?_
    refine .of_bind .of_get fun s => .of_ite ?_ ?_
    · refine .of_bind (sobre_ecrire _ _ _) fun _ => .of_bind (sobre_addFils _ _) fun _ => ?_
      refine .of_bind (sobre_note _) fun _ => .of_bind (sobre_queueAdd _ _ _) fun _ => ?_
      exact .of_bind (sobre_lire _ _) fun _ => .of_ite (.of_pure _) (.of_pure _)
    · refine .of_bind (sobre_ecrire _ _ _) fun _ => .of_bind (sobre_note _) fun _ => ?_
      refine .of_bind (sobre_queueAdd _ _ _) fun _ => ?_
      exact .of_bind (sobre_lire _ _) fun _ => .of_ite (.of_pure _) (.of_pure _)

theorem sobreEn_start {s : Kernel} {ssize : Nat} {prio : Int} {name : Nom} {arg : BitVec 32}
    (hE : ∀ f : Faute, f.Interne → E f)
    (h : ∀ a m, name = .user a → s.CopieNom ssize prio m → Lisible E m a 19) :
    SobreEn E (start ssize prio name arg) s := by
  have echec : ∀ pid, Keeps E Kernel.cadran (do addPid pid; pure (.retour (-1)) : M Suite) :=
    fun pid => .of_bind ((sobre_addPid pid).mono hE) fun _ => .of_pure _
  unfold SobreEn
  rw [start, wp_bind]
  simp only [newPid, wp_bind, wp_get]
  cases hl : s.pidLibreTete with
  | nil => rfl
  | cons cell reste =>
    simp only [surCore, memFree, wp_bind, wp_get, wp_modify]
    split
    swap
    · exact hE _ (by rintro ⟨⟩)
    simp only [wp_set, wp_pure]
    split
    · rfl
    next hpid =>
    split
    · exact echec _ _
    next hprio =>
    split
    · exact echec _ _
    next htaille =>
    simp only [allocProcessus, memAlloc, wp_bind, wp_get]
    split
    swap
    · exact Keeps.of_bind ((sobre_addPid _).mono hE) (fun _ => .of_pure _) _
    next hproc =>
    have rend : Keeps E Kernel.cadran (do
        addPid cell.pid
        libereProcessus .start s.prochain
        pure (.retour (-1)) : M Suite) :=
      Keeps.mono (.of_bind (sobre_addPid _) fun _ => .of_bind (sobre_libereProcessus _ _) fun _ =>
        .of_pure _) hE
    simp only [wp_bind, wp_set, wp_pure, surCore, wp_modify, userStackAlloc, wp_get]
    cases hpile : s.materiel.userStackAlloc s.prochainUser with
    | none => exact rend _
    | some adr =>
      dsimp only
      split
      swap
      · exact rend _
      next hadr =>
      simp only [wp_bind, wp_set, wp_pure, wp_get]
      split
      swap
      · refine Keeps.mono (E := Faute.Interne) (g := Kernel.cadran) (.of_bind (sobre_addPid _) fun _ =>
          .of_bind (sobre_userStackFree _ _ _) fun _ => ?_) hE _
        exact .of_bind (sobre_libereProcessus _ _) fun _ => .of_pure _
      next hnoyau =>
      rw [not_or, not_le, not_lt] at hprio
      exact sobreEn_startProc hE fun a ha => h a _ ha
        ⟨⟨cell, by rw [hl]; rfl, not_le.mp hpid⟩, hprio, not_lt.mp htaille, hproc,
          ⟨adr, hpile, hadr, rfl⟩, hnoyau⟩

end

-- ---------------------------------------------------------------------------
-- The keyboard
-- ---------------------------------------------------------------------------

/-- An invariant of the loop of `keyboard_data`. -/
theorem maintient_keyboardBoucle {E : Faute → Prop} {I : Kernel → Prop}
    (hcar : ∀ c, Maintains E I (traiteCar c)) (hes : Maintains E I verifieEs)
    (hpose : ∀ c, Maintains E I (poserTampon c))
    (hlu : Maintains E I (surClavier fun k => { k with read := true }))
    (hefface : Maintains E I (surClavier fun k => { k with ptampon := k.ptampon - 1 }))
    (hsequence : ∀ c, Maintains E I (sequence c)) (saute : Nat) (str : List UInt8) :
    Maintains E I (keyboardBoucle saute str) := by
  have hfin : Maintains E I keyboardDataFin := by
    refine .of_get fun s => .of_ite ?_ (.of_pure _)
    exact .of_bind hes fun b => .of_ite (.of_pure _) (.of_bind (hcar 7) fun _ => .of_pure _)
  induction str generalizing saute with
  | nil =>
    rw [keyboardBoucle.eq_def]
    exact hfin
  | cons c reste ih =>
    rw [keyboardBoucle.eq_def]
    cases saute with
    | succ saute => exact ih saute
    | zero =>
      have heveil : Maintains E I (verifieEs >>= fun b =>
          if b = true then pure (.ordonnanceur (.keyboardData reste)) else keyboardBoucle 0 reste) :=
        .of_bind hes fun b => .of_ite (.of_pure _) (ih 0)
      -- the character itself, echoed or not
      refine .of_get fun s => .of_ite hfin (.of_ite (.of_bind (hcar c) fun _ => ?_) ?_) <;>
      · refine .of_ite ?_ (.of_ite ?_ (.of_ite ?_ (.of_ite ?_ (.of_ite ?_ (ih 0)))))
        · split
          · exact .of_ite (.of_bind (hsequence _) fun _ => ih _) (ih 0)
          · exact ih 0
        · exact .of_ite (.of_bind hefface fun _ => ih 0) (.of_bind (hcar 7) fun _ => ih 0)
        · exact .of_bind (hpose c) fun _ => .of_bind hlu fun _ => heveil
        · exact .of_bind hlu fun _ => heveil
        · exact .of_bind (hpose c) fun _ => heveil

/-- Code that leaves the kernel heap, its owners and the clock alone. -/
abbrev Paisible {α : Type} (m : M α) : Prop :=
  Keeps (fun _ => True) (fun s : Kernel => (s.avoirs, s.ticks)) m

section

variable {α : Type} {f : Clavier → Clavier}

theorem Discret.paisible {m : M α} (h : Discret m) : Paisible m :=
  (h.of_map fun x => (x.2, x.1.2)).mono fun _ _ => trivial

/-- The keyboard variables other than the history. -/
theorem paisible_surClavier (hf : ∀ k, (f k).history = k.history ∧
    (f k).indexHistory = k.indexHistory) : Paisible (surClavier f) := by
  refine .of_modify fun s => Prod.ext ?_ rfl
  show ({ s.avoirs with
    history := (f s.clavier).history
    indexHistory := (f s.clavier).indexHistory } : Avoirs) = _
  rw [(hf s.clavier).1, (hf s.clavier).2]
  rfl

theorem paisible_poserTampon (c : UInt8) : Paisible (poserTampon c) :=
  .of_bind .of_get fun _ => .of_ite (paisible_surClavier fun _ => ⟨rfl, rfl⟩) (.of_throw trivial)

theorem paisible_sequence (c : UInt8) : Paisible (sequence c) := by
  have hrappelle : ∀ i, Paisible (rappelle i) := by
    refine fun i => .of_bind .of_get fun s => ?_
    cases s.clavier.history i with
    | none => exact .of_throw trivial
    | some h =>
      exact .of_ite (.of_throw trivial)
        (.of_ite (paisible_surClavier fun _ => ⟨rfl, rfl⟩) (.of_throw trivial))
  have haffiche : Paisible afficheTampon :=
    .of_bind (discret_surConsole _).paisible fun _ => .of_bind .of_get fun _ =>
      (discret_printf _).paisible
  refine .of_bind .of_get fun s => .of_ite (.of_ite (.of_pure _) ?_) (.of_ite (.of_ite ?_ ?_)
    (.of_ite (discret_surConsole _).paisible (.of_ite (discret_traiteCar _).paisible
      (.of_ite (discret_surConsole _).paisible (.of_ite (discret_surConsole _).paisible (.of_pure _))))))
  · exact .of_bind (hrappelle _) fun _ =>
      .of_bind (paisible_surClavier fun _ => ⟨rfl, rfl⟩) fun _ => haffiche
  · exact .of_bind (paisible_surClavier fun _ => ⟨rfl, rfl⟩) fun _ =>
      .of_bind (hrappelle _) fun _ => haffiche
  · exact .of_bind (paisible_surClavier fun _ => ⟨rfl, rfl⟩) fun _ => (discret_surConsole _).paisible

theorem paisible_keyboardBoucle (saute : Nat) (str : List UInt8) :
    Paisible (keyboardBoucle saute str) := by
  refine keeps_iff_maintains.mpr fun x => ?_
  exact maintient_keyboardBoucle
    (fun c => keeps_iff_maintains.mp (discret_traiteCar c).paisible x)
    (keeps_iff_maintains.mp discret_verifieEs.paisible x)
    (fun c => keeps_iff_maintains.mp (paisible_poserTampon c) x)
    (keeps_iff_maintains.mp (paisible_surClavier fun _ => ⟨rfl, rfl⟩) x)
    (keeps_iff_maintains.mp (paisible_surClavier fun _ => ⟨rfl, rfl⟩) x)
    (fun c => keeps_iff_maintains.mp (paisible_sequence c) x) saute str

end

end GenesisOS
