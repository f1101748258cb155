import GenesisOS.Model.Console

/-!
# GenesisOS — processes

`kernel/processus.c`. A function that can call `ordonnanceur` returns a
`Suite`: the code up to that call is here, and what follows the call is the
`Reprise` it passes, continued by `reprend` (`Model/Machine.lean`) when the
process is elected again.
-/

namespace GenesisOS

/-! ## Identifiers and filiation -/

def newPid : M Int := do
  let s ← get
  match s.pidLibreTete with
  | [] => pure (-1)
  | cell :: reste => do
    surCore fun s => { s with pidLibreTete := reste }
    memFree .newPid cell.adr sizeofPidLibre
    pure cell.pid

def addPid (pid : Int) : M Unit := do
  let adr ← memAllocNonNul .addPid sizeofPidLibre
  surCore fun s => { s with pidLibreTete := ⟨adr, pid⟩ :: s.pidLibreTete }

def addFils (pere fils : Ptr) : M Unit := do
  let adr ← memAllocNonNul .addFils sizeofFils
  ecrire .addFils pere fun r => { r with filsTete := ⟨adr, fils⟩ :: r.filsTete }

/-! ## Creation -/

/-- The guard words of a block of the user stack heap: `p[0]`, `p[1]`, `p[l-2]`
and `p[l-1]` of `mem_alloc`. -/
def PileUser.gardes (b : PileUser) : List (Nat × BitVec 32) :=
  [(b.debut, BitVec.ofNat 32 b.length), (b.debut + 4, 0xa51234ab#32),
    (b.fin - 8, 0xdeadfedc#32), (b.fin - 4, BitVec.ofNat 32 b.debut)]

/-- What `mem_free` checks before it frees the block. They are in user memory. -/
def PileUser.Intacte (b : PileUser) (m : Nat → UInt8) : Prop :=
  ∀ g ∈ b.gardes, motA m g.1 = g.2

instance (b : PileUser) (m : Nat → UInt8) : Decidable (b.Intacte m) :=
  inferInstanceAs (Decidable (∀ g ∈ b.gardes, _))

/-- Memory when the block is returned by `mem_alloc`. -/
def PileUser.prepare (b : PileUser) (m : Nat → UInt8) : Nat → UInt8 :=
  let m := b.gardes.foldl (fun m g => poserMot m g.1 g.2) m
  memsetZero m b.zone (4 * (b.mots - 4))

/-- `user_stack_alloc(length)`: a zeroed block of user memory between its guard
words. The allocator keeps its own words, which the model leaves out, outside the
blocks it has returned. -/
def userStackAlloc (length : Nat) : M (Option Nat) := do
  let s ← get
  match s.materiel.userStackAlloc s.prochainUser with
  | some adr =>
    let b : PileUser := ⟨adr, length⟩
    if s.tasUser.Libre b then do
      set { s with
        prochainUser := s.prochainUser + 1
        tasUser := s.tasUser.ajoute b
        memoire := b.prepare s.memoire }
      pure (some adr)
    else do
      set { s with prochainUser := s.prochainUser + 1 }
      pure none
  | none => do
    set { s with prochainUser := s.prochainUser + 1 }
    pure none

/-- `user_stack_free(zone, length)`: the guard words are checked, and the block is
zeroed with them. -/
def userStackFree (l : Lieu) (zone length : Nat) : M Unit := do
  let b : PileUser := ⟨zone, length⟩
  if length = 0 then pure ()
  else do
    let s ← get
    if b ∈ s.tasUser.blocs ∧ b.Intacte s.memoire then
      set { s with
        tasUser := s.tasUser.retire b
        memoire := memsetZero s.memoire b.debut (4 * b.mots) }
    else throw (.memBug l)

/-- The `name` argument of `start`: null, a user address, or a literal of the
kernel. -/
inductive Nom where
  | nul
  | user (adr : Nat)
  | noyau (texte : List UInt8)

/-- `strncpy(proc->nom, name, sizeof(proc->nom) - 1)`. -/
def Nom.copie : Nom → M (List UInt8)
  | .nul => pure (octets "NoName")
  | .user adr => lireChaineBornee 19 adr
  | .noyau texte => pure (texte.take 19)

/-- The part of `start` that follows the allocations. -/
def startProc (pid : Int) (taille : Nat) (prio : Int) (name : Nom) (arg : BitVec 32)
    (proc : Ptr) (pileUser : Nat) (pileKernel : Ptr) : M Suite := do
  let nom ← name.copie
  ecrire .start proc fun r => { r with
    nom := nom, pid := pid, etat := .activable, secReveille := 0, prio := prio, place := 0
    pileUser := pileUser, pileKernel := pileKernel
    pileSizeUser := taille, pileSizeKernel := KERNEL_STACK_SIZE * 4 }
  let nbMotUser := taille / 4
  modify fun s =>
    let m := poserMot s.memoire pileUser CANARY_VALUE_A
    let m := poserMot m (pileUser + 4 * (nbMotUser - 1)) CANARY_VALUE_A
    let m := poserMot m (pileUser + 4 * (nbMotUser - 2)) arg
    { s with memoire := poserMot m (pileUser + 4 * (nbMotUser - 3)) (BitVec.ofNat 32 EXIT_ROUTINE) }
  ecrire .start proc fun r => { r with contexte := .debut }
  surCore fun s => { s with tableDesProcs := Function.update s.tableDesProcs pid (some proc) }
  let s ← get
  if s.procElu ≠ s.procIdle then do
    ecrire .start proc fun r => { r with pere := some s.procElu }
    addFils s.procElu proc
    note (.cree (some s.procElu) proc pid)
  else do
    ecrire .start proc fun r => { r with pere := none }
    note (.cree none proc pid)
  queueAdd proc .procActivables (·.prio)
  let elu ← lire .start s.procElu
  if prio > elu.prio then pure (.ordonnanceur (.retour pid)) else pure (.retour pid)

/-- `start`. The entry address of the new process is user code and is left
out. -/
def start (ssize : Nat) (prio : Int) (name : Nom) (arg : BitVec 32) : M Suite := do
  let pid ← newPid
  if pid ≤ -1 then pure (.retour (-1))
  else if prio ≤ 0 ∨ prio > PRIO_MAX then do
    addPid pid
    pure (.retour (-1))
  else
    let octetsReserver := USER_STACK_SIZE * 4
    if ssize > ULONG_MAX - octetsReserver then do
      addPid pid
      pure (.retour (-1))
    else do
      let userTaillePileOctets := ssize + octetsReserver
      match ← allocProcessus with
      | none => do
        addPid pid
        pure (.retour (-1))
      | some proc => do
        match ← userStackAlloc userTaillePileOctets with
        | none => do
          addPid pid
          libereProcessus .start proc
          pure (.retour (-1))
        | some pileUser => do
          match ← memAlloc (KERNEL_STACK_SIZE * 4) with
          | none => do
            addPid pid
            userStackFree .start pileUser userTaillePileOctets
            libereProcessus .start proc
            pure (.retour (-1))
          | some pileKernel =>
            startProc pid userTaillePileOctets prio name arg proc pileUser pileKernel

/-! ## Priorities -/

def getpid : M Suite := do
  let s ← get
  let elu ← lire .noyau s.procElu
  pure (.retour elu.pid)

def getprio (pid : Int) : M Suite := do
  if pid < 0 ∨ pid ≥ MAX_PROCESS then pure (.retour (-1))
  else do
    let s ← get
    match s.tableDesProcs pid with
    | none => pure (.retour (-1))
    | some proc => do
      let r ← lire .noyau proc
      pure (.retour r.prio)

/-- The value `chprio` reads as `procActiablePrio->prio`. The call
`queue_top(&proc_activables, Processus, prio)` names the field `prio` where
the link is `chainage`: the pointer it returns is off by the distance between
the two, and its `prio` is the first word of the link of the top process, the
address `prev` of the link before it. -/
def queueTopPrio (s : Kernel) : Option Int :=
  match (s.elems .procActivables).reverse with
  | [] => none
  | [_] => some s.materiel.adrProcActivables
  | _ :: q :: _ => some (s.materiel.adrChainage q)

def isFidValideAndExist (s : Kernel) (fid : Int) : Bool :=
  0 ≤ fid && fid < NBQUEUE && (s.tableauFile fid).isSome

def chprio (pid newPrio : Int) : M Suite := do
  if pid ≤ 0 ∨ pid ≥ MAX_PROCESS then pure (.retour (-1))
  else if newPrio ≤ 0 ∨ newPrio > PRIO_MAX then pure (.retour (-1))
  else do
    let s ← get
    match s.tableDesProcs pid with
    | none => pure (.retour (-1))
    | some proc => do
      let r ← lire .chprio proc
      if r.etat = .zombie then pure (.retour (-1))
      else do
        ecrire .chprio proc fun r => { r with prio := newPrio }
        if s.procElu = proc then
          match queueTopPrio s with
          | none => throw (.accesNul .chprio)
          | some top =>
            if newPrio < top then pure (.ordonnanceur (.retour r.prio))
            else pure (.retour r.prio)
        else if r.etat = .activable then do
          queueDel proc
          queueAdd proc .procActivables (·.prio)
          let elu ← lire .chprio s.procElu
          if elu.prio < newPrio then pure (.ordonnanceur (.retour r.prio))
          else pure (.retour r.prio)
        else if r.etat = .attendFile then do
          assertion .chprio (isFidValideAndExist s r.fid)
          queueDel proc
          queueAdd proc (.file r.fid) (·.prio)
          pure (.retour r.prio)
        else pure (.retour r.prio)

/-! ## Scheduling -/

/-- One turn of the loop of `free_childs`. -/
def freeChild (f : Fils) : M Unit := do
  let c ← lire .freeChilds f.procFils
  if c.etat = .zombie then do
    ecrire .freeChilds f.procFils fun r => { r with etat := .mourant }
    queueAdd f.procFils .procMourants (·.prio)
  else ecrire .freeChilds f.procFils fun r => { r with pere := none }
  memFree .freeChilds f.adr sizeofFils

def freeChilds (proc : Ptr) : M Unit := do
  let r ← lire .freeChilds proc
  r.filsTete.forM freeChild

/-- The body of the loop of `free_mourant_queue`. -/
def freeMourant (procMort : Ptr) : M Unit := do
  freeChilds procMort
  let r ← lire .freeMourantQueue procMort
  surCore fun s => { s with tableDesProcs := Function.update s.tableDesProcs r.pid none }
  addPid r.pid
  memFree .freeMourantQueue r.pileKernel r.pileSizeKernel
  userStackFree .freeMourantQueue r.pileUser r.pileSizeUser
  libereProcessus .freeMourantQueue procMort
  note (.libere procMort)

/-- `free_mourant_queue`. A process is freed at most once, so there are fewer
turns than allocated blocks. -/
def freeMourantQueue : M Unit := do
  let s ← get
  tours s.prochain
where
  tours : Nat → M Unit
  | 0 => do
    match ← queueOut .procMourants with
    | none => pure ()
    | some _ => throw (.boucle .freeMourantQueue)
  | n + 1 => do
    match ← queueOut .procMourants with
    | none => pure ()
    | some procMort => do
      freeMourant procMort
      tours n

def checkCanary (proc : Ptr) : M Bool := do
  let r ← lire .checkCanary proc
  let nbMot := r.pileSizeUser / 4
  let s ← get
  pure (motA s.memoire r.pileUser = CANARY_VALUE_A ∧
    motA s.memoire (r.pileUser + 4 * (nbMot - 1)) = CANARY_VALUE_A)

/-- Put the process that leaves the processor where its state says. -/
def rangeActuel (procEluActuel : Ptr) : M Unit := do
  let r ← lire .ordonnanceur procEluActuel
  match r.etat with
  | .mourant => queueAdd procEluActuel .procMourants (·.prio)
  | .elu | .activable => do
    ecrire .ordonnanceur procEluActuel fun r => { r with etat := .activable }
    queueAdd procEluActuel .procActivables (·.prio)
  | _ => pure ()

/-- Give the processor to the first activable process. -/
def prendSuivant : M Unit := do
  match ← queueOut .procActivables with
  | none => throw (.accesNul .ordonnanceur)
  | some procEluSuiv => do
    ecrire .ordonnanceur procEluSuiv fun r => { r with etat := .elu }
    surCore fun s => { s with procElu := procEluSuiv }

/-- The part of `ordonnanceur` that gives the processor to another process. -/
def commute : M Unit := do
  let s ← get
  let procEluActuel := s.procElu
  if procEluActuel ≠ s.procIdle then do
    let canari ← checkCanary procEluActuel
    if canari then pure () else throw .panique
  rangeActuel procEluActuel
  prendSuivant

/-- `ordonnanceur()`, called with the return point `k` on the kernel stack. -/
def ordonnanceur (k : Reprise) : M Unit := do
  let s ← get
  ecrire .ordonnanceur s.procElu fun r => { r with contexte := k }
  freeMourantQueue
  if ← queueEmpty .procActivables then pure () else commute

/-! ## Sleeping -/

def waitClock (ticks : Nat) : M Suite := do
  let s ← get
  ecrire .waitClock s.procElu fun r => { r with etat := .endormi, secReveille := ticks }
  queueAdd s.procElu .procEndormis (·.secReveille)
  pure (.ordonnanceur (.retour 0))

/-- `pos->next` in a circular list, `none` being the head. -/
def suivant (l : List Ptr) : Option Ptr → Option Ptr
  | none => l.head?
  | some p => (l.dropWhile (· ≠ p)).tail.head?

/-- `p->prev` in a circular list, `none` being the head. -/
def precedent (l : List Ptr) (p : Ptr) : Option Ptr := (l.takeWhile (· ≠ p)).getLast?

/-- `verifie_reveille`: whether it must call `ordonnanceur`. -/
def verifieReveille (ticks : Nat) : M Bool := do
  let s ← get
  let elu ← lire .verifieReveille s.procElu
  tours elu.prio (s.elems .procEndormis).length (suivant (s.elems .procEndormis) none) false
where
  tours (procEluPrio : Int) : Nat → Option Ptr → Bool → M Bool
  | _, none, callOrdonnanceur => pure callOrdonnanceur
  | 0, some _, _ => throw (.boucle .verifieReveille)
  | n + 1, some current, callOrdonnanceur => do
    let s ← get
    let next := precedent (s.elems .procEndormis) current
    let r ← lire .verifieReveille current
    if r.secReveille ≤ ticks then do
      ecrire .verifieReveille current fun r => { r with etat := .activable }
      queueDel current
      queueAdd current .procActivables (·.prio)
      let s ← get
      tours procEluPrio n (suivant (s.elems .procEndormis) next)
        (callOrdonnanceur || r.prio > procEluPrio)
    else pure callOrdonnanceur

/-- `verifie_es`: whether it must call `ordonnanceur`. -/
def verifieEs : M Bool := do
  match ← queueOut .procBloqueEs with
  | none => pure false
  | some current => do
    ecrire .verifieEs current fun r => { r with etat := .activable }
    queueAdd current .procActivables (·.prio)
    let s ← get
    let elu ← lire .verifieEs s.procElu
    let r ← lire .verifieEs current
    pure (elu.prio > r.prio)

/-! ## Termination -/

/-- Wake the father of a process that has just become a zombie. -/
def reveillePere (l : Lieu) (pere : Ptr) : M Unit := do
  let r ← lire l pere
  if r.etat = .attendFils then do
    ecrire l pere fun r => { r with etat := .activable }
    queueAdd pere .procActivables (·.prio)
  else pure ()

def exit (retval : Int) : M Suite := do
  let s ← get
  let procMort := s.procElu
  ecrire .exit procMort fun r => { r with retval := retval }
  note (.exit procMort retval)
  let r ← lire .exit procMort
  match r.pere with
  | some pere => do
    ecrire .exit procMort fun r => { r with etat := .zombie }
    reveillePere .exit pere
  | none => ecrire .exit procMort fun r => { r with etat := .mourant }
  pure (.ordonnanceur .exitFin)

def kill (pid : Int) : M Suite := do
  let s ← get
  if pid ≤ 0 ∨ pid ≥ MAX_PROCESS then pure (.retour (-1))
  else match s.tableDesProcs pid with
  | none => pure (.retour (-1))
  | some proc => do
    let r ← lire .kill proc
    if r.etat = .zombie ∨ r.etat = .mourant then pure (.retour (-1))
    else do
      note (.tue proc)
      if proc = s.procElu then do
        match r.pere with
        | some _ => ecrire .kill proc fun r => { r with etat := .zombie }
        | none => ecrire .kill proc fun r => { r with etat := .mourant }
        pure (.ordonnanceur (.retour 0))
      else do
        queueDel proc
        match r.pere with
        | some pere => do
          ecrire .kill proc fun r => { r with etat := .zombie }
          reveillePere .kill pere
        | none => do
          ecrire .kill proc fun r => { r with etat := .mourant }
          queueAdd proc .procMourants (·.prio)
        freeMourantQueue
        pure (.retour 0)

/-! ## Waiting for a child -/

/-- Unlink the cell of `proc` from a list of children; `none` when the search
runs off the list. -/
def retireFils (proc : Ptr) : List Fils → Option (List Fils)
  | [] => none
  | f :: l => if f.procFils = proc then some l else (retireFils proc l).map (f :: ·)

/-- The part of `waitpid` that follows the wait. -/
def waitpidFin (proc : Ptr) (retvalp : Nat) : M Suite := do
  let s ← get
  let elu ← lire .waitpid s.procElu
  match retireFils proc elu.filsTete with
  | none => throw (.accesNul .waitpid)
  | some l => do
    ecrire .waitpid s.procElu fun r => { r with filsTete := l }
    let r ← lire .waitpid proc
    note (.recolte s.procElu proc)
    ecrire .waitpid proc fun r => { r with etat := .mourant, pere := none }
    queueAdd proc .procMourants (·.prio)
    freeMourantQueue
    if retvalp ≠ 0 then ecrireMot retvalp (BitVec.ofInt 32 r.retval)
    pure (.retour r.pid)

/-- The loop of `waitpid` for `pid >= 0`. -/
def waitpidBoucle (pid : Int) (proc : Ptr) (retvalp : Nat) : M Suite := do
  let r ← lire .waitpid proc
  if r.etat ≠ .zombie then do
    let s ← get
    ecrire .waitpid s.procElu fun r => { r with etat := .attendFils }
    pure (.ordonnanceur (.waitpid pid proc retvalp))
  else waitpidFin proc retvalp

/-- The first zombie of a list of children. -/
def premierZombie : List Fils → M (Option Ptr)
  | [] => pure none
  | f :: l => do
    let c ← lire .waitpid f.procFils
    if c.etat = .zombie then pure (some f.procFils) else premierZombie l

/-- The loop of `waitpid` for `pid < 0`. -/
def waitpidFilsBoucle (pid : Int) (retvalp : Nat) : M Suite := do
  let s ← get
  let elu ← lire .waitpid s.procElu
  match ← premierZombie elu.filsTete with
  | some proc => waitpidFin proc retvalp
  | none => do
    ecrire .waitpid s.procElu fun r => { r with etat := .attendFils }
    pure (.ordonnanceur (.waitpidFils pid retvalp))

def waitpid (pid : Int) (retvalp : Nat) : M Suite := do
  let s ← get
  note (.attente s.procElu pid retvalp)
  if pid ≥ MAX_PROCESS then pure (.retour (-1))
  else if pid ≥ 0 then
    match s.tableDesProcs pid with
    | none => pure (.retour (-1))
    | some proc => do
      let r ← lire .waitpid proc
      if r.pere ≠ some s.procElu then pure (.retour (-1))
      else waitpidBoucle pid proc retvalp
  else do
    let elu ← lire .waitpid s.procElu
    if elu.filsTete.isEmpty then pure (.retour (-1))
    else waitpidFilsBoucle pid retvalp

/-! ## Display -/

/-- `affiche_table_process`, for one identifier. -/
def afficheProcess (i : Int) : M Unit := do
  let s ← get
  match s.tableDesProcs i with
  | none => pure ()
  | some p => do
    let r ← lire .affiche p
    printf (octets "[PID ")
    surConsole fun k => k.setColor VERT
    printf (decimal r.pid)
    surConsole fun k => k.setColor BLANC
    printf (octets "] processus")
    surConsole fun k => k.setColor VERT
    printf (octets " " ++ r.nom)
    surConsole fun k => k.setColor BLANC
    printf (octets " [etat " ++ decimal r.etat.ctorIdx ++ octets "]")
    match r.pere with
    | none => pure ()
    | some pere => do
      let f ← lire .affiche pere
      printf (octets "  [Pere pid:")
      surConsole fun k => k.setColor VERT
      printf (decimal f.pid)
      surConsole fun k => k.setColor BLANC
      printf (octets " nom:")
      surConsole fun k => k.setColor VERT
      printf f.nom
      surConsole fun k => k.setColor BLANC
      printf (octets "]")
    printf (octets "\n")

def afficheTableProcess : M Unit :=
  (List.range MAX_PROCESS.toNat).forM fun i => afficheProcess i

end GenesisOS
