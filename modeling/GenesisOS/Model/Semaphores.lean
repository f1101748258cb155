import GenesisOS.Model.Process

/-!
# GenesisOS — semaphores

`kernel/semaphore.c`. Waiting processes are queued by `place`, a field that is
always 0, so that their order is the order of arrival whatever their
priorities. The head `&sem->queueAttente` of the semaphore in entry `sid` of the
table is `Tete.semaphore sid`.
-/

namespace GenesisOS

open Lib

def addSid (sid : Int) : M Unit := do
  let adr ← memAllocNonNul .addSid sizeofSidLibre
  surCore fun s => { s with sidListe := insertByKey SidLibre.sid ⟨adr, sid⟩ s.sidListe }

def newSid : M Int := do
  let s ← get
  match s.sidListe.getLast? with
  | none => pure (-1)
  | some cell => do
    surCore fun s => { s with sidListe := s.sidListe.dropLast }
    memFree .addSid cell.adr sizeofSidLibre
    pure cell.sid

def isSidValideAndExist (s : Kernel) (sid : Int) : Bool :=
  0 ≤ sid && sid < NBSEM && (s.tableauSem sid).isSome

/-- Write the structure of an existing semaphore. -/
def ecrireSem (sid : Int) (sem : Semaphore) : M Unit :=
  surCore fun s => { s with tableauSem := Function.update s.tableauSem sid (some sem) }

def scount (sid : Int) : M Suite := do
  let s ← get
  if !isSidValideAndExist s sid then pure (.retour (-1))
  else match s.tableauSem sid with
  | none => throw (.accesNul .noyau)
  | some sem => pure (.retour sem.count)

/-- `screate(count)`, called with an `int` converted to `short int`. -/
def screate (n : Int) : M Suite := do
  let count := versShort n
  if count < 0 then pure (.retour (-1))
  else do
    let sid ← newSid
    if sid = -1 then pure (.retour (-1))
    else do
      match ← memAlloc sizeofSemaphore with
      | none => do
        addSid sid
        pure (.retour (-1))
      | some adr => do
        initListHead (.semaphore sid)
        ecrireSem sid
          { adr := adr, sid := sid, count := count, count_short := versShort_bounds n }
        note (.semCree adr count)
        pure (.retour sid)

/-- The loop of `sdelete` and `sreset`: the waiting processes become activable
with the given status. -/
def rejetteAttente (sid : Int) (sem : Semaphore) (status : Int) : M Unit :=
  tantQueQueueOut (.semaphore sid) fun proc => do
    ecrire .noyau proc fun r => { r with etat := .activable, operationStatus := status }
    queueAdd proc .procActivables (·.prio)
    note (.semRejet sem.adr proc status)

def sdelete (sid : Int) : M Suite := do
  let s ← get
  if !isSidValideAndExist s sid then pure (.retour (-1))
  else match s.tableauSem sid with
  | none => throw (.accesNul .noyau)
  | some sem => do
    rejetteAttente sid sem (-3)
    memFree .noyau sem.adr sizeofSemaphore
    surCore fun s => { s with tableauSem := Function.update s.tableauSem sid none }
    addSid sid
    pure (.retour 0)

def sreset (sid n : Int) : M Suite := do
  let count := versShort n
  let s ← get
  if !isSidValideAndExist s sid ∨ count < 0 then pure (.retour (-1))
  else match s.tableauSem sid with
  | none => throw (.accesNul .noyau)
  | some sem => do
    rejetteAttente sid sem (-4)
    ecrireSem sid (sem.setCount count)
    pure (.retour 0)

def signal (sid : Int) : M Suite := do
  let s ← get
  if !isSidValideAndExist s sid then pure (.retour (-1))
  else match s.tableauSem sid with
  | none => throw (.accesNul .noyau)
  | some sem =>
    if sem.count > SHORTINT_MAX - 1 then pure (.retour (-2))
    else do
      let sem := sem.setCount (sem.count + 1)
      ecrireSem sid sem
      note (.semUnite sem.adr s.procElu)
      if sem.count ≤ 0 then
        match ← queueOut (.semaphore sid) with
        | none => throw (.accesNul .signal)
        | some proc => do
          ecrire .signal proc fun r => { r with etat := .activable, operationStatus := 1 }
          queueAdd proc .procActivables (·.prio)
          note (.semAccorde sem.adr proc)
          pure (.retour 0)
      else pure (.retour 0)

/-- `n` calls of `signal`, whose results are ignored. -/
def signalFois (sid : Int) : Nat → M Unit
  | 0 => pure ()
  | n + 1 => do
    let _ ← signal sid
    signalFois sid n

def signaln (sid n : Int) : M Suite := do
  let count := versShort n
  let s ← get
  if !isSidValideAndExist s sid then pure (.retour (-1))
  else match s.tableauSem sid with
  | none => throw (.accesNul .noyau)
  | some sem =>
    if sem.count > SHORTINT_MAX - count then pure (.retour (-2))
    else do
      signalFois sid count.toNat
      pure (.retour 0)

def tryWait (sid : Int) : M Suite := do
  let s ← get
  if !isSidValideAndExist s sid then pure (.retour (-1))
  else match s.tableauSem sid with
  | none => throw (.accesNul .noyau)
  | some sem =>
    if sem.count < SHORTINT_MIN + 1 then pure (.retour (-2))
    else if sem.count ≤ 0 then pure (.retour (-3))
    else do
      ecrireSem sid (sem.setCount (sem.count - 1))
      note (.semPrise sem.adr s.procElu)
      note (.semAccorde sem.adr s.procElu)
      pure (.retour 0)

def wait (sid : Int) : M Suite := do
  let s ← get
  if !isSidValideAndExist s sid then pure (.retour (-1))
  else match s.tableauSem sid with
  | none => throw (.accesNul .noyau)
  | some sem =>
    if sem.count < SHORTINT_MIN + 1 then pure (.retour (-2))
    else do
      let sem := sem.setCount (sem.count - 1)
      ecrireSem sid sem
      note (.semPrise sem.adr s.procElu)
      if sem.count < 0 then do
        ecrire .wait s.procElu fun r => { r with etat := .attendSemaphore }
        queueAdd s.procElu (.semaphore sid) (·.place)
        pure (.ordonnanceur .wait)
      else do
        note (.semAccorde sem.adr s.procElu)
        pure (.retour 0)

/-- The end of `wait` after blocking. -/
def waitReprise : M Suite := do
  let s ← get
  let elu ← lire .wait s.procElu
  if elu.operationStatus < 0 then pure (.retour elu.operationStatus) else pure (.retour 0)

end GenesisOS
