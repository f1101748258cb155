import GenesisOS.Model.Process

/-!
# GenesisOS — message files

`kernel/files.c`. A blocked sender keeps its message in its own `fileValue`;
a blocked receiver finds there the message it was handed. The head
`&f->queueAttente` of the file in entry `fid` of the table is `Tete.file fid`.
-/

namespace GenesisOS

open Lib

/-! ## Free identifiers -/

def addFid (fid : Int) : M Unit := do
  let adr ← memAllocNonNul .addFid sizeofFidLibre
  surCore fun s => { s with fidListe := insertByKey FidLibre.fid ⟨adr, fid⟩ s.fidListe }

def newFid : M Int := do
  let s ← get
  match s.fidListe.getLast? with
  | none => pure (-1)
  | some cell => do
    surCore fun s => { s with fidListe := s.fidListe.dropLast }
    memFree .addFid cell.adr sizeofFidLibre
    pure cell.fid

def isFidValide (fid : Int) : Bool := 0 ≤ fid && fid < NBQUEUE

/-! ## Messages and waiting processes -/

def getNbMsg (f : File) : Int := f.queueMsg.length

/-- The waiting queue of the file in entry `fid`. -/
def getNbProcs (s : Kernel) (fid : Int) : Int := (s.elems (.file fid)).length

/-- Write the structure of an existing file. -/
def ecrireFile (fid : Int) (f : File) : M Unit :=
  surCore fun s => { s with tableauFile := Function.update s.tableauFile fid (some f) }

/-- `add_msg`: the new message goes before the others, their `place` being
equal. -/
def addMsg (fid : Int) (f : File) (message : Int) : M File := do
  assertion .addMsg (getNbMsg f < f.maxMsg)
  let adr ← memAllocNonNul .addMsg sizeofMessage
  let f' := { f with queueMsg := insertByKey (fun _ => (0 : Int)) ⟨adr, message⟩ f.queueMsg }
  ecrireFile fid f'
  pure f'

/-- `retire_msg`: the oldest message. -/
def retireMsg (fid : Int) (f : File) : M (File × Int) := do
  match f.queueMsg.getLast? with
  | none => throw (.accesNul .retireMsg)
  | some msg => do
    let f' := { f with queueMsg := f.queueMsg.dropLast }
    ecrireFile fid f'
    memFree .retireMsg msg.adr sizeofMessage
    pure (f', msg.message)

def retireProc (fid : Int) : M Ptr := do
  let s ← get
  assertion .retireProc (getNbProcs s fid > 0)
  match ← queueOut (.file fid) with
  | none => throw (.accesNul .retireProc)
  | some proc => pure proc

def addProc (fid : Int) (f : File) (proc : Ptr) : M Unit := do
  queueAdd proc (.file fid) (·.prio)
  ecrire .addProc proc fun r => { r with fid := f.fid }
  ecrire .addProc proc fun r => { r with etat := .attendFile }

/-! ## Primitives -/

def pcount (fid : Int) (count : Nat) : M Suite := do
  let s ← get
  if !isFidValideAndExist s fid then pure (.retour (-1))
  else match s.tableauFile fid with
  | none => throw (.accesNul .noyau)
  | some f =>
    if count ≠ 0 then do
      let nbMsg := getNbMsg f
      let nbProc := getNbProcs s fid
      if nbMsg = 0 then ecrireMot count (BitVec.ofInt 32 (-nbProc))
      else ecrireMot count (BitVec.ofInt 32 (nbMsg + nbProc))
      pure (.retour 0)
    else pure (.retour (-1))

def pcreate (maxMsg : Int) : M Suite := do
  if maxMsg ≤ 0 ∨ maxMsg > MAXMSG then pure (.retour (-1))
  else do
    let fid ← newFid
    if !isFidValide fid then pure (.retour (-1))
    else do
      let adr ← memAllocNonNul .pcreate sizeofFile
      initListHead (.file fid)
      ecrireFile fid { adr := adr, fid := fid, maxMsg := maxMsg, queueMsg := [] }
      pure (.retour fid)

/-- The first loop of `pdelete` and `preset`: the waiting processes become
activable, their call having failed. Whether one of them has a priority
greater than `procEluPrio`. -/
def echoueAttente (fid : Int) (f : File) (procEluPrio : Int) : M Bool := do
  let s ← get
  tours (s.elems (.file fid)).length false
where
  tours : Nat → Bool → M Bool
  | 0, callOrdonnanceur => pure callOrdonnanceur
  | n + 1, callOrdonnanceur => do
    match ← queueOut (.file fid) with
    | none => pure callOrdonnanceur
    | some proc => do
      ecrire .noyau proc fun r =>
        { r with etat := .activable, fid := -1, operationStatus := 0 }
      queueAdd proc .procActivables (·.prio)
      note (.echec f.adr proc)
      let r ← lire .noyau proc
      tours n (callOrdonnanceur || r.prio > procEluPrio)

/-- The second loop of `pdelete` and `preset`: the messages are freed. -/
def libereMessages (fid : Int) (f : File) : M Unit := do
  f.queueMsg.reverse.forM fun msg => memFree .retireMsg msg.adr sizeofMessage
  ecrireFile fid { f with queueMsg := [] }
  note (.vide f.adr)

/-- `if (callOrdonnanceur) ordonnanceur(); return 0;` -/
def finFile (callOrdonnanceur : Bool) : Suite :=
  if callOrdonnanceur then .ordonnanceur (.retour 0) else .retour 0

def pdelete (fid : Int) : M Suite := do
  let s ← get
  if !isFidValideAndExist s fid then pure (.retour (-1))
  else match s.tableauFile fid with
  | none => throw (.accesNul .noyau)
  | some f => do
    let elu ← lire .noyau s.procElu
    let callOrdonnanceur ← echoueAttente fid f elu.prio
    libereMessages fid f
    surCore fun s => { s with tableauFile := Function.update s.tableauFile fid none }
    addFid fid
    memFree .noyau f.adr sizeofFile
    pure (finFile callOrdonnanceur)

def preset (fid : Int) : M Suite := do
  let s ← get
  if !isFidValideAndExist s fid then pure (.retour (-1))
  else match s.tableauFile fid with
  | none => throw (.accesNul .noyau)
  | some f => do
    let elu ← lire .noyau s.procElu
    let callOrdonnanceur ← echoueAttente fid f elu.prio
    libereMessages fid f
    pure (finFile callOrdonnanceur)

def psend (fid message : Int) : M Suite := do
  let s ← get
  if !isFidValideAndExist s fid then pure (.retour (-1))
  else match s.tableauFile fid with
  | none => throw (.accesNul .noyau)
  | some f => do
    let elu ← lire .psend s.procElu
    note (.emission f.adr s.procElu message)
    ecrire .psend s.procElu fun r => { r with fileValue := message, operationStatus := 1 }
    if getNbMsg f = 0 ∧ s.elems (.file fid) ≠ [] then do
      let proc ← retireProc fid
      ecrire .psend proc fun r =>
        { r with fid := -1, fileValue := message, operationStatus := 1, etat := .activable }
      note (.accepte f.adr s.procElu message)
      note (.livre f.adr proc message)
      queueAdd proc .procActivables (·.prio)
      let r ← lire .psend proc
      pure (finFile (r.prio > elu.prio))
    else if f.maxMsg = getNbMsg f then do
      addProc fid f s.procElu
      pure (.ordonnanceur .psend)
    else do
      let _ ← addMsg fid f message
      note (.accepte f.adr s.procElu message)
      pure (.retour 0)

/-- The end of `psend` after blocking. -/
def psendReprise : M Suite := do
  let s ← get
  let elu ← lire .psend s.procElu
  if elu.operationStatus = 0 then pure (.retour (-1)) else pure (.retour 0)

def preceive (fid : Int) (message : Nat) : M Suite := do
  let s ← get
  if !isFidValideAndExist s fid then pure (.retour (-1))
  else match s.tableauFile fid with
  | none => throw (.accesNul .noyau)
  | some f => do
    let elu ← lire .preceive s.procElu
    note (.reception f.adr s.procElu message)
    ecrire .preceive s.procElu fun r => { r with fileValue := -1, operationStatus := 1 }
    if getNbMsg f = 0 then do
      addProc fid f s.procElu
      pure (.ordonnanceur (.preceive message))
    else do
      let (f, val) ← retireMsg fid f
      note (.livre f.adr s.procElu val)
      if message ≠ 0 then ecrireMot message (BitVec.ofInt 32 val)
      let s ← get
      if s.elems (.file fid) ≠ [] then do
        let proc ← retireProc fid
        let r ← lire .preceive proc
        ecrire .preceive proc fun r => { r with fid := -1 }
        let _ ← addMsg fid f r.fileValue
        note (.accepte f.adr proc r.fileValue)
        ecrire .preceive proc fun r => { r with operationStatus := 1, etat := .activable }
        queueAdd proc .procActivables (·.prio)
        pure (finFile (r.prio > elu.prio))
      else pure (.retour 0)

/-- The end of `preceive` after blocking. -/
def preceiveReprise (message : Nat) : M Suite := do
  let s ← get
  let elu ← lire .preceive s.procElu
  if elu.operationStatus = 0 then pure (.retour (-1))
  else do
    if message ≠ 0 then ecrireMot message (BitVec.ofInt 32 elu.fileValue)
    pure (.retour 0)

end GenesisOS
