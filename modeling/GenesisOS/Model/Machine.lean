import GenesisOS.Model.Files
import GenesisOS.Model.Semaphores
import GenesisOS.Model.Keyboard

/-!
# GenesisOS — interrupts, start-up and runs

`kernel/traitant_IT_49.c`, `tic_PIT` of `horloge.c`, `init_ordonnanceur` and
`kernel_start`, and the machine that runs them.

A configuration is a state together with a `Mode`: in user mode the elected
process runs its own code until a system call, a clock tick or a keyboard
interrupt; in kernel mode it has just been elected by `ordonnanceur` and is
about to continue from its return point. One step of `pas` is one piece of
kernel code between two such configurations.
-/

namespace GenesisOS

open Lib

/-! ## Clock interrupt -/

/-- The end of `tic_PIT`. -/
def ticPITFin : M Suite := do
  let s ← get
  if s.cptTicks % (CLOCKFREQ / SCHEDFREQ) = 0 then pure (.ordonnanceur .iret) else pure .iret

/-- Count one interrupt: `ticks` is a 32-bit counter, `cpt_ticks` a 16-bit
one. Whether a second has gone by. -/
def compteTic (s : Kernel) : Kernel × Bool :=
  let s := { s with ticks := (s.ticks + 1) % 2 ^ 32, cptTicks := (s.cptTicks + 1) % 2 ^ 16 }
  if s.cptTicks = CLOCKFREQ then
    let s := { s with cptTicks := 0, secondes := s.secondes + 1 }
    let s := if s.secondes = 60 then { s with secondes := 0, minutes := s.minutes + 1 } else s
    let s := if s.minutes = 60 then { s with minutes := 0, heures := s.heures + 1 } else s
    (s, true)
  else (s, false)

def ticPIT : M Suite := do
  let s ← get
  let (s, seconde) := compteTic s
  set s
  if seconde then
    ecritTemps (decimal2 s.heures ++ octets ":" ++ decimal2 s.minutes ++ octets ":" ++
      decimal2 s.secondes) 8
  if ← verifieReveille s.ticks then pure (.ordonnanceur .ticPIT) else ticPITFin

/-! ## System calls -/

/-- The registers `traitant_IT_49` passes. -/
structure Registres where
  eax : BitVec 32
  ebx : BitVec 32
  ecx : BitVec 32
  edx : BitVec 32 := 0
  esi : BitVec 32 := 0
  edi : BitVec 32 := 0
  deriving DecidableEq

/-- The service numbers of `builtin_enum.h`. -/
inductive Service where
  | getpid | consPutbytes | start | exit | kill | ps | getprio | chprio | pcount | pcreate
  | pdelete | preceive | preset | psend | clockSettings | currentClock | waitClock | waitpid
  | consEcho | consRead | consWrite | exitKernel | setColor | scount | screate | sdelete
  | sreset | signal | signaln | tryWait | wait | playSound | consSwitchEcho | setIdStart
  | echoHist
  deriving DecidableEq, Repr

/-- The services in the order of their numbers. -/
def services : List Service :=
  [.getpid, .consPutbytes, .start, .exit, .kill, .ps, .getprio, .chprio, .pcount, .pcreate,
   .pdelete, .preceive, .preset, .psend, .clockSettings, .currentClock, .waitClock, .waitpid,
   .consEcho, .consRead, .consWrite, .exitKernel, .setColor, .scount, .screate, .sdelete,
   .sreset, .signal, .signaln, .tryWait, .wait, .playSound, .consSwitchEcho, .setIdStart,
   .echoHist]

/-- The service the register `eax` asks for. -/
def Registres.service (r : Registres) : Option Service := services[r.eax.toNat]?

/-- `isUserSpace(addr)`: the address is compared as a signed `int`. -/
def isUserSpace (addr : BitVec 32) : Bool :=
  addr = 0 || ((USER_START : Int) ≤ addr.toInt && addr.toInt < USER_END)

/-- A `void` service: the value returned is the initial `retval`. -/
def sansValeur (m : M Unit) : M Suite := do
  m
  pure (.retour 0)

/-- `clock_settings`. -/
def clockSettings (quartz ticks : Nat) : M Unit := do
  ecrireMot quartz (BitVec.ofNat 32 QUARTZ)
  ecrireMot ticks (BitVec.ofNat 32 (QUARTZ / CLOCKFREQ))

/-- The `name` argument of the system call `start`. -/
def nomUser (adr : BitVec 32) : Nom := if adr = 0 then .nul else .user adr.toNat

def traitantIT49Switch (r : Registres) : M Suite :=
  match r.service with
  | some .getpid => getpid
  | some .consPutbytes =>
    if !isUserSpace r.ebx then pure (.retour (-1))
    else sansValeur (consWrite r.ecx.toInt.toNat r.ebx.toNat)
  | some .start =>
    if !isUserSpace r.ebx || !isUserSpace r.esi then pure (.retour (-1))
    else start r.ecx.toNat r.edx.toInt (nomUser r.esi) r.edi
  | some .exit => exit r.ebx.toInt
  | some .kill => kill r.ebx.toInt
  | some .chprio => chprio r.ebx.toInt r.ecx.toInt
  | some .getprio => getprio r.ebx.toInt
  | some .pcount =>
    if !isUserSpace r.ecx then pure (.retour (-1)) else pcount r.ebx.toInt r.ecx.toNat
  | some .pcreate => pcreate r.ebx.toInt
  | some .pdelete => pdelete r.ebx.toInt
  | some .preceive =>
    if !isUserSpace r.ecx then pure (.retour (-1)) else preceive r.ebx.toInt r.ecx.toNat
  | some .preset => preset r.ebx.toInt
  | some .psend => psend r.ebx.toInt r.ecx.toInt
  | some .clockSettings =>
    if !isUserSpace r.ebx || !isUserSpace r.ecx then pure (.retour (-1))
    else sansValeur (clockSettings r.ebx.toNat r.ecx.toNat)
  | some .currentClock => do
    let s ← get
    pure (.retour (BitVec.ofNat 32 s.ticks).toInt)
  | some .waitClock => waitClock r.ebx.toNat
  | some .waitpid =>
    if !isUserSpace r.ecx then pure (.retour (-1)) else waitpid r.ebx.toInt r.ecx.toNat
  | some .consEcho => sansValeur (surConsole fun k => k.consEcho r.ebx.toInt)
  | some .consRead =>
    if !isUserSpace r.ebx then pure (.retour (-1)) else consRead r.ebx.toNat r.ecx.toNat
  | some .consWrite =>
    if !isUserSpace r.ebx then pure (.retour (-1))
    else sansValeur (consWrite r.ecx.toInt.toNat r.ebx.toNat)
  | some .exitKernel => throw .arret
  | some .ps => sansValeur afficheTableProcess
  | some .setColor => sansValeur (surConsole fun k => k.setColor r.ebx.toInt)
  | some .scount => scount r.ebx.toInt
  | some .screate => screate r.ebx.toInt
  | some .sdelete => sdelete r.ebx.toInt
  | some .sreset => sreset r.ebx.toInt r.ecx.toInt
  | some .signal => signal r.ebx.toInt
  | some .signaln => signaln r.ebx.toInt r.ecx.toInt
  | some .tryWait => tryWait r.ebx.toInt
  | some .wait => wait r.ebx.toInt
  | some .playSound => pure (.retour 0)
  | some .consSwitchEcho => sansValeur (surConsole fun k => k.consSwitchEcho)
  | some .setIdStart => sansValeur (surConsole fun k => k.setIdStart r.ebx.toInt)
  | some .echoHist => sansValeur afficherHistorique
  | none => pure (.retour 0)

/-! ## Continuing a suspended call -/

/-- The code that follows the `ordonnanceur` call a process was suspended in. -/
def reprend : Reprise → M Suite
  | .debut => pure .iret
  | .retour v => pure (.retour v)
  | .iret => pure .iret
  | .exitFin => throw (.boucle .exit)
  | .psend => psendReprise
  | .preceive message => preceiveReprise message
  | .wait => waitReprise
  | .waitpid pid proc retvalp => waitpidBoucle pid proc retvalp
  | .waitpidFils pid retvalp => waitpidFilsBoucle pid retvalp
  | .consRead string length => consRead string length
  | .ticPIT => ticPITFin
  | .keyboardData reste => keyboardBoucle 0 reste
  | .keyboardFin => keyboardFinReprise

/-! ## Configurations -/

inductive Mode where
  | utilisateur
  | noyau
  deriving DecidableEq, Repr

/-- Carry out the end of a piece of kernel code. -/
def termine : Suite → M Mode
  | .retour v => do
    let s ← get
    note (.retour s.procElu v)
    pure .utilisateur
  | .iret => pure .utilisateur
  | .ordonnanceur k => do
    ordonnanceur k
    pure .noyau

/-- What can happen to a running machine. -/
inductive Signal where
  /-- The elected process executes `int $49`. -/
  | int49 (r : Registres)
  /-- Clock interrupt. -/
  | int32
  /-- Keyboard interrupt delivering a string. -/
  | int33 (str : List UInt8)
  /-- The elected process writes user memory. -/
  | programme (m : Nat → UInt8)
  /-- The process just elected continues in the kernel. -/
  | suite

structure Config where
  s : Kernel
  mode : Mode

/-- The kernel code a signal starts. The idle process issues no system call
and has no user code; interrupts are masked in kernel mode. -/
def segment (c : Config) : Signal → M Suite
  | .int49 r =>
    if c.mode = .utilisateur ∧ c.s.procElu ≠ c.s.procIdle then traitantIT49Switch r
    else pure .iret
  | .int32 => if c.mode = .utilisateur then ticPIT else pure .iret
  | .int33 str => if c.mode = .utilisateur then keyboardData str else pure .iret
  | .programme m =>
    if c.mode = .utilisateur ∧ c.s.procElu ≠ c.s.procIdle then do
      modify fun s => { s with
        memoire := fun a => if USER_START ≤ a ∧ a < USER_END then m a else s.memoire a }
      pure .iret
    else pure .iret
  | .suite => do
    let r ← lire .noyau c.s.procElu
    -- the return point is popped off the kernel stack
    ecrire .noyau c.s.procElu fun r => { r with contexte := .iret }
    reprend r.contexte

/-- Whether the signal can occur in the configuration. -/
def possible (c : Config) : Signal → Bool
  | .int49 _ => c.mode = .utilisateur ∧ c.s.procElu ≠ c.s.procIdle
  | .int32 => c.mode = .utilisateur
  | .int33 _ => c.mode = .utilisateur
  | .programme _ => c.mode = .utilisateur ∧ c.s.procElu ≠ c.s.procIdle
  | .suite => c.mode = .noyau

/-- One step of the machine. -/
def pas (c : Config) (e : Signal) : Except Faute Config :=
  match (segment c e >>= termine) c.s with
  | .ok (mode, s) => .ok ⟨s, mode⟩
  | .error f => .error f

/-! ## Start-up -/

/-- The state the loader leaves: variables are zero and user memory holds the
user program. -/
def etatZero (mat : Materiel) (m : Nat → UInt8) : Kernel where
  tas _ := {}
  vivant _ := false
  chainage := LinkedQueues.empty
  tableDesProcs _ := none
  pidLibreTete := []
  procIdle := 0
  procElu := 0
  tableauFile _ := none
  fidListe := []
  tableauSem _ := none
  sidListe := []
  prochain := 1
  journal := []
  materiel := mat
  blocs _ := none
  tasUser := .vide
  prochainUser := 0
  memoire := m
  ticks := 0
  cptTicks := 0
  secondes := 0
  minutes := 0
  heures := 0
  console := {}
  clavier := {}

/-- The free identifiers 1 to `MAX_PROCESS - 1`, in order. -/
def initPids : Nat → Int → M Unit
  | 0, _ => pure ()
  | n + 1, pid => do
    let adr ← memAllocNonNul .initOrdonnanceur sizeofPidLibre
    surCore fun s => { s with pidLibreTete := s.pidLibreTete ++ [⟨adr, pid⟩] }
    initPids n (pid + 1)

def initListes : M Unit := do
  initListHead .procActivables
  initListHead .procEndormis
  initListHead .procMourants
  initListHead .procBloqueEs

def initSemaphores : M Unit := (List.range NBSEM.toNat).forM fun i => addSid i

def initFiles : M Unit := (List.range NBQUEUE.toNat).forM fun i => addFid i

/-- The idle process. -/
def initIdle : M Unit := do
  match ← allocProcessus with
  | none => throw (.accesNul .initOrdonnanceur)
  | some proc => do
    ecrire .initOrdonnanceur proc fun r => { r with
      nom := octets "IDLE", pid := 0, etat := .elu, secReveille := 0, prio := PRIO_IDLE }
    surCore fun s => { s with
      tableDesProcs := Function.update s.tableDesProcs 0 (some proc)
      procIdle := proc
      procElu := proc }

/-- `init_ordonnanceur`; after its call of `start`, the idle process enters
its loop. -/
def initOrdonnanceur : M Suite := do
  initPids (MAX_PROCESS.toNat - 1) 1
  initListes
  initSemaphores
  initIdle
  initFiles
  match ← start 0 1 (.noyau (octets "USER")) 0 with
  | .ordonnanceur _ => pure (.ordonnanceur .iret)
  | _ => pure .iret

/-- `kernel_start`. -/
def kernelStart : M Mode := do
  traiteCar 12
  initOrdonnanceur >>= termine

/-- The first configuration in which a process runs, if start-up succeeds. -/
def depart (mat : Materiel) (m : Nat → UInt8) : Except Faute Config :=
  match kernelStart (etatZero mat m) with
  | .ok (mode, s) => .ok ⟨s, mode⟩
  | .error f => .error f

/-! ## Runs -/

/-- A finite sequence of steps: `none` when a signal cannot occur or its step
stops at a fault. -/
def execute (c : Config) : List Signal → Option Config
  | [] => some c
  | e :: l => if possible c e then (pas c e).toOption.bind fun c' => execute c' l else none

/-- The configurations reached from start-up by steps that all satisfy `C`. -/
inductive Atteint (C : Config → Signal → Prop) : Config → Prop
  | depart {mat : Materiel} {m : Nat → UInt8} {c : Config} (h : depart mat m = .ok c) : Atteint C c
  | pas {c c' : Config} {e : Signal} (hc : Atteint C c) (hp : possible c e) (hC : C c e)
      (h : pas c e = .ok c') : Atteint C c'

/-- The reachable configurations. -/
abbrev Accessible : Config → Prop := Atteint fun _ _ => True

end GenesisOS
