import GenesisOS.Lib.LinkedQueues
import GenesisOS.Lib.Program
import Mathlib.Algebra.Group.Nat.Defs

/-!
# GenesisOS — data model of the kernel

The global variables and structures of `kernel/processus.c`, `files.c`,
`semaphore.c`, `horloge.c`, `console.c` and `kbd.c`, as one state.

* **Pointers.** A block obtained from `mem_alloc` is named by its allocation
  number, so a freed address is never met again: `vivant` tells the live
  `Processus` structures, and reading or writing another one is a fault.
* **Queues.** The lists of `queue.h` are a `Lib.LinkedQueues`: the `chainage`
  link of a process says which list holds it, and elements run from
  `head->next` to `head->prev`.
* **Suspended calls.** The kernel is never interrupted, so a process gives up
  the processor only inside `ordonnanceur`. What its kernel stack then holds
  is one return point, a `Reprise`, with the local variables used after it.
* **Journal.** `journal` is auxiliary: it records, in order, what happened to
  processes, messages and semaphores. No code reads it.

`Core` gathers what scheduling, filiation, files and semaphores depend on;
`Kernel` adds user memory, the clock, the console and the keyboard.
-/

namespace GenesisOS

/-! ## Constants -/

def MAX_PROCESS : Int := 50
def PRIO_MAX : Int := 255
def PRIO_IDLE : Int := 0
def KERNEL_STACK_SIZE : Nat := 5120
def USER_STACK_SIZE : Nat := 5120
def EXIT_ROUTINE : Nat := 0x1100000
def USER_START : Nat := 0x1000000
def USER_END : Nat := 0x3000000
def USER_STACK_HEAP : Nat := 0x2800000
def CANARY_VALUE_A : BitVec 32 := 0xDEADBEEF#32
def ULONG_MAX : Nat := 0xFFFFFFFF
def NBQUEUE : Int := 10
def MAXMSG : Int := 10000
def NBSEM : Int := 10
def SHORTINT_MAX : Int := 32767
def SHORTINT_MIN : Int := -32768
def QUARTZ : Nat := 0x1234DD
def CLOCKFREQ : Nat := 100
def SCHEDFREQ : Nat := 50
def LARGEUR : Nat := 80
def HAUTEUR : Nat := 25
def NOIR : Int := 0
def BLANC : Int := 15
def VERT : Int := 2
def BUFFER_SIZE : Nat := 256
def HISTORY_SIZE : Nat := 25

/-- `sizeof` of the kernel structures on i386. -/
def sizeofPidLibre : Nat := 8
def sizeofFils : Nat := 8
def sizeofProcessus : Nat := 108
def sizeofFidLibre : Nat := 12
def sizeofMessage : Nat := 16
def sizeofFile : Nat := 24
def sizeofSidLibre : Nat := 12
def sizeofSemaphore : Nat := 12

/-- Address of a kernel block: its allocation number. -/
abbrev Ptr := Nat

/-! ## The user stack heap -/

/-- A block of the user stack heap: the address `user_stack_alloc` returned and
the length it was asked for. -/
structure PileUser where
  zone : Nat
  length : Nat
  deriving DecidableEq, Repr

namespace PileUser

/-- The words of the block, with the four guard words around the zone. -/
def mots (b : PileUser) : Nat := (b.length + 3) / 4 + 4

/-- The address of the first guard word. -/
def debut (b : PileUser) : Nat := b.zone - 8

def fin (b : PileUser) : Nat := b.debut + 4 * b.mots

/-- The block lies in the user stack heap. -/
def Loge (b : PileUser) : Prop :=
  0 < b.length ∧ USER_STACK_HEAP + 8 ≤ b.zone ∧ b.fin ≤ USER_END

def Separe (b c : PileUser) : Prop := b.fin ≤ c.debut ∨ c.fin ≤ b.debut

instance (b : PileUser) : Decidable b.Loge := inferInstanceAs (Decidable (_ ∧ _))

instance (b c : PileUser) : Decidable (b.Separe c) := inferInstanceAs (Decidable (_ ∨ _))

end PileUser

/-- The blocks `user_stack_alloc` has returned and `user_stack_free` has not
taken back: they lie in the heap and do not overlap. -/
@[ext] structure TasUser where
  blocs : List PileUser
  loges : ∀ b ∈ blocs, b.Loge
  separes : blocs.Pairwise PileUser.Separe

namespace TasUser

def vide : TasUser := ⟨[], by simp, .nil⟩

/-- The block can be returned by `user_stack_alloc`. -/
def Libre (t : TasUser) (b : PileUser) : Prop := b.Loge ∧ ∀ c ∈ t.blocs, b.Separe c

instance (t : TasUser) (b : PileUser) : Decidable (t.Libre b) :=
  inferInstanceAs (Decidable (_ ∧ _))

/-- With the block `b`, when it is free. -/
def ajoute (t : TasUser) (b : PileUser) : TasUser :=
  if h : t.Libre b then
    ⟨b :: t.blocs, List.forall_mem_cons.mpr ⟨h.1, t.loges⟩, .cons h.2 t.separes⟩
  else t

/-- Without the block `b`. -/
def retire (t : TasUser) (b : PileUser) : TasUser where
  blocs := t.blocs.filter (· ≠ b)
  loges c hc := t.loges c (List.mem_of_mem_filter hc)
  separes := t.separes.filter _

end TasUser

/-! ## Faults -/

/-- The source functions a fault can occur in. -/
inductive Lieu where
  | queueAdd | queueDel | newPid | addPid | addFils | initOrdonnanceur | start | chprio
  | freeChilds | freeMourantQueue | checkCanary | ordonnanceur | waitClock | verifieReveille
  | verifieEs | exit | kill | waitpid | affiche | addFid | addMsg | retireMsg | retireProc
  | addProc | pcreate | psend | preceive | addSid | signal | sreset | wait | console | keyboardData
  | consRead | noyau
  deriving DecidableEq, Repr

/-- The ways a run of the kernel ends. -/
inductive Faute where
  /-- A failed `assert`. -/
  | assertion (l : Lieu)
  /-- A null pointer is dereferenced. -/
  | accesNul (l : Lieu)
  /-- A freed structure is accessed. -/
  | accesLibere (l : Lieu)
  /-- A system call accesses an address that is not user memory through one of
  its pointer arguments: page 0 and everything from `USER_END` on are unmapped. -/
  | page (adr : Nat)
  /-- A static array is accessed out of its bounds. -/
  | horsBornes (l : Lieu)
  /-- `mem_free` or `user_stack_free` of a block that is not allocated with that
  length, or whose guard words are not those the allocator has put there. -/
  | memBug (l : Lieu)
  /-- `OSPanic`. -/
  | panique
  /-- `exit_kernel`. -/
  | arret
  /-- The `while(1)` that ends `exit`, or a loop that outlives its bound. -/
  | boucle (l : Lieu)
  deriving DecidableEq, Repr

/-! ## Processes -/

/-- `enum Etat`. -/
inductive Etat where
  | elu | activable | endormi | mourant | zombie | attendFils | attendFile | attendSemaphore
  | attendEs
  deriving DecidableEq, Repr

/-- The list heads: the four of `processus.c` and the `queueAttente` of each
message file and of each semaphore. -/
inductive Tete where
  | procActivables | procEndormis | procMourants | procBloqueEs
  | file (fid : Int)
  | semaphore (sid : Int)
  deriving DecidableEq, Repr

/-- The point at which a process continues when `ctx_sw` gives it the
processor back, with the local variables the code still reads. -/
inductive Reprise where
  /-- A new process: `iret_func` enters its user code. -/
  | debut
  /-- Nothing left to do but return `v` from the system call. -/
  | retour (v : Int)
  /-- Nothing left to do but return from the interrupt. -/
  | iret
  /-- `while(1)` at the end of `exit`. -/
  | exitFin
  /-- In `psend`, after blocking on a full file. -/
  | psend
  /-- In `preceive`, after blocking on an empty file. -/
  | preceive (message : Nat)
  /-- In `wait`, after blocking. -/
  | wait
  /-- In the loop of `waitpid(pid, retvalp)` for `pid >= 0`, waiting for `proc`. -/
  | waitpid (pid : Int) (proc : Ptr) (retvalp : Nat)
  /-- In the loop of `waitpid(pid, retvalp)` for `pid < 0`. -/
  | waitpidFils (pid : Int) (retvalp : Nat)
  /-- In the loop of `cons_read(string, length)`. -/
  | consRead (string length : Nat)
  /-- In `tic_PIT`, after the `ordonnanceur` of `verifie_reveille`. -/
  | ticPIT
  /-- In `keyboard_data`, after a `verifie_es`, with the characters left. -/
  | keyboardData (reste : List UInt8)
  /-- In `keyboard_data`, after the last `verifie_es`. -/
  | keyboardFin
  deriving DecidableEq, Repr

/-- How a piece of kernel code ends: it returns to user mode, from a system
call with its value or from an interrupt, or it calls `ordonnanceur`. -/
inductive Suite where
  | retour (v : Int)
  | iret
  | ordonnanceur (k : Reprise)
  deriving DecidableEq, Repr

/-- `struct Fils`, with the address of the cell. -/
structure Fils where
  adr : Ptr
  procFils : Ptr
  deriving DecidableEq, Repr

/-- `PidLibre`, with the address of the cell. -/
structure PidLibre where
  adr : Ptr
  pid : Int
  deriving DecidableEq, Repr

/-- `Processus`, without its `chainage` link (see `Core.chainage`). The saved
registers and the kernel stack are the return point `contexte`. -/
structure Processus where
  pid : Int := 0
  nom : List UInt8 := []
  etat : Etat := .elu
  prio : Int := 0
  secReveille : Nat := 0
  contexte : Reprise := .debut
  pileUser : Nat := 0
  pileKernel : Ptr := 0
  pileSizeUser : Nat := 0
  pileSizeKernel : Nat := 0
  filsTete : List Fils := []
  retval : Int := 0
  pere : Option Ptr := none
  fid : Int := 0
  fileValue : Int := 0
  operationStatus : Int := 0
  place : Int := 0

/-! ## Message files and semaphores -/

structure FidLibre where
  adr : Ptr
  fid : Int
  deriving DecidableEq, Repr

/-- `Message`; its `place` stays 0, as the allocator left it. -/
structure Message where
  adr : Ptr
  message : Int
  deriving DecidableEq, Repr

/-- `File`; `queueMsg` runs from `head->next` to `head->prev`. -/
structure File where
  adr : Ptr
  fid : Int
  maxMsg : Int
  queueMsg : List Message
  deriving DecidableEq, Repr

structure SidLibre where
  adr : Ptr
  sid : Int
  deriving DecidableEq, Repr

/-- The conversion of an `int` to a `short int`. -/
def versShort (x : Int) : Int := x.bmod 65536

theorem versShort_bounds (x : Int) : SHORTINT_MIN ≤ versShort x ∧ versShort x ≤ SHORTINT_MAX := by
  unfold versShort SHORTINT_MIN SHORTINT_MAX
  have hle := Int.le_bmod (x := x) (m := 65536) (by decide)
  have hlt := Int.bmod_lt (x := x) (m := 65536) (by decide)
  omega

theorem versShort_of_bounds {x : Int} (hlo : SHORTINT_MIN ≤ x) (hhi : x ≤ SHORTINT_MAX) :
    versShort x = x := by
  unfold versShort SHORTINT_MIN SHORTINT_MAX at *
  exact Int.bmod_eq_of_le (by omega) (by omega)

/-- `Semaphore`. The counter is a `short int`. -/
structure Semaphore where
  adr : Ptr
  sid : Int
  count : Int
  count_short : SHORTINT_MIN ≤ count ∧ count ≤ SHORTINT_MAX

/-- Assign the counter, with the conversion to `short int`. -/
def Semaphore.setCount (sem : Semaphore) (x : Int) : Semaphore :=
  { sem with count := versShort x, count_short := versShort_bounds x }

/-! ## Journal -/

/-- What the journal records. Processes, files and semaphores are named by
the address of their structure. -/
inductive Evenement where
  /-- `start` created `fils` with identifier `pid`. -/
  | cree (pere : Option Ptr) (fils : Ptr) (pid : Int)
  /-- The process executed `exit(v)`. -/
  | exit (p : Ptr) (v : Int)
  /-- The process was terminated by `kill`. -/
  | tue (p : Ptr)
  /-- The structure of the process was freed. -/
  | libere (p : Ptr)
  /-- The process called `waitpid(pid, retvalp)`. -/
  | attente (p : Ptr) (pid : Int) (retvalp : Nat)
  /-- A `waitpid` of `p` took the termination value of `fils`. -/
  | recolte (p fils : Ptr)
  /-- `p` called `psend` with message `v` on the existing file `f`. -/
  | emission (f p : Ptr) (v : Int)
  /-- `p` called `preceive` on the existing file `f`. -/
  | reception (f p : Ptr) (message : Nat)
  /-- The file accepted the message `v` of the sender `p`. -/
  | accepte (f p : Ptr) (v : Int)
  /-- The file delivered the message `v` to the receiver `p`. -/
  | livre (f p : Ptr) (v : Int)
  /-- A call of `p` suspended on the file failed. -/
  | echec (f p : Ptr)
  /-- `preset` or `pdelete` emptied the file. -/
  | vide (f : Ptr)
  /-- `screate` made the semaphore with counter `c`. -/
  | semCree (s : Ptr) (c : Int)
  /-- A `wait` or `try_wait` of `p` decremented the counter. -/
  | semPrise (s p : Ptr)
  /-- A `signal` of `p` incremented the counter. -/
  | semUnite (s p : Ptr)
  /-- `p` was granted the semaphore. -/
  | semAccorde (s p : Ptr)
  /-- `p` was released with status `v` by `sdelete` or `sreset`. -/
  | semRejet (s p : Ptr) (v : Int)
  /-- The word `w` was stored at `adr` on behalf of `p`. -/
  | ecriture (p : Ptr) (adr : Nat) (w : BitVec 32)
  /-- The system call of `p` returned `v`. -/
  | retour (p : Ptr) (v : Int)
  deriving DecidableEq, Repr

/-! ## The machine around the kernel -/

/-- What the kernel cannot decide: the outcome of each allocation, the
addresses `user_stack_alloc` returns, and where the kernel linker and heap put
the link cells. Kernel data lies between 1M and 16M (`kernel.lds`). -/
structure Materiel where
  /-- Whether the `n`-th `mem_alloc` succeeds. -/
  memAlloc : Nat → Bool
  /-- The address the `n`-th `user_stack_alloc` returns, if it succeeds. -/
  userStackAlloc : Nat → Option Nat
  /-- Address of the `chainage` field of a process. -/
  adrChainage : Ptr → Int
  /-- Address of the head `proc_activables`. -/
  adrProcActivables : Int
  chainage_noyau : ∀ p, 0x100000 ≤ adrChainage p ∧ adrChainage p < 0x1000000
  activables_noyau : 0x100000 ≤ adrProcActivables ∧ adrProcActivables < 0x1000000

/-! ## State -/

/-- The global variables of scheduling, filiation, files and semaphores. -/
@[ext] structure Core where
  tas : Ptr → Processus
  vivant : Ptr → Bool
  chainage : Lib.LinkedQueues Tete Ptr
  tableDesProcs : Int → Option Ptr
  pidLibreTete : List PidLibre
  procIdle : Ptr
  procElu : Ptr
  tableauFile : Int → Option File
  fidListe : List FidLibre
  tableauSem : Int → Option Semaphore
  sidListe : List SidLibre
  prochain : Ptr
  journal : List Evenement

/-- A saved command of `history`: the block `mem_alloc` returned, the length
it was asked for, and its bytes up to the terminator. -/
structure Ligne where
  adr : Ptr
  texte : List UInt8
  deriving DecidableEq, Repr

/-- The variables of `console.c` that the display functions use. `video` is
the text memory at `DEBUT_MEM` by cell number, and `ecrits` and `accesBuffer`
(auxiliary) list the rows and columns through which it and `screen_buffer`
have been accessed. -/
structure Console where
  ligne : Nat := 0
  colonne : Nat := 0
  echo : Bool := true
  baseColor : Int := BLANC
  idColStart : Int := 0
  screenBuffer : Nat → Nat := fun _ => 0
  buffLigne : Nat := 0
  buffDisplayLigne : Nat := 0
  video : Nat → Nat := fun _ => 0
  ecrits : List (Nat × Nat) := []
  accesBuffer : List (Nat × Nat) := []

/-- The keyboard buffer and the history. `frappes` and `lectures` (auxiliary)
list the characters stored by `keyboard_data` and the results of the completed
`cons_read`. -/
structure Clavier where
  tampon : Nat → UInt8 := fun _ => 0
  ptampon : Nat := 0
  read : Bool := false
  history : Nat → Option Ligne := fun _ => none
  indexHistory : Nat := 0
  currentIndexHistory : Nat := 0
  frappes : List UInt8 := []
  lectures : List (List UInt8) := []

/-- The whole state of the machine. -/
structure Kernel extends Core where
  materiel : Materiel
  /-- Allocated kernel blocks, with the length they were asked for. -/
  blocs : Ptr → Option Nat
  /-- Allocated user stacks. -/
  tasUser : TasUser
  /-- Number of `user_stack_alloc` calls so far. -/
  prochainUser : Nat
  /-- The bytes of memory a user program can address. -/
  memoire : Nat → UInt8
  ticks : Nat
  cptTicks : Nat
  secondes : Nat
  minutes : Nat
  heures : Nat
  console : Console
  clavier : Clavier

/-- Kernel code: it reads and writes the state and may stop at a fault. -/
abbrev M (α : Type) := Lib.Program Kernel Faute α

end GenesisOS
