import GenesisOS.Model.Types
import Mathlib.Tactic.Simps.Basic

/-!
# GenesisOS — memory accesses, allocation and queues

The accesses the kernel code is written with: dereferencing a `Processus`,
the macros of `shared/queue.h`, `mem_alloc` and `mem_free`, and the accesses
to user memory through the pointer arguments of system calls. Each stops at a
fault exactly where the C code fails an assertion or leaves its memory.
-/

namespace GenesisOS

open Lib

/-! ## State updates -/

namespace Core

/-- Update the structure of a process. -/
@[simps] def maj (s : Core) (p : Ptr) (f : Processus → Processus) : Core :=
  { s with tas := Function.update s.tas p (f (s.tas p)) }

/-- The list that holds the process, if any. -/
abbrev lien (s : Core) (p : Ptr) : Option Tete := s.chainage.link p

/-- The elements of a list, from `head->next` to `head->prev`. -/
abbrev elems (s : Core) (t : Tete) : List Ptr := s.chainage.elems t

/-- Link a process by the key `cle`. -/
@[simps] def ajoute (s : Core) (t : Tete) (p : Ptr) (cle : Processus → Int) : Core :=
  { s with chainage := s.chainage.add t p fun x => cle (s.tas x) }

/-- Unlink a process. -/
@[simps] def retire (s : Core) (p : Ptr) : Core :=
  { s with chainage := s.chainage.remove p }

/-- Record an event. -/
@[simps] def note (s : Core) (e : Evenement) : Core :=
  { s with journal := s.journal ++ [e] }

end Core

/-- Apply a function to the scheduling part of the state. -/
def surCore (f : Core → Core) : M Unit :=
  modify fun s => { s with toCore := f s.toCore }

/-- Record an event in the journal. -/
def note (e : Evenement) : M Unit := surCore (·.note e)

/-- `assert`. -/
def assertion (l : Lieu) (c : Bool) : M Unit :=
  if c then pure () else throw (.assertion l)

/-! ## Processes -/

/-- Read the structure `*p`. -/
def lire (l : Lieu) (p : Ptr) : M Processus := do
  let s ← get
  if s.vivant p then pure (s.tas p) else throw (.accesLibere l)

/-- Write fields of `*p`. -/
def ecrire (l : Lieu) (p : Ptr) (f : Processus → Processus) : M Unit := do
  let s ← get
  if s.vivant p then surCore (·.maj p f) else throw (.accesLibere l)

/-! ## `queue.h` -/

/-- `queue_add(p, t, Processus, chainage, cle)`. -/
def queueAdd (p : Ptr) (t : Tete) (cle : Processus → Int) : M Unit := do
  let s ← get
  if s.lien p = none then surCore (·.ajoute t p cle) else throw (.assertion .queueAdd)

/-- `queue_del(p, chainage)`. -/
def queueDel (p : Ptr) : M Unit := do
  let s ← get
  if s.lien p = none then throw (.assertion .queueDel) else surCore (·.retire p)

/-- `queue_out(t, Processus, chainage)`. -/
def queueOut (t : Tete) : M (Option Ptr) := do
  let s ← get
  match s.chainage.top t with
  | none => pure none
  | some p => do
    surCore (·.retire p)
    pure (some p)

/-- `queue_empty(t)`. -/
def queueEmpty (t : Tete) : M Bool := do
  let s ← get
  pure (s.elems t).isEmpty

/-- `INIT_LIST_HEAD(t)`, for a head inside a newly allocated structure. -/
def initListHead (t : Tete) : M Unit :=
  surCore fun s => { s with chainage := s.chainage.reset t }

/-- `while ((p = queue_out(t)) != NULL) corps(p)`. Each turn takes one element
out, so the loop makes as many turns as the list has elements. -/
def tantQueQueueOut (t : Tete) (corps : Ptr → M Unit) : M Unit := do
  let s ← get
  tours (s.elems t).length
where
  tours : Nat → M Unit
  | 0 => pure ()
  | n + 1 => do
    match ← queueOut t with
    | none => pure ()
    | some p => do
      corps p
      tours n

/-! ## Kernel heap -/

/-- `mem_alloc(length)`: a fresh zeroed block, or `NULL`. -/
def memAlloc (length : Nat) : M (Option Ptr) := do
  let s ← get
  let adr := s.prochain
  if s.materiel.memAlloc adr then do
    set { s with prochain := adr + 1, blocs := Function.update s.blocs adr (some length) }
    pure (some adr)
  else do
    set { s with prochain := adr + 1 }
    pure none

/-- An allocation whose result the code uses unchecked. -/
def memAllocNonNul (l : Lieu) (length : Nat) : M Ptr := do
  match ← memAlloc length with
  | some p => pure p
  | none => throw (.accesNul l)

/-- `mem_free(zone, length)`. The allocator stops the kernel (`mem_bug`) when
the block is not allocated with that length. -/
def memFree (l : Lieu) (zone : Ptr) (length : Nat) : M Unit := do
  let s ← get
  if s.blocs zone = some length then
    set { s with blocs := Function.update s.blocs zone none }
  else throw (.memBug l)

/-- `mem_alloc(sizeof(Processus))`. -/
def allocProcessus : M (Option Ptr) := do
  match ← memAlloc sizeofProcessus with
  | none => pure none
  | some p => do
    surCore fun s =>
      { s with tas := Function.update s.tas p {}, vivant := Function.update s.vivant p true }
    pure (some p)

/-- `mem_free(p, sizeof(Processus))`. -/
def libereProcessus (l : Lieu) (p : Ptr) : M Unit := do
  memFree l p sizeofProcessus
  surCore fun s => { s with vivant := Function.update s.vivant p false }

/-! ## User memory -/

/-- The `n` bytes from `adr` are user memory. -/
def plageUser (adr n : Nat) : Bool := USER_START ≤ adr && adr + n ≤ USER_END

/-- The first byte an ascending access of `n` bytes from `adr` cannot reach. -/
def premierePage (adr : Nat) : Nat := if USER_START ≤ adr then max adr USER_END else adr

/-- `memset(adr, 0, n)` through a user pointer. -/
def memsetUser (adr n : Nat) : M Unit := do
  if n = 0 then pure ()
  else if plageUser adr n then
    modify fun s =>
      { s with memoire := fun a => if adr ≤ a ∧ a < adr + n then 0 else s.memoire a }
  else throw (.page (premierePage adr))

/-- Read one byte through a user pointer. -/
def lireOctet (adr : Nat) : M UInt8 := do
  let s ← get
  if plageUser adr 1 then pure (s.memoire adr) else throw (.page (premierePage adr))

/-- Write one byte through a user pointer. -/
def ecrireOctet (adr : Nat) (v : UInt8) : M Unit := do
  if plageUser adr 1 then
    modify fun s => { s with memoire := Function.update s.memoire adr v }
  else throw (.page (premierePage adr))

/-- The four bytes of a 32-bit word, low byte first. -/
def octetMot (w : BitVec 32) (i : Nat) : UInt8 := UInt8.ofBitVec (w.extractLsb' (8 * i) 8)

/-- Memory after storing a 32-bit word. -/
def poserMot (m : Nat → UInt8) (adr : Nat) (w : BitVec 32) : Nat → UInt8 :=
  fun a => if adr ≤ a ∧ a < adr + 4 then octetMot w (a - adr) else m a

/-- The 32-bit word stored at an address. -/
def motA (m : Nat → UInt8) (adr : Nat) : BitVec 32 :=
  (m (adr + 3)).toBitVec ++ (m (adr + 2)).toBitVec ++ (m (adr + 1)).toBitVec ++
    (m adr).toBitVec

/-- `memset(adr, 0, n)`. -/
def memsetZero (m : Nat → UInt8) (adr n : Nat) : Nat → UInt8 :=
  fun a => if adr ≤ a ∧ a < adr + n then 0 else m a

/-- Store a 32-bit word through a user pointer. The journal records it. -/
def ecrireMot (adr : Nat) (w : BitVec 32) : M Unit := do
  if plageUser adr 4 then
    modify fun s => { s with
      memoire := poserMot s.memoire adr w
      toCore := s.toCore.note (.ecriture s.procElu adr w) }
  else throw (.page (premierePage adr))

/-- The bytes of the C string at `adr`, without the terminator; at most `n`
bytes are read. -/
def lireChaineBornee : Nat → Nat → M (List UInt8)
  | 0, _ => pure []
  | n + 1, adr => do
    let c ← lireOctet adr
    if c = 0 then pure [] else do
      let l ← lireChaineBornee n (adr + 1)
      pure (c :: l)

/-- The bytes of the C string at `adr`, as `strlen` and `strcpy` read it. -/
def lireChaine (adr : Nat) : M (List UInt8) := lireChaineBornee (USER_END - adr + 1) adr

end GenesisOS
