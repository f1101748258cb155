import GenesisOS.Model.Types
import GenesisOS.Lib.Rings

/-!
# GenesisOS — the links of `queue.h`

The functions and macros of `shared/queue.h` on the links themselves. The rest of
the model takes the lists as `Lib.LinkedQueues`; `Refinement/Links.lean` relates
the two.

Addresses are natural numbers, 0 being `NULL`. A list is known by the address of
its head, a link; an element by the address of its structure, whose link is
`listfield` bytes further and whose priority is `priofield` bytes further.
-/

namespace GenesisOS

open Lib

/-- Links, and the integer fields of structures: `none` at an address that is not
one of them. -/
structure Memoire (K : Type) extends Links Nat where
  champ : Nat → Option K

namespace Memoire

variable {K : Type}

/-- Code over the links. -/
abbrev Code (K : Type) (α : Type) := Program (Memoire K) Faute α

/-! ## Accesses -/

/-- `ptr->next`. -/
def lireNext (l : Lieu) (ptr : Nat) : Code K Nat := do
  let m ← get
  if ptr = 0 then throw (.accesNul l) else pure (m.next ptr)

/-- `ptr->prev`. -/
def lirePrev (l : Lieu) (ptr : Nat) : Code K Nat := do
  let m ← get
  if ptr = 0 then throw (.accesNul l) else pure (m.prev ptr)

/-- `ptr->next = v`. -/
def poserNext (l : Lieu) (ptr v : Nat) : Code K Unit := do
  let m ← get
  if ptr = 0 then throw (.accesNul l)
  else set { m with next := Function.update m.next ptr v }

/-- `ptr->prev = v`. -/
def poserPrev (l : Lieu) (ptr v : Nat) : Code K Unit := do
  let m ← get
  if ptr = 0 then throw (.accesNul l)
  else set { m with prev := Function.update m.prev ptr v }

/-- Read the integer field at an address. -/
def lireChamp (l : Lieu) (adr : Nat) : Code K K := do
  let m ← get
  match m.champ adr with
  | none => throw (.horsBornes l)
  | some v => pure v

/-! ## `queue.h` -/

/-- `INIT_LIST_HEAD(ptr)`. -/
def initListHead (ptr : Nat) : Code K Unit := do
  poserNext .noyau ptr ptr
  poserPrev .noyau ptr ptr

/-- `queue_entry(ptr_link, type, listfield)`. -/
def queueEntry (ptrLink listfield : Nat) : Nat := ptrLink - listfield

/-- `queue_empty(head)`. -/
def queueEmpty (head : Nat) : Code K Bool := do
  let next ← lireNext .noyau head
  pure (next = head)

/-- The loop of `queue_add`, for at most so many turns. -/
def queueAddBoucle [LinearOrder K] (ptrElem head listfield priofield : Nat) :
    Nat → Nat → Code K Nat
  | 0, _ => throw (.boucle .queueAdd)
  | tours + 1, curLink => do
    let curLink ← lireNext .queueAdd curLink
    if curLink = head then pure curLink
    else do
      let curPrio ← lireChamp .queueAdd (queueEntry curLink listfield + priofield)
      let prio ← lireChamp .queueAdd (ptrElem + priofield)
      if curPrio < prio then queueAddBoucle ptrElem head listfield priofield tours curLink
      else pure curLink

/-- `queue_add(ptr_elem, head, type, listfield, priofield)`. -/
def queueAdd [LinearOrder K] (tours ptrElem head listfield priofield : Nat) : Code K Unit := do
  let elemLink := ptrElem + listfield
  let prev ← lirePrev .queueAdd elemLink
  let next ← lireNext .queueAdd elemLink
  if prev = 0 ∧ next = 0 then do
    let curLink ← queueAddBoucle ptrElem head listfield priofield tours head
    poserNext .queueAdd elemLink curLink
    poserPrev .queueAdd elemLink (← lirePrev .queueAdd curLink)
    poserNext .queueAdd (← lirePrev .queueAdd curLink) elemLink
    poserPrev .queueAdd curLink elemLink
  else throw (.assertion .queueAdd)

/-- `queue_out(head, type, listfield)`: the address of the element, or `NULL`. -/
def queueOut (head listfield : Nat) : Code K Nat := do
  let ptrLinkRet ← lirePrev .noyau head
  if ← queueEmpty head then pure 0
  else do
    poserPrev .noyau head (← lirePrev .noyau (← lirePrev .noyau head))
    poserNext .noyau (← lirePrev .noyau head) head
    poserPrev .noyau ptrLinkRet 0
    poserNext .noyau ptrLinkRet 0
    pure (ptrLinkRet - listfield)

/-- `queue_del(ptr_elem, listfield)`. -/
def queueDel (ptrElem listfield : Nat) : Code K Unit := do
  let elemLink := ptrElem + listfield
  let prev ← lirePrev .queueDel elemLink
  let next ← lireNext .queueDel elemLink
  if prev ≠ 0 ∧ next ≠ 0 then do
    poserNext .queueDel (← lirePrev .queueDel elemLink) (← lireNext .queueDel elemLink)
    poserPrev .queueDel (← lireNext .queueDel elemLink) (← lirePrev .queueDel elemLink)
    poserNext .queueDel elemLink 0
    poserPrev .queueDel elemLink 0
  else throw (.assertion .queueDel)

end Memoire

end GenesisOS
