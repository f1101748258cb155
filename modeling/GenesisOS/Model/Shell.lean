import GenesisOS.Model.Memory

/-!
# GenesisOS — command lines of the shell

`parse_command` of `user/start.c`, with the functions of `shared/string.c` it
calls. This is code of a user process: it runs on the memory of that process and
stops at a page fault outside of it. The array `argv` of the caller is apart, and
`ecrits` (auxiliary) lists the indices at which it has been written.
-/

namespace GenesisOS

open Lib

def CMD_SIZE : Nat := 25

/-- `' '`. -/
def ESPACE : UInt8 := 32

/-- How user code stops. -/
inductive Arret where
  | page (adr : Nat)
  | boucle
  deriving DecidableEq, Repr

/-- What `parse_command` reads and writes; `holder` is the static variable of
`strtok`. A null pointer is 0. -/
structure Shell where
  memoire : Nat → UInt8
  holder : Nat
  argc : Nat
  argv : Nat → Nat
  ecrits : List Nat

/-- Code of the shell. -/
abbrev U (α : Type) := Program Shell Arret α

/-- `*adr`. -/
def lireCar (adr : Nat) : U UInt8 := do
  let s ← get
  if plageUser adr 1 then pure (s.memoire adr) else throw (.page adr)

/-- `*adr = c`. -/
def ecrireCar (adr : Nat) (c : UInt8) : U Unit := do
  if plageUser adr 1 then modify fun s => { s with memoire := Function.update s.memoire adr c }
  else throw (.page adr)

/-! ## `string.c` -/

/-- `matchmap` in `__strxspn`. -/
def matchmap (map : List UInt8) (parity : Bool) (c : UInt8) : Bool :=
  if c = 0 then parity else map.contains c

/-- `__strxspn(s, map, parity)`, in at most so many turns. -/
def strxspn (map : List UInt8) (parity : Bool) : Nat → Nat → U Nat
  | 0, _ => throw .boucle
  | tours + 1, s => do
    let c ← lireCar s
    if matchmap map parity c ≠ parity then do
      let n ← strxspn map parity tours (s + 1)
      pure (n + 1)
    else pure 0

/-- `strpbrk(s, accept)`. The loop leaves user memory before it makes more turns. -/
def strpbrk (s : Nat) (accept : List UInt8) : U Nat := do
  let n ← strxspn accept true (USER_END - s + 1) s
  let ss := s + n
  let c ← lireCar ss
  pure (if c ≠ 0 then ss else 0)

/-- `strsep(&stringp, delim)`: the token, and the new value of `stringp`. -/
def strsep (stringp : Nat) (delim : List UInt8) : U (Nat × Nat) := do
  if stringp = 0 then pure (0, stringp)
  else do
    let e ← strpbrk stringp delim
    if e ≠ 0 then do
      ecrireCar e 0
      pure (stringp, e + 1)
    else pure (stringp, e)

/-- `strtok(s, delim)`. -/
def strtok (s : Nat) (delim : List UInt8) : U Nat := do
  if s ≠ 0 then modify fun t => { t with holder := s }
  let t ← get
  let (token, stringp) ← strsep t.holder delim
  modify fun t => { t with holder := stringp }
  pure token

/-! ## `start.c` -/

/-- `argv[i] = p`. -/
def poserArgv (i p : Nat) : U Unit :=
  modify fun s => { s with argv := Function.update s.argv i p, ecrits := s.ecrits ++ [i] }

/-- `parse_command(input, &argc, argv)`. -/
def parseCommand (input : Nat) : U Unit := do
  modify fun s => { s with argc := 0 }
  let token ← strtok input [ESPACE]
  boucle (USER_END - input + 2) token
  let s ← get
  poserArgv s.argc 0
where
  /-- The loop: each turn takes at least one byte of user memory. -/
  boucle : Nat → Nat → U Unit
  | 0, _ => throw .boucle
  | tours + 1, token => do
    if token = 0 then pure ()
    else do
      let c ← lireCar token
      if c = 0 then pure ()
      else do
        let s ← get
        poserArgv s.argc token
        modify fun s => { s with argc := s.argc + 1 }
        let token ← strtok 0 [ESPACE]
        boucle tours token

end GenesisOS
