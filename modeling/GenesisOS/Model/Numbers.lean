import GenesisOS.Model.Format

/-!
# GenesisOS — numbers read back

`shared/strtol.c`, `shared/strtoul.c`, and `atoi` of `user/utils.c`. A string is the list of
its characters, and a `long` wraps at 32 bits.
-/

namespace GenesisOS

open Doprnt

def isspace (c : UInt8) : Bool := c = 32 ∨ c = 12 ∨ c = 10 ∨ c = 13 ∨ c = 9 ∨ c = 11

/-- The value of the character `c`, when the loop takes it as a digit of the base. -/
def valeurChiffre (base : Int) (c : UInt8) : Option Nat :=
  if 48 ≤ c ∧ c ≤ 57 ∧ (c.toNat : Int) - 48 < base then some (c.toNat - 48)
  else if 97 ≤ c ∧ c ≤ 122 ∧ (c.toNat : Int) - 97 + 10 < base then some (c.toNat - 97 + 10)
  else if 65 ≤ c ∧ c ≤ 90 ∧ (c.toNat : Int) - 65 + 10 < base then some (c.toNat - 65 + 10)
  else none

/-- The loop on the digits. -/
def litChiffres (base : Int) : List UInt8 → BitVec 32 → BitVec 32 × List UInt8
  | [], v => (v, [])
  | c :: p, v =>
    match valeurChiffre base c with
    | some d => litChiffres base p (v * BitVec.ofInt 32 base + BitVec.ofNat 32 d)
    | none => (v, c :: p)

/-- Skip `0x` in base 16, or when the base is left to the string. -/
def sautePrefixe (base : Int) : List UInt8 → Int × List UInt8
  | a :: c :: p =>
    if (base = 16 ∨ base = 0) ∧ a = 48 ∧ (c = 120 ∨ c = 88) then (16, p) else (base, a :: c :: p)
  | p => (base, p)

/-- The base that the string tells when none is given. -/
def baseLue (base : Int) (p : List UInt8) : Int :=
  if base = 0 then if p.head? = some 48 then 8 else 10 else base

/-- `strtoul`: the number, and what `*out_p` points to. -/
def strtoul (p : List UInt8) (base : Int) : BitVec 32 × List UInt8 :=
  let (base, p) := sautePrefixe base ((texteC p).dropWhile isspace)
  litChiffres (baseLue base p) p 0

/-- `strtol`. A `+` is not skipped. -/
def strtol (p : List UInt8) (base : Int) : BitVec 32 × List UInt8 :=
  let p := (texteC p).dropWhile isspace
  let isNeg := p.head? = some 45
  let (base, p) := sautePrefixe base (if isNeg then p.tail else p)
  let (v, p) := litChiffres (baseLue base p) p 0
  (if isNeg then -v else v, p)

/-- The loop of `atoi`, with `sign`. -/
def atoiBoucle (sign : BitVec 32) : List UInt8 → BitVec 32 → BitVec 32
  | [], result => sign * result
  | c :: str, result =>
    if c < 48 ∨ c > 57 then 0
    else atoiBoucle sign str (result * 10 + BitVec.ofNat 32 c.toNat - 48)

/-- `atoi`. -/
def atoi (str : List UInt8) : BitVec 32 :=
  let str := texteC str
  if str.head? = some 45 then atoiBoucle (-1) str.tail 0 else atoiBoucle 1 str 0

end GenesisOS
