import GenesisOS.Model.Console

/-!
# GenesisOS — formatted output

`shared/doprnt.c`, and its callers `sprintf.c` and `printf.c`. The format is what is left to
read of it, the argument list is the arguments not read yet, and the result is the sequence
of characters given to `putc`. An `int` wraps at 32 bits; `_doprnt_truncates` is never set.
-/

namespace GenesisOS

namespace Doprnt

/-- What `va_arg` reads. -/
inductive Argument where
  | entier (w : BitVec 32)
  | chaine (s : Option (List UInt8))
  deriving DecidableEq, Repr

/-- Why `_doprnt` does not end: an argument that is missing or of the other kind, a division
by zero, an access out of `buf`, out of `digits`, or past the end of a string, and a shift by
a count that is not one of the 32 bits. -/
inductive Arret where
  | argument | division | buf | digits | chaine | decalage
  deriving DecidableEq, Repr

/-- An `int`. -/
def int32 (x : Int) : Int := x.bmod (2 ^ 32)

/-- The characters of a string: those before the first null one. -/
def texteC (s : List UInt8) : List UInt8 := s.takeWhile (· ≠ 0)

/-- `va_arg(args, int)`, and the other types of a word. -/
def vaArg : List Argument → Except Arret (BitVec 32 × List Argument)
  | .entier w :: args => .ok (w, args)
  | _ => .error .argument

/-- `va_arg(args, char *)`. -/
def vaChaine : List Argument → Except Arret (Option (List UInt8) × List Argument)
  | .chaine s :: args => .ok (s.map texteC, args)
  | _ => .error .argument

/-! ## The fields of a conversion -/

/-- The variables set before the conversion character. -/
structure Champs where
  length : Int := 0
  prec : Int := -1
  ladjust : Bool := false
  padc : UInt8 := 32
  plusSign : UInt8 := 0
  altfmt : Bool := false
  deriving DecidableEq, Repr

def isdigit (c : UInt8) : Bool := 48 ≤ c && c ≤ 57

/-- `Ctod`. -/
def ctod (c : UInt8) : Int := c.toNat - 48

/-- The loop on the flags. -/
def drapeaux : List UInt8 → Champs → List UInt8 × Champs
  | [], v => ([], v)
  | c :: fmt, v =>
    if c = 35 then drapeaux fmt { v with altfmt := true }
    else if c = 45 then drapeaux fmt { v with ladjust := true }
    else if c = 43 then drapeaux fmt { v with plusSign := 43 }
    else if c = 32 then drapeaux fmt { v with plusSign := if v.plusSign = 0 then 32 else v.plusSign }
    else (c :: fmt, v)

/-- `if (*fmt == '0')`. -/
def zero : List UInt8 → Champs → List UInt8 × Champs
  | [], v => ([], v)
  | c :: fmt, v => if c = 48 then (fmt, { v with padc := 48 }) else (c :: fmt, v)

/-- `while (isdigit(*fmt))`. -/
def chiffresFmt : List UInt8 → Int → List UInt8 × Int
  | [], n => ([], n)
  | c :: fmt, n => if isdigit c then chiffresFmt fmt (int32 (10 * n + ctod c)) else (c :: fmt, n)

/-- The width. -/
def largeur : List UInt8 → List Argument → Champs → Except Arret (List UInt8 × List Argument × Champs)
  | [], args, v => .ok ([], args, v)
  | c :: fmt, args, v =>
    if isdigit c then
      let (fmt, n) := chiffresFmt (c :: fmt) v.length
      .ok (fmt, args, { v with length := n })
    else if c = 42 then do
      let (w, args) ← vaArg args
      if w.toInt < 0 then
        .ok (fmt, args, { v with ladjust := !v.ladjust, length := int32 (-w.toInt) })
      else .ok (fmt, args, { v with length := w.toInt })
    else .ok (c :: fmt, args, v)

/-- The precision, after the point. -/
def precision : List UInt8 → List Argument → Champs → Except Arret (List UInt8 × List Argument × Champs)
  | [], args, v => .ok ([], args, v)
  | c :: fmt, args, v =>
    if isdigit c then
      let (fmt, n) := chiffresFmt (c :: fmt) 0
      .ok (fmt, args, { v with prec := n })
    else if c = 42 then do
      let (w, args) ← vaArg args
      .ok (fmt, args, { v with prec := w.toInt })
    else .ok (c :: fmt, args, v)

/-- `if (*fmt == '.')`. -/
def point : List UInt8 → List Argument → Champs → Except Arret (List UInt8 × List Argument × Champs)
  | [], args, v => .ok ([], args, v)
  | c :: fmt, args, v => if c = 46 then precision fmt args v else .ok (c :: fmt, args, v)

/-- `if (*fmt == 'l')`. -/
def modele : List UInt8 → List UInt8
  | [] => []
  | c :: fmt => if c = 108 then fmt else c :: fmt

/-- From the character after `%` to the conversion character. -/
def champs (fmt : List UInt8) (args : List Argument) :
    Except Arret (List UInt8 × List Argument × Champs) := do
  let (fmt, v) := drapeaux fmt {}
  let (fmt, v) := zero fmt v
  let (fmt, args, v) ← largeur fmt args v
  let (fmt, args, v) ← point fmt args v
  .ok (modele fmt, args, v)

/-! ## Numbers -/

/-- The array `digits`, with its null character. -/
def digits : List UInt8 := octets "0123456789abcdef" ++ [0]

/-- The loop on the digits, with `n` cells of `buf` left: the characters from `p` on. The base
is converted to `unsigned long`. -/
def ecritChiffres (base : Nat) : Nat → Nat → List UInt8 → Except Arret (List UInt8)
  | 0, _, _ => .error .buf
  | n + 1, u, buf =>
    if base = 0 then .error .division
    else match digits[u % base]? with
      | none => .error .digits
      | some c => if u / base = 0 then .ok (c :: buf) else ecritChiffres base n (u / base) (c :: buf)

/-- `sizeof(long int) * 8`. -/
def MAXBUF : Nat := 32

/-- An `int` converted to `unsigned long`. -/
def versNat (n : Int) : Nat := (n % ((2 ^ 32 : Nat) : Int)).toNat

/-- `printnum`. -/
def printnum (u : BitVec 32) (base : Int) : Except Arret (List UInt8) :=
  ecritChiffres (versNat base) MAXBUF u.toNat []

/-- `while (--length >= 0) putc(c);`, with the value of `length` after the loop. -/
def remplit (c : UInt8) (length : Int) : List UInt8 × Int :=
  let k := (int32 (length - 1) + 1).toNat
  (List.replicate k c, int32 (length - k - 1))

/-- `print_num`; `signChar` is null when there is no sign. -/
def printNum (v : Champs) (signChar : UInt8) (base : Int) (u : BitVec 32) :
    Except Arret (List UInt8) := do
  let prefixe : List UInt8 :=
    if u ≠ 0 ∧ v.altfmt then
      if base = 8 then octets "0" else if base = 16 then octets "0x" else []
    else []
  let p ← ecritChiffres (versNat base) MAXBUF u.toNat []
  let prec := int32 (v.prec - p.length)
  let length := int32 (v.length - p.length)
  let length := if signChar ≠ 0 then int32 (length - 1) else length
  let length := int32 (length - prefixe.length)
  let length := if prec > 0 then int32 (length - prec) else length
  let (blancs, length) :=
    if v.padc = 32 ∧ !v.ladjust then remplit 32 length else ([], length)
  let signe := if signChar ≠ 0 then [signChar] else []
  let (zeros, _) := remplit 48 prec
  let (zerosLargeur, length) := if v.padc = 48 then remplit 48 length else ([], length)
  let (fin, _) := if v.ladjust then remplit 32 length else ([], length)
  .ok (blancs ++ signe ++ prefixe ++ zeros ++ zerosLargeur ++ p ++ fin)

/-- `print_signed`. -/
def printSigned (v : Champs) (base : Int) (args : List Argument) :
    Except Arret (List UInt8 × List Argument) := do
  let (n, args) ← vaArg args
  let l ← if n.toInt ≥ 0 then printNum v v.plusSign base n else printNum v 45 base (-n)
  .ok (l, args)

/-- `print_unsigned`. -/
def printUnsigned (v : Champs) (base : Int) (args : List Argument) :
    Except Arret (List UInt8 × List Argument) := do
  let (u, args) ← vaArg args
  let l ← printNum v 0 base u
  .ok (l, args)

/-! ## Strings -/

/-- The loop that counts the characters, before a string adjusted on the right. -/
def compte (prec : Int) : List UInt8 → Int → Int
  | [], n => n
  | _ :: p, n => if n < prec then compte prec p (n + 1) else n

/-- The loop that writes the characters, with the value of `n` after it. -/
def ecritTexte (prec : Int) : List UInt8 → Int → List UInt8 × Int
  | [], n => ([], n)
  | c :: p, n =>
    if n + 1 > prec then ([], n + 1)
    else
      let (l, m) := ecritTexte prec p (n + 1)
      (c :: l, m)

/-- The conversion `s`. -/
def printTexte (v : Champs) (s : Option (List UInt8)) : List UInt8 :=
  let prec := if v.prec = -1 then 0x7fffffff else v.prec
  let p := s.getD []
  let blancs : List UInt8 :=
    if v.length > 0 ∧ !v.ladjust then List.replicate (v.length - compte prec p 0).toNat 32 else []
  let (l, n) := ecritTexte prec p 0
  let fin : List UInt8 := if n < v.length ∧ v.ladjust then List.replicate (v.length - n).toNat 32 else []
  blancs ++ l ++ fin

/-! ## Registers -/

/-- A character that ends a name: at most a space, as a signed `char`. -/
def finNom (c : UInt8) : Bool := charVal c ≤ 32

/-- `1 << n` and the other shifts, for a count of the type. -/
def decalage (n : Int) : Except Arret Nat :=
  if 0 ≤ n ∧ n < 32 then .ok n.toNat else .error .decalage

/-- The loop of `b` on the bits of a register, with the string from `p` on, its null character
included; `any` tells whether a name is written. `n` bounds the turns. -/
def ecritBits (u : BitVec 32) (base : Int) : Nat → List UInt8 → Bool → Except Arret (List UInt8)
  | n + 1, i :: c :: p, any =>
    if i = 0 then .ok (if any then octets ">" else [])
    else if finNom c then do
      let nom := p.takeWhile fun c => !finNom c
      let bas ← decalage (charVal c - 1)
      let large ← decalage (charVal i - charVal c)
      let champ ← printnum ((u >>> bas) &&& (((2 : BitVec 32) <<< large) - 1)) base
      let l ← ecritBits u base n (p.drop nom.length) true
      .ok ((if any then octets "," else octets "<") ++ nom ++ champ ++ l)
    else do
      let nom := (c :: p).takeWhile fun c => !finNom c
      let bit ← decalage (charVal i - 1)
      if u &&& ((1 : BitVec 32) <<< bit) ≠ 0 then do
        let l ← ecritBits u base n ((c :: p).drop nom.length) true
        .ok ((if any then octets "," else octets "<") ++ nom ++ l)
      else ecritBits u base n ((c :: p).drop nom.length) any
  | _, [i], any => if i = 0 then .ok (if any then octets ">" else []) else .error .chaine
  | _, _, _ => .error .chaine

/-- The conversion `b`. -/
def printBits (args : List Argument) : Except Arret (List UInt8 × List Argument) := do
  let (u, args) ← vaArg args
  let (s, args) ← vaChaine args
  match s.map (· ++ [0]) with
  | some (base :: p) =>
    let l ← printnum u (charVal base)
    if u = 0 then .ok (l, args)
    else do
      let m ← ecritBits u (charVal base) p.length p false
      .ok (l ++ m, args)
  | _ => .error .chaine

/-! ## The loop on the format -/

/-- One conversion, from its character `c`. -/
def conversion (radix : Int) (c : UInt8) (v : Champs) (args : List Argument) :
    Except Arret (List UInt8 × List Argument) :=
  if c = 98 ∨ c = 66 then printBits args
  else if c = 99 then do
    let (w, args) ← vaArg args
    .ok ([UInt8.ofNat w.toNat], args)
  else if c = 115 then do
    let (s, args) ← vaChaine args
    .ok (printTexte v s, args)
  else if c = 111 ∨ c = 79 then printUnsigned v 8 args
  else if c = 100 ∨ c = 105 ∨ c = 68 then printSigned v 10 args
  else if c = 117 ∨ c = 85 then printUnsigned v 10 args
  else if c = 112 then do
    let (l, args) ← printUnsigned { v with padc := 48, length := 8 } 16 args
    .ok (octets "0x" ++ l, args)
  else if c = 120 ∨ c = 88 then printUnsigned v 16 args
  else if c = 122 ∨ c = 90 then printSigned v 16 args
  else if c = 114 ∨ c = 82 then printSigned v radix args
  else if c = 110 ∨ c = 78 then printUnsigned v radix args
  else .ok ([c], args)

/-- The loop on the format; `n` bounds its turns. -/
def boucle (radix : Int) : Nat → List UInt8 → List Argument → Except Arret (List UInt8)
  | _, [], _ => .ok []
  | 0, _ :: _, _ => .ok []
  | n + 1, c :: fmt, args =>
    if c ≠ 37 then do
      let l ← boucle radix n fmt args
      .ok (c :: l)
    else do
      let (fmt, args, v) ← champs fmt args
      match fmt with
      | [] => .ok []
      | c :: fmt => do
        let (l, args) ← conversion radix c v args
        let m ← boucle radix n fmt args
        .ok (l ++ m)

/-- `_doprnt`. -/
def doprnt (radix : Int) (fmt : List UInt8) (args : List Argument) : Except Arret (List UInt8) :=
  boucle radix (texteC fmt).length (texteC fmt) args

end Doprnt

open Doprnt

/-! ## In memory -/

/-- `struct sprintf_state`, with the memory that `buf` points to. -/
structure SprintfState where
  mem : Nat → UInt8
  buf : Nat
  len : Nat := 0
  max : Nat

def SPRINTF_UNLIMITED : Nat := 0xFFFFFFF

/-- `savechar`; `len` is an `unsigned int`. -/
def savechar (state : SprintfState) (c : UInt8) : SprintfState :=
  if state.max ≠ SPRINTF_UNLIMITED ∧ state.len = state.max then state
  else { state with
    len := (state.len + 1) % 2 ^ 32
    mem := Function.update state.mem state.buf c
    buf := state.buf + 1 }

/-- `vsnprintf` to the address `s`: the length, and the memory after it. -/
def vsnprintf (s size : Nat) (fmt : List UInt8) (args : List Argument) (mem : Nat → UInt8) :
    Except Arret (Nat × (Nat → UInt8)) := do
  let l ← doprnt 0 fmt args
  let state := l.foldl savechar { mem := mem, buf := s, max := size }
  .ok (state.len, Function.update state.mem state.buf 0)

/-- `vsprintf`. -/
def vsprintf (s : Nat) (fmt : List UInt8) (args : List Argument) (mem : Nat → UInt8) :
    Except Arret (Nat × (Nat → UInt8)) := vsnprintf s SPRINTF_UNLIMITED fmt args mem

/-! ## On the console -/

def PRINTF_BUFMAX : Nat := 128

/-- `struct printf_state`, with the blocks given to `console_putbytes` so far. -/
structure PrintfState where
  buf : List UInt8 := []
  blocs : List (List UInt8) := []
  deriving DecidableEq

/-- `flush`. -/
def PrintfState.flush (state : PrintfState) : PrintfState :=
  { buf := [], blocs := state.blocs ++ [state.buf] }

/-- `printf_char`. -/
def printfChar (state : PrintfState) (c : UInt8) : PrintfState :=
  if c = 0 ∨ c = 10 ∨ state.buf.length ≥ PRINTF_BUFMAX then
    let state := state.flush
    { state with blocs := state.blocs ++ [[c]] }
  else { state with buf := state.buf ++ [c] }

/-- `vprintf`: the blocks given to `console_putbytes`. -/
def vprintf (fmt : List UInt8) (args : List Argument) : Except Arret (List (List UInt8)) := do
  let l ← doprnt 0 fmt args
  let state := l.foldl printfChar {}
  .ok (if state.buf ≠ [] then state.flush else state).blocs

end GenesisOS
