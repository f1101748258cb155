import GenesisOS.Lib.Numerals
import GenesisOS.Model.Format

/-!
# GenesisOS — what a format says

A format as a list of elements: characters, and conversions with their fields and the
argument that each one takes. `texte` is how it is written, `args` are the arguments, and
`sens` is what it stands for.
-/

namespace GenesisOS

namespace Doprnt

open Lib

-- ---------------------------------------------------------------------------
-- Fields
-- ---------------------------------------------------------------------------

/-- A flag. -/
inductive Drapeau where
  | diese | moins | plus | blanc
  deriving DecidableEq, Repr

def Drapeau.car : Drapeau → UInt8
  | .diese => 35
  | .moins => 45
  | .plus => 43
  | .blanc => 32

/-- A width or a precision, in the format or among the arguments. -/
inductive Mesure where
  | lue (n : Nat)
  | etoile (w : BitVec 32)
  deriving DecidableEq, Repr

/-- The character of a digit. -/
def chiffre (d : Nat) : UInt8 := digits.getD d 0

/-- A numeral in base `b`. -/
def ecrit (b n : Nat) : List UInt8 := (numeral b n).map chiffre

namespace Mesure

def texte : Mesure → List UInt8
  | lue n => ecrit 10 n
  | etoile _ => [42]

def args : Mesure → List Argument
  | lue _ => []
  | etoile w => [.entier w]

def valeur : Mesure → Int
  | lue n => n
  | etoile w => w.toInt

end Mesure

/-- The fields of a conversion. The precision may be a point alone. -/
structure Directive where
  drapeaux : List Drapeau := []
  zero : Bool := false
  largeur : Option Mesure := none
  precision : Option (Option Mesure) := none
  long : Bool := false
  deriving DecidableEq, Repr

namespace Directive

def texteLargeur (d : Directive) : List UInt8 := (d.largeur.map Mesure.texte).getD []

def textePrecision (d : Directive) : List UInt8 :=
  (d.precision.map fun p => 46 :: (p.map Mesure.texte).getD []).getD []

def texte (d : Directive) : List UInt8 :=
  d.drapeaux.map Drapeau.car ++ (if d.zero then [48] else []) ++ d.texteLargeur ++
    d.textePrecision ++ if d.long then [108] else []

def argsLargeur (d : Directive) : List Argument := (d.largeur.map Mesure.args).getD []

def argsPrecision (d : Directive) : List Argument := (d.precision.join.map Mesure.args).getD []

def args (d : Directive) : List Argument := d.argsLargeur ++ d.argsPrecision

/-- A negative width argument turns the adjustment over. -/
def champs (d : Directive) : Champs where
  length := |(d.largeur.map Mesure.valeur).getD 0|
  prec := (d.precision.join.map Mesure.valeur).getD (-1)
  ladjust := decide (.moins ∈ d.drapeaux) ^^ decide ((d.largeur.map Mesure.valeur).getD 0 < 0)
  padc := if d.zero then 48 else 32
  plusSign := if .plus ∈ d.drapeaux then 43 else if .blanc ∈ d.drapeaux then 32 else 0
  altfmt := decide (.diese ∈ d.drapeaux)

/-- A width in the format starts with another digit than zero; the widths and the precisions
stay a few units inside an `int`. -/
structure Valide (d : Directive) : Prop where
  largeur : ∀ m, d.largeur = some m → m ≠ .lue 0 ∧ |m.valeur| < 2 ^ 31
  precision : ∀ m, d.precision = some (some m) → |m.valeur| + 40 < 2 ^ 31

theorem valide_vide {d : Directive} (hl : d.largeur = none) (hp : d.precision = none) : d.Valide where
  largeur m hm := by
    rw [hl] at hm
    cases hm
  precision m hm := by
    rw [hp] at hm
    cases hm

theorem valide_largeur {d : Directive} {n : Nat} (hl : d.largeur = some (.lue n)) (hn : 0 < n)
    (hn' : n < 2 ^ 31) (hp : d.precision = none) : d.Valide where
  largeur m hm := by
    rw [hl] at hm
    cases hm
    refine ⟨fun h => ?_, ?_⟩
    · cases h
      exact Nat.lt_irrefl 0 hn
    · show |(n : Int)| < 2 ^ 31
      rw [abs_of_nonneg (Int.natCast_nonneg n)]
      omega
  precision m hm := by
    rw [hp] at hm
    cases hm

end Directive

-- ---------------------------------------------------------------------------
-- Numbers and strings
-- ---------------------------------------------------------------------------

/-- The prefix of the alternate format. -/
def prefixe (v : Champs) (base u : Nat) : List UInt8 :=
  if u ≠ 0 ∧ v.altfmt then
    if base = 8 then octets "0" else if base = 16 then octets "0x" else []
  else []

/-- The digits, with as many zeros as the precision asks for. -/
def corps (v : Champs) (base u : Nat) : List UInt8 :=
  List.replicate (v.prec - (ecrit base u).length).toNat 48 ++ ecrit base u

/-- A number in its field, after `signe`. -/
def texteNombre (v : Champs) (signe : List UInt8) (base u : Nat) : List UInt8 :=
  let tete := signe ++ prefixe v base u
  let reste := (v.length - (tete ++ corps v base u).length).toNat
  if v.padc = 48 then tete ++ List.replicate reste 48 ++ corps v base u
  else if v.ladjust then tete ++ corps v base u ++ List.replicate reste 32
  else List.replicate reste 32 ++ tete ++ corps v base u

/-- The sign of a signed conversion. -/
def signeDe (v : Champs) (w : BitVec 32) : List UInt8 :=
  if w.toInt < 0 then [45] else if v.plusSign ≠ 0 then [v.plusSign] else []

/-- How many characters of a string of length `n` are written. -/
def gardes (v : Champs) (n : Nat) : Nat := if v.prec = -1 then n else min n v.prec.toNat

/-- A string in its field. A string that is cut takes one more cell of a field adjusted on
the left. -/
def texteChaine (v : Champs) (s : List UInt8) : List UInt8 :=
  let k := gardes v s.length
  if v.ladjust then
    s.take k ++ List.replicate (v.length - k - if k < s.length then 1 else 0).toNat 32
  else List.replicate (v.length - k).toNat 32 ++ s.take k

-- ---------------------------------------------------------------------------
-- Elements
-- ---------------------------------------------------------------------------

/-- The base of a conversion to a number, and whether it is signed. -/
def baseDe (radix : Nat) (c : UInt8) : Option (Nat × Bool) :=
  if c = 111 ∨ c = 79 then some (8, false)
  else if c = 100 ∨ c = 105 ∨ c = 68 then some (10, true)
  else if c = 117 ∨ c = 85 then some (10, false)
  else if c = 120 ∨ c = 88 then some (16, false)
  else if c = 122 ∨ c = 90 then some (16, true)
  else if c = 114 ∨ c = 82 then some (radix, true)
  else if c = 110 ∨ c = 78 then some (radix, false)
  else none

/-- A character that ends the fields. -/
def Lettre (c : UInt8) : Prop :=
  c ≠ 35 ∧ c ≠ 45 ∧ c ≠ 43 ∧ c ≠ 32 ∧ isdigit c = false ∧ c ≠ 42 ∧ c ≠ 46 ∧ c ≠ 108 ∧ c ≠ 0

instance : DecidablePred Lettre := fun _ => inferInstanceAs (Decidable (_ ∧ _))

/-- An element of a format, with its argument. -/
inductive Element where
  | car (c : UInt8)
  | nombre (d : Directive) (c : UInt8) (w : BitVec 32)
  | pointeur (d : Directive) (w : BitVec 32)
  | chaine (d : Directive) (s : Option (List UInt8))
  | caractere (d : Directive) (w : BitVec 32)
  | autre (d : Directive) (c : UInt8)
  deriving DecidableEq, Repr

namespace Element

def texte : Element → List UInt8
  | car c => [c]
  | nombre d c _ => 37 :: (d.texte ++ [c])
  | pointeur d _ => 37 :: (d.texte ++ [112])
  | chaine d _ => 37 :: (d.texte ++ [115])
  | caractere d _ => 37 :: (d.texte ++ [99])
  | autre d c => 37 :: (d.texte ++ [c])

def args : Element → List Argument
  | car _ => []
  | nombre d _ w => d.args ++ [.entier w]
  | pointeur d w => d.args ++ [.entier w]
  | chaine d s => d.args ++ [.chaine s]
  | caractere d w => d.args ++ [.entier w]
  | autre d _ => d.args

/-- The number that a conversion writes. -/
def sensNombre (v : Champs) (w : BitVec 32) : Option (Nat × Bool) → List UInt8
  | some (base, true) => texteNombre v (signeDe v w) base w.toInt.natAbs
  | some (base, false) => texteNombre v [] base w.toNat
  | none => []

/-- What the element stands for. -/
def sens (radix : Nat) : Element → List UInt8
  | car c => [c]
  | nombre d c w => sensNombre d.champs w (baseDe radix c)
  | pointeur d w => octets "0x" ++ texteNombre { d.champs with padc := 48, length := 8 } [] 16 w.toNat
  | chaine d s => texteChaine d.champs (texteC (s.getD []))
  | caractere _ w => [UInt8.ofNat w.toNat]
  | autre _ c => [c]

/-- The letters that `conversion` knows, other than those of a number. -/
def connues : List UInt8 := [98, 66, 99, 115, 112]

def Valide (radix : Nat) : Element → Prop
  | car c => c ≠ 0 ∧ c ≠ 37
  | nombre d c _ => d.Valide ∧ ∃ b s, baseDe radix c = some (b, s) ∧ 2 ≤ b ∧ b ≤ 16
  | pointeur d _ => d.Valide
  | chaine d s => d.Valide ∧ (texteC (s.getD [])).length + 1 < 2 ^ 31
  | caractere d _ => d.Valide
  | autre d c => d.Valide ∧ Lettre c ∧ c ∉ connues ∧ baseDe radix c = none

end Element

end Doprnt

end GenesisOS
