import GenesisOS.Model.Memory

/-!
# GenesisOS — the text console

`kernel/console.c` without `cons_read` (see `Model/Keyboard.lean`). The
functions work on the display variables alone; `none` means that
`screen_buffer` was accessed past its end. The cursor registers and the
speaker are output ports no kernel code reads back, and are left out.
-/

namespace GenesisOS

namespace Console

/-- `car_value`. -/
def carValue (ct cf cl : Int) (c : Int) : Nat :=
  let attrValue := ((cl * 128 + cf * 16 + ct) % 256).toNat
  attrValue * 256 + (c % 256).toNat

/-- A blank cell: `car_value(NOIR, NOIR, FALSE, ' ')`. -/
def vide : Nat := carValue NOIR NOIR 0 32

/-- `ecrit_car_value`: store a cell through `ptr_mem(lig, col)`. -/
def ecritCarValue (lig col val : Nat) (k : Console) : Console :=
  { k with
    video := Function.update k.video (lig * LARGEUR + col) val
    ecrits := k.ecrits ++ [(lig, col)] }

/-- `ecrit_car`. -/
def ecritCar (lig col : Nat) (ct cf cl c : Int) (k : Console) : Console :=
  k.ecritCarValue lig col (carValue ct cf cl c)

/-- `screen_buffer[lig][col] = val`. -/
def poserBuffer (lig col val : Nat) (k : Console) : Option Console :=
  if lig * LARGEUR + col < HAUTEUR * 100 * LARGEUR then
    some { k with
      screenBuffer := Function.update k.screenBuffer (lig * LARGEUR + col) val
      accesBuffer := k.accesBuffer ++ [(lig, col)] }
  else none

/-- Read `screen_buffer[lig][col]`. -/
def lireBuffer (lig col : Nat) (k : Console) : Option (Nat × Console) :=
  if lig * LARGEUR + col < HAUTEUR * 100 * LARGEUR then
    some (k.screenBuffer (lig * LARGEUR + col),
      { k with accesBuffer := k.accesBuffer ++ [(lig, col)] })
  else none

/-- `set_id_start`. -/
def setIdStart (i : Int) (k : Console) : Console :=
  if i < 0 ∨ i > LARGEUR then k else { k with idColStart := i }

/-- `set_color`. -/
def setColor (c : Int) (k : Console) : Console := { k with baseColor := c }

/-- `cons_echo`. -/
def consEcho (on : Int) (k : Console) : Console := { k with echo := on ≠ 0 }

/-- `cons_switch_echo`. -/
def consSwitchEcho (k : Console) : Console := { k with echo := !k.echo }

/-- `efface_ecran`. -/
def effaceEcran (k : Console) : Console :=
  let k := (List.range HAUTEUR).foldl
    (fun k i => (List.range LARGEUR).foldl (fun k j => k.ecritCar i j NOIR NOIR 0 32) k) k
  { k with buffDisplayLigne := k.buffLigne }

/-- `place_curseur`: the arguments are `uint32_t`, the variables `uint16_t`. -/
def placeCurseur (lig col : Int) (k : Console) : Console :=
  { k with ligne := (lig % 65536).toNat, colonne := (col % 65536).toNat }

/-- `efface_ligne`. -/
def effaceLigne (k : Console) : Option Console := do
  let k ← (List.range' k.idColStart.toNat (LARGEUR - k.idColStart.toNat)).foldlM
    (fun (k : Console) j => (k.ecritCar k.ligne j NOIR NOIR 0 32).poserBuffer k.buffLigne j vide) k
  pure (k.placeCurseur k.ligne k.idColStart)

/-- `avance_curseur`. -/
def avanceCurseur (k : Console) : Console :=
  if (k.colonne + 1) % LARGEUR = 0 then k else k.placeCurseur k.ligne (k.colonne + 1)

/-- `defilement`. -/
def defilement (k : Console) : Console :=
  let k := { k with
    video := fun a =>
      if a < (HAUTEUR - 1) * LARGEUR then k.video (a + LARGEUR) else k.video a
    ecrits := k.ecrits ++
      (List.range ((HAUTEUR - 1) * LARGEUR)).map fun a => (a / LARGEUR, a % LARGEUR) }
  let k := (List.range LARGEUR).foldl
    (fun k j => k.ecritCar (HAUTEUR - 1) j NOIR NOIR 0 32) k
  k.placeCurseur (HAUTEUR - 1 : Nat) 0

/-- Increment of a `uint16_t`. -/
def incr16 (n : Nat) : Nat := (n + 1) % 65536

/-- The end of `traite_car`: scroll when the cursor is on the last line. -/
def traiteCarFin (k : Console) : Console :=
  if k.ligne = HAUTEUR - 1 then
    let k := k.defilement
    { k with buffDisplayLigne := incr16 k.buffDisplayLigne, ligne := k.ligne - 1 }
  else k

/-- The printable case of `traite_car`, for a character from 32 to 126. -/
def imprime (c : Int) (k : Console) : Option Console := do
  let k ← (k.ecritCar k.ligne k.colonne k.baseColor NOIR 0 c).poserBuffer k.buffLigne k.colonne
    (carValue k.baseColor NOIR 0 c)
  if (k.colonne + 1) % LARGEUR = 0 then
    pure (k.placeCurseur ((k.ligne + 1) % HAUTEUR : Nat) 0)
  else pure (k.placeCurseur k.ligne (k.colonne + 1))

/-- `traite_car(c)`, with `c` read as a signed `char`. The recursive call
prints `'^'`, which is printable. -/
def traiteCar (c : Int) (k : Console) : Option Console := do
  let k ←
    if c = 8 then
      if (k.colonne : Int) > k.idColStart then pure (k.placeCurseur k.ligne (k.colonne - 1))
      else pure (k.placeCurseur k.ligne k.idColStart)
    else if c = 9 then
      let k := if k.colonne % 8 = 0 then { k with colonne := incr16 k.colonne } else k
      let col : Int := k.colonne + (8 - (k.colonne : Int)).tmod 8
      if col < k.colonne then
        pure ({ k with buffLigne := incr16 k.buffLigne }.placeCurseur (k.ligne + 1) col)
      else pure (k.placeCurseur k.ligne col)
    else if c = 10 then
      let k := k.placeCurseur ((k.ligne + 1) % HAUTEUR : Nat) k.idColStart
      pure { k with buffLigne := incr16 k.buffLigne }
    else if c = 12 then pure (k.effaceEcran.placeCurseur 0 0)
    else if c = 13 then pure (k.placeCurseur k.ligne k.idColStart)
    else if c = 27 then pure k
    else if c = 127 then
      if (k.colonne : Int) > k.idColStart then do
        let k ← (k.ecritCar k.ligne (k.colonne - 1) NOIR NOIR 0 32).poserBuffer
          k.buffLigne (k.colonne - 1) vide
        pure (k.placeCurseur k.ligne (k.colonne - 1))
      else pure k
    else if c = 7 then pure k
    else if c < 32 then do
      let k ← k.imprime 94
      let k := k.traiteCarFin
      if 64 + c ≤ 126 ∧ 64 + c ≥ 32 then k.imprime (64 + c) else pure k
    else if c ≤ 126 then k.imprime c
    else pure k
  pure k.traiteCarFin

/-- `display_buff`. -/
def displayBuff (k : Console) : Option Console :=
  (List.range' k.buffDisplayLigne (k.buffLigne + 1 - k.buffDisplayLigne)).foldlM
    (fun (k : Console) i => (List.range LARGEUR).foldlM
      (fun (k : Console) j => do
        let (v, k) ← k.lireBuffer i j
        pure (k.ecritCarValue (i - k.buffDisplayLigne) j v)) k) k

/-- `defillement_haut`. -/
def defillementHaut (k : Console) : Option Console :=
  if k.buffDisplayLigne > 0 then
    { k with buffDisplayLigne := k.buffDisplayLigne - 1 }.displayBuff
  else pure k

/-- `defillement_bas`. -/
def defillementBas (k : Console) : Option Console := do
  let k ←
    if k.buffDisplayLigne + HAUTEUR ≤ k.buffLigne + 1 then do
      let k ← { k with buffDisplayLigne := incr16 k.buffDisplayLigne }.displayBuff
      pure (k.placeCurseur (HAUTEUR - 1 : Nat) k.idColStart)
    else pure k
  k.effaceLigne

end Console

/-! ## In the kernel -/

/-- Run a display function. -/
def surConsole (f : Console → Option Console) : M Unit := do
  let s ← get
  match f s.console with
  | some k => set { s with console := k }
  | none => throw (.horsBornes .console)

/-- A byte as a signed `char`. -/
def charVal (c : UInt8) : Int := c.toInt8.toInt

/-- `traite_car`. -/
def traiteCar (c : UInt8) : M Unit := surConsole (·.traiteCar (charVal c))

/-- `printf` of a string without conversions. -/
def printf (l : List UInt8) : M Unit := l.forM traiteCar

/-- The bytes of a literal of the source. -/
def octets (l : String) : List UInt8 := l.toList.map fun c => UInt8.ofNat c.toNat

/-- Decimal text of an integer, as `%i` prints it. -/
def decimal (n : Int) : List UInt8 := octets (toString n)

/-- Two decimal digits at least, as `%02ld` prints them. -/
def decimal2 (n : Nat) : List UInt8 := if n < 10 then octets "0" ++ decimal n else decimal n

/-- `cons_write` and `console_putbytes`: `n` bytes from a user address. -/
def consWrite : Nat → Nat → M Unit
  | 0, _ => pure ()
  | n + 1, adr => do
    let c ← lireOctet adr
    traiteCar c
    consWrite n (adr + 1)

/-- `ecrit_temps`: `len` characters in the top right corner. -/
def ecritTemps (texte : List UInt8) (len : Nat) : M Unit :=
  surConsole fun k => pure <| (List.range len).foldl (fun k i =>
    k.ecritCar 0 (LARGEUR - len + i) BLANC NOIR 0 (charVal (texte.getD i 0))) k

end GenesisOS
