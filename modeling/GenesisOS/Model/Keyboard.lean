import GenesisOS.Model.Process

/-!
# GenesisOS — keyboard and console input

`kernel/kbd.c`, and `cons_read` with the history of `kernel/console.c`.
-/

namespace GenesisOS

/-- Update the keyboard variables. -/
def surClavier (f : Clavier → Clavier) : M Unit :=
  modify fun s => { s with clavier := f s.clavier }

/-! ## Storing and reading characters -/

/-- `tampon[ptampon] = c; ptampon++;` -/
def poserTampon (c : UInt8) : M Unit := do
  let s ← get
  if s.clavier.ptampon < BUFFER_SIZE then
    surClavier fun k => { k with
      tampon := Function.update k.tampon k.ptampon c
      ptampon := k.ptampon + 1
      frappes := k.frappes ++ [c] }
  else throw (.horsBornes .keyboardData)

/-- The bytes of `tampon` up to the first terminator. -/
def texteTampon (t : Nat → UInt8) : List UInt8 :=
  ((List.range BUFFER_SIZE).map t).takeWhile (· ≠ 0)

/-- `strcpy(tampon, history[i])`, with the `ptampon` and the echo that follow. -/
def rappelle (i : Nat) : M Unit := do
  let s ← get
  match s.clavier.history i with
  | none => throw (.accesNul .keyboardData)
  | some h =>
    if s.blocs h.adr = none then throw (.accesLibere .keyboardData)
    else if h.texte.length < BUFFER_SIZE then
      surClavier fun k => { k with
        tampon := fun j => if j ≤ h.texte.length then h.texte.getD j 0 else k.tampon j
        ptampon := h.texte.length }
    else throw (.horsBornes .keyboardData)

/-- `efface_ligne(); printf("%s", tampon);` -/
def afficheTampon : M Unit := do
  surConsole Console.effaceLigne
  let s ← get
  printf (texteTampon s.clavier.tampon)

/-- The case of an escape sequence `ESC [ c`. -/
def sequence (c : UInt8) : M Unit := do
  let s ← get
  let k := s.clavier
  if c = 65 then
    if k.currentIndexHistory = 0 then pure ()
    else do
      rappelle (k.currentIndexHistory - 1)
      surClavier fun k => { k with currentIndexHistory := k.currentIndexHistory - 1 }
      afficheTampon
  else if c = 66 then
    if k.indexHistory > k.currentIndexHistory then do
      surClavier fun k => { k with currentIndexHistory := k.currentIndexHistory + 1 }
      rappelle k.currentIndexHistory
      afficheTampon
    else do
      surClavier fun k => { k with ptampon := 0 }
      surConsole Console.effaceLigne
  else if c = 67 then surConsole fun k => some k.avanceCurseur
  else if c = 68 then traiteCar 8
  else if c = 53 then surConsole Console.defillementHaut
  else if c = 54 then surConsole Console.defillementBas
  else pure ()

/-- The code of `keyboard_data` that follows its loop. -/
def keyboardDataFin : M Suite := do
  let s ← get
  if s.clavier.ptampon = BUFFER_SIZE then do
    if ← verifieEs then pure (.ordonnanceur .keyboardFin)
    else do
      traiteCar 7
      pure .iret
  else pure .iret

/-- The loop of `keyboard_data` on the characters left, the first `saute` of
which are skipped. -/
def keyboardBoucle : Nat → List UInt8 → M Suite
  | _, [] => keyboardDataFin
  | saute + 1, _ :: reste => keyboardBoucle saute reste
  | 0, c :: reste => do
    let s ← get
    if ¬ (s.clavier.ptampon < BUFFER_SIZE ∨ c = 127) then keyboardDataFin
    else do
      if s.console.echo then traiteCar c
      if c = 27 then
        match reste with
        | c1 :: c2 :: _ =>
          if c1 = 91 then do
            sequence c2
            keyboardBoucle (if c2 = 53 ∨ c2 = 54 then 3 else 2) reste
          else keyboardBoucle 0 reste
        | _ => keyboardBoucle 0 reste
      else if c = 127 then do
        if s.clavier.ptampon > 0 then
          surClavier fun k => { k with ptampon := k.ptampon - 1 }
        else traiteCar 7
        keyboardBoucle 0 reste
      else if c = 9 then do
        poserTampon c
        surClavier fun k => { k with read := true }
        if ← verifieEs then pure (.ordonnanceur (.keyboardData reste))
        else keyboardBoucle 0 reste
      else if c = 13 then do
        surClavier fun k => { k with read := true }
        if ← verifieEs then pure (.ordonnanceur (.keyboardData reste))
        else keyboardBoucle 0 reste
      else if c = 10 ∨ (c ≥ 32 ∧ c ≤ 126) then do
        poserTampon c
        if ← verifieEs then pure (.ordonnanceur (.keyboardData reste))
        else keyboardBoucle 0 reste
      else keyboardBoucle 0 reste

/-- `keyboard_data(str)`; a string ends at its first null byte. -/
def keyboardData (str : List UInt8) : M Suite := keyboardBoucle 0 (str.takeWhile (· ≠ 0))

/-- The end of `keyboard_data` after its last `verifie_es`. -/
def keyboardFinReprise : M Suite := do
  traiteCar 7
  pure .iret

/-! ## `cons_read` -/

/-- Evict the oldest entry of a full history. -/
def evince : M Unit := do
  let s ← get
  let k := s.clavier
  if k.indexHistory = HISTORY_SIZE then
    match k.history 0 with
    | none => throw (.accesNul .consRead)
    | some h => do
      memFree .consRead h.adr (h.texte.length + 1)
      surClavier fun k => { k with
        history := fun j => if j < HISTORY_SIZE - 1 then k.history (j + 1) else k.history j
        indexHistory := k.indexHistory - 1 }
  else pure ()

/-- Record the string just read in the history. -/
def memorise (string : Nat) : M Unit := do
  evince
  let texte ← lireChaine string
  let adr ← memAllocNonNul .consRead (texte.length + 1)
  surClavier fun k => { k with
    history := Function.update k.history k.indexHistory (some ⟨adr, texte⟩)
    indexHistory := k.indexHistory + 1
    currentIndexHistory := k.indexHistory + 1 }

/-- `string[i] = tampon[i]` for the first `n` characters. -/
def copieTampon (string n : Nat) : M Unit :=
  (List.range n).forM fun i => do
    let s ← get
    ecrireOctet (string + i) (s.clavier.tampon i)

/-- `cons_read(string, length)`: `length` is unsigned and compared as a signed
`int`. -/
def consRead (string length : Nat) : M Suite := do
  let s ← get
  let taille := (BitVec.ofNat 32 length).toInt
  if length = 0 then pure (.retour 0)
  else if s.clavier.read = false ∧ (s.clavier.ptampon : Int) < taille then do
    ecrire .consRead s.procElu fun r => { r with etat := .attendEs }
    queueAdd s.procElu .procBloqueEs (·.prio)
    pure (.ordonnanceur (.consRead string length))
  else do
    memsetUser string length
    surClavier fun k => { k with read := false }
    let n := min taille.toNat s.clavier.ptampon
    copieTampon string n
    if length > 1 then memorise string
    surClavier fun k => { k with
      tampon := fun j => if j < k.ptampon - n then k.tampon (j + n) else 0
      ptampon := k.ptampon - n
      lectures := k.lectures ++ [(List.range n).map k.tampon] }
    pure (.retour n)

/-- `afficher_historique`. -/
def afficherHistorique : M Unit := do
  let s ← get
  (List.range s.clavier.indexHistory).forM fun i => do
    let s ← get
    match s.clavier.history i with
    | none => throw (.accesNul .console)
    | some h =>
      if s.blocs h.adr = none then throw (.accesLibere .console)
      else printf (h.texte ++ octets "\n")

end GenesisOS
