import GenesisOS.Lib.Program
import GenesisOS.Model.Keymap

/-!
# GenesisOS — the keyboard driver

`kernel/kbd-linux/keyboard.c` and `scancode.c` as `keyboard-glue.c` uses them: from the
scancodes of the keyboard interrupt to the strings given to `keyboard_data`. Consoles,
memory displays and the reboot key have empty functions in `keyboard-glue.c`; the leds
are shown from the flags, since nothing calls `setledstate` or `register_leds`.

`keyboard_data` can give the processor to another process (`verifie_es`, then
`ordonnanceur`), and return once the interrupted process is elected again. What the
handlers of the default modes still have to do then is a `Reliquat`. The other handlers that
send two strings do so in modes that nothing sets, and after a string `handle_scancode`
only sets `slockstate`, which is 0, and shows the leds, which no handler that sends a
string changes.
-/

namespace GenesisOS

open Lib

/-! ## State -/

/-- The modes of `kbdmode`. -/
inductive KbdMode where
  | xlate | mediumraw | raw | unicode
  deriving DecidableEq, Repr

/-- `struct kbd_struct`; the flags of `modeflags` are apart. -/
structure KbdStruct where
  lockstate : BitVec 8 := 0
  slockstate : BitVec 8 := 0
  ledflagstate : BitVec 3 := 0
  kbdmode : KbdMode := .xlate
  vcApplic : Bool := false
  vcCkmode : Bool := false
  vcRepeat : Bool := false
  vcCrlf : Bool := false
  vcMeta : Bool := false
  deriving DecidableEq

/-- What a handler does after a string: `do_meta` sends its character, `do_shift` forgets
the number typed on the pad. -/
inductive Reliquat where
  | car (ch : Nat)
  | npadch
  deriving DecidableEq, Repr

/-- The variables of the driver. `envois` and `leds` (auxiliary) list the strings given
to `keyboard_data` and the values given to `kbd_leds`; `rend` says whether the
`keyboard_data` called by the current interrupt return at once, and `enSuspens` lists what
the handlers whose `keyboard_data` has not returned have left to do. -/
structure Pilote where
  init : Bool := false
  prevScancode : Nat := 0
  keyDown : Nat → Bool := fun _ => false
  kDown : Nat → Nat := fun _ => 0
  shiftState : BitVec 32 := 0
  deadKeyNext : Bool := false
  npadch : Int := -1
  diacr : Nat := 0
  rep : Bool := false
  stopped : Bool := false
  kbd : KbdStruct := {}
  ledstate : BitVec 8 := 0xff
  envois : List (List UInt8) := []
  leds : List (BitVec 8) := []
  rend : Bool := true
  enSuspens : List Reliquat := []

/-- The tables an index can run out of. -/
inductive Debord where
  | keyMaps | keyDown | kDown | padChars | appMap | curChars | retDiacr | highKeys | e0Keys
  deriving DecidableEq, Repr

/-- Driver code: an access out of a table stops it. -/
abbrev P (α : Type) := Program Pilote Debord α

/-- `t[i]`. -/
def lireTable {α : Type} (d : Debord) (t : List α) (i : Nat) : P α :=
  match t[i]? with
  | some x => pure x
  | none => throw d

namespace Pilote

/-! ## Output -/

/-- `put_queue`: a string of one character, which ends it when it is null. -/
def putQueue (ch : Nat) : P Unit :=
  modify fun s => { s with envois := s.envois ++ [[UInt8.ofNat ch].filter (· ≠ 0)] }

/-- `puts_queue`. -/
def putsQueue (cp : List UInt8) : P Unit :=
  modify fun s => { s with envois := s.envois ++ [cp.takeWhile (· ≠ 0)] }

def execute : Reliquat → P Unit
  | .car ch => putQueue ch
  | .npadch => modify fun s => { s with npadch := -1 }

/-- The code `r` that follows a `put_queue`: it waits until `keyboard_data` returns. -/
def puis (r : Reliquat) : P Unit := do
  let s ← get
  if s.rend then execute r else set { s with enSuspens := s.enSuspens ++ [r] }

/-- `to_utf8`, for a `ushort`. -/
def toUtf8 (c : Nat) : P Unit := do
  if c < 0x80 then putQueue c
  else if c < 0x800 then do
    putQueue (0xc0 ||| c / 64)
    putQueue (0x80 ||| c % 64)
  else do
    putQueue (0xe0 ||| c / 4096)
    putQueue (0x80 ||| c / 64 % 64)
    putQueue (0x80 ||| c % 64)

/-- `applkey`. -/
def applkey (key : UInt8) (mode : Bool) : P Unit :=
  putsQueue [27, if mode then 79 else 91, key]

/-! ## Keyboard flags -/

/-- Update the structure `kbd`. -/
def surKbd (f : KbdStruct → KbdStruct) : P Unit := modify fun s => { s with kbd := f s.kbd }

/-- `VC_NUMLOCK` and `VC_CAPSLOCK`. -/
def numlock : BitVec 3 := 2
def capslock : BitVec 3 := 4

def chgVcKbdLed (led : BitVec 3) : P Unit :=
  surKbd fun k => { k with ledflagstate := k.ledflagstate ^^^ led }

def setVcKbdLed (led : BitVec 3) : P Unit :=
  surKbd fun k => { k with ledflagstate := k.ledflagstate ||| led }

def clrVcKbdLed (led : BitVec 3) : P Unit :=
  surKbd fun k => { k with ledflagstate := k.ledflagstate &&& ~~~ led }

/-- `vc_kbd_led`. -/
def vcKbdLed (s : Pilote) (led : BitVec 3) : Bool := s.kbd.ledflagstate &&& led ≠ 0

/-! ## Modifiers -/

/-- The mask of a modifier in `shift_state`. -/
def masque (value : Nat) : BitVec 32 := 1#32 <<< value

/-- `k_down[value]++` and the bit of `shift_state`; the counter is an `unsigned char`. -/
def compte (value : Nat) : P Unit := do
  if value < NR_SHIFT then
    modify fun s => { s with
      kDown := Function.update s.kDown value ((s.kDown value + 1) % 256)
      shiftState := s.shiftState ||| masque value }
  else throw .kDown

/-- One key of `compute_shiftstate`. -/
def compteTouche (k : Nat) : P Unit := do
  let s ← get
  if s.keyDown k then
    let sym := carte plainMap k ^^^ 0xf000
    if ktyp sym = KT_SHIFT ∨ ktyp sym = KT_SLOCK then
      compte (if kval sym = KG_CAPSSHIFT then KG_SHIFT else kval sym)
    else pure ()
  else pure ()

/-- `compute_shiftstate`. -/
def computeShiftstate : P Unit := do
  modify fun s => { s with shiftState := 0, kDown := fun _ => 0 }
  (List.range NR_KEYS).forM compteTouche

/-! ## Key handlers -/

/-- `handle_diacr`. -/
def handleDiacr (ch : Nat) : P Nat := do
  let s ← get
  let d := s.diacr
  set { s with diacr := 0 }
  match accentTable.find? fun a => a.1 = d ∧ a.2.1 = ch with
  | some a => pure a.2.2
  | none =>
    if ch = 32 ∨ ch = d then pure d
    else do
      putQueue d
      pure ch

def doSelf (value : Nat) (up : Bool) : P Unit := do
  if up then pure ()
  else do
    let s ← get
    let value ← if s.diacr ≠ 0 then handleDiacr value else pure value
    let s ← get
    if s.deadKeyNext then set { s with deadKeyNext := false, diacr := value }
    else putQueue value

def doFn (value : Nat) (up : Bool) : P Unit := do
  if up then pure ()
  else match funcTable[value]? with
    | some cp => putsQueue cp
    | none => pure ()

def enter : P Unit := do
  let s ← get
  if s.diacr ≠ 0 then do
    putQueue s.diacr
    modify fun s => { s with diacr := 0 }
  putQueue 13
  if s.kbd.vcCrlf then putQueue 10

def capsToggle : P Unit := do
  let s ← get
  if s.rep then pure () else chgVcKbdLed capslock

def capsOn : P Unit := do
  let s ← get
  if s.rep then pure () else setVcKbdLed capslock

def bareNum : P Unit := do
  let s ← get
  if s.rep then pure () else chgVcKbdLed numlock

def num : P Unit := do
  let s ← get
  if s.kbd.vcApplic then applkey 80 true else bareNum

/-- `hold`, with `stop_tty` and `start_tty`. -/
def hold : P Unit := do
  let s ← get
  if s.rep then pure () else set { s with stopped := !s.stopped }

/-- `spec_fn_table`. -/
def specFn : Nat → P Unit
  | 0 => computeShiftstate
  | 1 => enter
  | 7 => capsToggle
  | 8 => num
  | 9 => hold
  | 13 => capsOn
  | 14 => modify fun s => { s with deadKeyNext := true }
  | 19 => bareNum
  -- displays, consoles, `send_intr`, `boot_it` and `SAK`
  | _ => pure ()

def doSpec (value : Nat) (up : Bool) : P Unit := do
  let s ← get
  if up then pure ()
  else if value ≥ 20 then pure ()
  else if (s.kbd.kbdmode = .raw ∨ s.kbd.kbdmode = .mediumraw) ∧ value ≠ 15 then pure ()
  else specFn value

def doDead2 (value : Nat) (up : Bool) : P Unit := do
  if up then pure ()
  else do
    let s ← get
    if s.diacr ≠ 0 then do
      let d ← handleDiacr value
      modify fun s => { s with diacr := d }
    else set { s with diacr := value }

def doDead (value : Nat) (up : Bool) : P Unit := do
  let value ← lireTable .retDiacr retDiacr value
  doDead2 value up

def doCur (value : Nat) (up : Bool) : P Unit := do
  if up then pure ()
  else do
    let c ← lireTable .curChars curChars value
    let s ← get
    applkey c s.kbd.vcCkmode

/-- The key of the number pad when it moves the cursor. -/
def padCurseur (value : Nat) : Option (P Unit) :=
  match value with
  | 15 | 16 => some (doFn 22 false)
  | 0 => some (doFn 21 false)
  | 1 => some (doFn 23 false)
  | 2 => some (doCur 0 false)
  | 3 => some (doFn 25 false)
  | 4 => some (doCur 1 false)
  | 6 => some (doCur 2 false)
  | 7 => some (doFn 20 false)
  | 8 => some (doCur 3 false)
  | 9 => some (doFn 24 false)
  | 5 => some do
    let s ← get
    applkey 71 s.kbd.vcApplic
  | _ => none

/-- The end of `do_pad`: the character of the key. -/
def padChiffre (value : Nat) : P Unit := do
  let c ← lireTable .padChars padChars value
  putQueue c.toNat
  let s ← get
  if value = 14 ∧ s.kbd.vcCrlf then putQueue 10

def doPad (value : Nat) (up : Bool) : P Unit := do
  if up then pure ()
  else do
    let s ← get
    if s.kbd.vcApplic ∧ s.kDown KG_SHIFT = 0 then do
      let c ← lireTable .appMap appMap value
      applkey c true
    else if vcKbdLed s numlock then padChiffre value
    else match padCurseur value with
      | some m => m
      | none => padChiffre value

/-- The end of `do_shift`: a character typed on the number pad is sent when the modifier
is released. -/
def envoieNpadch : P Unit := do
  let s ← get
  if s.kbd.kbdmode = .unicode then toUtf8 (s.npadch % 65536).toNat
  else putQueue (s.npadch % 256).toNat
  puis .npadch

/-- The counter and the bit of a modifier that changes. -/
def basculeShift (value : Nat) (up : Bool) : P Unit := do
  if value < NR_SHIFT then
    modify fun s =>
      let n := if up then s.kDown value - 1 else (s.kDown value + 1) % 256
      { s with
        kDown := Function.update s.kDown value n
        shiftState :=
          if n ≠ 0 then s.shiftState ||| masque value else s.shiftState &&& ~~~ masque value }
  else throw .kDown

def doShift (value : Nat) (up : Bool) : P Unit := do
  let s ← get
  if s.rep then pure ()
  else do
    if value = KG_CAPSSHIFT ∧ !up then clrVcKbdLed capslock
    basculeShift (if value = KG_CAPSSHIFT then KG_SHIFT else value) up
    let s' ← get
    if up ∧ s'.shiftState ≠ s.shiftState ∧ s'.npadch ≠ -1 then envoieNpadch

def doMeta (value : Nat) (up : Bool) : P Unit := do
  if up then pure ()
  else do
    let s ← get
    if s.kbd.vcMeta then do
      putQueue 27
      puis (.car value)
    else putQueue (value ||| 0x80)

/-- `do_ascii`; `npadch` is an `int`. -/
def doAscii (value : Nat) (up : Bool) : P Unit := do
  if up then pure ()
  else do
    let base : Int := if value < 10 then 10 else 16
    let chiffre : Int := if value < 10 then value else value - 10
    modify fun s => { s with
      npadch := if s.npadch = -1 then chiffre else (s.npadch * base + chiffre).bmod (2 ^ 32) }

def doLock (value : Nat) (up : Bool) : P Unit := do
  let s ← get
  if up ∨ s.rep then pure ()
  else surKbd fun k => { k with lockstate := k.lockstate ^^^ (masque value).setWidth 8 }

def doSlock (value : Nat) (up : Bool) : P Unit := do
  doShift value up
  let s ← get
  if up ∨ s.rep then pure ()
  else do
    let m := (masque value).setWidth 8
    surKbd fun k => { k with slockstate := k.slockstate ^^^ m }
    let s ← get
    match ← lireTable .keyMaps (keyMaps ++ List.replicate (MAX_NR_KEYMAPS - keyMaps.length) none)
        (s.kbd.lockstate ^^^ s.kbd.slockstate).toNat with
    | some _ => pure ()
    | none => surKbd fun k => { k with slockstate := 0 ^^^ m }

/-- `key_handler`. -/
def keyHandler (type value : Nat) (up : Bool) : P Unit :=
  match type with
  | 0 => doSelf value up
  | 1 => doFn value up
  | 2 => doSpec value up
  | 3 => doPad value up
  | 4 => doDead value up
  | 6 => doCur value up
  | 7 => doShift value up
  | 8 => doMeta value up
  | 9 => doAscii value up
  | 10 => doLock value up
  | 12 => doSlock value up
  | 13 => doDead2 value up
  -- `do_cons`, `do_lowercase` and `do_ignore`
  | _ => pure ()

/-! ## From scancodes to keycodes -/

/-- `kbd_translate`, for a scancode without its high bit: the keycode, if there is one,
and the next `prev_scancode`. -/
def translateBas (prev sc : Nat) : P (Nat × Option Nat) := do
  if prev ≠ 0 then
    if prev ≠ 0xe0 then
      if prev = 0xe1 ∧ sc = 0x1d then pure (0x100, none)
      else if prev = 0x100 ∧ sc = 0x45 then pure (0, some E1_PAUSE)
      else pure (0, none)
    else if sc = 0x2a ∨ sc = 0x36 then pure (0, none)
    else do
      let k ← lireTable .e0Keys e0Keys sc
      pure (0, if k ≠ 0 then some k else none)
  else if sc ≥ SC_LIM then do
    let k ← lireTable .highKeys highKeys (sc - SC_LIM)
    pure (0, if k ≠ 0 then some k else none)
  else pure (0, some sc)

/-- `kbd_translate`. -/
def kbdTranslate (scancode : Nat) : P (Option Nat) := do
  if scancode = 0xe0 ∨ scancode = 0xe1 then do
    modify fun s => { s with prevScancode := scancode }
    pure none
  else if scancode = 0x00 ∨ scancode = 0xff then do
    modify fun s => { s with prevScancode := 0 }
    pure none
  else do
    let s ← get
    let (prev, keycode) ← translateBas s.prevScancode (scancode % 128)
    modify fun s => { s with prevScancode := prev }
    pure keycode

/-- `kbd_unexpected_up`: whether the release of a key that was not down counts as one. -/
def kbdUnexpectedUp (keycode : Nat) : Bool := !(keycode ≥ SC_LIM || keycode = 85)

/-! ## Keys -/

/-- Record the key in `key_down` and set `rep`; whether it counts as a release. -/
def noteTouche (keycode : Nat) (up : Bool) : P Bool := do
  if keycode < NR_KEYS then do
    let s ← get
    let bas := s.keyDown keycode
    set { s with keyDown := Function.update s.keyDown keycode !up, rep := !up && bas }
    pure (up && (bas || kbdUnexpectedUp keycode))
  else throw .keyDown

/-- `key_maps[i]`. -/
def lireCarte (i : BitVec 32) : P (Option (List Nat)) :=
  lireTable .keyMaps (keyMaps ++ List.replicate (MAX_NR_KEYMAPS - keyMaps.length) none) i.toNat

/-- The key symbol is carried out. -/
def traiteSymbole (shiftFinal : BitVec 32) (keysym keycode : Nat) (up rawMode : Bool) : P Unit := do
  if ktyp keysym ≥ 0xf0 then
    let type := ktyp keysym - 0xf0
    if rawMode ∧ type ≠ KT_SPEC ∧ type ≠ KT_SHIFT then pure ()
    else do
      let s ← get
      let keysym ←
        if type = KT_LETTER ∧ vcKbdLed s capslock then do
          match ← lireCarte (shiftFinal ^^^ masque KG_SHIFT) with
          | some l => pure (carte l keycode)
          | none => pure keysym
        else pure keysym
      let type := if type = KT_LETTER then KT_LATIN else type
      keyHandler type (kval keysym) up
      if type ≠ KT_SLOCK then surKbd fun k => { k with slockstate := 0 }
  else if ¬ up ∧ ¬ rawMode then toUtf8 keysym
  else pure ()

/-- The part of `handle_scancode` that follows the keycode. -/
def traiteTouche (keycode : Nat) (up rawMode : Bool) : P Unit := do
  let up ← noteTouche keycode up
  let s ← get
  let rawMode ←
    if s.kbd.kbdmode = .mediumraw then do
      putQueue (keycode + if up then 128 else 0)
      pure true
    else pure rawMode
  if !s.rep || s.kbd.vcRepeat then do
    let shiftFinal := (s.shiftState ||| s.kbd.slockstate.setWidth 32) ^^^ s.kbd.lockstate.setWidth 32
    match ← lireCarte shiftFinal with
    | some keyMap => traiteSymbole shiftFinal (carte keyMap keycode) keycode up rawMode
    | none => do
      computeShiftstate
      surKbd fun k => { k with slockstate := 0 }
  else pure ()

/-- `handle_scancode`. -/
def handleScancode (scancode : Nat) (down : Bool) : P Unit := do
  let s ← get
  let rawMode := s.kbd.kbdmode = .raw
  if rawMode then putQueue (scancode ||| if down then 0 else 128)
  match ← kbdTranslate scancode with
  | some keycode => traiteTouche keycode (!down) rawMode
  | none => pure ()

/-- `kbd_bh`: show the leds when they have changed. -/
def kbdBh : P Unit := do
  let s ← get
  let leds := s.kbd.ledflagstate.setWidth 8
  if leds ≠ s.ledstate then set { s with ledstate := leds, leds := s.leds ++ [leds] } else pure ()

/-- `kbd_init`: the default flags are `VC_REPEAT` and `VC_META`. -/
def kbdInit : P Unit := do
  surKbd fun _ => { vcRepeat := true, vcMeta := true }
  kbdBh

/-- `do_scancode`; its argument is an `int` of which the interrupt sets the low byte. -/
def doScancode (scancode : BitVec 32) : P Unit := do
  let s ← get
  if !s.init then do
    modify fun s => { s with init := true }
    kbdInit
  if scancode ≠ 0x00 ∧ scancode ≠ 0xff then do
    handleScancode (scancode.toNat % 256) (scancode &&& 0x80 = 0)
    kbdBh

end Pilote

/-- A sequence of keyboard interrupts; each `keyboard_data` returns before the next. -/
def interruptions (l : List (BitVec 32)) : P Unit := l.forM Pilote.doScancode

/-- What runs the driver. -/
inductive Activation where
  /-- A keyboard interrupt; `rend` says whether its `keyboard_data` return before the next. -/
  | scancode (sc : BitVec 32) (rend : Bool)
  /-- The process that the interrupt of the `i`-th suspended handler stopped is elected again. -/
  | suite (i : Nat)
  deriving DecidableEq, Repr

def activer : Activation → P Unit
  | .scancode sc rend => do
    modify fun s => { s with rend := rend }
    Pilote.doScancode sc
  | .suite i => do
    let s ← get
    match s.enSuspens[i]? with
    | none => pure ()
    | some r => do
      set { s with enSuspens := s.enSuspens.eraseIdx i }
      Pilote.execute r

/-- A sequence of keyboard interrupts and of returns to suspended handlers. -/
def activations (l : List Activation) : P Unit := l.forM activer

end GenesisOS
