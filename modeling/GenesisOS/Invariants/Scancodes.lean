import GenesisOS.Lib.Ledger
import GenesisOS.Model.Scancodes

/-!
# GenesisOS — the keyboard driver stays within its tables

What the driver needs of the keymaps is tested once (`cartes_valides`): in all of them a
modifier is the same modifier, dead keys and locks are missing, and each value is in
range for its type. `Regle` is what every scancode keeps: the flags of the keyboard but
the leds, no pending diacritic, `shift_state` as the nonzero counters of `k_down`, and
strings that are one character or a whole escape sequence.
-/

namespace GenesisOS

open Lib

-- ---------------------------------------------------------------------------
-- Keymaps
-- ---------------------------------------------------------------------------

/-- The modifier of a key symbol. -/
def modifSymbole (x : Nat) : Option Nat := if ktyp x = 0xf0 + KT_SHIFT then some (kval x) else none

/-- The modifier that a key counts for. -/
def modifieur (k : Nat) : Option Nat := modifSymbole (carte plainMap k)

/-- The symbol `x` is one the driver can carry out, for a key of symbol `p` in `plain_map`. -/
def symboleValide (p x : Nat) : Bool :=
  decide (0xf0 ≤ ktyp x) && (ktyp x - 0xf0 ∈ [0, 1, 2, 3, 5, 6, 7, 8, 9, 11]) &&
    (ktyp x ≠ 0xf2 || kval x ≠ 14) && (ktyp x ≠ 0xf3 || kval x < 20) &&
    (ktyp x ≠ 0xf6 || kval x < 4) && (ktyp x ≠ 0xf7 || kval x < 4) &&
    (x ^^^ 0xf000 = x - 0xf000) && (modifSymbole p = modifSymbole x)

def cartesValides : Bool :=
  keyMaps.all fun m => m.all fun l => l.length == 128 &&
    (l.zip plainMap).all fun c => symboleValide c.2 c.1

theorem cartes_valides : cartesValides = true := by decide +kernel

/-- What a valid symbol says. -/
structure Symbole (k x : Nat) : Prop where
  type : 0xf0 ≤ ktyp x
  connu : ktyp x - 0xf0 ∈ [0, 1, 2, 3, 5, 6, 7, 8, 9, 11]
  spec : ktyp x = 0xf2 → kval x ≠ 14
  pad : ktyp x = 0xf3 → kval x < 20
  cur : ktyp x = 0xf6 → kval x < 4
  shift : ktyp x = 0xf7 → kval x < 4
  xor : x ^^^ 0xf000 = x - 0xf000
  modif : modifieur k = modifSymbole x

theorem Symbole.of_valide {k x : Nat} (h : symboleValide (carte plainMap k) x = true) :
    Symbole k x := by
  simp only [symboleValide, Bool.and_eq_true, Bool.or_eq_true, decide_eq_true_eq] at h
  obtain ⟨⟨⟨⟨⟨⟨⟨h₁, h₂⟩, h₃⟩, h₄⟩, h₅⟩, h₆⟩, h₇⟩, h₈⟩ := h
  exact ⟨h₁, h₂, fun ht => h₃.resolve_left (not_not_intro ht),
    fun ht => h₄.resolve_left (not_not_intro ht), fun ht => h₅.resolve_left (not_not_intro ht),
    fun ht => h₆.resolve_left (not_not_intro ht), h₇, h₈⟩

theorem carte_hors {l : List Nat} {k : Nat} (h : l.length ≤ k) : carte l k = 0xf200 := by
  rw [carte, List.getD_eq_getElem?_getD, List.getElem?_eq_none h]
  rfl

/-- The keymaps have 128 symbols, and all of them are valid. -/
theorem carte_connue {l : List Nat} (h : some l ∈ keyMaps) : l.length = 128 ∧
    ∀ c ∈ l.zip plainMap, symboleValide c.2 c.1 = true := by
  have hl := List.all_eq_true.mp cartes_valides _ h
  rw [Option.all_some, Bool.and_eq_true, beq_iff_eq] at hl
  exact ⟨hl.1, List.all_eq_true.mp hl.2⟩

theorem length_plainMap : plainMap.length = 128 := (carte_connue List.mem_cons_self).1

theorem modifieur_hors {k : Nat} (h : 128 ≤ k) : modifieur k = none := by
  unfold modifieur
  rw [carte_hors (length_plainMap.trans_le h)]
  rfl

/-- The symbols of every keymap are valid. -/
theorem symbole_carte {l : List Nat} (h : some l ∈ keyMaps) (k : Nat) : Symbole k (carte l k) := by
  obtain ⟨hlen, hl⟩ := carte_connue h
  have hplain := length_plainMap
  refine .of_valide ?_
  by_cases hk : k < 128
  · have hmem : (l.zip plainMap)[k]? = some (carte l k, carte plainMap k) := by
      rw [List.getElem?_zip_eq_some]
      unfold carte
      rw [List.getD_eq_getElem?_getD, List.getD_eq_getElem?_getD,
        List.getElem?_eq_getElem (hlen ▸ hk), List.getElem?_eq_getElem (length_plainMap ▸ hk)]
      exact ⟨rfl, rfl⟩
    exact hl _ (List.mem_of_getElem? hmem)
  · rw [carte_hors (l := l) (by omega), carte_hors (l := plainMap) (by omega)]
    rfl

theorem symbole_plain (k : Nat) : Symbole k (carte plainMap k) := symbole_carte List.mem_cons_self k

theorem modifieur_lt {k v : Nat} (h : modifieur k = some v) : v < 4 := by
  have hs := symbole_plain k
  unfold modifieur modifSymbole at h
  split at h
  · next ht =>
    cases h
    exact hs.shift ht
  · cases h

-- ---------------------------------------------------------------------------
-- Modifiers
-- ---------------------------------------------------------------------------

theorem getLsbD_masque (v i : Nat) : (Pilote.masque v).getLsbD i = decide (i = v ∧ i < 32) := by
  unfold Pilote.masque
  rw [BitVec.getLsbD_shiftLeft, BitVec.getLsbD_one]
  by_cases hi : i = v
  · subst hi
    simp
  · by_cases hlt : i < v
    · simp [hlt, hi]
    · have hne : i - v ≠ 0 := by omega
      simp [hne, hi]

namespace Pilote

variable {s s' : Pilote} {k v : Nat}

/-- Whether the key is down and counts for the modifier. -/
def tient (s : Pilote) (v k : Nat) : Nat := if s.keyDown k = true ∧ modifieur k = some v then 1 else 0

/-- The number of keys below `n` that are down and count for the modifier. -/
def tenuesSous (s : Pilote) (v n : Nat) : Nat := ∑ k ∈ Finset.range n, s.tient v k

/-- The number of keys that are down and count for the modifier. -/
def tenues (s : Pilote) (v : Nat) : Nat := s.tenuesSous v NR_KEYS

theorem tenuesSous_le (s : Pilote) (v n : Nat) : s.tenuesSous v n ≤ n := by
  induction n with
  | zero => exact Nat.zero_le _
  | succ n ih =>
    rw [tenuesSous, Finset.sum_range_succ]
    refine Nat.add_le_add ih ?_
    unfold tient
    split <;> omega

/-- The bits of `shift_state` are the modifiers whose counter is not zero. -/
structure Bits (s : Pilote) : Prop where
  bit : ∀ v, s.shiftState.getLsbD v = decide (s.kDown v ≠ 0)
  haut : ∀ v, 4 ≤ v → s.kDown v = 0

/-- With such bits, `shift_state` indexes `key_maps`. -/
theorem Bits.lt (h : s.Bits) : s.shiftState.toNat < 16 := by
  refine Nat.lt_pow_two_of_testBit (n := 4) _ fun i hi => ?_
  show s.shiftState.getLsbD i = false
  rw [h.bit, h.haut i hi]
  rfl

/-- A counter and its bit are set together. -/
theorem Bits.maj {n : Nat} (h : s.Bits) (hv : v < 4)
    (hk : s'.kDown = Function.update s.kDown v n)
    (hb : s'.shiftState = if n ≠ 0 then s.shiftState ||| masque v else s.shiftState &&& ~~~ masque v) :
    s'.Bits := by
  refine ⟨fun i => ?_, fun i hi => ?_⟩
  · have hbit := h.bit i
    rw [hb, hk, Function.update_apply]
    by_cases hi : i = v
    · subst hi
      rw [if_pos rfl]
      split
      · next hn => simp [getLsbD_masque, hn, show i < 32 by omega]
      · next hn => simp [getLsbD_masque, hn, show i < 32 by omega]
    · rw [if_neg hi, ← hbit]
      split
      · simp [getLsbD_masque, hi]
      · simp only [BitVec.getLsbD_and, BitVec.getLsbD_not, getLsbD_masque, hi, false_and, decide_false,
          Bool.not_false, Bool.and_true]
        by_cases hlt : i < 32
        · rw [decide_eq_true hlt, Bool.and_true]
        · rw [decide_eq_false hlt, Bool.and_false, BitVec.getLsbD_of_ge _ _ (by omega)]
  · rw [hk, Function.update_of_ne (by omega)]
    exact h.haut i hi

/-- Only the counters and the bits of modifiers change. -/
def SaufModifieurs (s s' : Pilote) : Prop :=
  s' = { s with kDown := s'.kDown, shiftState := s'.shiftState }

/-- `compute_shiftstate` counts the keys that are down. -/
theorem wp_computeShiftstate {E : Debord → Prop} {Q : Unit → Pilote → Prop}
    (hQ : ∀ s', s.SaufModifieurs s' → s'.Bits → (∀ v, s'.kDown v = s.tenues v) → Q () s') :
    wp E computeShiftstate Q s := by
  simp only [computeShiftstate, wp_bind, wp_modify]
  -- after the keys below `n`, the counters are theirs
  refine wp_imp (wp_forM (I := fun l s' => ∃ n, n + l.length = NR_KEYS ∧ l = List.range' n l.length ∧
    s.SaufModifieurs s' ∧ s'.Bits ∧ ∀ v, s'.kDown v = s.tenuesSous v n) ?_ (List.range NR_KEYS) ?_) ?_
  · rintro k l s₁ ⟨n, hn, hl, hsauf, hbits, hcompte⟩
    rw [List.length_cons, List.range'_succ, List.cons.injEq] at hl
    obtain ⟨rfl, hl⟩ := hl
    rw [List.length_cons] at hn
    have hdown : s₁.keyDown = s.keyDown := by rw [hsauf]
    have hsucc : ∀ v, s.tenuesSous v (k + 1) = s.tenuesSous v k + s.tient v k := fun v =>
      Finset.sum_range_succ _ _
    have hsym := symbole_plain k
    -- a key that is up or no modifier counts for nothing
    have rien : (∀ v, s.tient v k = 0) → ∃ n, n + l.length = NR_KEYS ∧ l = List.range' n l.length ∧
        s.SaufModifieurs s₁ ∧ s₁.Bits ∧ ∀ v, s₁.kDown v = s.tenuesSous v n := by
      intro h
      refine ⟨k + 1, by omega, hl, hsauf, hbits, fun v => ?_⟩
      rw [hsucc, h, hcompte]
      rfl
    unfold compteTouche
    rw [wp_bind, wp_get, hdown]
    split
    · next hd =>
      rw [hsym.xor]
      have htype : ktyp (carte plainMap k - 0xf000) = ktyp (carte plainMap k) - 0xf0 := by
        unfold ktyp
        omega
      have hval : kval (carte plainMap k - 0xf000) = kval (carte plainMap k) := by
        have h := hsym.type
        unfold ktyp at h
        unfold kval
        omega
      have hconnu := hsym.connu
      have ht := hsym.type
      dsimp only
      split
      · next hs =>
        have hs' : ktyp (carte plainMap k) = 0xf0 + KT_SHIFT := by
          rw [htype] at hs
          simp only [List.mem_cons, List.not_mem_nil, or_false] at hconnu
          unfold KT_SHIFT KT_SLOCK at *
          omega
        have hv : kval (carte plainMap k) < 4 := hsym.shift hs'
        have hm : modifieur k = some (kval (carte plainMap k)) := if_pos hs'
        have hk : k < 128 := by
          by_contra hk
          rw [modifieur_hors (by omega)] at hm
          cases hm
        rw [hval, if_neg (show ¬ kval (carte plainMap k) = KG_CAPSSHIFT by unfold KG_CAPSSHIFT; omega)]
        generalize kval (carte plainMap k) = v at hv hm
        have hle := s.tenuesSous_le v k
        rw [compte, if_pos (show v < NR_SHIFT by unfold NR_SHIFT; omega), wp_modify]
        have hn : (s₁.kDown v + 1) % 256 = s₁.kDown v + 1 := by
          rw [hcompte]
          exact Nat.mod_eq_of_lt (by omega)
        refine ⟨k + 1, by omega, hl, ?_, hbits.maj hv rfl ?_, fun i => ?_⟩
        · rw [SaufModifieurs]
          rw [SaufModifieurs] at hsauf
          rw [hsauf]
        · rw [if_pos (by omega)]
        · show Function.update s₁.kDown v _ i = _
          rw [hsucc, Function.update_apply, hn, tient, hm]
          split
          · next hi => rw [hi, if_pos ⟨hd, rfl⟩, hcompte]
          · next hi =>
            rw [if_neg fun hx => hi (Option.some.inj hx.2).symm, hcompte]
            rfl
      · next hs =>
        refine rien fun v => if_neg ?_
        rintro ⟨-, hm⟩
        unfold modifieur modifSymbole at hm
        split at hm
        · next h7 =>
          refine hs (.inl ?_)
          rw [htype, h7]
          rfl
        · cases hm
    · next hd => exact rien fun v => if_neg fun hx => hd hx.1
  · refine ⟨0, ?_, ?_, rfl, ⟨fun v => ?_, fun _ _ => rfl⟩, fun v => rfl⟩
    · rw [List.length_range, Nat.zero_add]
    · rw [List.length_range, List.range_eq_range']
    · simp
  · rintro _ s' ⟨n, hn, -, hsauf, hbits, hcompte⟩
    rw [List.length_nil, Nat.add_zero] at hn
    subst hn
    exact hQ s' hsauf hbits hcompte

-- ---------------------------------------------------------------------------
-- Strings
-- ---------------------------------------------------------------------------

/-- One character at most, or an escape sequence with something to say after `ESC [`. -/
def Envoi (e : List UInt8) : Prop :=
  e.length ≤ 1 ∨ ∃ l : List UInt8, e = 27 :: 91 :: l ∧ l ≠ [] ∧ ∀ b ∈ l, 32 ≤ b ∧ b ≤ 126

/-- The character as a string. -/
def caractere (ch : Nat) : List UInt8 := [UInt8.ofNat ch].filter (· ≠ 0)

theorem envoi_caractere (ch : Nat) : Envoi (caractere ch) :=
  .inl ((List.length_filter_le _ _).trans_eq rfl)

/-- The sequence of a cursor key. -/
def curseur (value : Nat) : List (List UInt8) := (curChars[value]?).toList.map fun c => [27, 91, c]

/-- The string of a function key, if it has one. -/
def fonction (value : Nat) : List (List UInt8) := (funcTable[value]?).toList

/-- The character of a key of the number pad. -/
def chiffre (value : Nat) : List (List UInt8) :=
  (padChars[value]?).toList.map fun c => caractere c.toNat

/-- What a key of the number pad sends. -/
def pave (s : Pilote) (value : Nat) : List (List UInt8) :=
  if vcKbdLed s numlock then chiffre value
  else match value with
    | 15 | 16 => fonction 22
    | 0 => fonction 21
    | 1 => fonction 23
    | 2 => curseur 0
    | 3 => fonction 25
    | 4 => curseur 1
    | 6 => curseur 2
    | 7 => fonction 20
    | 8 => curseur 3
    | 9 => fonction 24
    | 5 => [[27, 91, 71]]
    | _ => chiffre value

/-- What a key of the Meta table sends at once. -/
def avecMeta (s : Pilote) (value : Nat) : List (List UInt8) :=
  if s.rend then [caractere 27, caractere value] else [caractere 27]

/-- What the press of a symbol sends, by its type. -/
def textes (s : Pilote) (type value : Nat) : List (List UInt8) :=
  match type with
  | 0 => [caractere value]
  | 1 => fonction value
  | 2 => if value = 1 then [[13]] else []
  | 3 => pave s value
  | 6 => curseur value
  | 8 => s.avecMeta value
  | _ => []

/-- The strings of function keys are whole sequences without terminator. -/
theorem fonctions_valides : (funcTable.all fun l => l.takeWhile (· ≠ 0) == l && l.take 2 == [27, 91] &&
    2 < l.length && (l.drop 2).all fun b => 32 ≤ b && b ≤ 126) = true := by decide +kernel

theorem fonction_valide {l : List UInt8} {v : Nat} (h : l ∈ fonction v) :
    l.takeWhile (· ≠ 0) = l ∧ Envoi l := by
  have hl := List.all_eq_true.mp fonctions_valides l (List.mem_of_getElem? (Option.mem_toList.mp h))
  simp only [Bool.and_eq_true, beq_iff_eq, decide_eq_true_eq] at hl
  obtain ⟨⟨⟨h₁, h₂⟩, h₃⟩, h₄⟩ := hl
  refine ⟨h₁, .inr ⟨l.drop 2, ?_, ?_, fun b hb => ?_⟩⟩
  · rw [← List.take_append_drop 2 l, h₂]
    rfl
  · rw [Ne, List.drop_eq_nil_iff]
    omega
  · have hb' := List.all_eq_true.mp h₄ b hb
    simpa using hb'

theorem envoi_sequence {c : UInt8} (h : 32 ≤ c ∧ c ≤ 126) : Envoi [27, 91, c] :=
  .inr ⟨[c], rfl, List.cons_ne_nil _ _, fun b hb => by rw [List.mem_singleton.mp hb]; exact h⟩

theorem curChars_lt {v : Nat} (hv : v < 4) : ∃ c, curChars[v]? = some c ∧ 32 ≤ c ∧ c ≤ 126 := by
  obtain rfl | rfl | rfl | rfl : v = 0 ∨ v = 1 ∨ v = 2 ∨ v = 3 := by omega
  all_goals exact ⟨_, rfl, by decide, by decide⟩

theorem envoi_curseur {l : List UInt8} {v : Nat} (hv : v < 4) (h : l ∈ curseur v) : Envoi l := by
  obtain ⟨c, hc, hlim⟩ := curChars_lt hv
  unfold curseur at h
  rw [hc] at h
  rw [List.mem_singleton.mp h]
  exact envoi_sequence hlim

theorem envoi_chiffre {l : List UInt8} {v : Nat} (h : l ∈ chiffre v) : Envoi l := by
  obtain ⟨c, -, rfl⟩ := List.mem_map.mp h
  exact envoi_caractere _

theorem envoi_pave {l : List UInt8} {v : Nat} (h : l ∈ s.pave v) : Envoi l := by
  unfold pave at h
  split at h
  · exact envoi_chiffre h
  · split at h
    all_goals first
      | exact (fonction_valide h).2
      | exact envoi_curseur (by decide) h
      | exact envoi_chiffre h
      | rw [List.mem_singleton.mp h]; exact envoi_sequence (by decide)

theorem envoi_textes {l : List UInt8} {type value : Nat} (hcur : type = 6 → value < 4)
    (h : l ∈ s.textes type value) : Envoi l := by
  unfold textes at h
  split at h
  · rw [List.mem_singleton.mp h]
    exact envoi_caractere _
  · exact (fonction_valide h).2
  · split at h
    · rw [List.mem_singleton.mp h]
      exact .inl le_rfl
    · cases h
  · exact envoi_pave h
  · exact envoi_curseur (hcur rfl) h
  · have h : l = caractere 27 ∨ l = caractere value := by
      unfold avecMeta at h
      split at h
      · simpa using h
      · exact .inl (List.mem_singleton.mp h)
    rcases h with rfl | rfl
    · exact envoi_caractere _
    · exact envoi_caractere _
  · cases h

-- ---------------------------------------------------------------------------
-- The press of a key
-- ---------------------------------------------------------------------------

/-- What every scancode keeps. -/
structure Regle (s : Pilote) : Prop where
  bits : s.Bits
  diacr : s.diacr = 0
  dead : s.deadKeyNext = false
  kbd : s.kbd = { ledflagstate := s.kbd.ledflagstate, vcRepeat := true, vcMeta := true }
  envois : ∀ e ∈ s.envois, Envoi e

/-- The led flags after a special key that does not repeat. -/
def allume (value : Nat) (b : BitVec 3) : BitVec 3 :=
  if value = 7 then b ^^^ capslock
  else if value = 8 ∨ value = 19 then b ^^^ numlock
  else if value = 13 then b ||| capslock
  else b

/-- The led flags after the press of a symbol. -/
def temoins (s : Pilote) (type value : Nat) : BitVec 3 :=
  if type = 2 ∧ s.rep = false then allume value s.kbd.ledflagstate else s.kbd.ledflagstate

/-- The number being typed on the pad after one more digit. -/
def compose (n : Int) (value : Nat) : Int :=
  let base : Int := if value < 10 then 10 else 16
  let chiffre : Int := if value < 10 then value else value - 10
  if n = -1 then chiffre else (n * base + chiffre).bmod (2 ^ 32)

/-- The effect of a symbol that is no modifier, when its key is pressed. -/
structure Appui (type value : Nat) (s s' : Pilote) : Prop where
  envois : s'.envois = s.envois ++ s.textes type value
  kbd : s'.kbd = { s.kbd with ledflagstate := s.temoins type value }
  npadch : s'.npadch = if type = 9 then compose s.npadch value else s.npadch
  reste : s' = { s with
    envois := s'.envois, kbd := s'.kbd, npadch := s'.npadch, stopped := s'.stopped,
    enSuspens := s'.enSuspens }

section

variable {E : Debord → Prop} {type value : Nat} {Q : Unit → Pilote → Prop}

/-- Code that only sends strings. -/
theorem Appui.of_envois {l : List (List UInt8)} (hl : s.textes type value = l) (h2 : type ≠ 2)
    (h9 : type ≠ 9) (r : List Reliquat) :
    Appui type value s { s with envois := s.envois ++ l, enSuspens := r } where
  envois := by rw [hl]
  kbd := by rw [temoins, if_neg fun h => h2 h.1]
  npadch := by rw [if_neg h9]
  reste := rfl

theorem Appui.of_kbd {l : List (List UInt8)} {b : BitVec 3} {a : Bool}
    (hl : s.textes 2 value = l) (hb : s.temoins 2 value = b)
    (hs : s' = { s with
      envois := s.envois ++ l
      kbd := { s.kbd with ledflagstate := b }
      stopped := a }) : Appui 2 value s s' := by
  subst hs
  refine ⟨?_, ?_, rfl, rfl⟩
  · rw [hl]
  · rw [hb]

theorem wp_putsQueue {l : List UInt8} (hl : l.takeWhile (· ≠ 0) = l)
    (hQ : Q () { s with envois := s.envois ++ [l] }) : wp E (putsQueue l) Q s := by
  rw [putsQueue, wp_modify, hl]
  exact hQ

theorem wp_lireTable {α : Type} {d : Debord} {l : List α} {i : Nat} {x : α} {Q : α → Pilote → Prop}
    (h : l[i]? = some x) (hQ : Q x s) : wp E (lireTable d l i) Q s := by
  unfold lireTable
  rw [h]
  exact hQ

theorem wp_doFn (hQ : Q () { s with envois := s.envois ++ fonction value }) :
    wp E (doFn value false) Q s := by
  unfold doFn
  rw [if_neg Bool.false_ne_true]
  unfold fonction at hQ
  cases hf : funcTable[value]? with
  | none =>
    rw [hf, Option.toList_none, List.append_nil] at hQ
    exact hQ
  | some l =>
    rw [hf] at hQ
    refine wp_putsQueue (fonction_valide (v := value) ?_).1 hQ
    rw [fonction, hf]
    exact List.mem_singleton_self l

theorem wp_applkey {c : UInt8} (hc : c ≠ 0) (hQ : Q () { s with envois := s.envois ++ [[27, 91, c]] }) :
    wp E (applkey c false) Q s := by
  refine wp_putsQueue ?_ hQ
  simp [hc]

theorem wp_doCur (hk : s.kbd.vcCkmode = false) (hv : value < 4)
    (hQ : Q () { s with envois := s.envois ++ curseur value }) : wp E (doCur value false) Q s := by
  obtain ⟨c, hc, hlim, -⟩ := curChars_lt hv
  have hne : c ≠ 0 := by
    rintro rfl
    exact absurd hlim (by decide)
  unfold curseur at hQ
  rw [hc] at hQ
  unfold doCur
  rw [if_neg Bool.false_ne_true, wp_bind]
  refine wp_lireTable hc ?_
  rw [wp_bind, wp_get, hk]
  exact wp_applkey hne hQ

theorem wp_padChiffre (hk : s.kbd.vcCrlf = false) (hv : value < 20)
    (hQ : Q () { s with envois := s.envois ++ chiffre value }) : wp E (padChiffre value) Q s := by
  have hlt : value < padChars.length := hv.trans (by decide)
  unfold chiffre at hQ
  rw [List.getElem?_eq_getElem hlt] at hQ
  unfold padChiffre
  rw [wp_bind]
  refine wp_lireTable (List.getElem?_eq_getElem hlt) ?_
  simp only [putQueue, wp_bind, wp_modify, wp_get, hk, Bool.false_eq_true, and_false, if_false, wp_pure]
  exact hQ

theorem wp_doPad (hk : s.Regle) (hv : value < 20)
    (hQ : Q () { s with envois := s.envois ++ s.pave value }) : wp E (doPad value false) Q s := by
  have happ : s.kbd.vcApplic = false := by rw [hk.kbd]
  have hck : s.kbd.vcCkmode = false := by rw [hk.kbd]
  have hcrlf : s.kbd.vcCrlf = false := by rw [hk.kbd]
  unfold doPad
  simp only [Bool.false_eq_true, if_false, wp_bind, wp_get, happ, false_and]
  unfold pave at hQ
  split
  · next hn =>
    rw [if_pos hn] at hQ
    exact wp_padChiffre hcrlf hv hQ
  · next hn =>
    rw [if_neg hn] at hQ
    -- the keys that move the cursor, and those that do not
    have hcas : value = 0 ∨ value = 1 ∨ value = 2 ∨ value = 3 ∨ value = 4 ∨ value = 5 ∨ value = 6 ∨
        value = 7 ∨ value = 8 ∨ value = 9 ∨ value = 15 ∨ value = 16 ∨
        value ∈ [10, 11, 12, 13, 14, 17, 18, 19] := by
      simp only [List.mem_cons, List.not_mem_nil, or_false]
      omega
    rcases hcas with rfl | rfl | rfl | rfl | rfl | rfl | rfl | rfl | rfl | rfl | rfl | rfl | h
    · exact wp_doFn hQ
    · exact wp_doFn hQ
    · exact wp_doCur hck (by decide) hQ
    · exact wp_doFn hQ
    · exact wp_doCur hck (by decide) hQ
    · show wp E (applkey 71 s.kbd.vcApplic) Q s
      rw [happ]
      exact wp_applkey (by decide) hQ
    · exact wp_doCur hck (by decide) hQ
    · exact wp_doFn hQ
    · exact wp_doCur hck (by decide) hQ
    · exact wp_doFn hQ
    · exact wp_doFn hQ
    · exact wp_doFn hQ
    · simp only [List.mem_cons, List.not_mem_nil, or_false] at h
      rcases h with rfl | rfl | rfl | rfl | rfl | rfl | rfl | rfl
      all_goals exact wp_padChiffre hcrlf (by decide) hQ

theorem temoins_fixe (h : allume value s.kbd.ledflagstate = s.kbd.ledflagstate) :
    s.temoins 2 value = s.kbd.ledflagstate := by
  unfold temoins
  split
  · exact h
  · rfl

/-- A special key that sends nothing and leaves the leds as they are. -/
theorem sansEffet (h1 : value ≠ 1) (h : allume value s.kbd.ledflagstate = s.kbd.ledflagstate) :
    Appui 2 value s s :=
  .of_kbd (if_neg h1) (temoins_fixe h) (by rw [List.append_nil])

/-- A special key that changes the leds, unless it repeats. -/
theorem wp_temoin {f : BitVec 3 → BitVec 3} (h1 : value ≠ 1) (hf : ∀ b, allume value b = f b)
    (hQ : ∀ s', Appui 2 value s s' → Q () s') :
    wp E (do
      let s ← get
      if s.rep then pure () else surKbd fun k => { k with ledflagstate := f k.ledflagstate }) Q s := by
  have hl : s.textes 2 value = [] := if_neg h1
  rw [wp_bind, wp_get]
  cases hr : s.rep with
  | true =>
    refine hQ s (.of_kbd hl (if_neg ?_) (by rw [List.append_nil]))
    rintro ⟨-, h⟩
    rw [hr] at h
    cases h
  | false =>
    rw [if_neg Bool.false_ne_true]
    refine hQ _ (.of_kbd hl ?_ (by rw [List.append_nil]))
    rw [temoins, if_pos ⟨rfl, hr⟩]
    exact hf _

/-- A special key other than the recount and the dead-key prefix. -/
theorem wp_doSpec (hk : s.Regle) (h0 : value ≠ 0) (h14 : value ≠ 14)
    (hQ : ∀ s', Appui 2 value s s' → Q () s') : wp E (doSpec value false) Q s := by
  have hraw : s.kbd.kbdmode = .xlate := by rw [hk.kbd]
  have happ : s.kbd.vcApplic = false := by rw [hk.kbd]
  have hcrlf : s.kbd.vcCrlf = false := by rw [hk.kbd]
  unfold doSpec
  rw [wp_bind, wp_get]
  simp only [Bool.false_eq_true, if_false, hraw, reduceCtorEq, or_self, false_and]
  split
  · next h20 =>
    refine hQ s (sansEffet (by omega) ?_)
    rw [allume, if_neg (by omega), if_neg (by omega), if_neg (by omega)]
  · unfold specFn
    split
    · exact absurd rfl h0
    · have hcr : s.textes 2 1 = [caractere 13] := rfl
      unfold enter
      rw [wp_bind, wp_get, if_neg (not_not_intro hk.diacr), hcrlf]
      exact hQ _ (.of_kbd hcr (temoins_fixe rfl) rfl)
    · exact wp_temoin (f := fun b => b ^^^ capslock) (by decide) (fun _ => rfl) hQ
    · unfold num
      rw [wp_bind, wp_get, happ]
      exact wp_temoin (f := fun b => b ^^^ numlock) (by decide) (fun _ => rfl) hQ
    · unfold hold
      rw [wp_bind, wp_get]
      split
      · exact hQ _ (sansEffet (by decide) rfl)
      · exact hQ _ (.of_kbd (l := []) (a := !s.stopped) rfl (temoins_fixe rfl)
          (by rw [List.append_nil]))
    · exact wp_temoin (f := fun b => b ||| capslock) (by decide) (fun _ => rfl) hQ
    · exact absurd rfl h14
    · exact wp_temoin (f := fun b => b ^^^ numlock) (by decide) (fun _ => rfl) hQ
    · next h1 h7 h8 h9 h13 h14 h19 =>
      refine hQ _ (sansEffet h1 ?_)
      rw [allume, if_neg h7, if_neg (not_or.mpr ⟨h8, h19⟩), if_neg h13]

theorem wp_doSelf (hd : s.diacr = 0) (hdead : s.deadKeyNext = false)
    (hQ : Q () { s with envois := s.envois ++ [caractere value] }) : wp E (doSelf value false) Q s := by
  unfold doSelf
  rw [if_neg Bool.false_ne_true, wp_bind, wp_get, if_neg (not_not_intro hd), wp_bind, wp_pure, wp_bind,
    wp_get, if_neg (by rw [hdead]; exact Bool.false_ne_true)]
  exact hQ

/-- The special key that recounts the modifiers. -/
theorem wp_recompte (hk : s.Regle) (hQ : wp E computeShiftstate Q s) : wp E (doSpec 0 false) Q s := by
  have hraw : s.kbd.kbdmode = .xlate := by rw [hk.kbd]
  unfold doSpec
  rw [wp_bind, wp_get]
  simp only [Bool.false_eq_true, if_false, hraw, reduceCtorEq, or_self, false_and]
  exact hQ

/-- The number pad digits of a character. -/
theorem wp_doAscii (hQ : ∀ s', Appui 9 value s s' → Q () s') : wp E (doAscii value false) Q s := by
  unfold doAscii
  rw [if_neg Bool.false_ne_true, wp_modify]
  exact hQ _ ⟨(List.append_nil _).symm, rfl, rfl, rfl⟩

/-- The press of a key that is no modifier. -/
theorem wp_keyHandler {x : Nat} (hk : s.Regle) (hx : Symbole k x) (hm : modifieur k = none)
    (htype : type = ktyp x - 0xf0 ∧ type ≠ 11 ∨ type = 0) (hval : type ≠ 0 → value = kval x)
    (h0 : ¬ (type = 2 ∧ value = 0)) (hQ : ∀ s', Appui type value s s' → Q () s') :
    wp E (keyHandler type value false) Q s := by
  have h7 : type ≠ 7 := by
    rintro rfl
    have hx7 : ktyp x = 0xf0 + KT_SHIFT := by
      have := hx.type
      unfold KT_SHIFT
      omega
    have h := hx.modif
    rw [hm, modifSymbole, if_pos hx7] at h
    cases h
  have hconnu : type ∈ [0, 1, 2, 3, 5, 6, 8, 9] := by
    have h := hx.connu
    simp only [List.mem_cons, List.not_mem_nil, or_false] at h ⊢
    omega
  have hck : s.kbd.vcCkmode = false := by rw [hk.kbd]
  have hmeta : s.kbd.vcMeta = true := by rw [hk.kbd]
  have ht := hx.type
  simp only [List.mem_cons, List.not_mem_nil, or_false] at hconnu
  unfold keyHandler
  rcases hconnu with rfl | rfl | rfl | rfl | rfl | rfl | rfl | rfl
  · exact wp_doSelf hk.diacr hk.dead (hQ _ (.of_envois rfl (by decide) (by decide) _))
  · exact wp_doFn (hQ _ (.of_envois rfl (by decide) (by decide) _))
  · refine wp_doSpec hk (fun h => h0 ⟨rfl, h⟩) ?_ hQ
    rw [hval (by decide)]
    exact hx.spec (by omega)
  · refine wp_doPad hk ?_ (hQ _ (.of_envois rfl (by decide) (by decide) _))
    rw [hval (by decide)]
    exact hx.pad (by omega)
  · exact hQ s ⟨(List.append_nil _).symm, rfl, rfl, rfl⟩
  · refine wp_doCur hck ?_ (hQ _ (.of_envois rfl (by decide) (by decide) _))
    rw [hval (by decide)]
    exact hx.cur (by omega)
  · show wp E (doMeta value false) Q s
    simp only [doMeta, Bool.false_eq_true, if_false, wp_bind, wp_get, hmeta, if_true, putQueue, wp_modify,
      puis]
    split
    · next hr =>
      have ht : s.textes 8 value = [caractere 27, caractere value] := if_pos hr
      rw [execute, putQueue, wp_modify, List.append_assoc]
      exact hQ _ (.of_envois ht (by decide) (by decide) _)
    · next hr =>
      have ht : s.textes 8 value = [caractere 27] := if_neg hr
      exact hQ _ (.of_envois ht (by decide) (by decide) _)
  · exact wp_doAscii hQ

/-- The release of a key that is no modifier. -/
theorem wp_keyHandler_lache (h : type ∈ [0, 1, 2, 3, 5, 6, 8, 9]) (hQ : Q () s) :
    wp E (keyHandler type value true) Q s := by
  simp only [List.mem_cons, List.not_mem_nil, or_false] at h
  unfold keyHandler
  rcases h with rfl | rfl | rfl | rfl | rfl | rfl | rfl | rfl
  all_goals exact hQ

-- ---------------------------------------------------------------------------
-- Modifiers that change
-- ---------------------------------------------------------------------------

/-- The counter and the bit of the modifier after a change. -/
def bascule (s : Pilote) (v : Nat) (up : Bool) : Pilote :=
  let n := if up then s.kDown v - 1 else (s.kDown v + 1) % 256
  { s with
    kDown := Function.update s.kDown v n
    shiftState := if n ≠ 0 then s.shiftState ||| masque v else s.shiftState &&& ~~~ masque v }

/-- The character typed on the number pad is sent. -/
def vide (s : Pilote) : Pilote :=
  if s.rend then { s with envois := s.envois ++ [caractere (s.npadch % 256).toNat], npadch := -1 }
  else { s with
    envois := s.envois ++ [caractere (s.npadch % 256).toNat]
    enSuspens := s.enSuspens ++ [.npadch] }

theorem vide_eq (s : Pilote) : s.vide = { s with
    envois := s.envois ++ [caractere (s.npadch % 256).toNat]
    npadch := s.vide.npadch
    enSuspens := s.vide.enSuspens } := by
  unfold vide
  split <;> rfl

/-- After `do_shift`. -/
def apresShift (s : Pilote) (v : Nat) (up : Bool) : Pilote :=
  if s.rep then s
  else
    let s' := s.bascule v up
    if up ∧ s'.shiftState ≠ s.shiftState ∧ s'.npadch ≠ -1 then s'.vide else s'

theorem wp_basculeShift (hv : v < 4) {up : Bool} (hQ : Q () (s.bascule v up)) :
    wp E (basculeShift v up) Q s := by
  rw [basculeShift, if_pos (by unfold NR_SHIFT; omega), wp_modify]
  exact hQ

theorem wp_doShift (hk : s.Regle) (hv : v < 4) {up : Bool} (hQ : Q () (s.apresShift v up)) :
    wp E (doShift v up) Q s := by
  have hraw : s.kbd.kbdmode = .xlate := by rw [hk.kbd]
  have hcaps : v ≠ KG_CAPSSHIFT := by
    unfold KG_CAPSSHIFT
    omega
  unfold apresShift at hQ
  unfold doShift
  rw [wp_bind, wp_get]
  split
  · next hr =>
    rw [if_pos hr] at hQ
    exact hQ
  · next hr =>
    rw [if_neg hr] at hQ
    simp only [hcaps, false_and, if_false]
    rw [wp_bind]
    refine wp_basculeShift hv ?_
    rw [wp_bind, wp_get]
    split
    · next h =>
      dsimp only at hQ
      rw [if_pos h] at hQ
      have hmode : (s.bascule v up).kbd.kbdmode ≠ .unicode := by
        show s.kbd.kbdmode ≠ _
        rw [hraw]
        decide
      unfold vide at hQ
      unfold envoieNpadch
      rw [wp_bind, wp_get]
      dsimp only
      rw [if_neg hmode, wp_bind, putQueue, wp_modify, puis, wp_bind, wp_get]
      dsimp only
      split
      · next hr =>
        rw [if_pos hr] at hQ
        exact hQ
      · next hr =>
        rw [if_neg hr] at hQ
        exact hQ
    · next h =>
      dsimp only at hQ
      rw [if_neg h] at hQ
      exact hQ

end

-- ---------------------------------------------------------------------------
-- One key
-- ---------------------------------------------------------------------------

/-- The keymap of a combination of modifiers. -/
def carteDe (i : BitVec 32) : Option (List Nat) := keyMaps.getD i.toNat none

theorem carteDe_mem {i : BitVec 32} {l : List Nat} (h : carteDe i = some l) : some l ∈ keyMaps := by
  unfold carteDe at h
  rw [List.getD_eq_getElem?_getD] at h
  cases hg : keyMaps[i.toNat]? with
  | none =>
    rw [hg] at h
    cases h
  | some x =>
    rw [hg, Option.getD_some] at h
    subst h
    exact List.mem_of_getElem? hg

/-- The symbol of a letter: `VC_CAPSLOCK` changes the map. -/
def lettre (s : Pilote) (k x : Nat) : Nat :=
  if vcKbdLed s capslock then
    ((carteDe (s.shiftState ^^^ masque KG_SHIFT)).map fun l => carte l k).getD x
  else x

/-- The type and value of the key of symbol `x`. -/
def symboleLu (s : Pilote) (k x : Nat) : Nat × Nat :=
  if ktyp x - 0xf0 = KT_LETTER then (KT_LATIN, kval (s.lettre k x)) else (ktyp x - 0xf0, kval x)

/-- The type and value of the key, if its keymap exists. -/
def symbole (s : Pilote) (k : Nat) : Option (Nat × Nat) :=
  (carteDe s.shiftState).map fun l => s.symboleLu k (carte l k)

theorem symbole_some {c : Nat × Nat} (h : s.symbole k = some c) :
    ∃ l, carteDe s.shiftState = some l ∧ Symbole k (carte l k) ∧ s.symboleLu k (carte l k) = c := by
  obtain ⟨l, hl, rfl⟩ := Option.map_eq_some_iff.mp h
  exact ⟨l, hl, symbole_carte (carteDe_mem hl) k, rfl⟩

/-- A key that is no modifier has a type among a few. -/
theorem symboleLu_type {x : Nat} (hx : Symbole k x) (hm : modifieur k = none) :
    (s.symboleLu k x).1 ∈ [0, 1, 2, 3, 5, 6, 8, 9] := by
  have hconnu := hx.connu
  have ht := hx.type
  have h7 : ktyp x - 0xf0 ≠ 7 := by
    intro h
    have h' := hx.modif
    rw [hm, modifSymbole, if_pos (by unfold KT_SHIFT; omega)] at h'
    cases h'
  by_cases h11 : ktyp x - 0xf0 = KT_LETTER
  · rw [symboleLu, if_pos h11]
    exact List.mem_cons_self
  · rw [symboleLu, if_neg h11]
    unfold KT_LETTER at h11
    simp only [List.mem_cons, List.not_mem_nil, or_false] at hconnu ⊢
    omega

theorem symboleLu_cur {x : Nat} (hx : Symbole k x) (h : (s.symboleLu k x).1 = 6) :
    (s.symboleLu k x).2 < 4 := by
  have ht := hx.type
  by_cases h11 : ktyp x - 0xf0 = KT_LETTER
  · rw [symboleLu, if_pos h11] at h
    cases h
  · rw [symboleLu, if_neg h11] at h ⊢
    exact hx.cur (by dsimp only at h; omega)

/-- A modifier is one in every keymap. -/
theorem symboleLu_modif {x : Nat} (hx : Symbole k x) (hm : modifieur k = some v) :
    ktyp x = 0xf7 ∧ kval x = v ∧ s.symboleLu k x = (7, v) := by
  have h := hx.modif
  rw [hm, modifSymbole] at h
  split at h
  · next ht =>
    cases h
    refine ⟨ht, rfl, ?_⟩
    rw [symboleLu, ht]
    rfl
  · cases h

/-- What a key does once `key_down` and `rep` are set. -/
inductive Effet (k : Nat) (up : Bool) (s : Pilote) : Pilote → Prop
  | recompte {s' : Pilote} (h : s.symbole k = none ∨ up = false ∧ s.symbole k = some (2, 0))
      (hs : s.SaufModifieurs s') (hb : s'.Bits) (hc : ∀ v, s'.kDown v = s.tenues v) : Effet k up s s'
  | bascule {v : Nat} (h : s.symbole k = some (7, v)) (hm : modifieur k = some v) :
      Effet k up s (s.apresShift v up)
  | lache {c : Nat × Nat} (hup : up = true) (h : s.symbole k = some c) (hm : modifieur k = none) : Effet k up s s
  | appui {c : Nat × Nat} {s' : Pilote} (hup : up = false) (h : s.symbole k = some c) (h0 : c ≠ (2, 0))
      (hm : modifieur k = none) (ha : Appui c.1 c.2 s s') : Effet k up s s'

theorem Bits.bascule (h : s.Bits) (hv : v < 4) (up : Bool) : (s.bascule v up).Bits := h.maj hv rfl rfl

theorem Regle.bascule (h : s.Regle) (hv : v < 4) (up : Bool) : (s.bascule v up).Regle :=
  ⟨h.bits.bascule hv up, h.diacr, h.dead, h.kbd, h.envois⟩

theorem Regle.vide (h : s.Regle) : s.vide.Regle := by
  rw [vide_eq]
  refine ⟨⟨h.bits.bit, h.bits.haut⟩, h.diacr, h.dead, h.kbd, fun e he => ?_⟩
  rcases List.mem_append.mp he with he | he
  · exact h.envois e he
  · rw [List.mem_singleton.mp he]
    exact envoi_caractere _

theorem Regle.apresShift (h : s.Regle) (hv : v < 4) (up : Bool) : (s.apresShift v up).Regle := by
  unfold Pilote.apresShift
  split
  · exact h
  · dsimp only
    split
    · exact (h.bascule hv up).vide
    · exact h.bascule hv up

theorem Regle.recompte (h : s.Regle) (hs : s.SaufModifieurs s') (hb : s'.Bits) : s'.Regle := by
  rw [SaufModifieurs] at hs
  refine ⟨hb, ?_, ?_, ?_, ?_⟩
  · rw [hs]
    exact h.diacr
  · rw [hs]
    exact h.dead
  · rw [hs]
    exact h.kbd
  · rw [hs]
    exact h.envois

theorem Regle.appui (h : s.Regle) {type value : Nat} (ha : Appui type value s s')
    (hcur : type = 6 → value < 4) : s'.Regle := by
  refine ⟨⟨fun v => ?_, fun v hv => ?_⟩, ?_, ?_, ?_, fun e he => ?_⟩
  · rw [ha.reste]
    exact h.bits.bit v
  · rw [ha.reste]
    exact h.bits.haut v hv
  · rw [ha.reste]
    exact h.diacr
  · rw [ha.reste]
    exact h.dead
  · rw [ha.kbd, h.kbd]
  · rw [ha.envois] at he
    rcases List.mem_append.mp he with he | he
    · exact h.envois e he
    · exact envoi_textes hcur he

/-- A key keeps the rule. -/
theorem Effet.regle {up : Bool} (h : Effet k up s s') (hk : s.Regle) : s'.Regle := by
  cases h with
  | recompte h hs hb hc => exact hk.recompte hs hb
  | bascule h hm => exact hk.apresShift (modifieur_lt hm) up
  | lache hup h hm => exact hk
  | appui hup h h0 hm ha =>
    refine hk.appui ha fun h6 => ?_
    obtain ⟨l, -, hx, rfl⟩ := symbole_some h
    exact symboleLu_cur hx h6

section

variable {E : Debord → Prop} {Q : Unit → Pilote → Prop} {up : Bool}

-- so that no tactic runs the loop of `computeShiftstate`
attribute [local irreducible] wp

theorem wp_lireCarte {i : BitVec 32} {Q : Option (List Nat) → Pilote → Prop} (hi : i.toNat < 16)
    (hQ : Q (carteDe i) s) : wp E (lireCarte i) Q s := by
  refine wp_lireTable ?_ hQ
  have hlen : keyMaps.length = 13 := rfl
  unfold carteDe
  rw [List.getD_eq_getElem?_getD]
  by_cases h : i.toNat < 13
  · rw [List.getElem?_append_left (hlen ▸ h), List.getElem?_eq_getElem (hlen ▸ h), Option.getD_some]
  · rw [List.getElem?_append_right (by omega), hlen, List.getElem?_replicate,
      if_pos (by unfold MAX_NR_KEYMAPS; omega), List.getElem?_eq_none (by omega), Option.getD_none]

theorem wp_slock (hk : s.Regle) (hQ : Q () s) :
    wp E (surKbd fun k => { k with slockstate := 0 }) Q s := by
  have hs : { s with kbd := { s.kbd with slockstate := 0 } } = s := by
    have h : s.kbd.slockstate = 0 := by rw [hk.kbd]
    rw [← h]
  rw [surKbd, wp_modify, hs]
  exact hQ

/-- The key handler, once the type and value are known. -/
theorem wp_keyHandler_effet {x : Nat} (hk : s.Regle) (hx : Symbole k x)
    (hl : s.symbole k = some (s.symboleLu k x)) (hQ : ∀ s', Effet k up s s' → Q () s') :
    wp E (keyHandler (s.symboleLu k x).1 (s.symboleLu k x).2 up) Q s := by
  cases hm : modifieur k with
  | some v =>
    obtain ⟨-, -, hlu⟩ := symboleLu_modif (s := s) hx hm
    rw [hlu] at hl ⊢
    show wp E (doShift v up) Q s
    exact wp_doShift hk (modifieur_lt hm) (hQ _ (.bascule hl hm))
  | none =>
    have ht := symboleLu_type (s := s) hx hm
    cases up with
    | true => exact wp_keyHandler_lache ht (hQ s (.lache rfl hl hm))
    | false =>
      by_cases h0 : s.symboleLu k x = (2, 0)
      · rw [h0] at hl ⊢
        show wp E (doSpec 0 false) Q s
        refine wp_recompte hk ?_
        exact wp_computeShiftstate fun s' hs hb hc => hQ s' (.recompte (.inr ⟨rfl, hl⟩) hs hb hc)
      · refine wp_keyHandler hk hx hm ?_ ?_ ?_ fun s' ha => hQ s' (.appui rfl hl h0 hm ha)
        · unfold symboleLu
          split
          · exact .inr rfl
          · next h11 => exact .inl ⟨rfl, h11⟩
        · unfold symboleLu
          split
          · exact fun h => absurd rfl h
          · exact fun _ => rfl
        · rintro ⟨h2, h0'⟩
          exact h0 (Prod.ext h2 h0')

theorem wp_traiteSymbole {l : List Nat} (hk : s.Regle) (hl : carteDe s.shiftState = some l)
    (hQ : ∀ s', Effet k up s s' → Q () s') :
    wp E (traiteSymbole s.shiftState (carte l k) k up false) Q s := by
  have hx := symbole_carte (carteDe_mem hl) k
  have hsym : s.symbole k = some (s.symboleLu k (carte l k)) := by
    unfold symbole
    rw [hl]
    rfl
  have hlt := hk.bits.lt
  -- the handler, then the reset of `slockstate`
  have suite : ∀ type value, s.symboleLu k (carte l k) = (type, value) → wp E (do
      keyHandler type value up
      if type ≠ KT_SLOCK then surKbd fun k => { k with slockstate := 0 }) Q s := by
    intro type value hc
    have h := wp_keyHandler_effet (E := E) hk hx hsym (Q := fun _ s' =>
      wp E (if type ≠ KT_SLOCK then surKbd fun k => { k with slockstate := 0 } else pure ()) Q s')
      fun s' he => by
        split
        · exact wp_slock (he.regle hk) (hQ s' he)
        · rw [wp_pure]
          exact hQ s' he
    rw [hc] at h
    rw [wp_bind]
    exact h
  have hxor : (s.shiftState ^^^ masque KG_SHIFT).toNat < 16 := by
    rw [BitVec.toNat_xor]
    exact Nat.xor_lt_two_pow (n := 4) hlt (by decide)
  unfold traiteSymbole
  rw [if_pos hx.type]
  dsimp only
  simp only [Bool.false_eq_true, false_and, if_false, wp_bind, wp_get]
  by_cases h11 : ktyp (carte l k) - 0xf0 = KT_LETTER
  · simp only [h11, true_and, if_true]
    split
    · next hc =>
      rw [wp_bind]
      refine wp_lireCarte hxor ?_
      cases hl' : carteDe (s.shiftState ^^^ masque KG_SHIFT) with
      | some l' =>
        refine suite _ _ ?_
        rw [symboleLu, if_pos h11, lettre, if_pos hc, hl']
        rfl
      | none =>
        refine suite _ _ ?_
        rw [symboleLu, if_pos h11, lettre, if_pos hc, hl']
        rfl
    · next hc =>
      refine suite _ _ ?_
      rw [symboleLu, if_pos h11, lettre, if_neg hc]
  · simp only [h11, false_and, if_false, pure_bind]
    exact suite _ _ (by rw [symboleLu, if_neg h11])

/-- `key_down` and `rep` after the key. -/
def note (s : Pilote) (k : Nat) (up : Bool) : Pilote :=
  { s with keyDown := Function.update s.keyDown k !up, rep := !up && s.keyDown k }

/-- Whether the key counts as released. -/
def relachee (s : Pilote) (k : Nat) (up : Bool) : Bool := up && (s.keyDown k || kbdUnexpectedUp k)

theorem Regle.note (h : s.Regle) (k : Nat) (up : Bool) : (s.note k up).Regle :=
  ⟨⟨h.bits.bit, h.bits.haut⟩, h.diacr, h.dead, h.kbd, h.envois⟩

/-- What follows the keycode. -/
theorem wp_traiteTouche (hk : s.Regle) (hlt : k < 128)
    (hQ : ∀ s', Effet k (s.relachee k up) (s.note k up) s' → Q () s') :
    wp E (traiteTouche k up false) Q s := by
  have hk' := hk.note k up
  have hrep : (s.note k up).kbd.vcRepeat = true := by rw [hk'.kbd]
  have hraw : (s.note k up).kbd.kbdmode = .xlate := by rw [hk'.kbd]
  have hslock : (s.note k up).kbd.slockstate = 0 := by rw [hk'.kbd]
  have hlock : (s.note k up).kbd.lockstate = 0 := by rw [hk'.kbd]
  have hfinal : ((s.note k up).shiftState ||| (s.note k up).kbd.slockstate.setWidth 32) ^^^
      (s.note k up).kbd.lockstate.setWidth 32 = (s.note k up).shiftState := by
    rw [hslock, hlock]
    simp
  have hnote : ∀ {R : Bool → Pilote → Prop}, R (s.relachee k up) (s.note k up) →
      wp E (noteTouche k up) R s := by
    intro R h
    unfold noteTouche
    rw [if_pos (by unfold NR_KEYS; omega), wp_bind, wp_get]
    simp only [wp_bind, wp_set, wp_pure]
    exact h
  unfold traiteTouche
  rw [wp_bind]
  refine hnote ?_
  rw [wp_bind, wp_get]
  simp only [hraw, reduceCtorEq, if_false, wp_bind, wp_pure, hrep, Bool.or_true, if_true, hfinal]
  refine wp_lireCarte hk'.bits.lt ?_
  cases hl : carteDe (s.note k up).shiftState with
  | some l =>
    dsimp only
    exact wp_traiteSymbole hk' hl hQ
  | none =>
    dsimp only
    rw [wp_bind]
    refine wp_computeShiftstate fun s' hs hb hc => ?_
    refine wp_slock (hk'.recompte hs hb) (hQ s' (.recompte (.inl ?_) hs hb hc))
    unfold symbole
    rw [hl]
    rfl

end

end Pilote

-- ---------------------------------------------------------------------------
-- One scancode
-- ---------------------------------------------------------------------------

/-- The keycode of a scancode without its high bit, and the next `prev_scancode`. -/
def decodeBas (prev sc : Nat) : Nat × Option Nat :=
  if prev ≠ 0 then
    if prev ≠ 0xe0 then
      if prev = 0xe1 ∧ sc = 0x1d then (0x100, none)
      else if prev = 0x100 ∧ sc = 0x45 then (0, some E1_PAUSE)
      else (0, none)
    else if sc = 0x2a ∨ sc = 0x36 then (0, none)
    else (0, if e0Keys.getD sc 0 ≠ 0 then some (e0Keys.getD sc 0) else none)
  else if sc ≥ SC_LIM then
    (0, if highKeys.getD (sc - SC_LIM) 0 ≠ 0 then some (highKeys.getD (sc - SC_LIM) 0) else none)
  else (0, some sc)

/-- The key of a scancode, whether it is released, and the next `prev_scancode`. -/
def evenement (prev : Nat) (sc : BitVec 32) : Nat × Option (Nat × Bool) :=
  let b := sc.toNat % 256
  if sc = 0x00 ∨ sc = 0xff then (prev, none)
  else if b = 0xe0 ∨ b = 0xe1 then (b, none)
  else if b = 0x00 ∨ b = 0xff then (0, none)
  else ((decodeBas prev (b % 128)).1,
    (decodeBas prev (b % 128)).2.map fun k => (k, !decide (sc &&& 0x80 = 0)))

/-- The keys pressed and released by a sequence of scancodes. -/
def touches : Nat → List (BitVec 32) → List (Nat × Bool)
  | _, [] => []
  | prev, sc :: l => (evenement prev sc).2.toList ++ touches (evenement prev sc).1 l

/-- The keycodes of the tables are below 128. -/
theorem touches_valides : ((e0Keys ++ highKeys).all fun k => decide (k < 128)) = true := by decide +kernel

theorem decodeBas_lt {prev sc k : Nat} (h : (decodeBas prev sc).2 = some k) : k < 128 := by
  have htables : ∀ x ∈ e0Keys ++ highKeys, x < 128 := fun x hx =>
    of_decide_eq_true (List.all_eq_true.mp touches_valides x hx)
  have he0 : ∀ x ∈ e0Keys, x < 128 := fun x hx => htables x (List.mem_append_left _ hx)
  have hhigh : ∀ x ∈ highKeys, x < 128 := fun x hx => htables x (List.mem_append_right _ hx)
  -- an entry of a table, or none
  have hd : ∀ {t : List Nat} {i : Nat}, (∀ x ∈ t, x < 128) →
      (if t.getD i 0 ≠ 0 then some (t.getD i 0) else none) = some k → k < 128 := by
    intro t i ht h
    split at h
    · cases h
      rw [List.getD_eq_getElem?_getD]
      cases hi : t[i]? with
      | none => decide
      | some x => exact ht x (List.mem_of_getElem? hi)
    · cases h
  unfold decodeBas at h
  split at h
  · split at h
    · split at h
      · cases h
      · split at h
        · cases h
          decide
        · cases h
    · split at h
      · cases h
      · exact hd he0 h
  · split at h
    · exact hd hhigh h
    · next hlim =>
      cases h
      unfold SC_LIM at hlim
      omega

namespace Pilote

variable {s s' : Pilote} {k v : Nat}

section

variable {E : Debord → Prop} {sc : Nat}

theorem wp_translateBas {prev : Nat} {Q : Nat × Option Nat → Pilote → Prop} (hsc : sc < 128)
    (hQ : Q (decodeBas prev sc) s) : wp E (translateBas prev sc) Q s := by
  have he0 : e0Keys.length = 128 := rfl
  have hhigh : highKeys.length = 128 - SC_LIM := rfl
  unfold decodeBas at hQ
  unfold translateBas
  split
  · next h0 =>
    rw [if_pos h0] at hQ
    split
    · next he =>
      rw [if_pos he] at hQ
      split
      · next h => rwa [if_pos h] at hQ
      · next h =>
        rw [if_neg h] at hQ
        split
        · next h' => rwa [if_pos h'] at hQ
        · next h' => rwa [if_neg h'] at hQ
    · next he =>
      rw [if_neg he] at hQ
      split
      · next h => rwa [if_pos h] at hQ
      · next h =>
        rw [if_neg h, List.getD_eq_getElem?_getD, List.getElem?_eq_getElem (he0 ▸ hsc),
          Option.getD_some] at hQ
        rw [wp_bind]
        exact wp_lireTable (List.getElem?_eq_getElem _) hQ
  · next h0 =>
    rw [if_neg h0] at hQ
    split
    · next h =>
      have hlt : sc - SC_LIM < highKeys.length := by omega
      rw [if_pos h, List.getD_eq_getElem?_getD, List.getElem?_eq_getElem hlt, Option.getD_some] at hQ
      rw [wp_bind]
      exact wp_lireTable (List.getElem?_eq_getElem _) hQ
    · next h => rwa [if_neg h] at hQ

end

/-- `prev_scancode` is set. -/
def avance (s : Pilote) (p : Nat) : Pilote := { s with prevScancode := p }

theorem Regle.avance (h : s.Regle) (p : Nat) : (s.avance p).Regle :=
  ⟨⟨h.bits.bit, h.bits.haut⟩, h.diacr, h.dead, h.kbd, h.envois⟩

/-- The leds are shown if they have changed. -/
def montre (s : Pilote) : Pilote :=
  let leds := s.kbd.ledflagstate.setWidth 8
  if leds ≠ s.ledstate then { s with ledstate := leds, leds := s.leds ++ [leds] } else s

/-- The driver between two scancodes. -/
structure Veille (s : Pilote) : Prop where
  init : s.init = true
  regle : s.Regle
  leds : s.ledstate = s.kbd.ledflagstate.setWidth 8
  montrees : s.leds.getLast? = some s.ledstate

/-- What a scancode does. -/
inductive Pas (sc : BitVec 32) (s : Pilote) : Pilote → Prop
  | rien {p : Nat} (h : evenement s.prevScancode sc = (p, none)) : Pas sc s (s.avance p)
  | touche {p k : Nat} {up : Bool} {s' : Pilote} (h : evenement s.prevScancode sc = (p, some (k, up)))
      (he : Effet k ((s.avance p).relachee k up) ((s.avance p).note k up) s') : Pas sc s s'.montre

theorem evenement_lt {prev p : Nat} {sc : BitVec 32} {up : Bool}
    (h : evenement prev sc = (p, some (k, up))) : k < 128 := by
  unfold evenement at h
  dsimp only at h
  split at h
  · cases h
  · split at h
    · cases h
    · split at h
      · cases h
      · have h2 := congrArg Prod.snd h
        obtain ⟨k', hk', he⟩ := Option.map_eq_some_iff.mp h2
        cases he
        exact decodeBas_lt hk'

/-- The fields that a key leaves alone. -/
structure Cadre (s s' : Pilote) : Prop where
  init : s'.init = s.init
  prev : s'.prevScancode = s.prevScancode
  keyDown : s'.keyDown = s.keyDown
  rep : s'.rep = s.rep
  ledstate : s'.ledstate = s.ledstate
  leds : s'.leds = s.leds
  rend : s'.rend = s.rend

theorem Effet.cadre {up : Bool} (h : Effet k up s s') : Cadre s s' := by
  cases h with
  | recompte h hs hb hc =>
    rw [SaufModifieurs] at hs
    rw [hs]
    exact ⟨rfl, rfl, rfl, rfl, rfl, rfl, rfl⟩
  | bascule h hm =>
    unfold apresShift
    split
    · exact ⟨rfl, rfl, rfl, rfl, rfl, rfl, rfl⟩
    · dsimp only
      split
      · rw [vide_eq]
        exact ⟨rfl, rfl, rfl, rfl, rfl, rfl, rfl⟩
      · exact ⟨rfl, rfl, rfl, rfl, rfl, rfl, rfl⟩
  | lache hup h hm => exact ⟨rfl, rfl, rfl, rfl, rfl, rfl, rfl⟩
  | appui hup h h0 hm ha =>
    rw [ha.reste]
    exact ⟨rfl, rfl, rfl, rfl, rfl, rfl, rfl⟩

/-- Showing the leds changes nothing else. -/
theorem montre_eq (s : Pilote) : s.montre = { s with ledstate := s.montre.ledstate, leds := s.montre.leds } := by
  unfold montre
  dsimp only
  split
  · rfl
  · rfl

@[simp] theorem montre_envois (s : Pilote) : s.montre.envois = s.envois := by rw [montre_eq]

@[simp] theorem montre_kbd (s : Pilote) : s.montre.kbd = s.kbd := by rw [montre_eq]

@[simp] theorem montre_shiftState (s : Pilote) : s.montre.shiftState = s.shiftState := by rw [montre_eq]

@[simp] theorem montre_npadch (s : Pilote) : s.montre.npadch = s.npadch := by rw [montre_eq]

@[simp] theorem montre_rend (s : Pilote) : s.montre.rend = s.rend := by rw [montre_eq]

@[simp] theorem montre_keyDown (s : Pilote) : s.montre.keyDown = s.keyDown := by rw [montre_eq]

theorem Regle.montre (h : s.Regle) : s.montre.Regle := by
  rw [montre_eq]
  exact ⟨⟨h.bits.bit, h.bits.haut⟩, h.diacr, h.dead, h.kbd, h.envois⟩

/-- A scancode keeps the driver ready. -/
theorem Pas.veille {sc : BitVec 32} (h : Pas sc s s') (hs : s.Veille) : s'.Veille := by
  cases h with
  | rien h => exact ⟨hs.init, hs.regle.avance _, hs.leds, hs.montrees⟩
  | @touche p k up s' h he =>
    have hr' := he.regle ((hs.regle.avance p).note k up)
    have hc := he.cadre
    refine ⟨?_, hr'.montre, ?_, ?_⟩
    · rw [montre_eq]
      exact hc.init.trans hs.init
    · unfold Pilote.montre
      dsimp only
      split
      · rfl
      · next h => exact (not_not.mp h).symm
    · unfold Pilote.montre
      dsimp only
      split
      · exact List.getLast?_concat
      · rw [hc.leds, hc.ledstate]
        exact hs.montrees

theorem Pas.rend {sc : BitVec 32} (h : Pas sc s s') : s'.rend = s.rend := by
  cases h with
  | rien h => rfl
  | touche h he => exact (montre_rend _).trans he.cadre.rend

section

variable {E : Debord → Prop} {sc : BitVec 32} {Q : Unit → Pilote → Prop}

theorem wp_kbdTranslate {b : Nat} {Q : Option Nat → Pilote → Prop}
    (hQ : if b = 0xe0 ∨ b = 0xe1 then Q none (s.avance b)
      else if b = 0x00 ∨ b = 0xff then Q none (s.avance 0)
      else Q (decodeBas s.prevScancode (b % 128)).2
        (s.avance (decodeBas s.prevScancode (b % 128)).1)) : wp E (kbdTranslate b) Q s := by
  unfold kbdTranslate
  split
  · next h => rwa [if_pos h] at hQ
  · next h =>
    rw [if_neg h] at hQ
    split
    · next h' => rwa [if_pos h'] at hQ
    · next h' =>
      rw [if_neg h'] at hQ
      rw [wp_bind, wp_get, wp_bind]
      exact wp_translateBas (Nat.mod_lt _ (by decide)) hQ

theorem wp_kbdBh (hQ : Q () s.montre) : wp E kbdBh Q s := by
  unfold montre at hQ
  dsimp only at hQ
  unfold kbdBh
  rw [wp_bind, wp_get]
  dsimp only
  split
  · next h => rwa [if_pos h] at hQ
  · next h => rwa [if_neg h] at hQ

/-- What `do_scancode` does to a driver that is ready. -/
theorem wp_doScancode (hs : s.Veille) (hQ : ∀ s', Pas sc s s' → Q () s') : wp E (doScancode sc) Q s := by
  have hraw : s.kbd.kbdmode = .xlate := by rw [hs.regle.kbd]
  have hinit : (!s.init) = false := by rw [hs.init, Bool.not_true]
  -- a scancode without a key
  have rien : ∀ p, evenement s.prevScancode sc = (p, none) → Q () (s.avance p).montre := by
    intro p h
    have hm : (s.avance p).montre = s.avance p := if_neg (not_not_intro hs.leds.symm)
    rw [hm]
    exact hQ _ (.rien h)
  unfold doScancode
  rw [wp_bind, wp_get, hinit]
  simp only [Bool.false_eq_true, if_false]
  split
  · next h =>
    have hev : ¬ (sc = 0x00 ∨ sc = 0xff) := not_or.mpr h
    rw [wp_bind]
    unfold handleScancode
    rw [wp_bind, wp_get]
    simp only [hraw, reduceCtorEq, decide_false, if_false]
    rw [wp_bind]
    refine wp_kbdTranslate ?_
    split
    · next hb => exact wp_kbdBh (rien _ (by rw [evenement, if_neg hev, if_pos hb]))
    · next hb =>
      split
      · next hb' => exact wp_kbdBh (rien _ (by rw [evenement, if_neg hev, if_neg hb, if_pos hb']))
      · next hb' =>
        have he : evenement s.prevScancode sc = ((decodeBas s.prevScancode (sc.toNat % 256 % 128)).1,
            (decodeBas s.prevScancode (sc.toNat % 256 % 128)).2.map fun k =>
              (k, !decide (sc &&& 0x80 = 0))) := by rw [evenement, if_neg hev, if_neg hb, if_neg hb']
        cases hd : (decodeBas s.prevScancode (sc.toNat % 256 % 128)).2 with
        | none =>
          rw [hd] at he
          exact wp_kbdBh (rien _ he)
        | some k =>
          rw [hd] at he
          refine wp_traiteTouche (hs.regle.avance _) (decodeBas_lt hd) fun s' hs' => ?_
          exact wp_kbdBh (hQ _ (.touche he hs'))
  · next h =>
    have hev : sc = 0x00 ∨ sc = 0xff := by
      by_contra hn
      exact h (not_or.mp hn)
    exact hQ _ (.rien (if_pos hev))

end

-- ---------------------------------------------------------------------------
-- Runs
-- ---------------------------------------------------------------------------

/-- The driver once `kbd_init` is done. -/
def demarre : Pilote :=
  { init := true, kbd := { vcRepeat := true, vcMeta := true }, ledstate := 0, leds := [0] }

theorem demarre_veille : demarre.Veille where
  init := rfl
  regle := ⟨⟨fun v => BitVec.getLsbD_zero, fun _ _ => rfl⟩, rfl, rfl, rfl, by intro e he; cases he⟩
  leds := rfl
  montrees := rfl

/-- The first scancode starts the keyboard. -/
theorem doScancode_demarre (sc : BitVec 32) : doScancode sc {} = doScancode sc demarre := rfl

/-- What each scancode keeps holds after a run. -/
theorem wp_suite {I : List (BitVec 32) → Pilote → Prop}
    (hI : ∀ {l sc s s'}, s.Veille → I l s → Pas sc s s' → I (l ++ [sc]) s') (m : List (BitVec 32))
    {l : List (BitVec 32)} (hs : s.Veille) (h : I l s) :
    wp (fun _ => False) (interruptions m) (fun _ s' => s'.Veille ∧ I (l ++ m) s') s := by
  induction m generalizing l s with
  | nil =>
    rw [List.append_nil]
    exact ⟨hs, h⟩
  | cons sc m ih =>
    show wp _ (doScancode sc >>= fun _ => interruptions m) _ s
    rw [wp_bind]
    refine wp_doScancode hs fun s' hp => ?_
    have hm := ih (hp.veille hs) (hI hs h hp)
    rw [List.append_assoc] at hm
    exact hm

theorem interruptions_demarre {l : List (BitVec 32)} (hl : l ≠ []) :
    interruptions l {} = interruptions l demarre := by
  cases l with
  | nil => exact absurd rfl hl
  | cons sc l =>
    show (doScancode sc >>= fun _ => interruptions l) {} = (doScancode sc >>= fun _ => interruptions l) demarre
    simp only [bind, StateT.bind, doScancode_demarre sc]

/-- What holds once the keyboard is started, and is kept by each scancode. -/
theorem wp_interruptions {I : List (BitVec 32) → Pilote → Prop} (h0 : I [] demarre)
    (hI : ∀ {l sc s s'}, s.Veille → I l s → Pas sc s s' → I (l ++ [sc]) s') {l : List (BitVec 32)}
    (hl : l ≠ []) : wp (fun _ => False) (interruptions l) (fun _ s => s.Veille ∧ I l s) {} := by
  have h := wp_suite hI l demarre_veille h0
  unfold wp at h ⊢
  rw [interruptions_demarre hl]
  exact h

-- ---------------------------------------------------------------------------
-- Runs in which some `keyboard_data` do not return at once
-- ---------------------------------------------------------------------------

theorem Veille.rendu (hs : s.Veille) (rend : Bool) : Veille { s with rend := rend } :=
  have hr := hs.regle
  ⟨hs.init, ⟨⟨hr.bits.bit, hr.bits.haut⟩, hr.diacr, hr.dead, hr.kbd, hr.envois⟩, hs.leds, hs.montrees⟩

theorem Veille.activer (hs : s.Veille) (a : Activation) :
    wp (fun _ => False) (activer a) (fun _ s' => s'.Veille) s := by
  cases a with
  | scancode sc rend =>
    rw [GenesisOS.activer, wp_bind, wp_modify]
    exact wp_doScancode (hs.rendu rend) fun s' hp => hp.veille (hs.rendu rend)
  | suite i =>
    rw [GenesisOS.activer, wp_bind, wp_get]
    cases s.enSuspens[i]? with
    | none => exact hs
    | some r =>
      have hr := hs.regle
      dsimp only
      rw [wp_bind, wp_set]
      cases r with
      | car ch =>
        refine ⟨hs.init, ⟨⟨hr.bits.bit, hr.bits.haut⟩, hr.diacr, hr.dead, hr.kbd, fun e he => ?_⟩,
          hs.leds, hs.montrees⟩
        rcases List.mem_append.mp he with he | he
        · exact hr.envois e he
        · rw [List.mem_singleton.mp he]
          exact envoi_caractere ch
      | npadch =>
        exact ⟨hs.init, ⟨⟨hr.bits.bit, hr.bits.haut⟩, hr.diacr, hr.dead, hr.kbd, hr.envois⟩, hs.leds,
          hs.montrees⟩

/-- Before the first scancode nothing is suspended. -/
theorem wp_activations (l : List Activation) : wp (fun _ => False) (activations l)
    (fun _ s => s.Veille ∨ s = { rend := s.rend }) {} := by
  refine wp_forM (I := fun _ (s : Pilote) => s.Veille ∨ s = { rend := s.rend }) ?_ l (.inr rfl)
  rintro a _ s (hs | hs)
  · exact wp_imp (hs.activer a) fun _ _ h => .inl h
  · cases a with
    | scancode sc rend =>
      have hd := demarre_veille.rendu rend
      have hw : wp (fun _ => False) (doScancode sc) (fun _ s' => s'.Veille) { demarre with rend := rend } :=
        wp_doScancode hd fun _ hp => hp.veille hd
      rw [activer, wp_bind, wp_modify, hs]
      refine wp_imp (Q := fun _ s' => s'.Veille) ?_ fun _ _ h => .inl h
      unfold wp at hw ⊢
      exact hw
    | suite i =>
      rw [activer, wp_bind, wp_get, hs]
      exact .inr rfl

/-- A run of interrupts is one of activations whose `keyboard_data` return. -/
theorem activations_interruptions (l : List (BitVec 32)) :
    activations (l.map fun sc => .scancode sc true) {} = interruptions l {} := by
  have veille : ∀ (l : List (BitVec 32)) {s : Pilote}, s.Veille → s.rend = true →
      activations (l.map fun sc => .scancode sc true) s = interruptions l s := by
    intro l
    induction l with
    | nil => exact fun _ _ => rfl
    | cons sc l ih =>
      intro s hs hr
      have hrend : ({ s with rend := true } : Pilote) = s := by rw [← hr]
      have hw : wp (fun _ => False) (doScancode sc) (fun _ s' => Pas sc s s') s :=
        wp_doScancode hs fun _ hp => hp
      obtain ⟨_, s', hs', hp⟩ := wp_exists hw
      have hsuite := ih (hp.veille hs) (hp.rend.trans hr)
      show (doScancode sc >>= fun _ => activations (l.map fun sc => .scancode sc true))
        { s with rend := true } = (doScancode sc >>= fun _ => interruptions l) s
      rw [hrend]
      simp only [bind, StateT.bind, hs']
      exact hsuite
  cases l with
  | nil => rfl
  | cons sc l =>
    rw [interruptions_demarre (List.cons_ne_nil sc l), ← veille (sc :: l) demarre_veille rfl]
    show (doScancode sc >>= fun _ => activations (l.map fun sc => .scancode sc true)) {} =
      (doScancode sc >>= fun _ => activations (l.map fun sc => .scancode sc true)) demarre
    simp only [bind, StateT.bind, doScancode_demarre sc]

end Pilote

end GenesisOS
