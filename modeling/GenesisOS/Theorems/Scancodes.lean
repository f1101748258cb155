import Mathlib.Algebra.BigOperators.Group.Finset.Piecewise
import GenesisOS.Invariants.Touches

/-!
# GenesisOS — what the keyboard driver does over whole runs

The driver runs from its first scancode, whatever the scancodes are. Runs are described
by their events (`touches`): the keys pressed and released, `E0` and `E1` prefixes read.
Each `keyboard_data` returns before the next scancode; what can happen otherwise is in
`activations`.
-/

namespace GenesisOS

open Lib Pilote

variable {l m : List (BitVec 32)} {s s' : Pilote} {k v : Nat}

-- ---------------------------------------------------------------------------
-- Tables
-- ---------------------------------------------------------------------------

theorem wp_regle (hl : l ≠ []) : wp (fun _ => False) (interruptions l) (fun _ s => s.Veille) {} :=
  wp_imp (wp_interruptions (I := fun _ _ => True) trivial (fun _ _ _ => trivial) hl) fun _ _ h => h.1

theorem exists_interruptions (l : List (BitVec 32)) : ∃ s, interruptions l {} = .ok ((), s) := by
  by_cases hl : l = []
  · subst hl
    exact ⟨{}, rfl⟩
  · obtain ⟨_, s, hs, -⟩ := wp_exists (wp_regle hl)
    exact ⟨s, hs⟩

/-- Whatever the scancodes, the driver stays within its tables, sends single characters
or whole escape sequences, and shows the leds of its flags. -/
theorem pilote_sans_debord (l : List (BitVec 32)) : ∃ s, interruptions l {} = .ok ((), s) ∧
    (∀ e ∈ s.envois, Envoi e) ∧
    (l ≠ [] → s.leds.getLast? = some (s.kbd.ledflagstate.setWidth 8)) := by
  by_cases hl : l = []
  · subst hl
    refine ⟨{}, rfl, ?_, fun h => absurd rfl h⟩
    intro e he
    cases he
  · obtain ⟨_, s, hs, hv⟩ := wp_exists (wp_regle hl)
    refine ⟨s, hs, hv.regle.envois, fun _ => ?_⟩
    rw [hv.montrees, hv.leds]

/-- The same when some `keyboard_data` do not return before the next scancode. -/
theorem activations_sans_debord (l : List Activation) : ∃ s, activations l {} = .ok ((), s) ∧
    ∀ e ∈ s.envois, Envoi e := by
  obtain ⟨_, s, hs, hv⟩ := wp_exists (wp_activations l)
  refine ⟨s, hs, ?_⟩
  rcases hv with hv | hv
  · exact hv.regle.envois
  · rw [hv]
    intro e he
    cases he

theorem exists_interruptions_any {Q : Pilote → Bool}
    (h : ((interruptions l {}).toOption.any fun x => Q x.2) = true) :
    ∃ s, interruptions l {} = .ok ((), s) ∧ Q s = true := by
  obtain ⟨s, hs⟩ := exists_interruptions l
  rw [hs] at h
  exact ⟨s, hs, h⟩

-- ---------------------------------------------------------------------------
-- Modifiers
-- ---------------------------------------------------------------------------

/-- A run from the start, seen once the keyboard is started. -/
structure Reveil (l : List (BitVec 32)) (s d : Pilote) : Prop where
  egal : l ≠ [] → d = s
  envois : d.envois = s.envois
  shiftState : d.shiftState = s.shiftState
  kDown : d.kDown = s.kDown
  ledflag : d.kbd.ledflagstate = s.kbd.ledflagstate

/-- A run that goes on starts from a driver that is ready. -/
theorem exists_reveil (hs : interruptions l {} = .ok ((), s)) : ∃ d, d.Veille ∧ Suivi l d ∧ Reveil l s d ∧
    ∀ {m s'}, m ≠ [] → interruptions (l ++ m) {} = .ok ((), s') → interruptions m d = .ok ((), s') := by
  by_cases hl : l = []
  · subst hl
    cases hs
    refine ⟨demarre, demarre_veille, demarre_suivi, ⟨fun h => absurd rfl h, rfl, rfl, rfl, rfl⟩, ?_⟩
    intro m s' hm hs'
    rw [← interruptions_demarre hm]
    exact hs'
  · have hw := wp_interruptions demarre_suivi (fun hv h hp => hp.suivi hv h) hl
    obtain ⟨hv, h⟩ := wp_ok hw hs
    refine ⟨s, hv, h, ⟨fun _ => rfl, rfl, rfl, rfl, rfl⟩, ?_⟩
    intro m s' hm hs'
    rw [← wp_run, interruptions, wp_forM_append] at hs'
    exact wp_run.mp ((wp_of_run hs).mp hs')

/-- A run that goes on is the run of its last events. -/
theorem exists_coups {ev : List (Nat × Bool)} (hs : interruptions l {} = .ok ((), s))
    (hs' : interruptions (l ++ m) {} = .ok ((), s')) (hev : touches 0 (l ++ m) = touches 0 l ++ ev)
    (hne : ev ≠ []) : ∃ d, d.Veille ∧ Suivi l d ∧ Reveil l s d ∧ Coups ev d s' := by
  obtain ⟨d, hv, hsuivi, ha, hrun⟩ := exists_reveil hs
  rw [touches_append, List.append_cancel_left_eq] at hev
  have hm : m ≠ [] := by
    rintro rfl
    exact hne hev.symm
  refine ⟨d, hv, hsuivi, ha, ?_⟩
  have hf := wp_ok (wp_coups m hv) (hrun hm hs')
  rw [hsuivi.prev, hev] at hf
  exact hf

/-- The number of keys held for a modifier. -/
theorem Pilote.Suivi.tenues {d : Pilote} (hs : Suivi l d) (v : Nat) :
    d.tenues v = ((Finset.range NR_KEYS).filter fun k =>
      modifieur k = some v ∧ enfoncee (touches 0 l) k = true).card := by
  rw [Finset.card_filter, Pilote.tenues, tenuesSous]
  refine Finset.sum_congr rfl fun k _ => ?_
  unfold tient
  rw [hs.down]
  simp only [and_comm]

/-- The bit of a modifier says whether one of its keys is held. -/
theorem Pilote.Suivi.bit {d : Pilote} (hs : Suivi l d) (hv : d.Veille) (hl : Loyale (touches 0 l)) (v : Nat) :
    d.shiftState.getLsbD v = true ↔ ∃ k, modifieur k = some v ∧ enfoncee (touches 0 l) k = true := by
  rw [(hs.juste hl).bit hv.regle, hs.down]
  simp only [and_comm]

/-- The modifiers of the driver are the keys held, provided that no modifier is released
without having been pressed: each counter counts them, and `shift_state` has the bits of
those that are held. -/
theorem modificateurs_tenus (hl : Loyale (touches 0 l)) (hs : interruptions l {} = .ok ((), s)) (v : Nat) :
    s.kDown v = ((Finset.range NR_KEYS).filter fun k =>
      modifieur k = some v ∧ enfoncee (touches 0 l) k = true).card ∧
    (s.shiftState.getLsbD v = true ↔ ∃ k, modifieur k = some v ∧ enfoncee (touches 0 l) k = true) := by
  obtain ⟨d, hv, hsuivi, ha, -⟩ := exists_reveil hs
  refine ⟨?_, ?_⟩
  · rw [← ha.kDown, (hsuivi.juste hl).compte v, hsuivi.tenues]
  · rw [← ha.shiftState]
    exact hsuivi.bit hv hl v

/-- CapsLock is typed, both shift keys and a letter are pressed, and the left shift key is
released: the right one is held. -/
theorem modificateurs_tenus_exemple : ∃ s,
    interruptions [0x3a, 0xba, 0x2a, 0x36, 0x10, 0xaa] {} = .ok ((), s) ∧
      s.kDown 0 = 1 ∧ s.shiftState.getLsbD 0 = true := by
  obtain ⟨s, hs⟩ := exists_interruptions [0x3a, 0xba, 0x2a, 0x36, 0x10, 0xaa]
  have hev : touches 0 [0x3a, 0xba, 0x2a, 0x36, 0x10, 0xaa] =
      [(58, false), (58, true), (42, false), (54, false), (16, false), (42, true)] := by decide +kernel
  have hl : Loyale (touches 0 [0x3a, 0xba, 0x2a, 0x36, 0x10, 0xaa]) := by
    rw [hev]
    have h₁ : Loyale [(58, false), (58, true)] := (Loyale.nil.press 58).release (by decide +kernel)
    have h₂ : Loyale [(58, false), (58, true), (42, false), (54, false), (16, false)] :=
      ((h₁.press 42).press 54).press 16
    exact h₂.release (by decide +kernel)
  obtain ⟨hn, hb⟩ := modificateurs_tenus hl hs 0
  rw [hev] at hn hb
  refine ⟨s, hs, hn.trans (by decide +kernel), hb.mpr ⟨54, by decide +kernel, by decide +kernel⟩⟩

-- ---------------------------------------------------------------------------
-- Auto-repeat
-- ---------------------------------------------------------------------------

/-- A key that repeats sends the same strings each time; after its first press it changes
neither the modifiers nor the flags of the leds. -/
theorem repetition_touche {n : List (BitVec 32)} {s₁ s₂ : Pilote} (hl : Loyale (touches 0 l))
    (hs : interruptions l {} = .ok ((), s)) (hs₁ : interruptions (l ++ m) {} = .ok ((), s₁))
    (hs₂ : interruptions (l ++ m ++ n) {} = .ok ((), s₂))
    (hm : touches 0 (l ++ m) = touches 0 l ++ [(k, false)])
    (hn : touches 0 (l ++ m ++ n) = touches 0 (l ++ m) ++ [(k, false)]) :
    ∃ e, s₁.envois = s.envois ++ e ∧ s₂.envois = s₁.envois ++ e ∧
      s₂.shiftState = s₁.shiftState ∧ s₂.kbd = s₁.kbd := by
  obtain ⟨d, hv, hsuivi, ha, hf⟩ := exists_coups hs hs₁ hm (List.cons_ne_nil _ _)
  obtain ⟨d₁, hv₁, -, ha₁, hf₁⟩ := exists_coups hs₁ hs₂ hn (List.cons_ne_nil _ _)
  have hne : l ++ m ≠ [] := by
    intro h
    rw [h] at hm
    exact List.cons_ne_nil _ _ (List.append_eq_nil_iff.mp hm.symm).2
  obtain rfl := ha₁.egal hne
  obtain ⟨e, h₁, h₂⟩ := hf.une.repetition hf₁.une hv.regle (hsuivi.juste hl)
  exact ⟨e, by rw [h₁, ha.envois], h₂⟩

/-- A letter held down. -/
theorem repetition_touche_exemple : ∃ s₁ s₂ e, interruptions [0x10] {} = .ok ((), s₁) ∧
    interruptions [0x10, 0x10] {} = .ok ((), s₂) ∧ s₁.envois = e ∧ s₂.envois = s₁.envois ++ e := by
  obtain ⟨s₁, hs₁⟩ := exists_interruptions [0x10]
  obtain ⟨s₂, hs₂⟩ := exists_interruptions [0x10, 0x10]
  obtain ⟨e, h₁, h₂, -⟩ := repetition_touche (l := []) (m := [0x10]) (n := [0x10]) Loyale.nil rfl hs₁ hs₂
    (k := 16) (by decide) (by decide)
  exact ⟨s₁, s₂, e, hs₁, hs₂, h₁, h₂⟩

-- ---------------------------------------------------------------------------
-- Letters
-- ---------------------------------------------------------------------------

def lettresValides : Bool :=
  (plainMap.zip shiftMap).all fun c => ktyp c.1 ≠ 0xfb ||
    (97 ≤ kval c.1 && kval c.1 ≤ 122 && ktyp c.2 == 0xfb && kval c.2 == kval c.1 - 32)

theorem lettres_valides : lettresValides = true := by decide +kernel

/-- The letters of the plain keymap are lower case, those of the shift keymap their upper
case. -/
theorem lettre_valide (hk : ktyp (carte plainMap k) = 0xfb) :
    (97 ≤ kval (carte plainMap k) ∧ kval (carte plainMap k) ≤ 122) ∧ ktyp (carte shiftMap k) = 0xfb ∧
      kval (carte shiftMap k) = kval (carte plainMap k) - 32 := by
  have hplain := length_plainMap
  have hshift : shiftMap.length = 128 := (carte_connue (List.mem_cons_of_mem _ List.mem_cons_self)).1
  by_cases hlt : k < 128
  · have hmem : (plainMap.zip shiftMap)[k]? = some (carte plainMap k, carte shiftMap k) := by
      rw [List.getElem?_zip_eq_some]
      unfold carte
      rw [List.getD_eq_getElem?_getD, List.getD_eq_getElem?_getD,
        List.getElem?_eq_getElem (hplain ▸ hlt), List.getElem?_eq_getElem (hshift ▸ hlt)]
      exact ⟨rfl, rfl⟩
    have h := List.all_eq_true.mp lettres_valides _ (List.mem_of_getElem? hmem)
    simpa [hk, and_assoc] using h
  · rw [carte_hors (by omega)] at hk
    cases hk

/-- With no other modifier than shift, `shift_state` is 0 or 1. -/
theorem Pilote.Suivi.seulement_shift {d : Pilote} (hs : Suivi l d) (hv : d.Veille)
    (hl : Loyale (touches 0 l))
    (hm : ∀ i v, modifieur i = some v → enfoncee (touches 0 l) i = true → v = KG_SHIFT) :
    d.shiftState = if d.shiftState.getLsbD 0 = true then 1 else 0 := by
  have hautre : ∀ v, v ≠ 0 → d.shiftState.getLsbD v = false := by
    intro v hv0
    refine Bool.eq_false_iff.mpr fun h => ?_
    obtain ⟨i, hi, hd⟩ := (hs.bit hv hl v).mp h
    exact hv0 (hm i v hi hd)
  refine BitVec.eq_of_getLsbD_eq fun v _ => ?_
  by_cases hv0 : v = 0
  · subst hv0
    split
    · next h => exact h
    · next h => exact Bool.eq_false_iff.mpr h
  · rw [hautre v hv0]
    split
    · exact ((getLsbD_masque 0 v).trans (decide_eq_false fun h => hv0 h.1)).symm
    · exact BitVec.getLsbD_zero.symm

theorem caractere_ne {c : Nat} (h : 0 < c) (h' : c < 256) : caractere c = [UInt8.ofNat c] := by
  have hne : UInt8.ofNat c ≠ 0 := by
    intro h0
    have := congrArg UInt8.toNat h0
    rw [UInt8.toNat_ofNat', Nat.mod_eq_of_lt h'] at this
    exact absurd this (Nat.pos_iff_ne_zero.mp h)
  unfold caractere
  simp [hne]

/-- A letter is sent in upper case when exactly one of a shift key and CapsLock is on. -/
theorem lettre_tapee (hl : Loyale (touches 0 l)) (hs : interruptions l {} = .ok ((), s))
    (hs' : interruptions (l ++ m) {} = .ok ((), s'))
    (hm : touches 0 (l ++ m) = touches 0 l ++ [(k, false)]) (hk : ktyp (carte plainMap k) = 0xf0 + KT_LETTER)
    (hmod : ∀ i v, modifieur i = some v → enfoncee (touches 0 l) i = true → v = KG_SHIFT) :
    ∃ c, 97 ≤ c ∧ c ≤ 122 ∧ kval (carte plainMap k) = c ∧
      ((vcKbdLed s capslock = true ↔ ∃ i, modifieur i = some KG_SHIFT ∧ enfoncee (touches 0 l) i = true) →
        s'.envois = s.envois ++ [[UInt8.ofNat c]]) ∧
      (¬ (vcKbdLed s capslock = true ↔ ∃ i, modifieur i = some KG_SHIFT ∧ enfoncee (touches 0 l) i = true) →
        s'.envois = s.envois ++ [[UInt8.ofNat (c - 32)]]) := by
  obtain ⟨d, hv, hsuivi, ha, hf⟩ := exists_coups hs hs' hm (List.cons_ne_nil _ _)
  obtain ⟨⟨hc₁, hc₂⟩, hshift, hmaj⟩ := lettre_valide hk
  have hnone : modifieur k = none := if_neg (by rw [hk]; decide)
  have hseul := hsuivi.seulement_shift hv hl hmod
  have hcaps : vcKbdLed s capslock = vcKbdLed d capslock := by
    unfold vcKbdLed
    rw [ha.ledflag]
  -- the symbol of the key, then its character
  have envoie : ∀ c, 0 < c → c < 256 → d.symbole k = some (0, c) →
      s'.envois = s.envois ++ [[UInt8.ofNat c]] := by
    intro c h h' hsym
    rw [(hf.une.appui hnone hsym (by simp)).1, ha.envois, ← caractere_ne h h']
    rfl
  have hs₀ : carteDe 0 = some plainMap := rfl
  have hs₁ : carteDe 1 = some shiftMap := rfl
  refine ⟨_, hc₁, hc₂, rfl, ?_, ?_⟩
  · rw [hcaps, show KG_SHIFT = 0 from rfl, ← hsuivi.bit hv hl]
    intro hiff
    refine envoie _ (by omega) (by omega) ?_
    by_cases hb : d.shiftState.getLsbD 0 = true
    · rw [if_pos hb] at hseul
      have hx : (1 ^^^ masque KG_SHIFT : BitVec 32) = 0 := by decide
      rw [symbole, hseul, hs₁, Option.map_some, symboleLu, if_pos (by rw [hshift]; rfl), lettre,
        if_pos (hiff.mpr hb), hseul, hx, hs₀]
      rfl
    · rw [if_neg hb] at hseul
      rw [symbole, hseul, hs₀, Option.map_some, symboleLu, if_pos (by rw [hk]; rfl), lettre,
        if_neg fun h => hb (hiff.mp h)]
      rfl
  · rw [hcaps, show KG_SHIFT = 0 from rfl, ← hsuivi.bit hv hl]
    intro hiff
    rw [← hmaj]
    refine envoie _ (by omega) (by omega) ?_
    by_cases hb : d.shiftState.getLsbD 0 = true
    · rw [if_pos hb] at hseul
      rw [symbole, hseul, hs₁, Option.map_some, symboleLu, if_pos (by rw [hshift]; rfl), lettre,
        if_neg fun h => hiff ⟨fun _ => hb, fun _ => h⟩]
      rfl
    · rw [if_neg hb] at hseul
      have hcap : vcKbdLed d capslock = true := by
        by_contra h
        exact hiff ⟨fun h' => absurd h' h, fun h' => absurd h' hb⟩
      have hx : (0 ^^^ masque KG_SHIFT : BitVec 32) = 1 := by decide
      rw [symbole, hseul, hs₀, Option.map_some, symboleLu, if_pos (by rw [hk]; rfl), lettre, if_pos hcap,
        hseul, hx, hs₁]
      rfl

/-- With CapsLock on, a letter typed with Shift is lower case, and upper case once Shift is
released. -/
theorem lettre_tapee_exemple : ∃ s s',
    interruptions [0x3a, 0xba, 0x2a, 0x10, 0x90, 0xaa] {} = .ok ((), s) ∧
      interruptions [0x3a, 0xba, 0x2a, 0x10, 0x90, 0xaa, 0x10] {} = .ok ((), s') ∧
      s.envois = [[97]] ∧ s'.envois = [[97], [65]] := by
  obtain ⟨s, hs, hq⟩ := exists_interruptions_any (l := [0x3a, 0xba, 0x2a, 0x10, 0x90, 0xaa])
    (Q := fun s => vcKbdLed s capslock && decide (s.envois = [[97]])) (by decide +kernel)
  obtain ⟨hcaps, henv⟩ := (Bool.and_eq_true _ _).mp hq
  have henv : s.envois = [[97]] := of_decide_eq_true henv
  obtain ⟨s', hs'⟩ := exists_interruptions [0x3a, 0xba, 0x2a, 0x10, 0x90, 0xaa, 0x10]
  have hev : touches 0 [0x3a, 0xba, 0x2a, 0x10, 0x90, 0xaa] =
      [(58, false), (58, true), (42, false), (16, false), (16, true), (42, true)] := by decide +kernel
  have hl : Loyale (touches 0 [0x3a, 0xba, 0x2a, 0x10, 0x90, 0xaa]) := by
    rw [hev]
    have h₁ : Loyale [(58, false), (58, true)] := (Loyale.nil.press 58).release (by decide +kernel)
    have h₂ : Loyale [(58, false), (58, true), (42, false), (16, false), (16, true)] :=
      ((h₁.press 42).press 16).release (by decide +kernel)
    exact h₂.release (by decide +kernel)
  -- no modifier is held any more
  have hleve : ∀ i v, modifieur i = some v →
      enfoncee (touches 0 [0x3a, 0xba, 0x2a, 0x10, 0x90, 0xaa]) i = true → False := by
    intro i v hi h
    have hlt : i < 128 := by
      by_contra hlt
      rw [modifieur_hors (by omega)] at hi
      cases hi
    have hrien : ∀ i < 128, enfoncee (touches 0 [0x3a, 0xba, 0x2a, 0x10, 0x90, 0xaa]) i = false := by
      rw [hev]
      decide +kernel
    rw [hrien i hlt] at h
    cases h
  obtain ⟨c, -, -, hc, -, h⟩ := lettre_tapee (m := [0x10]) (k := 16) hl hs hs' (by decide +kernel)
    (by decide +kernel) fun i v hi he => (hleve i v hi he).elim
  have hc' : kval (carte plainMap 16) = 97 := by decide +kernel
  obtain rfl : c = 97 := hc.symm.trans hc'
  refine ⟨s, s', hs, hs', henv, ?_⟩
  rw [h, henv]
  · rfl
  · rintro hiff
    obtain ⟨i, hi, he⟩ := hiff.mp hcaps
    exact hleve i _ hi he

-- ---------------------------------------------------------------------------
-- Characters typed on the number pad
-- ---------------------------------------------------------------------------

/-- The key of a digit on the number pad. -/
def touchePave (d : Nat) : Nat := [82, 79, 80, 81, 75, 76, 77, 71, 72, 73].getD d 0

/-- The left Alt key. -/
def toucheAlt : Nat := 56

/-- A digit of the number pad, pressed and released. -/
def frappeChiffre (d : Nat) : List (Nat × Bool) := [(touchePave d, false), (touchePave d, true)]

/-- Digits typed on the number pad while Alt is held. -/
def codeAlt (ds : List Nat) : List (Nat × Bool) :=
  (toucheAlt, false) :: (ds.flatMap frappeChiffre ++ [(toucheAlt, true)])

/-- The number of a list of decimal digits, after the digits of `n`. -/
def nombre (n : Nat) (ds : List Nat) : Nat := ds.foldl (fun n d => 10 * n + d) n

theorem le_nombre (n : Nat) (ds : List Nat) : n ≤ nombre n ds := by
  induction ds generalizing n with
  | nil => exact le_rfl
  | cons d ds ih => exact le_trans (by omega) (ih (10 * n + d))

def chiffresValides : Bool :=
  (List.range 10).all fun d => modifieur (touchePave d) == none && decide (touchePave d ≠ toucheAlt) &&
    carte altMap (touchePave d) == 0xf900 + d

theorem chiffres_valides : chiffresValides = true := by decide +kernel

theorem chiffre_valide {d : Nat} (hd : d < 10) : modifieur (touchePave d) = none ∧
    touchePave d ≠ toucheAlt ∧ carte altMap (touchePave d) = 0xf900 + d := by
  have h := List.all_eq_true.mp chiffres_valides d (List.mem_range.mpr hd)
  simpa [and_assoc] using h

/-- The driver while Alt is held alone and a number is typed. -/
structure EnCours (s : Pilote) (n : Int) : Prop where
  regle : s.Regle
  juste : s.Juste
  down : s.keyDown toucheAlt = true
  seule : ∀ i, modifieur i ≠ none → s.keyDown i = true → i = toucheAlt
  npadch : s.npadch = n

theorem modifieur_alt : modifieur toucheAlt = some 3 := by decide

theorem EnCours.alt {n : Int} (h : EnCours s n) : s.shiftState = masque 3 := by
  refine BitVec.eq_of_getLsbD_eq fun v hv => ?_
  rw [getLsbD_masque, Bool.eq_iff_iff, h.juste.bit h.regle, decide_eq_true_eq]
  constructor
  · rintro ⟨i, hd, hi⟩
    rw [h.seule i (by rw [hi]; exact Option.some_ne_none v) hd, modifieur_alt, Option.some.injEq] at hi
    exact ⟨hi.symm, hv⟩
  · rintro ⟨rfl, -⟩
    exact ⟨toucheAlt, h.down, modifieur_alt⟩

theorem EnCours.symbole {n : Int} (h : EnCours s n) {d : Nat} (hd : d < 10) :
    s.symbole (touchePave d) = some (9, d) := by
  obtain ⟨-, -, hc⟩ := chiffre_valide hd
  have halt : carteDe (masque 3) = some altMap := rfl
  have ht : ktyp (0xf900 + d) - 0xf0 = 9 := by unfold ktyp; omega
  have hv : kval (0xf900 + d) = d := by unfold kval; omega
  rw [Pilote.symbole, h.alt, halt, Option.map_some, hc, symboleLu, if_neg (by rw [ht]; decide), ht, hv]

/-- One digit. -/
theorem EnCours.chiffre {n : Int} (h : EnCours s n) {d : Nat} (hd : d < 10)
    (hf : Coups (frappeChiffre d) s s') : EnCours s' (compose n d) ∧ s'.envois = s.envois := by
  obtain ⟨hm, hne, -⟩ := chiffre_valide hd
  have hsym := h.symbole hd
  obtain ⟨s₁, hp, h₂⟩ := hf.of_cons
  have hl := h₂.une
  obtain ⟨he, hn⟩ := hp.appui hm hsym (by simp)
  have hr₁ := hp.regle h.regle
  have hj₁ := hp.juste h.regle h.juste (by rintro ⟨⟩)
  have hd₁ : s₁.keyDown (touchePave d) = true := by rw [hp.keyDown, Function.update_self, Bool.not_false]
  have hen : EnCours s₁ (compose n d) := by
    refine ⟨hr₁, hj₁, ?_, fun i hi hd => ?_, ?_⟩
    · rw [hp.keyDown, Function.update_of_ne hne.symm]
      exact h.down
    · rw [hp.keyDown, Function.update_of_ne (by rintro rfl; exact hi hm)] at hd
      exact h.seule i hi hd
    · rw [hn, h.npadch]
      rfl
  obtain ⟨he', hn', -⟩ := hl.lache hm hd₁ (hen.symbole hd)
  refine ⟨⟨hl.regle hr₁, hl.juste hr₁ hj₁ fun _ _ => hd₁, ?_, fun i hi hd => ?_, hn'.trans hen.npadch⟩, ?_⟩
  · rw [hl.keyDown, Function.update_of_ne hne.symm]
    exact hen.down
  · rw [hl.keyDown, Function.update_of_ne (by rintro rfl; exact hi hm)] at hd
    exact hen.seule i hi hd
  · rw [he', he]
    exact List.append_nil _

theorem compose_chiffre {n d : Nat} (hd : d < 10) (h : 10 * n + d < 2 ^ 31) :
    compose n d = (10 * n + d : Nat) := by
  unfold compose
  simp only [if_pos hd]
  rw [if_neg (by omega), Int.bmod_eq_of_le (by omega) (by omega)]
  push_cast
  omega

/-- The digits that follow the first. -/
theorem EnCours.chiffres {n : Nat} (ds : List Nat) (h : EnCours s n) (hds : ∀ d ∈ ds, d < 10)
    (hlt : nombre n ds < 2 ^ 31) (hf : Coups (ds.flatMap frappeChiffre) s s') :
    EnCours s' (nombre n ds) ∧ s'.envois = s.envois := by
  induction ds generalizing n s with
  | nil =>
    cases hf with
    | fin p => exact ⟨⟨h.regle.avance p, h.juste.avance p, h.down, h.seule, h.npadch⟩, rfl⟩
  | cons d ds ih =>
    rw [List.flatMap_cons] at hf
    obtain ⟨s₁, h₁, h₂⟩ := hf.of_append
    have hd := hds d List.mem_cons_self
    have hle := le_nombre (10 * n + d) ds
    obtain ⟨hen, he⟩ := h.chiffre hd h₁
    rw [compose_chiffre hd (lt_of_le_of_lt hle hlt)] at hen
    obtain ⟨hen', he'⟩ := ih hen (fun x hx => hds x (List.mem_cons_of_mem _ hx)) hlt h₂
    exact ⟨hen', he'.trans he⟩

/-- The press of Alt, alone. -/
theorem EnCours.debut (hr : s.Regle) (hj : s.Juste) (hs : ∀ i, modifieur i ≠ none → s.keyDown i = false)
    (hf : Coup (toucheAlt, false) s s') : EnCours s' (-1) ∧ s'.envois = s.envois := by
  have hzero : s.shiftState = 0 := by
    refine BitVec.eq_of_getLsbD_eq fun v _ => ?_
    refine (Bool.eq_false_iff.mpr fun h => ?_).trans BitVec.getLsbD_zero.symm
    obtain ⟨i, hd, hi⟩ := (hj.bit hr v).mp h
    rw [hs i (by rw [hi]; exact Option.some_ne_none v)] at hd
    cases hd
  have hdown : s.keyDown toucheAlt = false := hs _ (by rw [modifieur_alt]; exact Option.some_ne_none 3)
  have hplain : carteDe s.shiftState = some plainMap := by
    rw [hzero]
    rfl
  refine ⟨⟨hf.regle hr, hf.juste hr hj (by rintro ⟨⟩), ?_, fun i hi hd => ?_, ?_⟩,
    hf.press_modifieur modifieur_alt⟩
  · rw [hf.keyDown, Function.update_self, Bool.not_false]
  · by_contra hne
    rw [hf.keyDown, Function.update_of_ne hne, hs i hi] at hd
    cases hd
  · obtain ⟨p, q, rfl⟩ := hf.bascule modifieur_alt hplain
    have hnp := hj.repos hzero
    obtain ⟨-, -, h⟩ := apresShift_eq (s := (s.avance p).note toucheAlt false) hdown hj.rendu 3
      (s.relachee toucheAlt false)
    refine (montre_npadch _).trans ?_
    rcases h with h | ⟨h, -⟩
    · exact h
    · exact h.trans hnp

/-- The release of Alt. -/
theorem EnCours.fin {n : Nat} (h : EnCours s n) (hf : Coup (toucheAlt, true) s s') :
    s'.envois = s.envois ++ [caractere (n % 256)] ∧ s'.shiftState = 0 := by
  have hzero : s'.shiftState = 0 := by
    refine BitVec.eq_of_getLsbD_eq fun v _ => ?_
    refine (Bool.eq_false_iff.mpr fun hb => ?_).trans BitVec.getLsbD_zero.symm
    obtain ⟨i, hd, hi⟩ := ((hf.juste h.regle h.juste fun _ _ => h.down).bit (hf.regle h.regle) v).mp hb
    rw [hf.keyDown] at hd
    by_cases he : i = toucheAlt
    · rw [he, Function.update_self] at hd
      cases hd
    · rw [Function.update_of_ne he] at hd
      exact he (h.seule i (by rw [hi]; exact Option.some_ne_none v) hd)
  refine ⟨?_, hzero⟩
  have halt : carteDe s.shiftState = some altMap := by
    rw [h.alt]
    rfl
  have hrel : s.relachee toucheAlt true = true := by
    unfold relachee
    rw [h.down, Bool.true_or, Bool.true_and]
  obtain ⟨p, q, rfl⟩ := hf.bascule modifieur_alt halt
  rw [hrel] at hzero ⊢
  have hbits := (apresShift_eq (s := (s.avance p).note toucheAlt true) rfl h.juste.rendu 3 true).2.1
  have hvide : ((s.avance p).note toucheAlt true).apresShift 3 true =
      (((s.avance p).note toucheAlt true).bascule 3 true).vide := by
    unfold apresShift
    rw [if_neg (by rintro ⟨⟩)]
    dsimp only
    refine if_pos ⟨rfl, ?_, ?_⟩
    · rw [← hbits, ← montre_shiftState]
      show _ ≠ s.shiftState
      rw [show (((s.avance p).note toucheAlt true).apresShift 3 true).montre.shiftState = 0 from hzero, h.alt]
      decide
    · show s.npadch ≠ -1
      rw [h.npadch]
      omega
  refine (montre_envois _).trans ?_
  rw [hvide, vide_eq]
  show s.envois ++ [caractere (s.npadch % 256).toNat] = _
  rw [h.npadch]
  rfl

/-- A number typed on the number pad while Alt is held sends one string when Alt is
released: the last byte of the number, or nothing when this byte is 0; the keys typed send
nothing. -/
theorem code_alt {ds : List Nat} (hl : Loyale (touches 0 l)) (hs : interruptions l {} = .ok ((), s))
    (hs' : interruptions (l ++ m) {} = .ok ((), s'))
    (hm : touches 0 (l ++ m) = touches 0 l ++ codeAlt ds)
    (hmod : ∀ i, modifieur i ≠ none → enfoncee (touches 0 l) i = false) (hne : ds ≠ [])
    (hds : ∀ d ∈ ds, d < 10) (hlt : nombre 0 ds < 2 ^ 31) :
    s'.envois = s.envois ++ [caractere (nombre 0 ds % 256)] ∧ s'.shiftState = 0 := by
  obtain ⟨d, hv, hsuivi, ha, hf⟩ := exists_coups hs hs' hm (List.cons_ne_nil _ _)
  have hrien : ∀ i, modifieur i ≠ none → d.keyDown i = false := by
    intro i hi
    rw [hsuivi.down]
    exact hmod i hi
  obtain ⟨d₁, hf₁, hf⟩ := hf.of_cons
  obtain ⟨d₂, hf₂, hf₃⟩ := hf.of_append
  obtain ⟨h₁, he₁⟩ := EnCours.debut hv.regle (hsuivi.juste hl) hrien hf₁
  rw [← ha.envois, ← he₁]
  cases ds with
  | nil => exact absurd rfl hne
  | cons c ds =>
    have hc := hds c List.mem_cons_self
    have hnombre : nombre 0 (c :: ds) = nombre c ds := by
      unfold nombre
      rw [List.foldl_cons, Nat.mul_zero, Nat.zero_add]
    rw [List.flatMap_cons] at hf₂
    rw [hnombre] at hlt ⊢
    obtain ⟨d₃, hf₄, hf₅⟩ := hf₂.of_append
    obtain ⟨h₂, he₂⟩ := h₁.chiffre hc hf₄
    have hpremier : compose (-1) c = (c : Nat) := by
      unfold compose
      simp only [if_pos hc, if_true]
    rw [hpremier] at h₂
    obtain ⟨h₃, he₃⟩ := h₂.chiffres ds (fun x hx => hds x (List.mem_cons_of_mem _ hx)) hlt hf₅
    rw [← he₂, ← he₃]
    exact h₃.fin hf₃.une

/-- Alt, 6, 5: an upper case A. -/
theorem code_alt_exemple : ∃ s', interruptions [0x38, 0x4d, 0xcd, 0x4c, 0xcc, 0xb8] {} = .ok ((), s') ∧
    s'.envois = [[65]] := by
  obtain ⟨s', hs'⟩ := exists_interruptions [0x38, 0x4d, 0xcd, 0x4c, 0xcc, 0xb8]
  have hm : touches 0 ([] ++ [0x38, 0x4d, 0xcd, 0x4c, 0xcc, 0xb8]) = touches 0 [] ++ codeAlt [6, 5] := by
    decide
  have h := code_alt (l := []) (s := {}) Loyale.nil rfl hs' hm (fun _ _ => rfl) (by decide) (by decide) (by decide)
  exact ⟨s', hs', h.1⟩

-- a number typed before `keyboard_data` has returned to `do_shift` continues the one before
example : ((activations [.scancode 0x38 true, .scancode 0x4d true, .scancode 0xcd true,
    .scancode 0xb8 false, .scancode 0x38 true, .scancode 0x4c true, .scancode 0xcc true,
    .scancode 0xb8 true] {}).toOption.map fun x => x.2.envois) = some [[6], [65]] := by decide +kernel

end GenesisOS
