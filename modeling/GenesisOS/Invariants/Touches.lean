import Mathlib.Algebra.Order.BigOperators.Group.Finset
import GenesisOS.Invariants.Scancodes

/-!
# GenesisOS — the keys that are down

`enfoncee` reads in the events of a run whether a key is down. The driver agrees with it
(`Suivi`), and its counters of modifiers agree too as long as no modifier is released
without having been pressed (`Loyale`): for the right control key and AltGr, such a
release counts as a press in `handle_scancode`.
-/

namespace GenesisOS

open Lib Pilote

-- ---------------------------------------------------------------------------
-- Events
-- ---------------------------------------------------------------------------

/-- Whether the last event of the key is a press. -/
def enfoncee (ev : List (Nat × Bool)) (k : Nat) : Bool :=
  ev.foldl (fun b e => if e.1 = k then !e.2 else b) false

/-- `prev_scancode` after a sequence of scancodes. -/
def prevApres (prev : Nat) (l : List (BitVec 32)) : Nat := l.foldl (fun p sc => (evenement p sc).1) prev

/-- A modifier is released only when it is down. -/
def Loyale (ev : List (Nat × Bool)) : Prop :=
  ∀ p k, p ++ [(k, true)] <+: ev → modifieur k ≠ none → enfoncee p k = true

theorem enfoncee_concat (ev : List (Nat × Bool)) (k : Nat) (up : Bool) :
    enfoncee (ev ++ [(k, up)]) = Function.update (enfoncee ev) k !up := by
  funext i
  unfold enfoncee
  rw [List.foldl_append, List.foldl_cons, List.foldl_nil, Function.update_apply]
  by_cases hi : i = k
  · rw [if_pos hi.symm, if_pos hi]
  · rw [if_neg fun h => hi h.symm, if_neg hi]

theorem touches_append (prev : Nat) (l m : List (BitVec 32)) :
    touches prev (l ++ m) = touches prev l ++ touches (prevApres prev l) m := by
  induction l generalizing prev with
  | nil => rfl
  | cons sc l ih =>
    rw [List.cons_append, touches, touches, ih, List.append_assoc]
    rfl

theorem Loyale.of_append {p q : List (Nat × Bool)} (h : Loyale (p ++ q)) : Loyale p :=
  fun r k hr => h r k (hr.trans (List.prefix_append p q))

theorem Loyale.nil : Loyale [] := by
  intro p k h
  have hlen := h.length_le
  rw [List.length_append] at hlen
  cases hlen

/-- A press cannot be disloyal. -/
theorem Loyale.press {ev : List (Nat × Bool)} (h : Loyale ev) (k : Nat) : Loyale (ev ++ [(k, false)]) := by
  intro p i hp hm
  rcases List.prefix_concat_iff.mp hp with he | hp
  · cases (List.append_inj_right' he rfl)
  · exact h p i hp hm

/-- A release is loyal when the key is down, or is no modifier. -/
theorem Loyale.release {ev : List (Nat × Bool)} (h : Loyale ev) {k : Nat}
    (hk : modifieur k ≠ none → enfoncee ev k = true) : Loyale (ev ++ [(k, true)]) := by
  intro p i hp hm
  rcases List.prefix_concat_iff.mp hp with he | hp
  · obtain ⟨rfl, hx⟩ := List.append_inj' he rfl
    cases hx
    exact hk hm
  · exact h p i hp hm

namespace Pilote

variable {s s' : Pilote} {k v : Nat} {up : Bool}

-- ---------------------------------------------------------------------------
-- The keys held for a modifier
-- ---------------------------------------------------------------------------

theorem tenues_congr (h : s'.keyDown = s.keyDown) (v : Nat) : s'.tenues v = s.tenues v := by
  unfold tenues tenuesSous tient
  rw [h]

/-- One key changes. -/
theorem tenues_note (hk : k < NR_KEYS) (up : Bool) (v : Nat) :
    (s.note k up).tenues v + s.tient v k = s.tenues v + (s.note k up).tient v k := by
  have hmem := Finset.mem_range.mpr hk
  unfold tenues tenuesSous
  rw [← Finset.add_sum_erase _ _ hmem, ← Finset.add_sum_erase _ (s.tient v) hmem]
  have hreste : ∑ i ∈ (Finset.range NR_KEYS).erase k, (s.note k up).tient v i =
      ∑ i ∈ (Finset.range NR_KEYS).erase k, s.tient v i := by
    refine Finset.sum_congr rfl fun i hi => ?_
    have hi' : (s.note k up).keyDown i = s.keyDown i := Function.update_of_ne (Finset.ne_of_mem_erase hi) _ _
    unfold tient
    rw [hi']
  omega

theorem tient_note (v : Nat) : (s.note k up).tient v k = if up = false ∧ modifieur k = some v then 1 else 0 := by
  have hk : (s.note k up).keyDown k = true ↔ up = false := by
    rw [show (s.note k up).keyDown k = !up from Function.update_self .., Bool.not_eq_true']
  unfold tient
  simp only [hk]

theorem tient_autre (h : modifieur k ≠ some v) : s.tient v k = 0 := if_neg fun hx => h hx.2

/-- A key that is not of the modifier changes nothing. -/
theorem tenues_autre (hk : k < NR_KEYS) (h : modifieur k ≠ some v) :
    (s.note k up).tenues v = s.tenues v := by
  have ht := tenues_note (s := s) hk up v
  have h₁ : s.tient v k = 0 := tient_autre h
  have h₂ : (s.note k up).tient v k = 0 := tient_autre h
  omega

/-- The keys of a modifier are fewer than a counter can count. -/
theorem tenues_lt (s : Pilote) (v : Nat) : s.tenues v ≤ 255 := by
  have h255 : s.tient v 255 = 0 := by
    refine tient_autre ?_
    rw [modifieur_hors (by decide)]
    rintro ⟨⟩
  have hle := s.tenuesSous_le v 255
  have hs : s.tenues v = s.tenuesSous v 255 + s.tient v 255 := Finset.sum_range_succ _ _
  omega

/-- The counters are those of the keys that are down, and the number pad has nothing to
send when no modifier is held: `keyboard_data` has returned each time. -/
structure Juste (s : Pilote) : Prop where
  compte : ∀ v, s.kDown v = s.tenues v
  repos : s.shiftState = 0 → s.npadch = -1
  rendu : s.rend = true

theorem Bits.zero (h : s.Bits) (hs : s.shiftState = 0) (v : Nat) : s.kDown v = 0 := by
  have hb := (h.bit v).symm
  rw [hs] at hb
  exact not_not.mp (of_decide_eq_false (hb.trans BitVec.getLsbD_zero))

/-- A modifier is on when one of its keys is down. -/
theorem Juste.bit (hj : s.Juste) (hr : s.Regle) (v : Nat) :
    s.shiftState.getLsbD v = true ↔ ∃ k, s.keyDown k = true ∧ modifieur k = some v := by
  rw [hr.bits.bit, decide_eq_true_eq, hj.compte, tenues, tenuesSous]
  constructor
  · intro h
    obtain ⟨k, -, hk⟩ := Finset.exists_ne_zero_of_sum_ne_zero h
    exact ⟨k, by_contra fun hn => hk (if_neg hn)⟩
  · rintro ⟨k, hk⟩ h
    have hlt : k < NR_KEYS := by
      by_contra hlt
      rw [modifieur_hors (by unfold NR_KEYS at hlt; omega)] at hk
      cases hk.2
    have h0 := Finset.sum_eq_zero_iff.mp h k (Finset.mem_range.mpr hlt)
    unfold tient at h0
    rw [if_pos hk] at h0
    cases h0

theorem Bits.eq_zero (h : s.Bits) (hz : ∀ v, s.kDown v = 0) : s.shiftState = 0 := by
  refine BitVec.eq_of_getLsbD_eq fun v _ => ?_
  rw [h.bit, hz, decide_eq_false (not_not_intro rfl)]
  exact BitVec.getLsbD_zero.symm

/-- After a modifier that does not repeat. -/
theorem apresShift_eq (hrep : s.rep = false) (hrend : s.rend = true) (v : Nat) (up : Bool) :
    (s.apresShift v up).kDown = (s.bascule v up).kDown ∧
    (s.apresShift v up).shiftState = (s.bascule v up).shiftState ∧
    ((s.apresShift v up).npadch = -1 ∨
      (s.apresShift v up).npadch = s.npadch ∧ (up = true → (s.bascule v up).shiftState = s.shiftState)) := by
  unfold apresShift
  rw [if_neg (by rw [hrep]; exact Bool.false_ne_true)]
  dsimp only
  split
  · rw [vide, if_pos (show (s.bascule v up).rend = true from hrend)]
    exact ⟨rfl, rfl, .inl rfl⟩
  · next h =>
    refine ⟨rfl, rfl, ?_⟩
    by_cases hn : s.npadch = -1
    · exact .inl hn
    · refine .inr ⟨rfl, fun hup => ?_⟩
      by_contra hne
      exact h ⟨hup, hne, hn⟩

/-- The combinations of modifiers that have no keymap have two of them. -/
theorem carteDe_none {i : BitVec 32} (hi : i.toNat < 16) (h : carteDe i = none) :
    ∃ v w, v ≠ w ∧ i.getLsbD v = true ∧ i.getLsbD w = true := by
  have hdeux : ∀ n < 16, (keyMaps.getD n none).isNone = true →
      ∃ v < 4, ∃ w < 4, v ≠ w ∧ n.testBit v = true ∧ n.testBit w = true := by decide
  obtain ⟨v, -, w, -, hvw, hv, hw⟩ := hdeux _ hi (by rw [show keyMaps.getD i.toNat none = none from h]; rfl)
  exact ⟨v, w, hvw, hv, hw⟩

theorem plainMap_ascii : (plainMap.all fun x => ktyp x ≠ 0xf9) = true := by decide +kernel

/-- The plain keymap has no digit for the number pad. -/
theorem ktyp_plain_ne (k : Nat) : ktyp (carte plainMap k) ≠ 0xf9 := by
  by_cases hk : k < plainMap.length
  · rw [carte, List.getD_eq_getElem?_getD, List.getElem?_eq_getElem hk, Option.getD_some]
    exact of_decide_eq_true (List.all_eq_true.mp plainMap_ascii _ (List.getElem_mem hk))
  · rw [carte_hors (not_lt.mp hk)]
    decide

theorem symboleLu_neuf {x : Nat} (hx : Symbole k x) (h : (s.symboleLu k x).1 = 9) : ktyp x = 0xf9 := by
  have ht := hx.type
  unfold symboleLu at h
  split at h
  · cases h
  · dsimp only at h
    omega

/-- A key keeps the counters right, unless a modifier is released that was not down. -/
theorem Effet.juste (he : Effet k (s.relachee k up) (s.note k up) s') (hr : s.Regle) (hj : s.Juste)
    (hk : k < 128) (hup : up = true → modifieur k ≠ none → s.keyDown k = true) : s'.Juste := by
  have hk' : k < NR_KEYS := by unfold NR_KEYS; omega
  have hr' := he.regle (hr.note k up)
  have hcadre := he.cadre
  have hrend := hcadre.rend.trans hj.rendu
  have htenues := tenues_congr hcadre.keyDown
  have hnote : (s.note k up).kDown = s.kDown := rfl
  cases he with
  | recompte h hs hb hc =>
    refine ⟨fun v => (hc v).trans (htenues v).symm, fun h0 => ?_, hrend⟩
    have hnp : s'.npadch = s.npadch := by
      rw [SaufModifieurs] at hs
      rw [hs]
      rfl
    rw [hnp]
    -- no key counts for a modifier any more
    have hzero : ∀ v, (s.note k up).tenues v = 0 := fun v => by rw [← hc v, hb.zero h0 v]
    have hseul : ∀ v, s.kDown v ≠ 0 → modifieur k = some v := by
      intro v hv
      by_contra hm
      have h1 : (s.note k up).tenues v = s.tenues v := tenues_autre hk' hm
      rw [hj.compte v, ← h1, hzero v] at hv
      exact hv rfl
    rcases h with h | ⟨hup', h⟩
    · obtain ⟨v, w, hvw, hv, hw⟩ := carteDe_none hr.bits.lt (Option.map_eq_none_iff.mp h)
      rw [hr.bits.bit, decide_eq_true_eq] at hv hw
      exact absurd (Option.some.inj ((hseul v hv).symm.trans (hseul w hw))) hvw
    · have hm : modifieur k = none := by
        cases hm : modifieur k with
        | none => rfl
        | some v =>
          obtain ⟨l, -, hx, hl⟩ := symbole_some h
          rw [(symboleLu_modif hx hm).2.2] at hl
          cases hl
      refine hj.repos (hr.bits.eq_zero fun v => ?_)
      by_contra hv
      rw [hm] at hseul
      cases hseul v hv
  | @bascule v h hm =>
    have hv := modifieur_lt hm
    -- the other modifiers
    have hautre : ∀ w, w ≠ v → (s.note k up).tenues w = s.tenues w := by
      intro w hw
      refine tenues_autre hk' ?_
      rw [hm]
      exact fun h => hw (Option.some.inj h).symm
    have ht := tenues_note (s := s) hk' up v
    rw [tient_note, hm] at ht
    cases up with
    | false =>
      rw [if_pos ⟨rfl, rfl⟩] at ht
      cases hd : s.keyDown k with
      | true =>
        -- the key repeats
        have hrep : (s.note k false).rep = true := hd
        have hs : s.tient v k = 1 := if_pos ⟨hd, hm⟩
        have hsame : (s.note k false).apresShift v (s.relachee k false) = s.note k false := if_pos hrep
        rw [hsame]
        refine ⟨fun w => ?_, hj.repos, hj.rendu⟩
        rw [hnote, hj.compte w]
        by_cases hw : w = v
        · subst hw
          omega
        · exact (hautre w hw).symm
      | false =>
        have hrep : (s.note k false).rep = false := hd
        have hs : s.tient v k = 0 := if_neg fun hx => by rw [hd] at hx; cases hx.1
        obtain ⟨h₁, h₂, h₃⟩ := apresShift_eq hrep hj.rendu v (s.relachee k false)
        have hmax := tenues_lt (s.note k false) v
        have hsuiv : (s.kDown v + 1) % 256 = s.tenues v + 1 := by
          rw [hj.compte v]
          exact Nat.mod_eq_of_lt (by omega)
        have hkd : ∀ w, ((s.note k false).apresShift v (s.relachee k false)).kDown w =
            (s.note k false).tenues w := by
          intro w
          rw [h₁]
          show Function.update s.kDown v ((s.kDown v + 1) % 256) w = _
          rw [Function.update_apply, hsuiv]
          by_cases hw : w = v
          · subst hw
            rw [if_pos rfl]
            omega
          · rw [if_neg hw, hautre w hw, hj.compte w]
        refine ⟨fun w => (hkd w).trans (htenues w).symm, fun h0 => ?_, hrend⟩
        have hz := hr'.bits.zero h0 v
        rw [hkd v] at hz
        omega
    | true =>
      have hd := hup rfl (by rw [hm]; exact Option.some_ne_none v)
      rw [if_neg (by rintro ⟨h, -⟩; cases h)] at ht
      have hrel : s.relachee k true = true := by
        unfold relachee
        rw [hd, Bool.true_or, Bool.true_and]
      have hs : s.tient v k = 1 := if_pos ⟨hd, hm⟩
      obtain ⟨h₁, h₂, h₃⟩ := apresShift_eq (s := s.note k true) rfl hj.rendu v (s.relachee k true)
      have hkd : ∀ w, ((s.note k true).apresShift v (s.relachee k true)).kDown w =
          (s.note k true).tenues w := by
        intro w
        rw [h₁, hrel]
        show Function.update s.kDown v (s.kDown v - 1) w = _
        rw [Function.update_apply, hj.compte v]
        by_cases hw : w = v
        · subst hw
          rw [if_pos rfl]
          omega
        · rw [if_neg hw, hautre w hw, hj.compte w]
      refine ⟨fun w => (hkd w).trans (htenues w).symm, fun h0 => ?_, hrend⟩
      rcases h₃ with h₃ | ⟨h₃, hsh⟩
      · exact h₃
      · rw [h₃]
        refine hj.repos ?_
        rw [h₂, hsh hrel] at h0
        exact h0
  | lache hup' h hm =>
    refine ⟨fun v => ?_, hj.repos, hj.rendu⟩
    rw [hnote, hj.compte v]
    refine (tenues_autre hk' ?_).symm
    rw [hm]
    rintro ⟨⟩
  | @appui c s' hup' h h0 hm ha =>
    have hkd : s'.kDown = s.kDown := by
      rw [ha.reste]
      rfl
    have hsh : s'.shiftState = s.shiftState := by
      rw [ha.reste]
      rfl
    refine ⟨fun v => ?_, fun hz => ?_, hrend⟩
    · rw [hkd, hj.compte v, htenues v]
      refine (tenues_autre hk' ?_).symm
      rw [hm]
      rintro ⟨⟩
    · rw [hsh] at hz
      rw [ha.npadch]
      split
      · next h9 =>
        exfalso
        obtain ⟨l, hl, hx, rfl⟩ := symbole_some h
        have hplain : carteDe (s.note k up).shiftState = some plainMap := by
          rw [show (s.note k up).shiftState = 0 from hz]
          rfl
        rw [hplain, Option.some.injEq] at hl
        subst hl
        exact ktyp_plain_ne k (symboleLu_neuf hx h9)
      · exact hj.repos hz

-- ---------------------------------------------------------------------------
-- Runs
-- ---------------------------------------------------------------------------

/-- The driver has followed the scancodes. -/
structure Suivi (l : List (BitVec 32)) (s : Pilote) : Prop where
  prev : s.prevScancode = prevApres 0 l
  down : s.keyDown = enfoncee (touches 0 l)
  juste : Loyale (touches 0 l) → s.Juste

theorem Juste.avance (h : s.Juste) (p : Nat) : (s.avance p).Juste := ⟨h.compte, h.repos, h.rendu⟩

theorem Juste.montre (h : s.Juste) : s.montre.Juste := by
  rw [montre_eq]
  exact ⟨h.compte, h.repos, h.rendu⟩

/-- A scancode is followed. -/
theorem Pas.suivi {l : List (BitVec 32)} {sc : BitVec 32} (hp : Pas sc s s') (hv : s.Veille)
    (h : Suivi l s) : Suivi (l ++ [sc]) s' := by
  have hprev : prevApres 0 (l ++ [sc]) = (evenement (prevApres 0 l) sc).1 := by
    unfold prevApres
    rw [List.foldl_append]
    rfl
  have htouches : touches 0 (l ++ [sc]) = touches 0 l ++ (evenement (prevApres 0 l) sc).2.toList := by
    rw [touches_append]
    exact congrArg _ (List.append_nil _)
  rw [← h.prev] at hprev htouches
  cases hp with
  | rien he =>
    rw [he] at hprev htouches
    rw [Option.toList_none, List.append_nil] at htouches
    refine ⟨hprev.symm, ?_, fun hl => ?_⟩
    · rw [htouches]
      exact h.down
    · rw [htouches] at hl
      exact (h.juste hl).avance _
  | @touche p k up s' he hk =>
    rw [he] at hprev htouches
    have hcadre := hk.cadre
    have hlt := evenement_lt he
    refine ⟨?_, ?_, fun hl => ?_⟩
    · rw [montre_eq]
      exact hcadre.prev.trans hprev.symm
    · rw [montre_keyDown, hcadre.keyDown, htouches]
      show Function.update s.keyDown k (!up) = _
      rw [h.down]
      exact (enfoncee_concat _ k up).symm
    · rw [htouches] at hl
      refine (hk.juste (hv.regle.avance p) ((h.juste hl.of_append).avance p) hlt ?_).montre
      rintro rfl hm
      show s.keyDown k = true
      rw [h.down]
      exact hl _ k (List.prefix_refl _) hm

theorem demarre_juste : demarre.Juste := by
  refine ⟨fun v => ?_, fun _ => rfl, rfl⟩
  have hz : ∀ k, demarre.tient v k = 0 := fun k => if_neg (by rintro ⟨h, -⟩; cases h)
  have hs : demarre.tenues v = 0 := by
    unfold tenues tenuesSous
    exact Finset.sum_eq_zero fun k _ => hz k
  rw [hs]
  rfl

theorem demarre_suivi : Suivi [] demarre := ⟨rfl, rfl, fun _ => demarre_juste⟩

-- ---------------------------------------------------------------------------
-- Runs as events
-- ---------------------------------------------------------------------------

/-- One event. -/
def Coup (e : Nat × Bool) (s s' : Pilote) : Prop :=
  ∃ p q s₁, e.1 < 128 ∧ Effet e.1 (s.relachee e.1 e.2) ((s.avance p).note e.1 e.2) s₁ ∧
    s' = s₁.montre.avance q

/-- The events of a run. -/
inductive Coups : List (Nat × Bool) → Pilote → Pilote → Prop
  | fin {s : Pilote} (p : Nat) : Coups [] s (s.avance p)
  | suite {e : Nat × Bool} {ev : List (Nat × Bool)} {s s₁ s' : Pilote} (h : Coup e s s₁)
      (h' : Coups ev s₁ s') : Coups (e :: ev) s s'

theorem Coup.of_avance {e : Nat × Bool} {p : Nat} (h : Coup e (s.avance p) s') : Coup e s s' := by
  obtain ⟨p', q, s₁, hlt, he, rfl⟩ := h
  exact ⟨p', q, s₁, hlt, he, rfl⟩

theorem Coups.of_avance {ev : List (Nat × Bool)} {p : Nat} (h : Coups ev (s.avance p) s') :
    Coups ev s s' := by
  cases h with
  | fin q => exact .fin q
  | suite h h' => exact .suite h.of_avance h'

/-- A run of scancodes is the run of its events. -/
theorem wp_coups (m : List (BitVec 32)) (hs : s.Veille) :
    wp (fun _ => False) (interruptions m) (fun _ s' => Coups (touches s.prevScancode m) s s') s := by
  induction m generalizing s with
  | nil => exact .fin s.prevScancode
  | cons sc m ih =>
    show wp _ (doScancode sc >>= fun _ => interruptions m) _ s
    rw [wp_bind]
    refine wp_doScancode hs fun s' hp => ?_
    refine wp_imp (ih (hp.veille hs)) fun _ s'' h => ?_
    rw [touches]
    cases hp with
    | @rien p he =>
      rw [he, Option.toList_none, List.nil_append]
      exact h.of_avance
    | @touche p k up s₁ he hk =>
      have hprev : s₁.montre.prevScancode = p := by
        rw [montre_eq]
        exact hk.cadre.prev
      rw [hprev] at h
      rw [he]
      exact .suite ⟨p, s₁.montre.prevScancode, s₁, evenement_lt he, hk, rfl⟩ h

/-- What the events keep. -/
theorem Coup.regle {e : Nat × Bool} (h : Coup e s s') (hs : s.Regle) : s'.Regle := by
  obtain ⟨p, q, s₁, -, he, rfl⟩ := h
  exact (he.regle ((hs.avance p).note _ _)).montre.avance q

theorem Coup.juste (h : Coup (k, up) s s') (hs : s.Regle) (hj : s.Juste)
    (hup : up = true → modifieur k ≠ none → s.keyDown k = true) : s'.Juste := by
  obtain ⟨p, q, s₁, hlt, he, rfl⟩ := h
  exact ((Effet.juste (s := s.avance p) he (hs.avance p) (hj.avance p) hlt hup).montre).avance q

theorem Coup.keyDown (h : Coup (k, up) s s') : s'.keyDown = Function.update s.keyDown k !up := by
  obtain ⟨p, q, s₁, -, he, rfl⟩ := h
  exact (montre_keyDown s₁).trans he.cadre.keyDown

theorem Coup.avance {e : Nat × Bool} (h : Coup e s s') (p : Nat) : Coup e s (s'.avance p) := by
  obtain ⟨p', q, s₁, hlt, he, rfl⟩ := h
  exact ⟨p', p, s₁, hlt, he, rfl⟩

theorem Coups.une {e : Nat × Bool} (h : Coups [e] s s') : Coup e s s' := by
  cases h with
  | suite h h' =>
    cases h' with
    | fin p => exact h.avance p

-- ---------------------------------------------------------------------------
-- Keys that repeat
-- ---------------------------------------------------------------------------

/-- The bits of the modifiers are those of the counters. -/
theorem Bits.shiftState_eq (h : s.Bits) (h' : s'.Bits) (hk : ∀ v, s'.kDown v = s.kDown v) :
    s'.shiftState = s.shiftState := by
  refine BitVec.eq_of_getLsbD_eq fun v _ => ?_
  rw [h.bit, h'.bit, hk]

/-- Two drivers with the same keys down have the same modifiers. -/
theorem Juste.shiftState_eq (h : s.Regle) (h' : s'.Regle) (hj : s.Juste) (hj' : s'.Juste)
    (ht : ∀ v, s'.tenues v = s.tenues v) : s'.shiftState = s.shiftState :=
  h.bits.shiftState_eq h'.bits fun v => by rw [hj.compte, hj'.compte, ht]

theorem symbole_congr (hs : s'.shiftState = s.shiftState) (hk : s'.kbd = s.kbd) :
    s'.symbole k = s.symbole k := by
  unfold symbole symboleLu lettre vcKbdLed
  rw [hs, hk]

/-- The leds matter for letters only. -/
theorem symbole_fixe {c : Nat × Nat} (hs : s'.shiftState = s.shiftState) (h : s.symbole k = some c)
    (h0 : c.1 ≠ 0) : s'.symbole k = some c := by
  obtain ⟨l, hl, -, hc⟩ := symbole_some h
  unfold symbole
  rw [hs, hl, Option.map_some]
  unfold symboleLu at hc ⊢
  split at hc
  · subst hc
    exact absurd rfl h0
  · next hlet => rw [if_neg hlet, hc]

theorem textes_congr (h : s'.kbd = s.kbd) (hr : s'.rend = s.rend) (type value : Nat) :
    s'.textes type value = s.textes type value := by
  unfold textes avecMeta pave vcKbdLed
  rw [h, hr]

/-- The press of a modifier sends nothing. -/
theorem Effet.cas_modifieur (he : Effet k false s s') (hm : modifieur k = some v) :
    s'.envois = s.envois ∧ s'.kbd = s.kbd := by
  cases he with
  | recompte h hs hb hc =>
    rw [SaufModifieurs] at hs
    rw [hs]
    exact ⟨rfl, rfl⟩
  | bascule h hm =>
    unfold apresShift
    split
    · exact ⟨rfl, rfl⟩
    · dsimp only
      rw [if_neg (by rintro ⟨h, -⟩; cases h)]
      exact ⟨rfl, rfl⟩
  | lache hup h hm => exact ⟨rfl, rfl⟩
  | appui hup h h0 hm' ha =>
    rw [hm] at hm'
    cases hm'

/-- The press of another key is the recount, or what its symbol says. -/
theorem Effet.cas_appui (he : Effet k false s s') (hm : modifieur k = none) :
    ((s.symbole k = none ∨ s.symbole k = some (2, 0)) ∧ s'.envois = s.envois ∧ s'.kbd = s.kbd) ∨
    ∃ c, s.symbole k = some c ∧ c ≠ (2, 0) ∧ Appui c.1 c.2 s s' := by
  cases he with
  | recompte h hs hb hc =>
    rw [SaufModifieurs] at hs
    refine .inl ⟨?_, ?_⟩
    · rcases h with h | ⟨-, h⟩
      · exact .inl h
      · exact .inr h
    · rw [hs]
      exact ⟨rfl, rfl⟩
  | bascule h hm' =>
    rw [hm] at hm'
    cases hm'
  | lache hup h hm => cases hup
  | appui hup h h0 hm ha => exact .inr ⟨_, h, h0, ha⟩

/-- The press of a key that is down sends the same again, and changes no led. -/
theorem Effet.repetition {s₁ s₂ : Pilote} (he : Effet k false s s₁) (he' : Effet k false s' s₂)
    (hrep : s'.rep = true) (hs : modifieur k = none → s'.shiftState = s.shiftState)
    (hkbd : s'.kbd = s₁.kbd) (hrend : s'.rend = s.rend) :
    ∃ e, s₁.envois = s.envois ++ e ∧ s₂.envois = s'.envois ++ e ∧ s₂.kbd = s'.kbd := by
  cases hm : modifieur k with
  | some v =>
    obtain ⟨h₁, -⟩ := he.cas_modifieur hm
    obtain ⟨h₂, h₃⟩ := he'.cas_modifieur hm
    exact ⟨[], h₁.trans (List.append_nil _).symm, h₂.trans (List.append_nil _).symm, h₃⟩
  | none =>
    have hs := hs hm
    rcases he.cas_appui hm with ⟨hsym, h₁, h₂⟩ | ⟨c, hsym, h0, ha⟩
    · have hsym' := symbole_congr (k := k) hs (hkbd.trans h₂)
      rcases he'.cas_appui hm with ⟨-, h₃, h₄⟩ | ⟨c, hc, h0, -⟩
      · exact ⟨[], h₁.trans (List.append_nil _).symm, h₃.trans (List.append_nil _).symm, h₄⟩
      · rw [hsym'] at hc
        rcases hsym with h | h
        · rw [h] at hc
          cases hc
        · rw [h, Option.some.injEq] at hc
          exact absurd hc.symm h0
    · have hsame : c.1 ≠ 2 → s'.kbd = s.kbd := by
        intro h2
        rw [hkbd, ha.kbd, temoins, if_neg fun h => h2 h.1]
      have hsym' : s'.symbole k = some c := by
        by_cases h2 : c.1 = 2
        · exact symbole_fixe hs hsym (by omega)
        · rw [symbole_congr hs (hsame h2), hsym]
      have htextes : s'.textes c.1 c.2 = s.textes c.1 c.2 := by
        by_cases h2 : c.1 = 2
        · rw [h2]
          rfl
        · exact textes_congr (hsame h2) hrend _ _
      rcases he'.cas_appui hm with ⟨h, -, -⟩ | ⟨c', hc', -, ha'⟩
      · rw [hsym'] at h
        rcases h with h | h
        · cases h
        · exact absurd (Option.some.inj h) h0
      · rw [hsym', Option.some.injEq] at hc'
        subst hc'
        refine ⟨s.textes c.1 c.2, ha.envois, ?_, ?_⟩
        · rw [ha'.envois, htextes]
        · rw [ha'.kbd, temoins, if_neg]
          rintro ⟨-, h⟩
          rw [hrep] at h
          cases h

/-- The press of a key that is no modifier leaves the modifiers. -/
theorem Coup.shiftState (h : Coup (k, false) s s') (hs : s.Regle) (hj : s.Juste)
    (hm : modifieur k = none) : s'.shiftState = s.shiftState := by
  have hlt : k < NR_KEYS := by
    obtain ⟨_, _, _, hlt, -⟩ := h
    unfold NR_KEYS
    omega
  refine Juste.shiftState_eq hs (h.regle hs) hj (h.juste hs hj (by rintro ⟨⟩)) fun v => ?_
  rw [tenues_congr (s := s.note k false) h.keyDown v, tenues_autre hlt (by rw [hm]; rintro ⟨⟩)]

/-- Two presses in a row. -/
theorem Coup.repetition {s₁ s₂ : Pilote} (h : Coup (k, false) s s₁) (h' : Coup (k, false) s₁ s₂)
    (hs : s.Regle) (hj : s.Juste) : ∃ e, s₁.envois = s.envois ++ e ∧ s₂.envois = s₁.envois ++ e ∧
      s₂.shiftState = s₁.shiftState ∧ s₂.kbd = s₁.kbd := by
  have hs₁ := h.regle hs
  have hj₁ := h.juste hs hj (by rintro ⟨⟩)
  have hdown : s₁.keyDown k = true := by rw [h.keyDown, Function.update_self, Bool.not_false]
  have hrend : s₁.rend = s.rend := hj₁.rendu.trans hj.rendu.symm
  have hshift := h.shiftState hs hj
  have htenues : ∀ v, s₂.tenues v = s₁.tenues v := tenues_congr (by
    rw [h'.keyDown, Bool.not_false, ← hdown, Function.update_eq_self])
  have hshift' := Juste.shiftState_eq hs₁ (h'.regle hs₁) hj₁ (h'.juste hs₁ hj₁ (by rintro ⟨⟩)) htenues
  obtain ⟨p, q, a, -, hea, rfl⟩ := h
  obtain ⟨p', q', b, -, heb, rfl⟩ := h'
  obtain ⟨e, h₁, h₂, h₃⟩ := hea.repetition heb hdown (fun hm => (hshift hm)) (montre_kbd a) hrend
  exact ⟨e, (montre_envois a).trans h₁, (montre_envois b).trans h₂, hshift', (montre_kbd b).trans h₃⟩

-- ---------------------------------------------------------------------------
-- One press, one release
-- ---------------------------------------------------------------------------

theorem Coups.of_cons {e : Nat × Bool} {ev : List (Nat × Bool)} (h : Coups (e :: ev) s s') :
    ∃ s₁, Coup e s s₁ ∧ Coups ev s₁ s' := by
  cases h with
  | suite h h' => exact ⟨_, h, h'⟩

theorem Coups.of_append {ev ev' : List (Nat × Bool)} (h : Coups (ev ++ ev') s s') :
    ∃ s₁, Coups ev s s₁ ∧ Coups ev' s₁ s' := by
  induction ev generalizing s with
  | nil => exact ⟨s, .fin s.prevScancode, h⟩
  | cons e ev ih =>
    obtain ⟨s₀, h₀, h⟩ := h.of_cons
    obtain ⟨s₁, h₁, h₂⟩ := ih h
    exact ⟨s₁, .suite h₀ h₁, h₂⟩

/-- The press of a key that is no modifier, by its symbol. -/
theorem Coup.appui {c : Nat × Nat} (h : Coup (k, false) s s') (hm : modifieur k = none)
    (hc : s.symbole k = some c) (h0 : c ≠ (2, 0)) : s'.envois = s.envois ++ s.textes c.1 c.2 ∧
    s'.npadch = if c.1 = 9 then compose s.npadch c.2 else s.npadch := by
  obtain ⟨p, q, a, -, he, rfl⟩ := h
  have hsym : ((s.avance p).note k false).symbole k = some c := (symbole_congr rfl rfl).trans hc
  rcases he.cas_appui hm with ⟨h, -⟩ | ⟨c', hc', -, ha⟩
  · rw [hsym] at h
    rcases h with h | h
    · cases h
    · exact absurd (Option.some.inj h) h0
  · rw [hsym, Option.some.injEq] at hc'
    subst hc'
    have ht : ((s.avance p).note k false).textes c.1 c.2 = s.textes c.1 c.2 := textes_congr rfl rfl _ _
    refine ⟨(montre_envois a).trans ?_, (montre_npadch a).trans ha.npadch⟩
    rw [ha.envois, ht]
    rfl

/-- The press of a modifier sends nothing. -/
theorem Coup.press_modifieur (h : Coup (k, false) s s') (hm : modifieur k = some v) :
    s'.envois = s.envois := by
  obtain ⟨p, q, a, -, he, rfl⟩ := h
  exact (montre_envois a).trans (he.cas_modifieur hm).1

/-- The release of a key that is no modifier, in a keymap that exists. -/
theorem Coup.lache {c : Nat × Nat} (h : Coup (k, true) s s') (hm : modifieur k = none)
    (hd : s.keyDown k = true) (hc : s.symbole k = some c) : s'.envois = s.envois ∧
    s'.npadch = s.npadch ∧ s'.shiftState = s.shiftState := by
  obtain ⟨p, q, a, -, he, rfl⟩ := h
  have hrel : s.relachee k true = true := by
    unfold relachee
    rw [hd, Bool.true_or, Bool.true_and]
  have hsym : ((s.avance p).note k true).symbole k = some c := (symbole_congr rfl rfl).trans hc
  rw [hrel] at he
  cases he with
  | recompte h hs hb hc' =>
    rw [hsym] at h
    rcases h with h | ⟨h, -⟩
    · cases h
    · cases h
  | bascule h hm' =>
    rw [hm] at hm'
    cases hm'
  | lache hup h hm => exact ⟨montre_envois _, montre_npadch _, montre_shiftState _⟩
  | appui hup => cases hup

/-- A modifier in a keymap that exists. -/
theorem Coup.bascule (h : Coup (k, up) s s') (hm : modifieur k = some v) {l : List Nat}
    (hl : carteDe s.shiftState = some l) :
    ∃ p q, s' = (((s.avance p).note k up).apresShift v (s.relachee k up)).montre.avance q := by
  obtain ⟨p, q, a, -, he, rfl⟩ := h
  have hx := symbole_carte (carteDe_mem hl) k
  have hsym : ((s.avance p).note k up).symbole k = some (7, v) := by
    have hc : carteDe ((s.avance p).note k up).shiftState = some l := hl
    rw [symbole, hc, Option.map_some, (symboleLu_modif hx hm).2.2]
  refine ⟨p, q, ?_⟩
  cases he with
  | recompte h hs hb hc =>
    rw [hsym] at h
    rcases h with h | ⟨-, h⟩
    · cases h
    · cases h
  | bascule h hm' =>
    rw [hm, Option.some.injEq] at hm'
    subst hm'
    rfl
  | lache hup h hm' =>
    rw [hm] at hm'
    cases hm'
  | appui hup h h0 hm' =>
    rw [hm] at hm'
    cases hm'

end Pilote

end GenesisOS
