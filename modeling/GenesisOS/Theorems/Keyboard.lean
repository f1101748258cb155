import GenesisOS.Invariants.Keyboard
import GenesisOS.Refinement.Boot

/-!
# GenesisOS — the keyboard buffer is overrun by long lines only

The history keeps the whole string a `cons_read` returned, which may be longer
than `tampon`, and an arrow key copies it back (`RappelLong`). All other steps keep the buffer within its
bounds.
-/

namespace GenesisOS

open Lib

/-- The step recalls a line of the history that does not fit in `tampon`. -/
def RappelLong (c : Config) (e : Signal) : Prop :=
  match e with
  | .int33 str => c.s.toCore.Deborde (c.s.clavier.rappels 0 (str.takeWhile (· ≠ 0)))
  | .suite => ∃ reste, (c.s.tas c.s.procElu).contexte = .keyboardData reste ∧
      c.s.toCore.Deborde (c.s.clavier.rappels 0 reste)
  | _ => False

section

variable {c c' : Config} {e : Signal} {s s' : Kernel}

theorem Lecture.borne {string length : Nat} (h : Lecture s string length s')
    (hb : s.clavier.Borne) : s'.clavier.Borne where
  ptampon := by
    rw [h.ptampon]
    exact (Nat.sub_le _ _).trans hb.ptampon
  reste j hj := by
    rw [h.tampon]
    exact if_neg (not_lt.mpr (((Nat.sub_le _ _).trans hb.ptampon).trans hj))

/-- Popping the return point changes neither the lists nor the priorities. -/
theorem Core.Deborde.depile {s : Core} {l : List (Nat × Ligne)} {k : Reprise} :
    (s.maj s.procElu fun r => { r with contexte := k }).Deborde l ↔ s.Deborde l := by
  have hprio : ∀ x, ((s.maj s.procElu fun r => { r with contexte := k }).tas x).prio =
      (s.tas x).prio := by
    intro x
    rw [Core.tas_maj]
    split
    · next hx => rw [hx]
    · rfl
  have hrev : ∀ n, (s.maj s.procElu fun r => { r with contexte := k }).reveillesEs n =
      s.reveillesEs n := fun _ => rfl
  have helu : (s.maj s.procElu fun r => { r with contexte := k }).procElu = s.procElu := rfl
  unfold Core.Deborde
  simp only [hprio, hrev, helu]

/-- `cons_read` keeps the buffer within its bounds. -/
theorem wp_consRead_borne {E : Faute → Prop} {string length : Nat} (hE : ∀ f : Faute, f.Interne → E f)
    (hA : ∀ adr n, Admet E adr n) :
    wp E (consRead string length) (fun _ s' => s.clavier.Borne → s'.clavier.Borne) s := by
  refine wp_consRead hE (fun adr n _ => hA adr n) (fun _ => id) ?_ fun _ _ s' h => h.borne
  rintro - - s' rfl
  exact id

/-- The kernel code of a step leaves `tampon` exactly when it recalls a line that
does not fit. -/
theorem segment_tampon (hp : possible c e = true) :
    wp (fun f => f = .horsBornes .keyboardData → RappelLong c e) (segment c e)
      (fun _ s' => ¬ RappelLong c e ∧ (c.s.clavier.Borne → s'.clavier.Borne)) c.s := by
  have hE : ∀ f : Faute, f.Interne → f = .horsBornes .keyboardData → RappelLong c e := by
    rintro f hf rfl
    exact absurd .tampon hf
  have hA : ∀ adr n, Admet (fun f => f = .horsBornes .keyboardData → RappelLong c e) adr n :=
    fun _ _ => .inr nofun
  -- the loop of `keyboard_data` from the state `s`
  have frappe : ∀ {D : Prop} {m : M Suite} {s : Kernel}, Tient D m s → s.clavier = c.s.clavier →
      (RappelLong c e ↔ D) → wp (fun f => f = .horsBornes .keyboardData → RappelLong c e) m
        (fun _ s' => ¬ RappelLong c e ∧ (c.s.clavier.Borne → s'.clavier.Borne)) s := by
    intro D m s h hk hD
    refine wp_mono h ?_ fun _ s' hs' => ⟨fun hr => hs'.1 (hD.mp hr), fun hb => hs'.2 (hk ▸ hb)⟩
    rintro f (hf | ⟨rfl, hd⟩)
    · exact hE f hf
    · exact fun _ => hD.mpr hd
  by_cases hc : c.SansClavier e
  · have hlong : ¬ RappelLong c e := by
      cases e with
      | int33 str => exact hc.elim
      | suite =>
        rintro ⟨reste, hctx, -⟩
        unfold Config.SansClavier at hc
        dsimp only at hc
        rw [hctx] at hc
        exact hc
      | _ => exact id
    refine wp_imp (wp_segment_sobre hE (fun adr n _ => hA adr n) hc) fun _ s' hs' => ⟨hlong, ?_⟩
    rw [hs']
    exact id
  cases e with
  | int49 r =>
    have hsv : r.service = some .consRead := not_not.mp hc
    have hu : c.mode = .utilisateur ∧ c.s.procElu ≠ c.s.procIdle := of_decide_eq_true hp
    rw [segment, if_pos hu]
    unfold traitantIT49Switch
    rw [hsv]
    dsimp only
    split
    · exact ⟨id, id⟩
    · exact wp_imp (wp_consRead_borne hE hA) fun _ _ hs' => ⟨id, hs'⟩
  | int32 => exact absurd trivial hc
  | programme m => exact absurd trivial hc
  | int33 str =>
    have hu : c.mode = .utilisateur := of_decide_eq_true hp
    rw [segment, if_pos hu]
    exact frappe (tient_keyboardBoucle _ 0 c.s) rfl Iff.rfl
  | suite =>
    refine wp_segment_suite hE fun _ => ?_
    have hctx : ¬ (c.s.tas c.s.procElu).contexte.SansClavier := hc
    cases hk : (c.s.tas c.s.procElu).contexte with
    | consRead string length =>
      have hlong : ¬ RappelLong c .suite := by
        rintro ⟨reste, hctx, -⟩
        rw [hk] at hctx
        cases hctx
      exact wp_imp (wp_consRead_borne hE hA) fun _ _ hs' => ⟨hlong, hs'⟩
    | keyboardData reste =>
      refine frappe (tient_keyboardBoucle reste 0 _) rfl ?_
      rw [Core.Deborde.depile]
      constructor
      · rintro ⟨reste', hctx, h⟩
        rw [hk] at hctx
        cases hctx
        exact h
      · exact fun h => ⟨reste, hk, h⟩
    | keyboardFin =>
      have hlong : ¬ RappelLong c .suite := by
        rintro ⟨reste, hctx, -⟩
        rw [hk] at hctx
        cases hctx
      have h : Sobre keyboardFinReprise := .of_bind (sobre_traiteCar _) fun _ => .of_pure _
      refine wp_mono (h _) hE fun _ s' hs' => ⟨hlong, ?_⟩
      have hk' : s'.clavier = c.s.clavier := congrArg Prod.fst hs'
      rw [hk']
      exact id
    | _ =>
      rw [hk] at hctx
      exact absurd trivial hctx

/-- A step leaves `tampon` exactly when it recalls a line that does not fit, unless
it stops before at another fault. -/
theorem pas_tampon (hp : possible c e = true) :
    (∀ c', pas c e = .ok c' → ¬ RappelLong c e ∧ (c.s.clavier.Borne → c'.s.clavier.Borne)) ∧
      (pas c e = .error (.horsBornes .keyboardData) → RappelLong c e) := by
  have h : wp (fun f => f = .horsBornes .keyboardData → RappelLong c e) (segment c e >>= termine)
      (fun _ s' => ¬ RappelLong c e ∧ (c.s.clavier.Borne → s'.clavier.Borne)) c.s := by
    rw [wp_bind]
    refine wp_imp (segment_tampon hp) fun x s₁ h₁ => ?_
    refine wp_mono (sobre_termine x s₁) ?_ fun _ s₂ h₂ => ⟨h₁.1, fun hb => ?_⟩
    · rintro f hf rfl
      exact absurd .tampon hf
    · have hk : s₂.clavier = s₁.clavier := congrArg Prod.fst h₂
      rw [hk]
      exact h₁.2 hb
  unfold pas
  cases hm : (segment c e >>= termine) c.s with
  | ok r =>
    refine ⟨fun c' hc' => ?_, fun hf => (by cases hf)⟩
    cases hc'
    exact wp_ok h hm
  | error f =>
    refine ⟨fun c' hc' => (by cases hc'), fun hf => ?_⟩
    cases hf
    exact wp_error h hm rfl

/-- In every reachable configuration the buffer is within its bounds, and the next
step leaves it if and only if it recalls a line that does not fit, unless it stops
before at another fault. -/
theorem tampon_borne {c : Config} (h : Accessible c) :
    (c.s.clavier.ptampon ≤ BUFFER_SIZE ∧ ∀ j, BUFFER_SIZE ≤ j → c.s.clavier.tampon j = 0) ∧
      ∀ e, possible c e = true →
        (pas c e = .error (.horsBornes .keyboardData) → RappelLong c e) ∧
          (RappelLong c e → ∃ f, pas c e = .error f) := by
  have hb : c.s.clavier.Borne := by
    induction h with
    | depart h =>
      rw [depart_clavier h]
      exact ⟨Nat.zero_le _, fun _ _ => rfl⟩
    | pas hc hp _ h ih => exact ((pas_tampon hp).1 _ h).2 ih
  refine ⟨⟨hb.ptampon, hb.reste⟩, fun e hp => ⟨(pas_tampon hp).2, fun hr => ?_⟩⟩
  cases hpas : pas c e with
  | ok c' => exact absurd hr ((pas_tampon hp).1 c' hpas).1
  | error f => exact ⟨f, rfl⟩

end

/-- 256 characters after a carriage return, read by a `cons_read` of 257 bytes. -/
def lignePleine : List Signal :=
  [.suite, appel 18 0 0 0 0, .int33 (13 :: List.replicate 256 65), appel 19 0x1000100 257 0 0]

/-- Recalling the line of 256 characters writes its terminator after the buffer. -/
theorem tampon_deborde : ∃ c, Accessible c ∧ possible c (.int33 [27, 91, 65]) = true ∧
    pas c (.int33 [27, 91, 65]) = .error (.horsBornes .keyboardData) := by
  obtain ⟨c, hc, h⟩ := Accessible.scenario (l := lignePleine)
    (Q := fun c => echoue c (.int33 [27, 91, 65]) (.horsBornes .keyboardData)) (by decide +kernel)
  exact ⟨c, hc, of_echoue h⟩

/-- The recall above is one of a line that does not fit. -/
theorem tampon_borne_exemple : ∃ c, Accessible c ∧ c.s.clavier.ptampon ≤ BUFFER_SIZE ∧
    RappelLong c (.int33 [27, 91, 65]) := by
  obtain ⟨c, hc, h⟩ := Accessible.scenario (l := lignePleine)
    (Q := fun c => echoue c (.int33 [27, 91, 65]) (.horsBornes .keyboardData)) (by decide +kernel)
  obtain ⟨hp, hpas⟩ := of_echoue h
  have hb := tampon_borne hc
  exact ⟨c, hc, hb.1.1, (hb.2 _ hp).1 hpas⟩

end GenesisOS
