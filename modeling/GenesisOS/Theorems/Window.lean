import GenesisOS.Refinement.Accounts
import Mathlib.Data.List.DropRight

/-!
# GenesisOS — the history is a window on the lines recorded

A completed `cons_read` for several characters records a line and puts the cursor after
it; the arrow keys move the cursor within the window. At any time the window holds the
last lines recorded, in order, and each has a block of its own, so neither an arrow key
nor the eviction of the oldest line meets a missing or a freed one.
-/

namespace GenesisOS

open Lib

-- ---------------------------------------------------------------------------
-- The window
-- ---------------------------------------------------------------------------

namespace Clavier

variable {k : Clavier} {h : Ligne}

/-- The entries of the history in use, the oldest first. -/
def fenetre (k : Clavier) : List (Option Ligne) := (List.range k.indexHistory).map k.history

/-- A line is recorded, in the place of the oldest one when the history is full. -/
def enregistre (k : Clavier) (h : Ligne) : Clavier :=
  (if k.indexHistory = HISTORY_SIZE then k.decale else k).inscrit h

/-- The variables of the history. -/
def historique (k : Clavier) : (Nat → Option Ligne) × Nat × Nat :=
  (k.history, k.indexHistory, k.currentIndexHistory)

theorem fenetre_inscrit : (k.inscrit h).fenetre = k.fenetre ++ [some h] := by
  show (List.range (k.indexHistory + 1)).map (Function.update k.history k.indexHistory (some h)) = _
  rw [List.range_succ, List.map_append, List.map_singleton, Function.update_self]
  refine congrArg (· ++ [some h]) (List.map_congr_left fun j hj => ?_)
  rw [Function.update_of_ne (List.mem_range.mp hj).ne]

theorem fenetre_decale (hi : k.indexHistory = HISTORY_SIZE) : k.decale.fenetre = k.fenetre.tail := by
  unfold fenetre
  rw [hi, show k.decale.indexHistory = HISTORY_SIZE - 1 by show k.indexHistory - 1 = _; rw [hi],
    show HISTORY_SIZE = HISTORY_SIZE - 1 + 1 from rfl, List.range_succ_eq_map, List.map_cons,
    List.tail_cons, List.map_map]
  refine List.map_congr_left fun j hj => ?_
  exact if_pos (List.mem_range.mp hj)

/-- Recording a line pushes it into the window. -/
theorem fenetre_enregistre (hi : k.indexHistory ≤ HISTORY_SIZE) :
    (k.enregistre h).fenetre = (k.fenetre ++ [some h]).rtake HISTORY_SIZE := by
  have hlong : k.fenetre.length = k.indexHistory := by
    unfold fenetre
    rw [List.length_map, List.length_range]
  unfold enregistre
  rw [fenetre_inscrit]
  split
  · next hplein =>
    rw [fenetre_decale hplein, show HISTORY_SIZE = HISTORY_SIZE - 1 + 1 from rfl,
      List.rtake_concat_succ, List.rtake, hlong, hplein, ← List.drop_one]
    rfl
  · next hlibre =>
    rw [List.rtake, List.length_append, List.length_singleton, hlong,
      show k.indexHistory + 1 - HISTORY_SIZE = 0 by omega, List.drop_zero]

end Clavier

/-- Pushing a line into the last lines gives the last lines. -/
theorem rtake_concat_rtake {α : Type} (l : List α) (x : α) (n : Nat) :
    (l.rtake n ++ [x]).rtake n = (l ++ [x]).rtake n := by
  cases n with
  | zero => rw [List.rtake_zero, List.rtake_zero]
  | succ n =>
    rw [List.rtake_concat_succ, List.rtake_concat_succ]
    refine congrArg (· ++ [x]) ?_
    rw [List.rtake, List.rtake, List.rtake, List.drop_drop, List.length_drop]
    congr 1
    omega

-- ---------------------------------------------------------------------------
-- The arrow keys
-- ---------------------------------------------------------------------------

/-- Where the code of the history meets an entry that is missing or freed, or frees one
with another length than that of its block. -/
inductive Faute.Historique : Faute → Prop
  | nul : Historique (.accesNul .keyboardData)
  | libere : Historique (.accesLibere .keyboardData)
  | longueur : Historique (.memBug .consRead)

/-- The cursor is in the window, whose entries all have their blocks. -/
structure Curseur (s : Kernel) : Prop where
  curseur : s.clavier.currentIndexHistory ≤ s.clavier.indexHistory
  alloue : ∀ j < s.clavier.indexHistory, ∃ h, s.clavier.history j = some h ∧
    s.blocs h.adr = some (h.texte.length + 1)

/-- The code `m` keeps the cursor in the window and meets no missing entry. -/
abbrev Respecte {α : Type} (m : M α) : Prop := Maintains (fun f => ¬ f.Historique) Curseur m

section

variable {s s' : Kernel} {f : Clavier → Clavier}

theorem Curseur.of_eq (h : Curseur s) (hk : s'.clavier.historique = s.clavier.historique)
    (hb : s'.blocs = s.blocs) : Curseur s' := by
  unfold Clavier.historique at hk
  rw [Prod.mk.injEq, Prod.mk.injEq] at hk
  obtain ⟨h₁, h₂, h₃⟩ := hk
  refine ⟨?_, ?_⟩
  · rw [h₂, h₃]
    exact h.curseur
  · rw [h₁, h₂, hb]
    exact h.alloue

theorem respecte_surConsole (f : Console → Option Console) : Respecte (surConsole f) := by
  refine .of_keeps (g := fun s : Kernel => (s.clavier, s.blocs)) (fun s => ?_) fun s s' h hs =>
    hs.of_eq (congrArg (fun x => x.1.historique) h) (congrArg Prod.snd h)
  simp only [surConsole, wp_bind, wp_get]
  split
  · rfl
  · rintro ⟨⟩

theorem respecte_verifieEs : Respecte verifieEs := by
  refine .of_keeps (g := fun s : Kernel => (s.clavier, s.blocs)) (fun s => ?_) fun s s' h hs =>
    hs.of_eq (congrArg (fun x => x.1.historique) h) (congrArg Prod.snd h)
  simp only [verifieEs, queueOut, wp_bind, wp_get]
  cases s.chainage.top .procBloqueEs with
  | none => rfl
  | some p =>
    simp only [ecrire, queueAdd, lire, surCore, wp_bind, wp_get, wp_ite, wp_modify, wp_throw, wp_pure]
    exact ⟨fun _ => ⟨fun _ => ⟨fun _ => ⟨fun _ => trivial, fun _ => by rintro ⟨⟩⟩,
      fun _ => by rintro ⟨⟩⟩, fun _ => by rintro ⟨⟩⟩, fun _ => by rintro ⟨⟩⟩

theorem respecte_surClavier (hf : ∀ k, (f k).historique = k.historique) :
    Respecte (surClavier f) := fun s hs => hs.of_eq (hf s.clavier) rfl

theorem respecte_afficheTampon : Respecte afficheTampon := by
  have hprintf : ∀ l : List UInt8, Respecte (printf l) := by
    intro l
    induction l with
    | nil => exact .of_pure _
    | cons c l ih => exact .of_bind (respecte_surConsole _) fun _ => ih
  exact .of_bind (respecte_surConsole _) fun _ => .of_get fun _ => hprintf _

/-- The cursor moves within the window. -/
theorem Curseur.deplace (h : Curseur s) {n : Nat} (hn : n ≤ s.clavier.indexHistory) :
    Curseur { s with clavier := { s.clavier with currentIndexHistory := n } } := ⟨hn, h.alloue⟩

/-- An entry of the window is recalled. -/
theorem wp_rappelle_fenetre {i : Nat} (h : Curseur s) (hi : i < s.clavier.indexHistory) :
    wp (fun f => ¬ f.Historique) (rappelle i) (fun _ s' =>
      s'.clavier.historique = s.clavier.historique ∧ s'.blocs = s.blocs) s := by
  obtain ⟨x, hx, hb⟩ := h.alloue i hi
  simp only [rappelle, wp_bind, wp_get, hx, hb, reduceCtorEq, if_false]
  split
  · exact ⟨rfl, rfl⟩
  · rintro ⟨⟩

theorem respecte_sequence (c : UInt8) : Respecte (sequence c) := by
  intro s hs
  rw [sequence, wp_bind, wp_get]
  dsimp only
  split
  · split
    · exact hs
    · next h0 =>
      have hcur := hs.curseur
      rw [wp_bind]
      refine wp_imp (wp_rappelle_fenetre hs (i := s.clavier.currentIndexHistory - 1) (by omega)) ?_
      rintro _ s₁ ⟨h₁, hb₁⟩
      have hs₁ := hs.of_eq h₁ hb₁
      exact respecte_afficheTampon _ (hs₁.deplace ((Nat.sub_le _ _).trans hs₁.curseur))
  split
  · split
    · next hlt =>
      have hs₁ := hs.deplace (show s.clavier.currentIndexHistory + 1 ≤ _ from hlt)
      simp only [surClavier, wp_bind, wp_modify]
      refine wp_imp (wp_rappelle_fenetre hs₁ (i := s.clavier.currentIndexHistory) hlt) ?_
      rintro _ s₂ ⟨h₂, hb₂⟩
      exact respecte_afficheTampon _ (hs₁.of_eq h₂ hb₂)
    · refine Maintains.of_bind (respecte_surClavier ?_) (fun _ => respecte_surConsole _) s hs
      exact fun _ => rfl
  split
  · exact respecte_surConsole _ s hs
  split
  · exact respecte_surConsole _ s hs
  split
  · exact respecte_surConsole _ s hs
  split
  · exact respecte_surConsole _ s hs
  · exact hs

theorem respecte_keyboardBoucle (saute : Nat) (str : List UInt8) : Respecte (keyboardBoucle saute str) := by
  refine maintient_keyboardBoucle (fun c => respecte_surConsole _) respecte_verifieEs (fun c => ?_)
    (respecte_surClavier fun _ => rfl) (respecte_surClavier fun _ => rfl) respecte_sequence saute str
  exact .of_get fun s => .of_ite (respecte_surClavier fun _ => rfl) fun _ _ => nofun

-- ---------------------------------------------------------------------------
-- Recording a line
-- ---------------------------------------------------------------------------

theorem wp_lireChaine_user {adr : Nat} : wp (fun f => ¬ f.Historique) (lireChaine adr)
    (fun texte s' => s' = s ∧ ChaineUser s.memoire adr texte) s := by
  have hpage : Keeps (fun f => ¬ f.Historique) id (lireChaine adr) :=
    keeps_lireChaineBornee fun _ _ => .inr nofun
  refine wp_of (fun texte s' h => ?_) fun f h => wp_error (hpage s) h
  obtain ⟨l, hl, rfl, rfl⟩ := wp_lireChaine_iff.mp (wp_run.mpr h)
  exact ⟨rfl, hl⟩

/-- The block of the oldest line is freed with its length. -/
theorem wp_evince_fenetre (h : Curseur s) : wp (fun f => ¬ f.Historique) evince (fun _ s' =>
    s'.clavier = (if s.clavier.indexHistory = HISTORY_SIZE then s.clavier.decale else s.clavier) ∧
      s'.memoire = s.memoire ∧ s'.prochain = s.prochain) s := by
  rw [evince, wp_bind, wp_get]
  dsimp only
  split
  · next hi =>
    obtain ⟨x, hx, hb⟩ := h.alloue 0 (by rw [hi]; decide)
    simp only [memFree, surClavier, hx, hb, if_true, wp_bind, wp_get, wp_set, wp_modify]
    exact ⟨rfl, trivial, trivial⟩
  · exact ⟨rfl, rfl, rfl⟩

theorem wp_memorise_fenetre {string : Nat} (h : Curseur s) :
    wp (fun f => ¬ f.Historique) (memorise string) (fun _ s' => ∃ texte,
      ChaineUser s.memoire string texte ∧
        s'.clavier = s.clavier.enregistre ⟨s.prochain, texte⟩ ∧ s'.memoire = s.memoire) s := by
  have hmem : memorise string = evince >>= fun _ => lireChaine string >>= pose := rfl
  rw [hmem, wp_bind]
  refine wp_imp (wp_evince_fenetre h) ?_
  rintro _ s₁ ⟨hk₁, hm₁, hn₁⟩
  rw [wp_bind]
  refine wp_imp wp_lireChaine_user ?_
  rintro texte s₂ ⟨h₂, ht⟩
  subst h₂
  simp only [pose, memAllocNonNul, memAlloc, surClavier, wp_bind, wp_get]
  split
  · refine ⟨texte, hm₁ ▸ ht, ?_, hm₁⟩
    show s₂.clavier.inscrit ⟨s₂.prochain, texte⟩ = _
    rw [hk₁, hn₁]
    rfl
  · rintro ⟨⟩

theorem Clavier.historique_enregistre {k k' : Clavier} (h : k'.historique = k.historique)
    (x : Ligne) : (k'.enregistre x).historique = (k.enregistre x).historique := by
  unfold Clavier.historique at h
  rw [Prod.mk.injEq, Prod.mk.injEq] at h
  obtain ⟨h₁, h₂, h₃⟩ := h
  unfold Clavier.enregistre Clavier.historique Clavier.inscrit Clavier.decale
  rw [h₂]
  split
  · dsimp only
    rw [h₁]
  · dsimp only
    rw [h₁, h₂]

/-- What a call of `cons_read` does to the history. -/
theorem wp_consRead_fenetre {string length : Nat} (h : Curseur s) :
    wp (fun f => ¬ f.Historique) (consRead string length) (fun x s' =>
      (¬ (1 < length ∧ ¬ s.clavier.Bloque length) ∧
        s'.clavier.historique = s.clavier.historique) ∨
      ((1 < length ∧ ¬ s.clavier.Bloque length) ∧ (∃ v, x = .retour v) ∧
        ∃ texte, ChaineUser s'.memoire string texte ∧
          s'.clavier.historique = (s.clavier.enregistre ⟨s.prochain, texte⟩).historique)) s := by
  rw [consRead, wp_bind, wp_get]
  by_cases h0 : length = 0
  · rw [if_pos h0]
    exact .inl ⟨by omega, rfl⟩
  rw [if_neg h0]
  by_cases hb : s.clavier.Bloque length
  · rw [if_pos (show s.clavier.read = false ∧ _ from hb)]
    simp only [ecrire, queueAdd, surCore, wp_bind, wp_get, wp_ite, wp_modify, wp_throw, wp_pure]
    exact ⟨fun _ => ⟨fun _ => .inl ⟨fun hx => hx.2 hb, trivial⟩, fun _ => by rintro ⟨⟩⟩,
      fun _ => by rintro ⟨⟩⟩
  rw [if_neg (show ¬ (s.clavier.read = false ∧ _) from hb)]
  by_cases hplage : plageUser string length = true
  swap
  · simp only [memsetUser, h0, hplage, if_false, wp_bind]
    rintro ⟨⟩
  have hn := s.clavier.preleve_le length
  simp only [memsetUser, h0, hplage, if_false, if_true, wp_bind, wp_modify]
  refine wp_copieTampon hplage _ hn ?_
  rintro s₁ h₁
  have hk₁ : s₁.clavier.historique = s.clavier.historique := by
    rw [h₁]
    rfl
  have hb₁ : s₁.blocs = s.blocs := by rw [h₁]
  have hn₁ : s₁.prochain = s.prochain := by rw [h₁]
  split
  · next h1 =>
    rw [wp_bind]
    refine wp_imp (wp_memorise_fenetre (h.of_eq hk₁ hb₁)) ?_
    rintro _ s₂ ⟨texte, ht, hk₂, hm₂⟩
    refine .inr ⟨⟨h1, hb⟩, ⟨_, rfl⟩, texte, ?_, ?_⟩
    · show ChaineUser s₂.memoire string texte
      rw [hm₂]
      exact ht
    · show s₂.clavier.historique = _
      rw [hk₂, hn₁]
      exact Clavier.historique_enregistre hk₁ _
  · next h1 => exact .inl ⟨fun hx => h1 hx.1, hk₁⟩

end

-- ---------------------------------------------------------------------------
-- Steps
-- ---------------------------------------------------------------------------

/-- The arguments of the call of `cons_read` that the step runs or continues. -/
def Config.lit (c : Config) : Signal → Option (Nat × Nat)
  | .int49 r =>
    if r.service = some .consRead ∧ isUserSpace r.ebx = true then some (r.ebx.toNat, r.ecx.toNat)
    else none
  | .suite =>
    match (c.s.tas c.s.procElu).contexte with
    | .consRead string length => some (string, length)
    | _ => none
  | _ => none

/-- The step completes a call for several characters, whose string is at `string`. -/
def Config.Enregistre (c : Config) (e : Signal) (string : Nat) : Prop :=
  ∃ length, c.lit e = some (string, length) ∧ 1 < length ∧ ¬ c.s.clavier.Bloque length

/-- The lines recorded in a run, the oldest first: each is the string of the caller of a
completed `cons_read`, with the block allocated for it. -/
inductive Enregistrees : Config → List Ligne → Prop
  | depart {mat : Materiel} {m : Nat → UInt8} {c : Config} (h : depart mat m = .ok c) :
      Enregistrees c []
  | rien {c c' : Config} {e : Signal} {l : List Ligne} (h : Enregistrees c l)
      (hp : possible c e = true) (hpas : pas c e = .ok c')
      (he : ∀ string, ¬ c.Enregistre e string) : Enregistrees c' l
  | ligne {c c' : Config} {e : Signal} {l : List Ligne} {string : Nat} {texte : List UInt8}
      (h : Enregistrees c l) (hp : possible c e = true) (hpas : pas c e = .ok c')
      (he : c.Enregistre e string) (ht : ChaineUser c'.s.memoire string texte) :
      Enregistrees c' (l ++ [⟨c.s.prochain, texte⟩])

/-- What the kernel code of a step does to the history. -/
inductive Avance (c : Config) (e : Signal) (x : Suite) (s' : Kernel) : Prop
  | rien (he : ∀ string, ¬ c.Enregistre e string) (hh : s'.clavier.history = c.s.clavier.history)
      (hi : s'.clavier.indexHistory = c.s.clavier.indexHistory)
      (hc : s'.clavier.currentIndexHistory ≤ s'.clavier.indexHistory)
  | ligne {v : Int} {string : Nat} {texte : List UInt8} (he : c.Enregistre e string)
      (hx : x = .retour v) (ht : ChaineUser s'.memoire string texte)
      (hk : s'.clavier.historique = (c.s.clavier.enregistre ⟨c.s.prochain, texte⟩).historique)

section

variable {c c' : Config} {e : Signal} {x : Suite} {s s' : Kernel} {l : List Ligne}

theorem Avance.of_historique (he : ∀ string, ¬ c.Enregistre e string) (h : Curseur c.s)
    (hk : s'.clavier.historique = c.s.clavier.historique) : Avance c e x s' := by
  unfold Clavier.historique at hk
  rw [Prod.mk.injEq, Prod.mk.injEq] at hk
  refine .rien he hk.1 hk.2.1 ?_
  rw [hk.2.1, hk.2.2]
  exact h.curseur

theorem avance_consRead {string length : Nat} (h : Curseur c.s)
    (hlit : c.lit e = some (string, length)) (hk : s.clavier = c.s.clavier) (hb : s.blocs = c.s.blocs)
    (hn : s.prochain = c.s.prochain) :
    wp (fun f => ¬ f.Historique) (consRead string length) (Avance c e) s := by
  refine wp_imp (wp_consRead_fenetre (h.of_eq (by rw [hk]) hb)) fun _ s' hs' => ?_
  rw [hk, hn] at hs'
  rcases hs' with ⟨hnon, hk'⟩ | ⟨hoc, ⟨v, hx⟩, texte, ht, hk'⟩
  · refine .of_historique ?_ h hk'
    rintro string' ⟨length', hl, h1⟩
    rw [hlit] at hl
    cases hl
    exact hnon h1
  · exact .ligne ⟨length, hlit, hoc⟩ hx ht hk'

theorem avance_keyboardBoucle {reste : List UInt8} (h : Curseur c.s) (hlit : c.lit e = none)
    (hk : s.clavier = c.s.clavier) (hb : s.blocs = c.s.blocs) :
    wp (fun f => ¬ f.Historique) (keyboardBoucle 0 reste) (Avance c e) s := by
  have hs : Curseur s := h.of_eq (by rw [hk]) hb
  refine wp_imp (wp_and (respecte_keyboardBoucle 0 reste s hs) (paisible_keyboardBoucle 0 reste s)) ?_
  rintro _ s' ⟨hs', ha⟩
  have ha' : s'.avoirs = s.avoirs := congrArg Prod.fst ha
  refine .rien ?_ ?_ ?_ hs'.curseur
  · rintro string ⟨length, hl, -⟩
    rw [hlit] at hl
    cases hl
  · rw [← hk]
    exact (congrArg Avoirs.history ha' :)
  · rw [← hk]
    exact (congrArg Avoirs.indexHistory ha' :)

/-- The code of `cons_read` and `keyboard_data` meets no missing entry. -/
theorem avance_clavier (h : Curseur c.s) (hp : possible c e = true) (hc : ¬ c.SansClavier e) :
    wp (fun f => ¬ f.Historique) (segment c e) (Avance c e) c.s := by
  cases e with
  | int49 r =>
    have hsv : r.service = some .consRead := not_not.mp hc
    rw [segment, if_pos (of_decide_eq_true hp)]
    unfold traitantIT49Switch
    rw [hsv]
    dsimp only
    by_cases hu : isUserSpace r.ebx = true
    · rw [hu]
      exact avance_consRead h (if_pos ⟨hsv, hu⟩) rfl rfl rfl
    · rw [Bool.eq_false_iff.mpr hu]
      refine .of_historique ?_ h rfl
      rintro string ⟨length, hl, -⟩
      rw [Config.lit, if_neg fun hx => hu hx.2] at hl
      cases hl
  | int32 => exact absurd trivial hc
  | programme m => exact absurd trivial hc
  | int33 str =>
    rw [segment, if_pos (of_decide_eq_true hp)]
    exact avance_keyboardBoucle h rfl rfl rfl
  | suite =>
    have hctx : ¬ (c.s.tas c.s.procElu).contexte.SansClavier := hc
    simp only [segment, lire, ecrire, surCore, wp_bind, wp_get]
    split
    swap
    · rintro ⟨⟩
    next hv =>
    simp only [wp_pure, hv, if_true, wp_modify]
    cases hk : (c.s.tas c.s.procElu).contexte with
    | consRead string length =>
      have hlit : c.lit .suite = some (string, length) := by
        unfold Config.lit
        rw [hk]
      exact avance_consRead h hlit rfl rfl rfl
    | keyboardData reste =>
      have hlit : c.lit .suite = none := by
        unfold Config.lit
        rw [hk]
      exact avance_keyboardBoucle h hlit rfl rfl
    | keyboardFin =>
      have hlit : ∀ string, ¬ c.Enregistre .suite string := by
        rintro string ⟨length, hl, -⟩
        unfold Config.lit at hl
        rw [hk] at hl
        cases hl
      rw [reprend, keyboardFinReprise, wp_bind]
      have hs : Curseur { c.s with toCore := c.s.toCore.maj c.s.procElu fun r => { r with
        contexte := .iret } } := h.of_eq rfl rfl
      refine wp_imp (wp_and (respecte_surConsole _ _ hs) (discret_traiteCar 7 _)) fun _ s' hs' => ?_
      exact .of_historique hlit h (congrArg (fun x => x.1.1.historique) hs'.2 :)
    | _ =>
      rw [hk] at hctx
      exact absurd trivial hctx

/-- The other steps leave the history alone. -/
theorem avance_sobre (h : Curseur c.s) (hc : c.SansClavier e) :
    wp (fun _ => True) (segment c e) (Avance c e) c.s := by
  have hrien : ∀ string, ¬ c.Enregistre e string := by
    rintro string ⟨length, hl, -⟩
    unfold Config.lit at hl
    unfold Config.SansClavier at hc
    cases e with
    | int49 r =>
      dsimp only at hl hc
      rw [if_neg fun hx => hc hx.1] at hl
      cases hl
    | suite =>
      dsimp only at hl hc
      cases hk : (c.s.tas c.s.procElu).contexte with
      | consRead => rw [hk] at hc; exact hc
      | _ => rw [hk] at hl; cases hl
    | _ => cases hl
  refine wp_imp (wp_segment_sobre (fun _ _ => trivial) (fun _ _ _ => .inr trivial) hc) fun _ s' hs' => ?_
  exact .of_historique hrien h (by rw [hs'])

theorem pas_avance (h : Curseur c.s) (hp : possible c e = true) (hpas : pas c e = .ok c') :
    ∃ x, Avance c e x c'.s := by
  obtain ⟨x, s', hseg, hfin⟩ := of_pas hpas
  have hk : c'.s.clavier = s'.clavier := congrArg Prod.fst (wp_ok (sobre_termine x s') hfin)
  have hs' : Avance c e x s' := by
    by_cases hc : c.SansClavier e
    · exact wp_ok (avance_sobre h hc) hseg
    · exact wp_ok (avance_clavier h hp hc) hseg
  refine ⟨x, ?_⟩
  cases hs' with
  | rien he hh hi hc => exact .rien he (by rw [hk, hh]) (by rw [hk, hi]) (by rw [hk]; exact hc)
  | @ligne v string texte he hx ht hk' =>
    have hm : c'.s.memoire = s'.memoire := by
      have hretour : wp (fun _ => True) (termine (.retour v)) (fun _ t => t.memoire = s'.memoire) s' :=
        rfl
      rw [hx] at hfin
      exact wp_ok hretour hfin
    exact .ligne he hx (by rw [hm]; exact ht) (by rw [hk, hk'])

-- ---------------------------------------------------------------------------
-- Runs
-- ---------------------------------------------------------------------------

/-- The entries of the window have distinct blocks, of their lengths. -/
theorem Bilan.fenetre {d : Multiset (Ptr × Nat)} (h : Bilan s.avoirs d)
    (hl : s.clavier.fenetre = l.map some) :
    (l.map Ligne.adr).Nodup ∧ ∀ x ∈ l, s.blocs x.adr = some (x.texte.length + 1) := by
  have hsomme : s.avoirs.deLHistorique = (l.map fun x => (x.adr, x.texte.length + 1) : List _) := by
    have hmap : (List.range s.clavier.indexHistory).map
        (fun j => Avoirs.deLaLigne (s.clavier.history j)) =
          l.map fun x => {(x.adr, x.texte.length + 1)} := by
      have hx := congrArg (List.map Avoirs.deLaLigne) hl
      rw [Clavier.fenetre, List.map_map, List.map_map] at hx
      exact hx
    have hsum : ∀ l : List Ligne,
        (l.map fun x => ({(x.adr, x.texte.length + 1)} : Multiset (Ptr × Nat))).sum =
          (l.map fun x => (x.adr, x.texte.length + 1) : List (Ptr × Nat)) := by
      intro l
      induction l with
      | nil => rfl
      | cons x l ih => rw [List.map_cons, List.sum_cons, ih, List.map_cons, ← Multiset.cons_coe,
          Multiset.singleton_add]
    show ((List.range s.clavier.indexHistory : Multiset Nat).map
      fun j => Avoirs.deLaLigne (s.clavier.history j)).sum = _
    rw [Multiset.map_coe, Multiset.sum_coe, hmap]
    exact hsum l
  have hle : s.avoirs.deLHistorique ≤ s.avoirs.possede + d :=
    (Multiset.le_add_left _ _).trans (Multiset.le_add_right _ _)
  rw [hsomme] at hle
  refine ⟨?_, fun x hx => ?_⟩
  · have hnd := Multiset.nodup_of_le (Multiset.map_le_map hle) h.ledger.unique
    rw [Multiset.map_coe, List.map_map, Multiset.coe_nodup] at hnd
    exact hnd
  · refine (h.ledger.exact _ _).mpr (Multiset.mem_of_le hle ?_)
    exact Multiset.mem_coe.mpr (List.mem_map.mpr ⟨x, hx, rfl⟩)

/-- The window is on the last lines of `l`, and the cursor is in it. -/
structure Fenetre (s : Kernel) (l : List Ligne) : Prop where
  curseur : s.clavier.currentIndexHistory ≤ s.clavier.indexHistory
  borne : s.clavier.indexHistory ≤ HISTORY_SIZE
  entrees : s.clavier.fenetre = (l.rtake HISTORY_SIZE).map some
  vide : ∀ j, s.clavier.indexHistory ≤ j → s.clavier.history j = none
  distinctes : ((l.rtake HISTORY_SIZE).map Ligne.adr).Nodup
  allouees : ∀ x ∈ l.rtake HISTORY_SIZE, s.blocs x.adr = some (x.texte.length + 1)

theorem Clavier.length_fenetre (k : Clavier) : k.fenetre.length = k.indexHistory := by
  rw [Clavier.fenetre, List.length_map, List.length_range]

theorem Fenetre.dedans (h : Fenetre s l) : Curseur s where
  curseur := h.curseur
  alloue j hj := by
    have hget : s.clavier.fenetre[j]? = some (s.clavier.history j) := by
      rw [Clavier.fenetre, List.getElem?_map, List.getElem?_range hj, Option.map_some]
    rw [h.entrees, List.getElem?_map] at hget
    obtain ⟨x, hx, hs⟩ := Option.map_eq_some_iff.mp hget
    exact ⟨x, hs.symm, h.allouees x (List.mem_of_getElem? hx)⟩

/-- The entries out of the window are null. -/
theorem Clavier.vide_enregistre {k : Clavier} {x : Ligne}
    (h : ∀ j, k.indexHistory ≤ j → k.history j = none) (j : Nat)
    (hj : (k.enregistre x).indexHistory ≤ j) : (k.enregistre x).history j = none := by
  unfold Clavier.enregistre at hj ⊢
  by_cases hi : k.indexHistory = HISTORY_SIZE
  · rw [if_pos hi] at hj ⊢
    have hj' : k.indexHistory - 1 + 1 ≤ j := hj
    have hsize : 0 < HISTORY_SIZE := by decide
    show Function.update k.decale.history (k.indexHistory - 1) (some x) j = none
    rw [Function.update_of_ne (by omega)]
    show (if j < HISTORY_SIZE - 1 then k.history (j + 1) else k.history j) = none
    rw [if_neg (by omega)]
    exact h j (by omega)
  · rw [if_neg hi] at hj ⊢
    have hj' : k.indexHistory + 1 ≤ j := hj
    show Function.update k.history k.indexHistory (some x) j = none
    rw [Function.update_of_ne (by omega)]
    exact h j (by omega)

theorem Fenetre.rien (h : Fenetre s l) {d : Multiset (Ptr × Nat)} (hd : Bilan s'.avoirs d)
    (hh : s'.clavier.history = s.clavier.history)
    (hi : s'.clavier.indexHistory = s.clavier.indexHistory)
    (hc : s'.clavier.currentIndexHistory ≤ s'.clavier.indexHistory) : Fenetre s' l := by
  have hf : s'.clavier.fenetre = (l.rtake HISTORY_SIZE).map some := by
    rw [← h.entrees, Clavier.fenetre, Clavier.fenetre, hh, hi]
  obtain ⟨hnd, hal⟩ := hd.fenetre hf
  refine ⟨hc, ?_, hf, ?_, hnd, hal⟩
  · rw [hi]
    exact h.borne
  · rw [hi, hh]
    exact h.vide

theorem Fenetre.ligne (h : Fenetre s l) {d : Multiset (Ptr × Nat)} (hd : Bilan s'.avoirs d)
    {x : Ligne} (hk : s'.clavier.historique = (s.clavier.enregistre x).historique) :
    Fenetre s' (l ++ [x]) := by
  have hf : s'.clavier.fenetre = ((l ++ [x]).rtake HISTORY_SIZE).map some := by
    have hf' : s'.clavier.fenetre = (s.clavier.enregistre x).fenetre :=
      (congrArg (fun y : (Nat → Option Ligne) × Nat × Nat => (List.range y.2.1).map y.1) hk :)
    have hmap : ∀ l : List Ligne, (l.map some).rtake HISTORY_SIZE =
        (l.rtake HISTORY_SIZE).map some := by
      intro l
      rw [List.rtake, List.rtake, List.length_map, List.map_drop]
    rw [hf', Clavier.fenetre_enregistre h.borne, h.entrees, ← List.map_singleton (f := some),
      ← List.map_append, hmap, rtake_concat_rtake]
  have hborne : s'.clavier.indexHistory ≤ HISTORY_SIZE := by
    rw [← Clavier.length_fenetre, hf, List.length_map, List.rtake, List.length_drop]
    omega
  unfold Clavier.historique at hk
  rw [Prod.mk.injEq, Prod.mk.injEq] at hk
  obtain ⟨h₁, h₂, h₃⟩ := hk
  obtain ⟨hnd, hal⟩ := hd.fenetre hf
  refine ⟨?_, hborne, hf, ?_, hnd, hal⟩
  · rw [h₂, h₃]
    exact le_refl _
  · rw [h₁, h₂]
    exact Clavier.vide_enregistre h.vide

theorem Enregistrees.accessible (h : Enregistrees c l) : Accessible c := by
  induction h with
  | depart h => exact .depart h
  | rien _ hp hpas _ ih => exact .pas ih hp trivial hpas
  | ligne _ hp hpas _ _ ih => exact .pas ih hp trivial hpas

theorem Enregistrees.fenetre (h : Enregistrees c l) : Fenetre c.s l := by
  induction h with
  | depart h =>
    have hk := depart_clavier h
    refine ⟨?_, ?_, ?_, ?_, List.nodup_nil, nofun⟩ <;> rw [hk]
    · exact Nat.zero_le _
    · rfl
    · exact fun _ _ => rfl
  | rien h hp hpas he ih =>
    obtain ⟨perdus, hb, -⟩ := (h.rien hp hpas he).accessible.perte
    obtain ⟨x, hav⟩ := pas_avance ih.dedans hp hpas
    cases hav with
    | rien _ hh hi hc => exact ih.rien hb hh hi hc
    | ligne he' => exact absurd he' (he _)
  | ligne h hp hpas he ht ih =>
    obtain ⟨perdus, hb, -⟩ := (h.ligne hp hpas he ht).accessible.perte
    obtain ⟨x, hav⟩ := pas_avance ih.dedans hp hpas
    cases hav with
    | rien he' => exact absurd he (he' _)
    | ligne he' hx ht' hk =>
      obtain ⟨n, hn, -⟩ := he
      obtain ⟨n', hn', -⟩ := he'
      rw [hn] at hn'
      cases hn'
      obtain rfl := ht.chaine.unique ht'.chaine
      exact ih.ligne hb hk

/-- Each reachable configuration comes with the lines recorded. -/
theorem Accessible.enregistrees (h : Accessible c) : ∃ l, Enregistrees c l := by
  induction h with
  | depart h => exact ⟨[], .depart h⟩
  | pas _ hp _ hpas ih =>
    obtain ⟨l, hl⟩ := ih
    obtain ⟨x, hav⟩ := pas_avance hl.fenetre.dedans hp hpas
    cases hav with
    | rien he => exact ⟨l, hl.rien hp hpas he⟩
    | ligne he _ ht => exact ⟨_, hl.ligne hp hpas he ht⟩

/-- In every run the history is a window on the last lines recorded, with the cursor in
it, and the code of `cons_read` and of the arrow keys meets no missing entry. -/
theorem historique_fenetre (h : Enregistrees c l) : Fenetre c.s l ∧
    ∀ e, possible c e = true → ¬ c.SansClavier e → ∀ f, Faute.Historique f →
      segment c e c.s ≠ .error f := by
  refine ⟨h.fenetre, fun e hp hc f hf hs => ?_⟩
  exact wp_error (avance_clavier h.fenetre.dedans hp hc) hs hf

end

/-- A line typed and read. -/
def ligneLue (texte : List UInt8) : List Signal := [.int33 (texte ++ [13]), appel 19 0x1800000 8 0 0]

/-- Twenty-six lines are typed and read, then the up arrow: the first line has left the
history, and the cursor is on the last one. -/
theorem historique_fenetre_exemple : ∃ c l, Enregistrees c l ∧ c.s.clavier.lectures.length = 26 ∧
    c.s.clavier.lectures.head? = some [97] ∧ c.s.clavier.indexHistory = 25 ∧
      c.s.clavier.currentIndexHistory = 24 ∧
        (∀ j < 25, (c.s.clavier.history j).map Ligne.texte = some [98, 99]) ∧ Fenetre c.s l := by
  obtain ⟨c, hc, hQ⟩ := Accessible.scenario
    (l := .suite :: ligneLue [97] ++ (List.replicate 25 (ligneLue [98, 99])).flatten ++
      [.int33 [27, 91, 65]])
    (Q := fun c => decide (c.s.clavier.lectures.length = 26 ∧
      c.s.clavier.lectures.head? = some [97] ∧ c.s.clavier.indexHistory = 25 ∧
        c.s.clavier.currentIndexHistory = 24 ∧ ∀ j ∈ List.range 25,
          (c.s.clavier.history j).map Ligne.texte = some [98, 99])) (by decide +kernel)
  obtain ⟨hlect, hun, hindex, hcur, htextes⟩ := of_decide_eq_true hQ
  obtain ⟨l, hl⟩ := hc.enregistrees
  exact ⟨c, l, hl, hlect, hun, hindex, hcur, fun j hj => htextes j (List.mem_range.mpr hj),
    (historique_fenetre hl).1⟩

end GenesisOS
