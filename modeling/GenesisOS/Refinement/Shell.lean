import GenesisOS.Lib.Words
import GenesisOS.Model.Shell
import GenesisOS.Refinement.History

/-!
# GenesisOS — the tokens of a command line

The tokens that `parse_command` finds in memory, up to the first empty one, and the
run of its loop over them: each turn stores one more word, and the string it stores
is not touched by the turns after it.
-/

namespace GenesisOS

open Lib

/-- The word `w` lies in user memory at `adr`, ended by the delimiter `c`. -/
inductive Mot (m : Nat → UInt8) : Nat → List UInt8 → UInt8 → Prop
  | fin {adr : Nat} : plageUser adr 1 = true → m adr = 0 ∨ m adr = ESPACE → Mot m adr [] (m adr)
  | car {adr : Nat} {w : List UInt8} {c : UInt8} : plageUser adr 1 = true → m adr ≠ 0 →
      m adr ≠ ESPACE → Mot m (adr + 1) w c → Mot m adr (m adr :: w) c

/-- The words at `adr`, up to the first empty one. -/
inductive Lexemes (m : Nat → UInt8) : Nat → List (List UInt8) → Prop
  | vide {adr : Nat} {c : UInt8} : Mot m adr [] c → Lexemes m adr []
  | dernier {adr : Nat} {w : List UInt8} : w ≠ [] → Mot m adr w 0 → Lexemes m adr [w]
  | mot {adr : Nat} {w : List UInt8} {ws : List (List UInt8)} : w ≠ [] → Mot m adr w ESPACE →
      Lexemes m (adr + w.length + 1) ws → Lexemes m adr (w :: ws)

/-- What `parse_command` has to leave for these words. -/
structure Decoupe (t : Shell) (mots : List (List UInt8)) : Prop where
  argc : t.argc = mots.length
  mot : ∀ i (h : i < mots.length), CString 0 t.memoire (t.argv i) mots[i]
  nul : t.argv mots.length = 0

theorem Decoupe.unique {t : Shell} {ws ws' : List (List UInt8)} (h : Decoupe t ws)
    (h' : Decoupe t ws') : ws = ws' := by
  have hlen := h.argc.symm.trans h'.argc
  exact List.ext_getElem hlen fun i hi hi' => (h.mot i hi).unique (h'.mot i hi')

-- ---------------------------------------------------------------------------
-- Words in memory
-- ---------------------------------------------------------------------------

section

variable {m m' : Nat → UInt8} {adr : Nat} {w l : List UInt8} {c : UInt8}
  {ws : List (List UInt8)}

theorem plageUser_un : plageUser adr 1 = true ↔ USER_START ≤ adr ∧ adr < USER_END := by
  unfold plageUser
  rw [Bool.and_eq_true, decide_eq_true_eq, decide_eq_true_eq]
  omega

theorem Mot.plage (h : Mot m adr w c) : plageUser adr 1 = true := by
  cases h with
  | fin hp _ => exact hp
  | car hp _ _ _ => exact hp

theorem Mot.plage_fin (h : Mot m adr w c) : plageUser (adr + w.length) 1 = true := by
  induction h with
  | fin hp _ => exact hp
  | @car adr w _ _ _ _ _ ih =>
    rw [List.length_cons, Nat.add_comm w.length, ← Nat.add_assoc]
    exact ih

theorem Mot.eq_fin (h : Mot m adr w c) : m (adr + w.length) = c := by
  induction h with
  | fin _ _ => rfl
  | @car adr w _ _ _ _ _ ih =>
    rw [List.length_cons, Nat.add_comm w.length, ← Nat.add_assoc]
    exact ih

theorem Mot.delim (h : Mot m adr w c) : c = 0 ∨ c = ESPACE := by
  induction h with
  | fin _ hc => exact hc
  | car _ _ _ _ ih => exact ih

theorem Mot.ne_zero (h : Mot m adr w c) : adr ≠ 0 := by
  obtain ⟨hs, -⟩ := plageUser_un.mp h.plage
  unfold USER_START at hs
  omega

/-- The first byte of a word tells whether it is empty. -/
theorem Mot.tete (h : Mot m adr w c) : w = [] ∧ m adr = c ∨ w ≠ [] ∧ m adr ≠ 0 := by
  cases h with
  | fin _ _ => exact Or.inl ⟨rfl, rfl⟩
  | car _ h0 _ _ => exact Or.inr ⟨List.cons_ne_nil _ _, h0⟩

theorem Mot.congr (h : Mot m adr w c) (hm : ∀ a, adr ≤ a → m' a = m a) : Mot m' adr w c := by
  induction h with
  | @fin adr hp hc =>
    rw [← hm adr le_rfl] at hc ⊢
    exact .fin hp hc
  | @car adr w c hp h0 hc _ ih =>
    rw [← hm adr le_rfl] at h0 hc ⊢
    exact .car hp h0 hc (ih fun a ha => hm a (by omega))

/-- Once its delimiter is overwritten, the word is a string. -/
theorem Mot.chaine (h : Mot m adr w c) :
    CString 0 (Function.update m (adr + w.length) 0) adr w := by
  induction h with
  | fin _ _ => exact CString.nil (Function.update_self _ _ _)
  | @car adr w _ _ h0 _ _ ih =>
    rw [List.length_cons, Nat.add_comm w.length, ← Nat.add_assoc]
    refine CString.cons_iff.mpr ⟨Function.update_of_ne (by omega) _ _, h0, ?_⟩
    exact ih

theorem Lexemes.congr (h : Lexemes m adr ws) (hm : ∀ a, adr ≤ a → m' a = m a) :
    Lexemes m' adr ws := by
  induction h with
  | vide hmot => exact .vide (hmot.congr hm)
  | dernier hw hmot => exact .dernier hw (hmot.congr hm)
  | mot hw hmot _ ih => exact .mot hw (hmot.congr hm) (ih fun a ha => hm a (by omega))

theorem Lexemes.ne_zero (h : Lexemes m adr ws) : adr ≠ 0 := by
  cases h with
  | vide hmot => exact hmot.ne_zero
  | dernier _ hmot => exact hmot.ne_zero
  | mot _ hmot _ => exact hmot.ne_zero

/-- There are less tokens than bytes of user memory. -/
theorem Lexemes.length_le (h : Lexemes m adr ws) : adr + ws.length ≤ USER_END := by
  induction h with
  | @vide adr c hmot =>
    obtain ⟨-, he⟩ := plageUser_un.mp hmot.plage
    rw [List.length_nil]
    omega
  | @dernier adr w _ hmot =>
    obtain ⟨-, he⟩ := plageUser_un.mp hmot.plage
    rw [List.length_singleton]
    omega
  | @mot adr w ws _ _ _ ih =>
    rw [List.length_cons]
    omega

-- ---------------------------------------------------------------------------
-- Words of a string
-- ---------------------------------------------------------------------------

/-- A string without spaces is one word. -/
theorem ChaineUser.mot (h : ChaineUser m adr w) (hw : ESPACE ∉ w) : Mot m adr w 0 := by
  induction w generalizing adr with
  | nil =>
    obtain ⟨hp, h0⟩ := ChaineUser.nil_iff.mp h
    have hf : Mot m adr [] (m adr) := .fin hp (Or.inl h0)
    rwa [h0] at hf
  | cons c w ih =>
    obtain ⟨hp, rfl, h0, hl⟩ := ChaineUser.cons_iff.mp h
    obtain ⟨hc, hw⟩ := List.ne_and_not_mem_of_not_mem_cons hw
    exact .car hp h0 hc.symm (ih hl hw)

/-- The first word of a string, and what follows it. -/
theorem ChaineUser.coupe (h : ChaineUser m adr (w ++ ESPACE :: l)) (hw : ESPACE ∉ w) :
    Mot m adr w ESPACE ∧ ChaineUser m (adr + w.length + 1) l := by
  induction w generalizing adr with
  | nil =>
    obtain ⟨hp, hc, -, hl⟩ := ChaineUser.cons_iff.mp h
    have hf : Mot m adr [] (m adr) := .fin hp (Or.inr hc)
    rw [hc] at hf
    exact ⟨hf, hl⟩
  | cons c w ih =>
    obtain ⟨hp, rfl, h0, hl⟩ := ChaineUser.cons_iff.mp h
    obtain ⟨hc, hw⟩ := List.ne_and_not_mem_of_not_mem_cons hw
    obtain ⟨hm, hr⟩ := ih hl hw
    rw [List.length_cons, Nat.add_comm w.length, ← Nat.add_assoc]
    exact ⟨.car hp h0 hc.symm hm, hr⟩

/-- The tokens of a string. -/
theorem ChaineUser.lexemes (h : ChaineUser m adr l) : Lexemes m adr (leading ESPACE l) := by
  induction l using cut_induction ESPACE generalizing adr with
  | last w hw =>
    by_cases hnil : w = []
    · subst hnil
      exact .vide (h.mot hw)
    · rw [leading_last hw hnil]
      exact .dernier hnil (h.mot hw)
  | cut w r hw ih =>
    obtain ⟨hm, hr⟩ := h.coupe hw
    by_cases hnil : w = []
    · subst hnil
      rw [List.nil_append, leading_sep]
      exact .vide hm
    · rw [leading_cut hw hnil]
      exact .mot hnil hm (ih hr)

-- ---------------------------------------------------------------------------
-- Words of a buffer
-- ---------------------------------------------------------------------------

/-- A word ends at the first delimiter. -/
theorem exists_mot {i : Nat} (hp : ∀ j ≤ i, plageUser (adr + j) 1 = true)
    (hi : m (adr + i) = 0 ∨ m (adr + i) = ESPACE) :
    ∃ w c, Mot m adr w c ∧ w.length ≤ i := by
  induction i generalizing adr with
  | zero => exact ⟨[], _, .fin (hp 0 le_rfl) hi, le_rfl⟩
  | succ i ih =>
    by_cases hd : m adr = 0 ∨ m adr = ESPACE
    · exact ⟨[], _, .fin (hp 0 (Nat.zero_le _)) hd, Nat.zero_le _⟩
    · push Not at hd
      have hs : ∀ j, adr + 1 + j = adr + (j + 1) := by omega
      have hp' : ∀ j ≤ i, plageUser (adr + 1 + j) 1 = true := fun j hj => by
        rw [hs]
        exact hp (j + 1) (Nat.succ_le_succ hj)
      have hi' : m (adr + 1 + i) = 0 ∨ m (adr + 1 + i) = ESPACE := by rwa [hs]
      obtain ⟨w, c, hm, hlen⟩ := ih hp' hi'
      exact ⟨m adr :: w, c, .car (hp 0 (Nat.zero_le _)) hd.1 hd.2 hm, Nat.succ_le_succ hlen⟩

/-- No delimiter lies inside a word. -/
theorem Mot.interieur (h : Mot m adr w c) {i : Nat} (hi : i < w.length) :
    m (adr + i) ≠ 0 ∧ m (adr + i) ≠ ESPACE := by
  induction h generalizing i with
  | fin _ _ => exact absurd hi (Nat.not_lt_zero _)
  | @car adr w c hp h0 hc _ ih =>
    cases i with
    | zero => exact ⟨h0, hc⟩
    | succ i =>
      rw [Nat.add_comm i, ← Nat.add_assoc]
      exact ih (Nat.lt_of_succ_lt_succ hi)

/-- The tokens stop within the first `k` bytes: at a terminator, or at a space that
comes first or follows another one. -/
def Arrete (m : Nat → UInt8) (adr k : Nat) : Prop :=
  ∃ i < k, m (adr + i) = 0 ∨
    m (adr + i) = ESPACE ∧ (i = 0 ∨ m (adr + (i - 1)) = ESPACE)

/-- Tokens that stop within a buffer are at most half as many as its bytes. -/
theorem Arrete.lexemes {k : Nat} (h : Arrete m adr k) (hp : ∀ j < k, plageUser (adr + j) 1 = true) :
    ∃ ws, Lexemes m adr ws ∧ 2 * ws.length ≤ k := by
  induction k using Nat.strong_induction_on generalizing adr with
  | _ k ih =>
    obtain ⟨i, hik, hi⟩ := h
    obtain ⟨w, c, hm, hlen⟩ := exists_mot (fun j hj => hp j (by omega)) (hi.imp_right And.left)
    rcases hm.tete with ⟨rfl, -⟩ | ⟨hw, -⟩
    · exact ⟨[], .vide hm, Nat.zero_le _⟩
    have hpos := List.length_pos_of_ne_nil hw
    rcases hm.delim with rfl | rfl
    · refine ⟨[w], .dernier hw hm, ?_⟩
      rw [List.length_singleton]
      omega
    · -- the word does not end at the byte where the tokens stop
      have hne : i ≠ w.length := by
        rintro rfl
        rcases hi with h0 | ⟨-, h0 | hc⟩
        · exact absurd (hm.eq_fin.symm.trans h0) (by decide)
        · omega
        · exact (hm.interieur (i := w.length - 1) (by omega)).2 hc
      have hs : ∀ j, adr + w.length + 1 + j = adr + (w.length + 1 + j) := by omega
      have harr : Arrete m (adr + w.length + 1) (k - (w.length + 1)) := by
        refine ⟨i - (w.length + 1), by omega, ?_⟩
        rw [hs, show w.length + 1 + (i - (w.length + 1)) = i by omega]
        rcases hi with h0 | ⟨hc, h0 | hc'⟩
        · exact Or.inl h0
        · omega
        · refine Or.inr ⟨hc, ?_⟩
          by_cases hz : i - (w.length + 1) = 0
          · exact Or.inl hz
          · rw [hs, show w.length + 1 + (i - (w.length + 1) - 1) = i - 1 by omega]
            exact Or.inr hc'
      obtain ⟨ws, hws, hk⟩ := ih (k - (w.length + 1)) (by omega) harr fun j hj => by
        rw [hs]
        exact hp _ (by omega)
      refine ⟨w :: ws, .mot hw hm hws, ?_⟩
      rw [List.length_cons]
      omega

end

-- ---------------------------------------------------------------------------
-- The code
-- ---------------------------------------------------------------------------

section

variable {t : Shell} {w : List UInt8} {c : UInt8} {ws : List (List UInt8)} {adr tours : Nat}

/-- The span of the word, in enough turns. -/
theorem Mot.wp_strxspn {Q : Nat → Shell → Prop} (h : Mot t.memoire adr w c)
    (htours : w.length < tours) (hQ : Q w.length t) :
    wp (fun _ => False) (strxspn [ESPACE] true tours adr) Q t := by
  obtain ⟨m, hm⟩ : ∃ m, m = t.memoire := ⟨_, rfl⟩
  rw [← hm] at h
  induction h generalizing tours Q with
  | @fin adr hp hd =>
    obtain ⟨tours, rfl⟩ : ∃ k, tours = k + 1 := ⟨tours - 1, by omega⟩
    have hmap : matchmap [ESPACE] true (m adr) = true := by
      rcases hd with h0 | hc
      · rw [h0]; rfl
      · rw [hc]; rfl
    rw [strxspn, lireCar, wp_bind, wp_bind, wp_get, if_pos hp, wp_pure, ← hm, hmap,
      if_neg (by decide)]
    exact hQ
  | @car adr w c hp h0 hc _ ih =>
    obtain ⟨tours, rfl⟩ : ∃ k, tours = k + 1 := ⟨tours - 1, by omega⟩
    have hmap : matchmap [ESPACE] true (m adr) = false := by
      rw [matchmap, if_neg h0]
      simpa using hc
    rw [strxspn, lireCar, wp_bind, wp_bind, wp_get, if_pos hp, wp_pure, ← hm, hmap,
      if_pos (by decide), wp_bind]
    exact ih (Nat.lt_of_succ_lt_succ htours) hQ

theorem strtok_suite (delim : List UInt8) : strtok 0 delim = (do
    let t ← get
    let (token, stringp) ← strsep t.holder delim
    modify fun t => { t with holder := stringp }
    pure token) := rfl

/-- One more token: it is cut off, and `holder` is put behind it. -/
theorem Mot.wp_strtok {Q : Nat → Shell → Prop} (h : Mot t.memoire adr w c) (ht : t.holder = adr)
    (hQ : Q adr { t with
      memoire := Function.update t.memoire (adr + w.length) 0
      holder := if c = 0 then 0 else adr + w.length + 1 }) :
    wp (fun _ => False) (strtok 0 [ESPACE]) Q t := by
  have hfin := plageUser_un.mp h.plage_fin
  have hne := h.ne_zero
  rw [strtok_suite, wp_bind, wp_get, wp_bind, strsep, ht, if_neg hne,
    wp_bind, strpbrk, wp_bind]
  refine h.wp_strxspn (by omega) ?_
  rw [wp_bind, lireCar, wp_bind, wp_get, if_pos h.plage_fin, wp_pure, wp_pure, h.eq_fin]
  by_cases hc : c = 0
  · have hmem : Function.update t.memoire (adr + w.length) 0 = t.memoire := by
      rw [← hc, ← h.eq_fin, Function.update_eq_self]
    rw [if_pos hc, hmem] at hQ
    rw [if_neg (not_not_intro hc), if_neg (by decide)]
    exact hQ
  · rw [if_neg hc] at hQ
    rw [if_pos hc, if_pos (by omega), wp_bind, ecrireCar, if_pos h.plage_fin]
    exact hQ

/-- `strtok` without a token. -/
theorem wp_strtok_fin {Q : Nat → Shell → Prop} (ht : t.holder = 0) (hQ : Q 0 t) :
    wp (fun _ => False) (strtok 0 [ESPACE]) Q t := by
  rw [strtok_suite, wp_bind, wp_get, wp_bind, strsep, ht,
    if_pos rfl, wp_pure]
  obtain ⟨m, holder, argc, argv, ecrits⟩ := t
  subst ht
  exact hQ

/-- The state with one more argument. -/
def Shell.argument (t : Shell) (adr : Nat) : Shell := { t with
  argc := t.argc + 1
  argv := Function.update t.argv t.argc adr
  ecrits := t.ecrits ++ [t.argc] }

/-- A turn of the loop at an empty token. -/
theorem wp_boucle_vide {Q : Unit → Shell → Prop} (hp : plageUser adr 1 = true)
    (h0 : t.memoire adr = 0) (hQ : Q () t) :
    wp (fun _ => False) (parseCommand.boucle (tours + 1) adr) Q t := by
  rw [parseCommand.boucle]
  by_cases hne : adr = 0
  · rw [if_pos hne]
    exact hQ
  · rw [if_neg hne, wp_bind, lireCar, wp_bind, wp_get, if_pos hp, wp_pure, if_pos h0]
    exact hQ

/-- A turn of the loop at a word. -/
theorem wp_boucle_mot {Q : Unit → Shell → Prop} (hp : plageUser adr 1 = true)
    (h0 : t.memoire adr ≠ 0)
    (h : wp (fun _ => False) (strtok 0 [ESPACE] >>= parseCommand.boucle tours) Q (t.argument adr)) :
    wp (fun _ => False) (parseCommand.boucle (tours + 1) adr) Q t := by
  have hne : adr ≠ 0 := by
    obtain ⟨hs, -⟩ := plageUser_un.mp hp
    unfold USER_START at hs
    omega
  rw [parseCommand.boucle, if_neg hne, wp_bind, lireCar, wp_bind, wp_get, if_pos hp, wp_pure,
    if_neg h0]
  exact h

/-- What the loop does from `t` with the tokens `ws` to come at `adr`. -/
structure Rangement (t : Shell) (adr : Nat) (ws : List (List UInt8)) (t' : Shell) : Prop where
  argc : t'.argc = t.argc + ws.length
  ecrits : t'.ecrits = t.ecrits ++ List.range' t.argc ws.length
  anciens : ∀ i < t.argc, t'.argv i = t.argv i
  mot : ∀ i (h : i < ws.length), CString 0 t'.memoire (t'.argv (t.argc + i)) ws[i]
  memoire : ∀ a < adr, t'.memoire a = t.memoire a

/-- The loop, one turn a token. -/
theorem Lexemes.wp_boucle {m : Nat → UInt8} (h : Lexemes m adr ws)
    (hm : ∀ a, adr ≤ a → t.memoire a = m a) (ht : t.holder = adr) (htours : ws.length < tours) :
    wp (fun _ => False) (strtok 0 [ESPACE] >>= parseCommand.boucle tours)
      (fun _ t' => Rangement t adr ws t') t := by
  induction h generalizing t tours with
  | @vide adr c hmot =>
    obtain ⟨tours, rfl⟩ : ∃ k, tours = k + 1 := ⟨tours - 1, by omega⟩
    replace hmot := hmot.congr hm
    rw [wp_bind]
    refine hmot.wp_strtok ht (wp_boucle_vide hmot.plage (Function.update_self _ _ _) ?_)
    refine ⟨rfl, (List.append_nil _).symm, fun _ _ => rfl, nofun, fun a ha => ?_⟩
    exact Function.update_of_ne (Nat.ne_of_lt ha) _ _
  | @dernier adr w hw hmot =>
    obtain ⟨tours, rfl⟩ : ∃ k, tours = k + 2 := ⟨tours - 2, by simp at htours; omega⟩
    replace hmot := hmot.congr hm
    have hpos := List.length_pos_of_ne_nil hw
    have h0 : t.memoire adr ≠ 0 := (hmot.tete.resolve_left fun h => hw h.1).2
    rw [wp_bind]
    refine hmot.wp_strtok ht (wp_boucle_mot hmot.plage ?_ ?_)
    · exact (Function.update_of_ne (by omega) _ _).trans_ne h0
    rw [wp_bind]
    refine wp_strtok_fin rfl ?_
    rw [parseCommand.boucle, if_pos rfl, wp_pure]
    refine ⟨rfl, rfl, fun i hi => Function.update_of_ne (Nat.ne_of_lt hi) _ _, fun i hi => ?_,
      fun a ha => Function.update_of_ne (by omega) _ _⟩
    obtain rfl : i = 0 := by simpa using hi
    show CString 0 (Function.update t.memoire (adr + w.length) 0)
      (Function.update t.argv t.argc adr t.argc) w
    rw [Function.update_self]
    exact hmot.chaine
  | @mot adr w ws hw hmot hws ih =>
    obtain ⟨tours, rfl⟩ : ∃ k, tours = k + 1 := ⟨tours - 1, by omega⟩
    replace hmot := hmot.congr hm
    have hpos := List.length_pos_of_ne_nil hw
    have h0 : t.memoire adr ≠ 0 := (hmot.tete.resolve_left fun h => hw h.1).2
    rw [wp_bind]
    refine hmot.wp_strtok ht (wp_boucle_mot hmot.plage ?_ ?_)
    · exact (Function.update_of_ne (by omega) _ _).trans_ne h0
    refine wp_imp (ih (fun a ha => ?_) rfl (by simpa using htours)) ?_
    · exact (Function.update_of_ne (by omega) _ _).trans (hm a (by omega))
    intro _ t' hr
    refine ⟨?_, ?_, fun i hi => ?_, fun i hi => ?_, fun a ha => ?_⟩
    · rw [hr.argc, List.length_cons, Nat.add_comm ws.length, ← Nat.add_assoc]
      rfl
    · rw [hr.ecrits, List.length_cons, List.range'_succ]
      exact List.append_assoc _ _ _
    · exact (hr.anciens i (Nat.lt_succ_of_lt hi)).trans (Function.update_of_ne (Nat.ne_of_lt hi) _ _)
    · cases i with
      | zero =>
        have hargv : t'.argv t.argc = adr :=
          (hr.anciens t.argc (Nat.lt_succ_self _)).trans (Function.update_self _ _ _)
        rw [Nat.add_zero, hargv]
        exact hmot.chaine.congr fun i hi => hr.memoire _ (by omega)
      | succ i =>
        have hmoti := hr.mot i (Nat.lt_of_succ_lt_succ hi)
        rw [show t.argc + (i + 1) = t.argc + 1 + i by omega]
        exact hmoti
    · exact (hr.memoire a (by omega)).trans (Function.update_of_ne (by omega) _ _)

/-- `parse_command` on the tokens of the line. -/
theorem Lexemes.wp_parseCommand {input : Nat} (h : Lexemes t.memoire input ws) :
    wp (fun _ => False) (parseCommand input) (fun _ t' => Decoupe t' ws ∧
      t'.ecrits = t.ecrits ++ List.range (ws.length + 1)) t := by
  have hne : input ≠ 0 := h.ne_zero
  have hsuite : strtok input [ESPACE] =
      (modify fun t => { t with holder := input }) >>= fun _ => strtok 0 [ESPACE] := by
    rw [strtok, if_pos hne]
    rfl
  rw [parseCommand, wp_bind, wp_modify, hsuite, wp_bind, wp_bind, wp_modify]
  have htours : ws.length < USER_END - input + 2 := by
    have hlen := h.length_le
    omega
  have hboucle := h.wp_boucle (t := { t with
    argc := 0
    holder := input }) (fun _ _ => rfl) rfl htours
  rw [wp_bind] at hboucle
  refine wp_imp hboucle fun token t₁ h₁ => ?_
  rw [wp_bind]
  refine wp_imp h₁ fun _ t' hr => ?_
  have hargc : t'.argc = ws.length := hr.argc.trans (Nat.zero_add _)
  rw [wp_bind, wp_get, poserArgv, wp_modify, hargc]
  refine ⟨⟨rfl, fun i hi => ?_, Function.update_self _ _ _⟩, ?_⟩
  · have hmot := hr.mot i hi
    rw [Nat.zero_add] at hmot
    show CString 0 t'.memoire (Function.update t'.argv ws.length 0 i) ws[i]
    rw [Function.update_of_ne (Nat.ne_of_lt hi)]
    exact hmot
  · rw [hr.ecrits, List.append_assoc, List.range_succ, List.range_eq_range']

end

end GenesisOS
