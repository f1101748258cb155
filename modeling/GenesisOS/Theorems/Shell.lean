import Mathlib.Data.List.GetD
import GenesisOS.Refinement.Boot
import GenesisOS.Refinement.Shell

/-!
# GenesisOS — command lines

`parse_command` finds the words of the line up to the first empty token. These are
all the words unless one follows a space that begins the line or follows another
space, and the array `argv` of the shell holds them when the tokens stop within the
buffer that `cons_read` has filled.
-/

namespace GenesisOS

open Lib

/-- Whatever follows the buffer of the shell, `parse_command` on this content ends and
stores only inside `argv`. -/
def DansArgv (m : Nat → UInt8) (string : Nat) : Prop :=
  ∀ (str : Nat) (t : Shell), plageUser str CMD_SIZE = true →
    (∀ i < CMD_SIZE, t.memoire (str + i) = m (string + i)) →
      ∃ t', parseCommand str t = .ok ((), t') ∧
        ∀ i ∈ t'.ecrits, i ∈ t.ecrits ∨ i < CMD_SIZE / 2 + 1

/-- Thirteen words of one letter, which fill the buffer of the shell. -/
def treizeMots : List UInt8 := 97 :: (List.replicate 12 [ESPACE, 97]).flatten

/-- A memory that holds these characters at `adr`, and zeroes. -/
def enMemoire (adr : Nat) (l : List UInt8) : Nat → UInt8 := fun a => l.getD (a - adr) 0

/-- A shell that is about to parse. -/
def auRepos (m : Nat → UInt8) : Shell := ⟨m, 0, 0, fun _ => 0, []⟩

section

variable {m : Nat → UInt8} {l : List UInt8} {string input : Nat} {ws : List (List UInt8)}
  {t : Shell}

theorem Lexemes.parseCommand (h : Lexemes t.memoire input ws) :
    ∃ t', parseCommand input t = .ok ((), t') ∧ Decoupe t' ws ∧
      t'.ecrits = t.ecrits ++ List.range (ws.length + 1) := by
  obtain ⟨⟨⟩, t', hrun, hd⟩ := wp_exists h.wp_parseCommand
  exact ⟨t', hrun, hd⟩

/-- A line is split into all its words when none follows an empty token. -/
theorem ChaineUser.parseCommand (h : ChaineUser t.memoire input l) :
    ∃ t', parseCommand input t = .ok ((), t') ∧
      (Decoupe t' (words ESPACE l) ↔ ¬ Gapped ESPACE l) := by
  obtain ⟨t', hrun, hd, -⟩ := h.lexemes.parseCommand
  refine ⟨t', hrun, ?_⟩
  rw [← leading_eq_words_iff]
  constructor
  · exact fun hmots => hd.unique hmots
  · intro he
    rwa [← he]

theorem Arrete.dansArgv (h : Arrete m string CMD_SIZE) : DansArgv m string := by
  intro str t hp hm
  have hplage : ∀ j < CMD_SIZE, plageUser (str + j) 1 = true := by
    intro j hj
    unfold plageUser at hp ⊢
    rw [Bool.and_eq_true, decide_eq_true_eq, decide_eq_true_eq] at hp ⊢
    omega
  have hstr : Arrete t.memoire str CMD_SIZE := by
    obtain ⟨i, hi, hc⟩ := h
    refine ⟨i, hi, ?_⟩
    rw [hm i hi]
    refine hc.imp_right fun hx => ⟨hx.1, hx.2.imp_right fun hx => ?_⟩
    rwa [hm (i - 1) (by omega)]
  obtain ⟨ws, hws, hk⟩ := hstr.lexemes hplage
  obtain ⟨t', hrun, -, hec⟩ := hws.parseCommand
  refine ⟨t', hrun, fun i hi => ?_⟩
  rw [hec] at hi
  refine (List.mem_append.mp hi).imp_right fun hi => ?_
  have hlt := List.mem_range.mp hi
  omega

theorem chaineUser_enMemoire (h0 : (0 : UInt8) ∉ l)
    (hp : plageUser string (l.length + 1) = true) : ChaineUser (enMemoire string l) string l := by
  refine ⟨⟨fun i hi => ?_, h0, ?_⟩, fun i hi => ?_⟩
  · show l.getD (string + i - string) 0 = l[i]
    rw [Nat.add_sub_cancel_left, List.getD_eq_getElem _ _ hi]
  · show l.getD (string + l.length - string) 0 = 0
    rw [Nat.add_sub_cancel_left, List.getD_eq_default _ _ le_rfl]
  · unfold plageUser at hp ⊢
    rw [Bool.and_eq_true, decide_eq_true_eq, decide_eq_true_eq] at hp ⊢
    omega

/-- The shell can be given any line that fits in user memory. -/
theorem exists_ligne (h0 : (0 : UInt8) ∉ l) (hl : plageUser USER_START (l.length + 1) = true) :
    ∃ (input : Nat) (t : Shell), ChaineUser t.memoire input l :=
  ⟨USER_START, auRepos (enMemoire USER_START l), chaineUser_enMemoire h0 hl⟩

/-- A buffer in which the tokens do not stop is spaced. -/
theorem spaced_of_not_arrete {k : Nat} (h : ¬ Arrete m string k) :
    Spaced ESPACE ((List.range k).map fun i => m (string + i)) := by
  intro l₁ l₂ he
  have hlen : l₁.length < k := by
    have := congrArg List.length he
    rw [List.length_map, List.length_range, List.length_append, List.length_cons] at this
    omega
  have hget : ∀ i (hi : i < k), (l₁ ++ ESPACE :: l₂)[i]? = some (m (string + i)) := by
    intro i hi
    rw [← he, List.getElem?_map, List.getElem?_range hi]
    rfl
  have hsep : m (string + l₁.length) = ESPACE := by
    have hx := hget l₁.length hlen
    rw [List.getElem?_append_right le_rfl, Nat.sub_self] at hx
    exact (Option.some.inj hx).symm
  refine ⟨?_, fun hl => ?_⟩
  · rintro rfl
    exact h ⟨0, hlen, Or.inr ⟨hsep, Or.inl rfl⟩⟩
  · have hpos : 0 < l₁.length := by
      cases l₁ with
      | nil => cases hl
      | cons _ _ => exact Nat.succ_pos _
    refine h ⟨l₁.length, hlen, Or.inr ⟨hsep, Or.inr ?_⟩⟩
    have hx := hget (l₁.length - 1) (by omega)
    rw [List.getElem?_append_left (by omega), ← List.getLast?_eq_getElem?, hl] at hx
    exact (Option.some.inj hx).symm

theorem DansArgv.arrete (h : DansArgv m string) : Arrete m string CMD_SIZE := by
  by_contra hn
  -- thirteen more words follow the buffer
  obtain ⟨x, hx⟩ : ∃ x, x = (List.range CMD_SIZE).map fun i => m (string + i) := ⟨_, rfl⟩
  have hlen : x.length = CMD_SIZE := by rw [hx, List.length_map, List.length_range]
  have h0 : (0 : UInt8) ∉ x ++ treizeMots := by
    refine List.not_mem_append (fun hm => ?_) (by decide)
    rw [hx] at hm
    obtain ⟨i, hi, hc⟩ := List.mem_map.mp hm
    exact hn ⟨i, List.mem_range.mp hi, Or.inl hc⟩
  have hc : ChaineUser (enMemoire USER_START (x ++ treizeMots)) USER_START (x ++ treizeMots) := by
    refine chaineUser_enMemoire h0 ?_
    rw [List.length_append, hlen]
    decide
  obtain ⟨t', hrun, hin⟩ := h USER_START (auRepos (enMemoire USER_START (x ++ treizeMots))) (by decide)
    fun i hi => by
    show (x ++ treizeMots).getD (USER_START + i - USER_START) 0 = _
    rw [Nat.add_sub_cancel_left, List.getD_append _ _ _ _ (by omega), hx,
      List.getD_eq_getElem _ _ (by simpa using hi), List.getElem_map, List.getElem_range]
  obtain ⟨t'', hrun', -, hec⟩ := Lexemes.parseCommand
    (t := auRepos (enMemoire USER_START (x ++ treizeMots))) hc.lexemes
  rw [hrun] at hrun'
  cases hrun'
  have hmots : 13 ≤ (leading ESPACE (x ++ treizeMots)).length := by
    have hsp := spaced_of_not_arrete hn
    rw [← hx] at hsp
    calc 13 = (leading ESPACE treizeMots).length := by decide
      _ ≤ _ := hsp.leading_append (by decide)
  have hm : 13 ∈ t'.ecrits := by
    rw [hec]
    exact List.mem_append_right _ (List.mem_range.mpr (by omega))
  rcases hin 13 hm with hm | hm
  · cases hm
  · exact absurd hm (by decide)

theorem dansArgv_iff : DansArgv m string ↔ Arrete m string CMD_SIZE :=
  ⟨DansArgv.arrete, Arrete.dansArgv⟩

end

/-- `parse_command` splits a line into its words if and only if no word follows a
space that begins the line or follows another space; on what `cons_read` leaves in
the buffer of the shell, it stores only inside `argv` if and only if the buffer holds
a terminator, begins with a space or holds two spaces in a row. -/
theorem decoupage_des_lignes (input : Nat) (l : List UInt8) (t : Shell) (s s' : Kernel)
    (string : Nat) (v : Int) :
    (ChaineUser t.memoire input l →
      ∃ t', parseCommand input t = .ok ((), t') ∧
        (Decoupe t' (words ESPACE l) ↔ ¬ Gapped ESPACE l)) ∧
      (consRead string CMD_SIZE s = .ok (.retour v, s') →
        (DansArgv s'.memoire string ↔ Arrete s'.memoire string CMD_SIZE)) :=
  ⟨fun h => h.parseCommand, fun _ => dansArgv_iff⟩

/-- The shell parses two words, and what the user process has read. -/
theorem decoupage_des_lignes_exemple :
    (∃ input t t', parseCommand input t = .ok ((), t') ∧ Decoupe t' [[97], [98]]) ∧
      ∃ c s', Accessible c ∧ consRead 0x1800000 CMD_SIZE c.s = .ok (.retour 2, s') ∧
        DansArgv s'.memoire 0x1800000 := by
  obtain ⟨input, t, hligne⟩ := exists_ligne (l := [97, ESPACE, 98]) (by decide) (by decide)
  obtain ⟨c, hc, hQ⟩ := Accessible.scenario (l := [.suite, .int33 [97, 98, 13]])
    (Q := fun c => match consRead 0x1800000 CMD_SIZE c.s with
      | .ok (.retour v, s') => decide (v = 2 ∧ s'.memoire (0x1800000 + 2) = 0)
      | _ => false) (by decide +kernel)
  split at hQ
  · next v s' hread =>
    obtain ⟨rfl, h0⟩ := of_decide_eq_true hQ
    obtain ⟨hmots, hargv⟩ := decoupage_des_lignes input _ t c.s s' 0x1800000 2
    refine ⟨?_, c, s', hc, hread, (hargv hread).mpr ⟨2, by decide, Or.inl h0⟩⟩
    obtain ⟨t', hrun, hd⟩ := hmots hligne
    exact ⟨input, t, t', hrun, hd.mpr (leading_eq_words_iff.mp (by decide))⟩
  · cases hQ

/-- The one word of the line ` a` is missed; thirteen words of one letter fill the
buffer, and the null pointer is stored behind `argv`. -/
theorem decoupage_des_lignes_faux :
    (∃ input t t', ChaineUser t.memoire input [ESPACE, 97] ∧
      parseCommand input t = .ok ((), t') ∧ t'.argc = 0 ∧
        words ESPACE [ESPACE, 97] = [[97]] ∧ ¬ Decoupe t' (words ESPACE [ESPACE, 97])) ∧
      ∃ c s', Accessible c ∧
        segment c (appel 19 0x1800000 CMD_SIZE 0 0) c.s = .ok (.retour CMD_SIZE, s') ∧
          consRead 0x1800000 CMD_SIZE c.s = .ok (.retour CMD_SIZE, s') ∧
            (∃ t', parseCommand 0x1800000 (auRepos s'.memoire) = .ok ((), t') ∧
              CMD_SIZE / 2 + 1 ∈ t'.ecrits) ∧ ¬ DansArgv s'.memoire 0x1800000 := by
  refine ⟨?_, ?_⟩
  · obtain ⟨input, t, hc⟩ := exists_ligne (l := [ESPACE, 97]) (by decide) (by decide)
    obtain ⟨t', hrun, hd, -⟩ := hc.lexemes.parseCommand
    refine ⟨input, t, t', hc, hrun, hd.argc, rfl, fun h => ?_⟩
    exact absurd (hd.argc.symm.trans h.argc) (by decide)
  · obtain ⟨c, hc, hQ⟩ := Accessible.scenario (l := [.suite, .int33 (treizeMots ++ [13])])
      (Q := fun c => possible c (appel 19 0x1800000 CMD_SIZE 0 0) &&
        match consRead 0x1800000 CMD_SIZE c.s with
        | .ok (.retour v, s') => decide (v = CMD_SIZE ∧
            ∀ i < CMD_SIZE + 1, s'.memoire (0x1800000 + i) = treizeMots.getD i 0)
        | _ => false) (by decide +kernel)
    rw [Bool.and_eq_true] at hQ
    obtain ⟨hp, hrun⟩ := hQ
    split at hrun
    · next v s' hread =>
      obtain ⟨rfl, hm⟩ := of_decide_eq_true hrun
      have hposs : c.mode = .utilisateur ∧ c.s.procElu ≠ c.s.procIdle := of_decide_eq_true hp
      have hligne : ChaineUser s'.memoire 0x1800000 treizeMots := by
        refine ⟨⟨fun i hi => ?_, by decide, hm 25 (by decide)⟩, fun i hi => ?_⟩
        · rw [hm i (Nat.lt_succ_of_lt hi), List.getD_eq_getElem _ _ hi]
        · have hlen : treizeMots.length = 25 := by decide
          rw [plageUser_un, USER_START, USER_END]
          omega
      obtain ⟨t', hparse, -, hec⟩ := Lexemes.parseCommand (t := auRepos s'.memoire) hligne.lexemes
      have hecrit : CMD_SIZE / 2 + 1 ∈ t'.ecrits := by
        rw [hec]
        exact List.mem_append_right _ (List.mem_range.mpr (by decide))
      refine ⟨c, s', hc, ?_, hread, ⟨t', hparse, hecrit⟩, fun hdans => ?_⟩
      · rw [appel, segment, if_pos hposs]
        exact hread
      · obtain ⟨t'', hparse', hin⟩ := hdans 0x1800000 (auRepos s'.memoire) (by decide) fun _ _ => rfl
        rw [hparse] at hparse'
        cases hparse'
        rcases hin _ hecrit with hx | hx
        · cases hx
        · exact absurd hx (Nat.lt_irrefl _)
    · cases hrun

end GenesisOS
