import GenesisOS.Refinement.History
import GenesisOS.Refinement.Boot

/-!
# GenesisOS — what the history records

`cons_read` clears the string of the caller and copies the characters into it, then
saves it with `strlen` and `strcpy`. There is a terminator after the characters only
if they do not fill the string: otherwise the bytes that follow it in memory are
read, and saved when they are not a terminator.
-/

namespace GenesisOS

open Lib

/-- The newest entry of the history. -/
def Clavier.derniere (k : Clavier) : Option Ligne :=
  if k.indexHistory = 0 then none else k.history (k.indexHistory - 1)

/-- The completed call `cons_read(string, length)` from `s` to `s'` has saved the `v`
characters it returned, and has only read and written the string of the caller: its
outcome is the same whatever the rest of memory holds. -/
structure LectureFidele (s : Kernel) (string length : Nat) (v : Int) (s' : Kernel) : Prop where
  entree : s'.clavier.derniere.map Ligne.texte =
    some ((List.range v.toNat).map fun i => s'.memoire (string + i))
  ecrits : ∀ a, ¬ (string ≤ a ∧ a < string + length) → s'.memoire a = s.memoire a
  lus : ∀ m : Nat → UInt8, (∀ a, string ≤ a ∧ a < string + length → m a = s.memoire a) →
    consRead string length { s with memoire := m } = .ok (.retour v, { s' with
      memoire := fun a => if string ≤ a ∧ a < string + length then s'.memoire a else m a })

section

variable {s s' : Kernel} {string length : Nat} {v : Int}

/-- What a completed call has saved. -/
theorem consRead_derniere (h1 : 1 < length)
    (h : consRead string length s = .ok (.retour v, s')) : ∃ texte,
      ChaineUser (s.memoireLue string length) string texte ∧ v = s.clavier.preleve length ∧
        s'.memoire = s.memoireLue string length ∧
          s'.clavier.derniere.map Ligne.texte = some texte := by
  obtain ⟨-, -, texte, ht, hfin⟩ := (consRead_retour_iff h1).mp h
  obtain ⟨hv, hm, i, a, hi, ha⟩ := consReadFin_retour hfin
  refine ⟨texte, ht, hv, hm, ?_⟩
  rw [Clavier.derniere, hi, if_neg (Nat.succ_ne_zero i), Nat.add_sub_cancel, ha]
  rfl

/-- The characters taken, when none of them is a terminator and they do not fill the
string. -/
theorem Kernel.memoireLue_chaine (hn : s.clavier.preleve length < length)
    (hnul : ∀ i < s.clavier.preleve length, s.clavier.tampon i ≠ 0) :
    CString 0 (s.memoireLue string length) string
      ((List.range (s.clavier.preleve length)).map s.clavier.tampon) where
  byte i hi := by
    rw [List.length_map, List.length_range] at hi
    rw [List.getElem_map, List.getElem_range, Kernel.memoireLue_of_preleve hi]
  notMem := by
    intro hm
    obtain ⟨i, hi, h0⟩ := List.mem_map.mp hm
    exact hnul i (List.mem_range.mp hi) h0
  terminator := by
    rw [List.length_map, List.length_range]
    unfold Kernel.memoireLue
    rw [if_neg (by omega), if_pos (by omega)]

/-- `cons_read` reads the same characters back whatever memory holds. -/
theorem Kernel.memoireLue_memoire (s : Kernel) (m : Nat → UInt8) (string length : Nat) :
    ({ s with memoire := m } : Kernel).memoireLue string length = fun a =>
      if string ≤ a ∧ a < string + length then s.memoireLue string length a else m a := by
  have hn := s.clavier.preleve_le length
  funext a
  show (if string ≤ a ∧ a < string + s.clavier.preleve length then s.clavier.tampon (a - string)
    else if string ≤ a ∧ a < string + length then 0 else m a) = _
  by_cases ha : string ≤ a ∧ a < string + length
  · rw [if_pos ha, if_pos ha]
    unfold Kernel.memoireLue
    rw [if_pos ha]
  · rw [if_neg (by omega), if_neg ha, if_neg ha]

/-- A completed call for several characters saves exactly the characters it returns,
and stays within the string of the caller, if and only if the characters waiting do
not fill that string and none of them is a terminator. -/
theorem historique_fidele (h1 : 1 < length) (hlen : length < 2 ^ 31)
    (h : consRead string length s = .ok (.retour v, s')) :
    LectureFidele s string length v s' ↔
      s.clavier.ptampon < length ∧ ∀ i < s.clavier.ptampon, s.clavier.tampon i ≠ 0 := by
  have htaille : (BitVec.ofNat 32 length).toInt = length := by
    rw [BitVec.toInt_eq_toNat_cond, BitVec.toNat_ofNat, Nat.mod_eq_of_lt (by omega), if_pos (by omega)]
  have hpreleve : s.clavier.preleve length = min length s.clavier.ptampon := by
    unfold Clavier.preleve
    rw [htaille, Int.toNat_natCast]
  obtain ⟨hb, hplage, -⟩ := (consRead_retour_iff h1).mp h
  obtain ⟨texte, ht, hv, hm, hder⟩ := consRead_derniere h1 h
  have hcar : ∀ i < s.clavier.preleve length, s'.memoire (string + i) = s.clavier.tampon i := by
    intro i hi
    rw [hm, Kernel.memoireLue_of_preleve hi]
  constructor
  · intro hfid
    -- the entry is as long as what has been read, so nothing in it is a terminator
    have hentree : texte = (List.range (s.clavier.preleve length)).map fun i =>
        s'.memoire (string + i) := by
      have he := hder.symm.trans hfid.entree
      rw [hv, Int.toNat_natCast] at he
      exact Option.some.inj he
    have hlong : texte.length = s.clavier.preleve length := by
      rw [hentree, List.length_map, List.length_range]
    have hnul : ∀ i < s.clavier.preleve length, s.clavier.tampon i ≠ 0 := by
      intro i hi h0
      refine ht.chaine.notMem ?_
      rw [hentree]
      exact List.mem_map.mpr ⟨i, List.mem_range.mpr hi, (hcar i hi).trans h0⟩
    by_contra hnon
    have hplein : length ≤ s.clavier.ptampon := by
      by_contra hlt
      exact hnon ⟨not_le.mp hlt, fun i hi => hnul i (by omega)⟩
    have hn : s.clavier.preleve length = length := by omega
    -- the terminator is read after the string of the caller: another byte there
    -- makes the entry longer
    have hfin := hfid.lus (Function.update s.memoire (string + length) 1) fun a ha =>
      Function.update_of_ne (by omega) _ _
    obtain ⟨texte', ht', -, -, hder'⟩ := consRead_derniere h1 hfin
    obtain rfl : texte = texte' := Option.some.inj (hder.symm.trans hder')
    have h0 := ht'.chaine.terminator
    rw [Kernel.memoireLue_memoire, hlong, hn] at h0
    dsimp only at h0
    rw [if_neg (by omega), Function.update_self] at h0
    exact absurd h0 (by decide)
  · rintro ⟨hlt, hnul⟩
    have hn : s.clavier.preleve length < length := by omega
    have hnul' : ∀ i < s.clavier.preleve length, s.clavier.tampon i ≠ 0 := fun i hi =>
      hnul i (by omega)
    obtain rfl : (List.range (s.clavier.preleve length)).map s.clavier.tampon = texte :=
      (Kernel.memoireLue_chaine hn hnul').unique ht.chaine
    refine ⟨?_, fun a ha => ?_, fun m hag => ?_⟩
    · rw [hder, hv, Int.toNat_natCast]
      refine congrArg some (List.map_congr_left fun i hi => ?_)
      exact (hcar i (List.mem_range.mp hi)).symm
    · rw [hm]
      unfold Kernel.memoireLue
      rw [if_neg (by omega), if_neg ha]
    · obtain ⟨-, -, texte', ht', hfin⟩ := (consRead_retour_iff h1).mp h
      obtain rfl := ht.chaine.unique ht'.chaine
      have hfin' := consReadFin_memoire
        (m := ({ s with memoire := m } : Kernel).memoireLue string length) hfin
      refine (consRead_retour_iff h1).mpr ⟨hb, hplage, _, ⟨?_, ht.plage⟩, ?_⟩
      · exact Kernel.memoireLue_chaine (s := { s with memoire := m }) hn hnul'
      · rw [hm, ← Kernel.memoireLue_memoire]
        exact hfin'

end

/-- The user process reads the two characters that wait into a longer string. -/
theorem historique_fidele_exemple : ∃ c s', Accessible c ∧
    segment c (appel 19 0x1800000 3 0 0) c.s = .ok (.retour 2, s') ∧
      LectureFidele c.s 0x1800000 3 2 s' := by
  obtain ⟨c, hc, hQ⟩ := Accessible.scenario (l := [.suite, .int33 [97, 98, 13]])
    (Q := fun c => possible c (appel 19 0x1800000 3 0 0) &&
      decide (c.s.clavier.ptampon < 3 ∧ ∀ i < c.s.clavier.ptampon, c.s.clavier.tampon i ≠ 0) &&
      match consRead 0x1800000 3 c.s with
      | .ok (.retour v, _) => decide (v = 2)
      | _ => false) (by decide +kernel)
  rw [Bool.and_eq_true, Bool.and_eq_true, decide_eq_true_eq] at hQ
  obtain ⟨⟨hp, hcond⟩, hrun⟩ := hQ
  split at hrun
  · next v s' hread =>
    obtain rfl := of_decide_eq_true hrun
    have hposs : c.mode = .utilisateur ∧ c.s.procElu ≠ c.s.procIdle := of_decide_eq_true hp
    refine ⟨c, s', hc, ?_, (historique_fidele (by decide) (by decide) hread).mpr hcond⟩
    rw [appel, segment, if_pos hposs]
    exact hread
  · cases hrun

/-- Two characters fill the string of the caller, which an `X` follows in memory: the
call returns 2 and saves `abX`. -/
theorem historique_fidele_faux : ∃ c s', Accessible c ∧
    segment c (appel 19 0x1800000 2 0 0) c.s = .ok (.retour 2, s') ∧
      consRead 0x1800000 2 c.s = .ok (.retour 2, s') ∧
        s'.clavier.derniere.map Ligne.texte = some (octets "abX") ∧
          ¬ LectureFidele c.s 0x1800000 2 2 s' := by
  obtain ⟨c, hc, hQ⟩ := Accessible.scenario
    (l := [.suite, .programme fun a => if a = 0x1800002 then 88 else 0, .int33 [97, 98, 13]])
    (Q := fun c => possible c (appel 19 0x1800000 2 0 0) &&
      match consRead 0x1800000 2 c.s with
      | .ok (.retour v, s') =>
        decide (v = 2 ∧ s'.clavier.derniere.map Ligne.texte = some (octets "abX"))
      | _ => false) (by decide +kernel)
  rw [Bool.and_eq_true] at hQ
  obtain ⟨hp, hrun⟩ := hQ
  split at hrun
  · next v s' hread =>
    obtain ⟨rfl, hder⟩ := of_decide_eq_true hrun
    have hposs : c.mode = .utilisateur ∧ c.s.procElu ≠ c.s.procIdle := of_decide_eq_true hp
    refine ⟨c, s', hc, ?_, hread, hder, fun hfid => ?_⟩
    · rw [appel, segment, if_pos hposs]
      exact hread
    · have hlen := congrArg (Option.map List.length) (hder.symm.trans hfid.entree)
      exact absurd hlen (by simp [octets])
  · cases hrun

end GenesisOS
