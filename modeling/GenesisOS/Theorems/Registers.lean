import GenesisOS.Theorems.Formats

/-!
# GenesisOS — registers printed with `%b`

The string of a `%b` conversion gives the base of the register, then its bits and its bit
fields by name. `_doprnt` writes the register, then the bits that are set and every field.
-/

namespace GenesisOS

namespace Doprnt

open Lib

/-- A bit, or the bit field from the bit `i` down to the bit `j`; bits are counted from 1. -/
inductive ChampBits where
  | bit (i : Nat) (nom : List UInt8)
  | plage (i j : Nat) (nom : List UInt8)
  deriving DecidableEq, Repr

namespace ChampBits

def texte : ChampBits → List UInt8
  | bit i nom => UInt8.ofNat i :: nom
  | plage i j nom => UInt8.ofNat i :: UInt8.ofNat j :: nom

/-- The characters of a name come after the space; a field may have no name. -/
def Valide : ChampBits → Prop
  | bit i nom => 1 ≤ i ∧ i ≤ 32 ∧ nom ≠ [] ∧ ∀ c ∈ nom, finNom c = false
  | plage i j nom => 1 ≤ j ∧ j ≤ i ∧ i ≤ 32 ∧ ∀ c ∈ nom, finNom c = false

/-- What is written for it, if anything. -/
def visible (base : Nat) (u : BitVec 32) : ChampBits → Option (List UInt8)
  | bit i nom => if u.getLsbD (i - 1) then some nom else none
  | plage i j nom => some (nom ++ ecrit base (u.toNat / 2 ^ (j - 1) % 2 ^ (i - j + 1)))

end ChampBits

/-- Names between angle brackets, with commas; `any` tells that one is written already. -/
def enumere : Bool → List (List UInt8) → List UInt8
  | any, [] => if any then octets ">" else []
  | any, m :: ms => (if any then octets "," else octets "<") ++ m ++ enumere true ms

variable {u : BitVec 32} {i j b : Nat} {nom l : List UInt8}

-- ---------------------------------------------------------------------------
-- Bits
-- ---------------------------------------------------------------------------

theorem charVal_ofNat (h : i ≤ 32) : charVal (UInt8.ofNat i) = i ∧ finNom (UInt8.ofNat i) = true := by
  have key : ∀ i < 33, charVal (UInt8.ofNat i) = Int.ofNat i ∧ finNom (UInt8.ofNat i) = true := by decide
  exact key i (by omega)

theorem ofNat_ne_zero (h : 1 ≤ i) (h' : i ≤ 32) : UInt8.ofNat i ≠ 0 := by
  intro h0
  have hc := (charVal_ofNat h').1
  rw [h0] at hc
  have : charVal 0 = 0 := by decide
  omega

theorem decalage_eq {n : Int} {k : Nat} (h : n = k) (hk : k < 32) : decalage n = .ok k := by
  unfold decalage
  rw [if_pos ⟨by omega, by omega⟩, h]
  rfl

/-- A bit field. -/
theorem toNat_plage (u : BitVec 32) (k : Nat) {m : Nat} (hm : m < 32) :
    ((u >>> k) &&& (((2 : BitVec 32) <<< m) - 1)).toNat = u.toNat / 2 ^ k % 2 ^ (m + 1) := by
  have hpow : 2 ^ (m + 1) ≤ 2 ^ 32 := Nat.pow_le_pow_right (by decide) (by omega)
  have hpos : 0 < 2 ^ (m + 1) := Nat.two_pow_pos _
  have hmasque : (((2 : BitVec 32) <<< m) - 1).toNat = 2 ^ (m + 1) - 1 := by
    have hdeux : 2 <<< m = 2 ^ (m + 1) := by
      rw [Nat.shiftLeft_eq, Nat.pow_succ, Nat.mul_comm]
    have h2 : (2 : BitVec 32).toNat = 2 := rfl
    have h1 : (1 : BitVec 32).toNat = 1 := rfl
    rw [BitVec.toNat_sub, BitVec.toNat_shiftLeft, h2, h1, hdeux]
    rcases Nat.lt_or_ge (2 ^ (m + 1)) (2 ^ 32) with hlt | hge
    · rw [Nat.mod_eq_of_lt hlt]
      omega
    · have heq : 2 ^ (m + 1) = 2 ^ 32 := Nat.le_antisymm hpow hge
      rw [heq]
      rfl
  rw [BitVec.toNat_and, BitVec.toNat_ushiftRight, hmasque, Nat.shiftRight_eq_div_pow,
    Nat.and_two_pow_sub_one_eq_mod]

theorem and_bit_ne_zero (u : BitVec 32) {k : Nat} (hk : k < 32) :
    u &&& ((1 : BitVec 32) <<< k) ≠ 0 ↔ u.getLsbD k = true := by
  have hun : (1 : BitVec 32) <<< k = BitVec.twoPow 32 k := (BitVec.twoPow_eq 32 k).symm
  have hne : BitVec.twoPow 32 k ≠ 0 := by
    intro h
    have ht := congrArg BitVec.toNat h
    rw [BitVec.toNat_twoPow_eq_ite, if_pos hk] at ht
    exact absurd ht (Nat.two_pow_pos k).ne'
  rw [hun, BitVec.and_twoPow]
  split
  · rename_i h
    exact iff_of_true hne h
  · rename_i h
    exact iff_of_false (fun h0 => h0 rfl) h

-- ---------------------------------------------------------------------------
-- Names
-- ---------------------------------------------------------------------------

/-- A name goes up to the next control character. -/
theorem takeWhile_nom (hnom : ∀ c ∈ nom, finNom c = false) (hl : ∃ c r, l = c :: r ∧ finNom c = true) :
    (nom ++ l).takeWhile (fun c => !finNom c) = nom := by
  obtain ⟨c, r, rfl, hc⟩ := hl
  rw [List.takeWhile_append_of_pos fun x hx => by rw [hnom x hx]; rfl,
    List.takeWhile_cons_of_neg (by rw [hc]; decide), List.append_nil]

/-- What follows a name starts with a control character. -/
theorem suite_nom {rs : List ChampBits} (hrs : ∀ r ∈ rs, r.Valide) :
    ∃ c t, rs.flatMap ChampBits.texte ++ [0] = c :: t ∧ finNom c = true := by
  cases rs with
  | nil => exact ⟨0, [], rfl, by decide⟩
  | cons r rs =>
    have hr := hrs r List.mem_cons_self
    cases r with
    | bit i nom => exact ⟨_, _, rfl, (charVal_ofNat hr.2.1).2⟩
    | plage i j nom => exact ⟨_, _, rfl, (charVal_ofNat hr.2.2.1).2⟩

theorem zero_notMem_champBits {r : ChampBits} (hr : r.Valide) : (0 : UInt8) ∉ r.texte := by
  have hnom : ∀ {nom : List UInt8}, (∀ c ∈ nom, finNom c = false) → (0 : UInt8) ∉ nom := by
    intro nom hnom h
    exact absurd (hnom 0 h) (by decide)
  cases r with
  | bit i nom =>
    obtain ⟨hi, hi', -, hn⟩ := hr
    exact List.not_mem_cons_of_ne_of_not_mem (ofNat_ne_zero hi hi').symm (hnom hn)
  | plage i j nom =>
    obtain ⟨hj, hji, hi, hn⟩ := hr
    refine List.not_mem_cons_of_ne_of_not_mem (ofNat_ne_zero (by omega) hi).symm ?_
    exact List.not_mem_cons_of_ne_of_not_mem (ofNat_ne_zero hj (by omega)).symm (hnom hn)

theorem length_le_champsBits (rs : List ChampBits) : rs.length ≤ (rs.flatMap ChampBits.texte).length := by
  induction rs with
  | nil => exact Nat.le_refl 0
  | cons r rs ih =>
    have hpos : 0 < r.texte.length := by
      cases r <;> exact Nat.succ_pos _
    rw [List.flatMap_cons, List.length_append, List.length_cons]
    omega

-- ---------------------------------------------------------------------------
-- The loop
-- ---------------------------------------------------------------------------

/-- A turn of the loop on a bit: its name is written if it is set. -/
theorem ecritBits_bit {n : Nat} (hi : 1 ≤ i) (hi' : i ≤ 32) (hne : nom ≠ []) (hnom : ∀ c ∈ nom, finNom c = false)
    (hl : ∃ c r, l = c :: r ∧ finNom c = true) (any : Bool) :
    ecritBits u b (n + 1) (UInt8.ofNat i :: (nom ++ l)) any =
      if u.getLsbD (i - 1) then
        ecritBits u b n l true >>= fun m => .ok ((if any then octets "," else octets "<") ++ nom ++ m)
      else ecritBits u b n l any := by
  cases nom with
  | nil => exact absurd rfl hne
  | cons c nom =>
    have hc := hnom c List.mem_cons_self
    have htake := takeWhile_nom hnom hl
    have hdrop : (c :: (nom ++ l)).drop (c :: nom).length = l := by
      rw [← List.cons_append, List.drop_left]
    have hdec : decalage (charVal (UInt8.ofNat i) - 1) = .ok (i - 1) :=
      decalage_eq (by rw [(charVal_ofNat hi').1]; omega) (by omega)
    rw [List.cons_append] at htake ⊢
    rw [ecritBits, if_neg (ofNat_ne_zero hi hi'), if_neg (by rw [hc]; decide)]
    simp only [htake, hdrop, hdec, bind, Except.bind]
    by_cases hbit : u.getLsbD (i - 1) = true
    · rw [if_pos ((and_bit_ne_zero u (by omega)).mpr hbit), if_pos hbit]
    · rw [if_neg fun h => hbit ((and_bit_ne_zero u (by omega)).mp h), if_neg hbit]

/-- A turn of the loop on a bit field: its name is written, then its value. -/
theorem ecritBits_plage {n : Nat} (hb : 2 ≤ b) (hb' : b ≤ 16) (hj : 1 ≤ j) (hji : j ≤ i) (hi : i ≤ 32)
    (hnom : ∀ c ∈ nom, finNom c = false) (hl : ∃ c r, l = c :: r ∧ finNom c = true) (any : Bool) :
    ecritBits u b (n + 1) (UInt8.ofNat i :: UInt8.ofNat j :: (nom ++ l)) any =
      ecritBits u b n l true >>= fun m => .ok ((if any then octets "," else octets "<") ++ nom ++
        ecrit b (u.toNat / 2 ^ (j - 1) % 2 ^ (i - j + 1)) ++ m) := by
  have htake := takeWhile_nom hnom hl
  have hdrop : (nom ++ l).drop nom.length = l := List.drop_left
  have hchamp := toNat_plage u (j - 1) (m := i - j) (by omega)
  have hbas : decalage (charVal (UInt8.ofNat j) - 1) = .ok (j - 1) :=
    decalage_eq (by rw [(charVal_ofNat (by omega)).1]; omega) (by omega)
  have hlarge : decalage (charVal (UInt8.ofNat i) - charVal (UInt8.ofNat j)) = .ok (i - j) :=
    decalage_eq (by rw [(charVal_ofNat hi).1, (charVal_ofNat (by omega)).1]; omega) (by omega)
  rw [ecritBits, if_neg (ofNat_ne_zero (by omega) hi), if_pos (charVal_ofNat (by omega)).2]
  simp only [htake, hdrop, hbas, hlarge, printnum_eq hb hb', hchamp, bind, Except.bind]

/-- The loop writes the bits that are set and the fields, in the order of the string. -/
theorem ecritBits_eq (hb : 2 ≤ b) (hb' : b ≤ 16) {rs : List ChampBits} (hrs : ∀ r ∈ rs, r.Valide) {n : Nat}
    (hn : rs.length ≤ n) (any : Bool) :
    ecritBits u b n (rs.flatMap ChampBits.texte ++ [0]) any =
      .ok (enumere any (rs.filterMap (ChampBits.visible b u))) := by
  induction rs generalizing n any with
  | nil => cases n <;> rfl
  | cons r rs ih =>
    obtain ⟨n, rfl⟩ := Nat.exists_eq_succ_of_ne_zero (Nat.ne_of_gt (Nat.lt_of_lt_of_le (Nat.succ_pos _) hn))
    have hrs' : ∀ r ∈ rs, r.Valide := fun x hx => hrs x (List.mem_cons_of_mem _ hx)
    have hr := hrs r List.mem_cons_self
    have ih := fun any => ih hrs' (Nat.le_of_succ_le_succ hn) any
    have hsuite := suite_nom hrs'
    generalize hl : rs.flatMap ChampBits.texte ++ [0] = l at ih hsuite
    rw [List.flatMap_cons, List.append_assoc, hl]
    cases r with
    | bit i nom =>
      obtain ⟨hi, hi', hne, hnom⟩ := hr
      refine (ecritBits_bit hi hi' hne hnom hsuite any).trans ?_
      by_cases hbit : u.getLsbD (i - 1) = true
      · have hm : ChampBits.visible b u (.bit i nom) = some nom := if_pos hbit
        rw [if_pos hbit, ih true, List.filterMap_cons_some hm]
        rfl
      · have hm : ChampBits.visible b u (.bit i nom) = none := if_neg hbit
        rw [if_neg hbit, ih any, List.filterMap_cons_none hm]
    | plage i j nom =>
      obtain ⟨hj, hji, hi, hnom⟩ := hr
      have hm : ChampBits.visible b u (.plage i j nom) =
          some (nom ++ ecrit b (u.toNat / 2 ^ (j - 1) % 2 ^ (i - j + 1))) := rfl
      refine (ecritBits_plage hb hb' hj hji hi hnom hsuite any).trans ?_
      rw [ih true, List.filterMap_cons_some hm, enumere, ← List.append_assoc]
      rfl

/-- A format of one conversion. -/
theorem doprnt_conversion {radix : Nat} {c : UInt8} {d : Directive} {args : List Argument} (hd : d.Valide)
    (hc : Lettre c) (h : conversion radix c d.champs args = .ok (l, [])) :
    doprnt radix (37 :: (d.texte ++ [c])) (d.args ++ args) = .ok l := by
  have hfmt : (0 : UInt8) ∉ 37 :: (d.texte ++ [c]) := zero_notMem_conversion d hc
  have hnil : boucle radix (d.texte ++ [c]).length [] [] = .ok [] := by
    cases (d.texte ++ [c]).length <;> rfl
  have htour : boucle radix ((d.texte ++ [c]).length + 1) (37 :: (d.texte ++ [c]) ++ []) (d.args ++ args) =
      boucle radix (d.texte ++ [c]).length [] [] >>= fun m => .ok (l ++ m) :=
    boucle_conversion _ hd hc h
  rw [List.append_nil, hnil] at htour
  unfold doprnt
  rw [texteC_eq hfmt]
  refine htour.trans ?_
  show Except.ok (l ++ []) = _
  rw [List.append_nil]

end Doprnt

open Lib Doprnt

variable {radix b : Nat} {d : Directive} {u : BitVec 32} {rs : List ChampBits}

/-- `%b` writes the register in its base, then, when it is not zero, the bits that are set and the
value of every field. -/
theorem registre_decode (hd : d.Valide) (hb : 2 ≤ b) (hb' : b ≤ 16) (hrs : ∀ r ∈ rs, r.Valide) :
    doprnt radix (37 :: (d.texte ++ [98])) (d.args ++ [.entier u,
      .chaine (some (UInt8.ofNat b :: rs.flatMap ChampBits.texte))]) =
      .ok (ecrit b u.toNat ++ if u = 0 then [] else enumere false (rs.filterMap (ChampBits.visible b u))) := by
  have hb32 : b ≤ 32 := by omega
  have h0 : (0 : UInt8) ∉ UInt8.ofNat b :: rs.flatMap ChampBits.texte := by
    intro h
    rcases List.mem_cons.mp h with h | h
    · exact ofNat_ne_zero (by omega) hb32 h.symm
    · obtain ⟨r, hr, h⟩ := List.mem_flatMap.mp h
      exact zero_notMem_champBits (hrs r hr) h
  have hlong : rs.length ≤ (rs.flatMap ChampBits.texte ++ [0]).length := by
    rw [List.length_append]
    exact Nat.le_trans (length_le_champsBits rs) (Nat.le_add_right _ _)
  have hconv : conversion radix 98 d.champs [.entier u,
      .chaine (some (UInt8.ofNat b :: rs.flatMap ChampBits.texte))] =
      .ok (ecrit b u.toNat ++ (if u = 0 then [] else enumere false (rs.filterMap (ChampBits.visible b u))), []) := by
    show printBits _ = _
    unfold printBits
    simp only [vaArg, vaChaine, texteC_eq h0, Option.map_some, List.cons_append, bind, Except.bind,
      (charVal_ofNat hb32).1, printnum_eq hb hb', ecritBits_eq hb hb' hrs hlong]
    split
    · rw [List.append_nil]
    · rfl
  exact doprnt_conversion hd (by decide) hconv

/-- The register of the comment of `doprnt.c`. -/
theorem registre_decode_exemple : doprnt 0 (octets "%b") [.entier 3,
    .chaine (some (8 :: 2 :: octets "BITTWO" ++ 1 :: octets "BITONE"))] = .ok (octets "3<BITTWO,BITONE>") := by
  have hrs : ∀ r ∈ [ChampBits.bit 2 (octets "BITTWO"), .bit 1 (octets "BITONE")], r.Valide := by
    intro r hr
    simp only [List.mem_cons, List.not_mem_nil, or_false] at hr
    rcases hr with rfl | rfl
    · exact ⟨by decide, by decide, by decide, by decide +kernel⟩
    · exact ⟨by decide, by decide, by decide, by decide +kernel⟩
  exact registre_decode (b := 8) (d := {}) (u := 3) (Directive.valide_vide rfl rfl) (by decide) (by decide) hrs

end GenesisOS
