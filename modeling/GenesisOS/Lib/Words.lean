import Mathlib.Data.List.Basic

/-!
# Words of a list

`words sep l` are the maximal runs of elements of `l` other than `sep`, and
`leading sep l` those before the first empty place between two separators, which is
where a tokenizer that stops at an empty token stops. The two agree when no word
follows such a place.
-/

namespace Lib

section

variable {α : Type*}

/-- The maximal runs of elements other than `sep`, in order. -/
def words [DecidableEq α] (sep : α) (l : List α) : List (List α) := (l.splitOn sep).filter (· ≠ [])

/-- The runs before the first separator that begins `l` or follows another one. -/
def leading [DecidableEq α] (sep : α) (l : List α) : List (List α) := (l.splitOn sep).takeWhile (· ≠ [])

/-- A word follows a separator that begins `l` or follows another one. -/
def Gapped (sep : α) (l : List α) : Prop :=
  ∃ l₁ c l₂, l = l₁ ++ sep :: c :: l₂ ∧ c ≠ sep ∧ (l₁ = [] ∨ l₁.getLast? = some sep)

/-- No separator begins `l` or follows another one. -/
def Spaced (sep : α) (l : List α) : Prop :=
  ∀ l₁ l₂, l = l₁ ++ sep :: l₂ → l₁ ≠ [] ∧ l₁.getLast? ≠ some sep

variable {sep : α} {l w r : List α}

theorem not_gapped_of_notMem (h : sep ∉ l) : ¬ Gapped sep l := by
  rintro ⟨l₁, c, l₂, rfl, -, -⟩
  exact h (List.mem_append_right _ List.mem_cons_self)

/-- Where the separators of a cut list are. -/
theorem cut_eq_iff {l₁ l₂ : List α} (h : sep ∉ w) :
    w ++ sep :: r = l₁ ++ sep :: l₂ ↔
      (l₁ = w ∧ l₂ = r) ∨ ∃ l₃, l₁ = w ++ sep :: l₃ ∧ r = l₃ ++ sep :: l₂ := by
  constructor
  · intro he
    rcases List.append_eq_append_iff.mp he with ⟨l₃, rfl, hr⟩ | ⟨l₃, rfl, hl⟩
    · cases l₃ with
      | nil => exact Or.inl ⟨List.append_nil _, (List.cons.inj hr).2.symm⟩
      | cons a l₃ =>
        obtain ⟨rfl, htl⟩ := List.cons.inj hr
        exact Or.inr ⟨l₃, rfl, htl⟩
    · cases l₃ with
      | nil => exact Or.inl ⟨(List.append_nil _).symm, (List.cons.inj hl).2⟩
      | cons a l₃ =>
        obtain ⟨rfl, -⟩ := List.cons.inj hl
        exact absurd (List.mem_append_right _ List.mem_cons_self) h
  · rintro (⟨rfl, rfl⟩ | ⟨l₃, rfl, rfl⟩)
    · rfl
    · rw [List.append_assoc, List.cons_append]

theorem getLast?_of_notMem (h : sep ∉ w) : w.getLast? ≠ some sep :=
  fun hl => h (List.mem_of_getLast? hl)

theorem getLast?_append_sep (l₃ : List α) :
    (w ++ sep :: l₃).getLast? = some sep ↔ l₃ = [] ∨ l₃.getLast? = some sep := by
  rw [List.getLast?_append_cons]
  cases l₃ with
  | nil => simp
  | cons a l₃ => simp [List.getLast?_cons_cons]

theorem gapped_cut (h : sep ∉ w) (hw : w ≠ []) : Gapped sep (w ++ sep :: r) ↔ Gapped sep r := by
  constructor
  · rintro ⟨l₁, c, l₂, he, hc, hl⟩
    rcases (cut_eq_iff h).mp he with ⟨rfl, -⟩ | ⟨l₃, rfl, rfl⟩
    · exact (hl.elim hw (getLast?_of_notMem h)).elim
    · refine ⟨l₃, c, l₂, rfl, hc, ?_⟩
      exact (getLast?_append_sep l₃).mp (hl.resolve_left (List.append_ne_nil_of_left_ne_nil hw _))
  · rintro ⟨l₃, c, l₂, rfl, hc, hl⟩
    refine ⟨w ++ sep :: l₃, c, l₂, ?_, hc, Or.inr ((getLast?_append_sep l₃).mpr hl)⟩
    rw [List.append_assoc, List.cons_append]

theorem Spaced.cut (h : Spaced sep (w ++ sep :: r)) : w ≠ [] ∧ Spaced sep r := by
  refine ⟨(h w r rfl).1, fun l₁ l₂ he => ?_⟩
  have hl := (h (w ++ sep :: l₁) l₂ (by rw [he, List.append_assoc, List.cons_append])).2
  rw [ne_eq, getLast?_append_sep] at hl
  exact ⟨fun h0 => hl (Or.inl h0), fun h0 => hl (Or.inr h0)⟩

end

section

variable {α : Type*} [DecidableEq α] {sep c : α} {l w r y : List α}

-- ---------------------------------------------------------------------------
-- Cutting at the first separator
-- ---------------------------------------------------------------------------

theorem exists_cut (sep : α) (l : List α) :
    sep ∉ l ∨ ∃ w r, l = w ++ sep :: r ∧ sep ∉ w := by
  by_cases h : sep ∈ l
  · exact Or.inr (List.eq_append_cons_of_mem h)
  · exact Or.inl h

/-- Induction on the runs of a list. -/
theorem cut_induction {P : List α → Prop} (sep : α) (last : ∀ w, sep ∉ w → P w)
    (cut : ∀ w r, sep ∉ w → P r → P (w ++ sep :: r)) (l : List α) : P l := by
  induction hn : l.length using Nat.strongRecOn generalizing l with
  | _ n ih =>
    rcases exists_cut sep l with h | ⟨w, r, rfl, hw⟩
    · exact last l h
    · rw [List.length_append, List.length_cons] at hn
      exact cut w r hw (ih r.length (by omega) r rfl)

theorem words_last (h : sep ∉ w) (hw : w ≠ []) : words sep w = [w] := by
  rw [words, List.splitOn_eq_singleton h, List.filter_singleton, decide_eq_true hw]
  rfl

theorem words_cut (h : sep ∉ w) (hw : w ≠ []) :
    words sep (w ++ sep :: r) = w :: words sep r := by
  rw [words, List.splitOn_append_cons_self_of_not_mem h, List.filter_cons_of_pos (by simpa using hw)]
  rfl

@[simp] theorem words_nil : words sep ([] : List α) = [] := rfl

@[simp] theorem words_sep : words sep (sep :: r) = words sep r := by
  rw [words, ← List.nil_append (sep :: r), List.splitOn_append_cons_self_of_not_mem List.not_mem_nil,
    List.filter_cons_of_neg (by simp)]
  rfl

theorem leading_last (h : sep ∉ w) (hw : w ≠ []) : leading sep w = [w] := by
  rw [leading, List.splitOn_eq_singleton h, List.takeWhile_cons_of_pos (by simpa using hw),
    List.takeWhile_nil]

theorem leading_cut (h : sep ∉ w) (hw : w ≠ []) :
    leading sep (w ++ sep :: r) = w :: leading sep r := by
  rw [leading, List.splitOn_append_cons_self_of_not_mem h,
    List.takeWhile_cons_of_pos (by simpa using hw)]
  rfl

@[simp] theorem leading_nil : leading sep ([] : List α) = [] := rfl

@[simp] theorem leading_sep : leading sep (sep :: r) = [] := by
  rw [leading, ← List.nil_append (sep :: r),
    List.splitOn_append_cons_self_of_not_mem List.not_mem_nil,
    List.takeWhile_cons_of_neg (by simp)]

-- ---------------------------------------------------------------------------
-- Words that a tokenizer misses
-- ---------------------------------------------------------------------------

theorem words_eq_nil_iff : words sep l = [] ↔ ∀ c ∈ l, c = sep := by
  induction l using cut_induction sep with
  | last w h =>
    by_cases hw : w = []
    · subst hw
      exact ⟨fun _ => nofun, fun _ => rfl⟩
    · rw [words_last h hw]
      refine ⟨fun hx => absurd hx (List.cons_ne_nil _ _), fun hx => ?_⟩
      obtain ⟨c, hc⟩ := List.exists_mem_of_ne_nil w hw
      exact absurd (hx c hc ▸ hc) h
  | cut w r h ih =>
    by_cases hw : w = []
    · subst hw
      rw [List.nil_append, words_sep, ih, List.forall_mem_cons, and_iff_right rfl]
    · rw [words_cut h hw]
      refine ⟨fun hx => absurd hx (List.cons_ne_nil _ _), fun hx => ?_⟩
      obtain ⟨c, hc⟩ := List.exists_mem_of_ne_nil w hw
      exact absurd (hx c (List.mem_append_left _ hc) ▸ hc) h

/-- Behind a leading separator, any word at all is missed. -/
theorem gapped_sep : Gapped sep (sep :: r) ↔ ∃ c ∈ r, c ≠ sep := by
  constructor
  · rintro ⟨l₁, c, l₂, he, hc, -⟩
    refine ⟨c, ?_, hc⟩
    have hm : c ∈ sep :: r := he ▸ List.mem_append_right _ (List.mem_cons_of_mem _ List.mem_cons_self)
    exact (List.mem_cons.mp hm).resolve_left hc
  · intro h
    induction r with
    | nil => exact absurd h (by simp)
    | cons a r ih =>
      by_cases ha : a = sep
      · subst ha
        obtain ⟨c, hm, hc⟩ := h
        obtain ⟨l₁, c, l₂, he, hc, hl⟩ := ih ⟨c, (List.mem_cons.mp hm).resolve_left hc, hc⟩
        refine ⟨a :: l₁, c, l₂, congrArg (a :: ·) he, hc, Or.inr ?_⟩
        rw [← List.nil_append (a :: l₁)]
        exact (getLast?_append_sep l₁).mpr hl
      · exact ⟨[], a, r, rfl, ha, Or.inl rfl⟩

/-- The tokenizer finds every word when none follows an empty place. -/
theorem leading_eq_words_iff : leading sep l = words sep l ↔ ¬ Gapped sep l := by
  induction l using cut_induction sep with
  | last w h =>
    refine ⟨fun _ => not_gapped_of_notMem h, fun _ => ?_⟩
    by_cases hw : w = []
    · rw [hw, leading_nil, words_nil]
    · rw [leading_last h hw, words_last h hw]
  | cut w r h ih =>
    by_cases hw : w = []
    · rw [hw, List.nil_append, leading_sep, words_sep, gapped_sep, eq_comm, words_eq_nil_iff]
      push Not
      exact Iff.rfl
    · rw [leading_cut h hw, words_cut h hw, gapped_cut h hw, List.cons_inj_right, ih]

-- ---------------------------------------------------------------------------
-- Texts put one after the other
-- ---------------------------------------------------------------------------

/-- Behind a spaced text no word is lost. -/
theorem Spaced.leading_append (h : Spaced sep l) (hc : c ≠ sep) :
    (leading sep (c :: y)).length ≤ (leading sep (l ++ c :: y)).length := by
  induction l using cut_induction sep with
  | last w hw =>
    rcases exists_cut sep y with hy | ⟨v, r, rfl, hv⟩
    · have hcy : sep ∉ c :: y := List.not_mem_cons_of_ne_of_not_mem hc.symm hy
      rw [leading_last hcy (List.cons_ne_nil _ _),
        leading_last (List.not_mem_append hw hcy) (by simp)]
      exact Nat.le_refl _
    · have hcv : sep ∉ c :: v := List.not_mem_cons_of_ne_of_not_mem hc.symm hv
      rw [← List.cons_append, leading_cut hcv (List.cons_ne_nil _ _), ← List.append_assoc,
        leading_cut (List.not_mem_append hw hcv) (by simp)]
      exact Nat.le_refl _
  | cut w r hw ih =>
    obtain ⟨hne, hr⟩ := h.cut
    rw [List.append_assoc, List.cons_append, leading_cut hw hne, List.length_cons]
    exact Nat.le_succ_of_le (ih hr)

end

end Lib
