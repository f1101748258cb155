import Mathlib.Data.List.Induction

/-!
# Traces and what they account for

A run records events in a list, the oldest first. `since r t` is what a trace
`t` says after its last event that satisfies `r`: the events of a call that has
not returned, or of a channel since it was last emptied. `Justified` says that
each event follows from the ones before it. `Fifo` is the law of a channel: what
went in is what came out, followed by what is inside.
-/

namespace Lib

variable {ε α : Type}

/-- The events after the last one that satisfies `r`. -/
def since (r : ε → Bool) (t : List ε) : List ε :=
  t.foldl (fun l e => if r e then [] else l ++ [e]) []

section Since

variable {r : ε → Bool} {t u : List ε} {e : ε}

@[simp] theorem since_nil : since r [] = [] := rfl

theorem since_concat : since r (t ++ [e]) = if r e then [] else since r t ++ [e] := by
  rw [since, List.foldl_append]
  rfl

theorem since_concat_of (he : r e = true) : since r (t ++ [e]) = [] := by
  rw [since_concat, if_pos he]

/-- Nothing closes the trace: it only grows. -/
theorem since_append (hu : ∀ e ∈ u, r e = false) : since r (t ++ u) = since r t ++ u := by
  induction u using List.reverseRecOn with
  | nil => simp
  | append_singleton u e ih =>
    have he := hu e (by simp)
    rw [← List.append_assoc, since_concat, if_neg (by simp [he]),
      ih fun x hx => hu x (List.mem_append_left _ hx), List.append_assoc]

theorem since_eq_self (ht : ∀ e ∈ t, r e = false) : since r t = t := by
  have h := since_append (r := r) (t := []) ht
  simpa using h

/-- The trace was closed in its second part. -/
theorem since_append_of_mem (hu : ∃ e ∈ u, r e = true) : since r (t ++ u) = since r u := by
  induction u using List.reverseRecOn with
  | nil =>
    obtain ⟨e, he, -⟩ := hu
    cases he
  | append_singleton u e ih =>
    rw [← List.append_assoc, since_concat, since_concat]
    split
    · rfl
    · next hne =>
      obtain ⟨x, hx, hr⟩ := hu
      rcases List.mem_append.mp hx with hx | hx
      · rw [ih ⟨x, hx, hr⟩]
      · rw [List.mem_singleton.mp hx] at hr
        exact absurd hr hne

theorem mem_of_mem_since (he : e ∈ since r t) : e ∈ t := by
  induction t using List.reverseRecOn with
  | nil => exact he
  | append_singleton t x ih =>
    rw [since_concat] at he
    split at he
    · cases he
    · rcases List.mem_append.mp he with he | he
      · exact List.mem_append_left _ (ih he)
      · exact List.mem_append_right _ he

end Since

/-- Each event of the trace is justified by the events before it. -/
def Justified (P : List ε → ε → Prop) (t : List ε) : Prop :=
  ∀ t₁ e t₂, t = t₁ ++ e :: t₂ → P t₁ e

namespace Justified

variable {P : List ε → ε → Prop} {t u : List ε} {e : ε}

theorem nil : Justified P [] := by
  intro t₁ e t₂ ht
  simp at ht

theorem concat (h : Justified P t) (he : P t e) : Justified P (t ++ [e]) := by
  intro t₁ x t₂ ht
  rcases List.eq_nil_or_concat t₂ with rfl | ⟨t₃, y, rfl⟩
  · obtain ⟨rfl, hx⟩ := List.append_inj' ht rfl
    rwa [← List.singleton_inj.mp hx]
  · rw [List.concat_eq_append, ← List.cons_append, ← List.append_assoc] at ht
    exact h t₁ x t₃ (List.append_inj' ht rfl).1

/-- Events that need no justification. -/
theorem append (h : Justified P t) (hu : ∀ e ∈ u, ∀ t, P t e) : Justified P (t ++ u) := by
  induction u using List.reverseRecOn with
  | nil => simpa using h
  | append_singleton u e ih =>
    rw [← List.append_assoc]
    exact (ih fun x hx => hu x (List.mem_append_left _ hx)).concat (hu e (by simp) _)

end Justified

/-- The list `ins` went in, `outs` came out, `content` is inside, the oldest
first. -/
def Fifo (ins outs content : List α) : Prop := ins = outs ++ content

namespace Fifo

variable {i o c : List α} {x y : α}

theorem empty : Fifo ([] : List α) [] [] := rfl

theorem push (h : Fifo i o c) : Fifo (i ++ [x]) o (c ++ [x]) := by
  unfold Fifo at *
  rw [h, List.append_assoc]

theorem pop (h : Fifo i o (x :: c)) : Fifo i (o ++ [x]) c := by
  unfold Fifo at *
  rw [h, List.append_assoc]
  rfl

/-- Straight through an empty channel. -/
theorem pass (h : Fifo i o []) : Fifo (i ++ [x]) (o ++ [x]) [] := h.push.pop

/-- One out, another in. -/
theorem cycle (h : Fifo i o (x :: c)) : Fifo (i ++ [y]) (o ++ [x]) (c ++ [y]) := h.pop.push

theorem outs_prefix (h : Fifo i o c) : o <+: i := ⟨c, h.symm⟩

theorem length_le (h : Fifo i o c) : o.length ≤ i.length := h.outs_prefix.length_le

end Fifo

end Lib
