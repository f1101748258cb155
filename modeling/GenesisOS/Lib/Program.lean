import Mathlib.Order.Basic

/-!
# Programs with a state and faults

`Program σ ε` is the monad of sequential code over a state `σ` that may stop
at a fault of `ε`. `wp E m Q s` says that `m` started in `s` either stops at
a fault allowed by `E` or ends with a result and a state satisfying `Q`. The
rules below push `wp` through the constructs of the monad; a proof about a
program unfolds it and rewrites with them, one primitive at a time.
-/

namespace Lib

/-- Sequential code over a state `σ` with faults `ε`. -/
abbrev Program (σ ε α : Type) := StateT σ (Except ε) α

section Wp

variable {σ ε α β : Type}

/-- The weakest precondition of `m` for the postcondition `Q`, with the
faults of `E` allowed. -/
def wp (E : ε → Prop) (m : Program σ ε α) (Q : α → σ → Prop) (s : σ) : Prop :=
  match m s with
  | .ok (a, s') => Q a s'
  | .error e => E e

variable {E E' : ε → Prop} {Q Q' : α → σ → Prop} {s : σ}

@[simp] theorem wp_pure (a : α) : wp E (pure a : Program σ ε α) Q s ↔ Q a s := Iff.rfl

@[simp] theorem wp_bind (m : Program σ ε α) (f : α → Program σ ε β) {R : β → σ → Prop} :
    wp E (m >>= f) R s ↔ wp E m (fun a s' => wp E (f a) R s') s := by
  simp only [wp, bind, StateT.bind, Except.bind]
  cases m s <;> rfl

@[simp] theorem wp_get {R : σ → σ → Prop} : wp E (get : Program σ ε σ) R s ↔ R s s := Iff.rfl

@[simp] theorem wp_set (t : σ) {R : PUnit → σ → Prop} :
    wp E (set t : Program σ ε PUnit) R s ↔ R ⟨⟩ t := Iff.rfl

@[simp] theorem wp_modify (f : σ → σ) {R : PUnit → σ → Prop} :
    wp E (modify f : Program σ ε PUnit) R s ↔ R ⟨⟩ (f s) := Iff.rfl

@[simp] theorem wp_throw (e : ε) : wp E (throw e : Program σ ε α) Q s ↔ E e := Iff.rfl

@[simp] theorem wp_map (f : α → β) (m : Program σ ε α) {R : β → σ → Prop} :
    wp E (f <$> m) R s ↔ wp E m (fun a s' => R (f a) s') s := by
  simp only [wp, Functor.map, StateT.map, bind, Except.bind]
  cases m s <;> rfl

@[simp] theorem wp_ite (c : Prop) [Decidable c] (m m' : Program σ ε α) :
    wp E (if c then m else m') Q s ↔ (c → wp E m Q s) ∧ (¬c → wp E m' Q s) := by
  by_cases hc : c <;> simp [hc]

/-- Consequence: the faults and the postcondition may be weakened. -/
theorem wp_mono {m : Program σ ε α} (h : wp E m Q s) (hE : ∀ e, E e → E' e)
    (hQ : ∀ a s', Q a s' → Q' a s') : wp E' m Q' s := by
  unfold wp at *
  cases hm : m s with
  | ok r => rw [hm] at h; exact hQ _ _ h
  | error e => rw [hm] at h; exact hE _ h

theorem wp_imp {m : Program σ ε α} (h : wp E m Q s) (hQ : ∀ a s', Q a s' → Q' a s') :
    wp E m Q' s := wp_mono h (fun _ he => he) hQ

/-- Two postconditions at once; the faults are those of the first. -/
theorem wp_and {m : Program σ ε α} (h : wp E m Q s) (h' : wp E' m Q' s) :
    wp E m (fun a s' => Q a s' ∧ Q' a s') s := by
  unfold wp at *
  cases hm : m s with
  | ok r => rw [hm] at h h'; exact ⟨h, h'⟩
  | error e => rw [hm] at h; exact h

/-- Two postconditions and two sets of faults at once. -/
theorem wp_inter {m : Program σ ε α} (h : wp E m Q s) (h' : wp E' m Q' s) :
    wp (fun e => E e ∧ E' e) m (fun a s' => Q a s' ∧ Q' a s') s := by
  unfold wp at *
  cases hm : m s with
  | ok r => rw [hm] at h h'; exact ⟨h, h'⟩
  | error e => rw [hm] at h h'; exact ⟨h, h'⟩

/-- What `wp` says of a run that ends. -/
theorem wp_ok {m : Program σ ε α} (h : wp E m Q s) {a : α} {s' : σ}
    (hm : m s = .ok (a, s')) : Q a s' := by
  unfold wp at h
  rwa [hm] at h

/-- What `wp` says of a run that stops at a fault. -/
theorem wp_error {m : Program σ ε α} (h : wp E m Q s) {e : ε}
    (hm : m s = .error e) : E e := by
  unfold wp at h
  rwa [hm] at h

/-- A run that stops at no fault ends. -/
theorem wp_exists {m : Program σ ε α} (h : wp (fun _ => False) m Q s) :
    ∃ a s', m s = .ok (a, s') ∧ Q a s' := by
  cases hm : m s with
  | ok r => exact ⟨r.1, r.2, rfl, wp_ok h hm⟩
  | error e => exact (wp_error h hm).elim

/-- `wp` of a run that is known. -/
theorem wp_of_run {m : Program σ ε α} {a : α} {s' : σ} (hm : m s = .ok (a, s')) :
    wp E m Q s ↔ Q a s' := by
  unfold wp
  rw [hm]

/-- A run, as a `wp`. -/
theorem wp_run {m : Program σ ε α} {a : α} {s' : σ} :
    wp (fun _ => False) m (fun b t => b = a ∧ t = s') s ↔ m s = .ok (a, s') := by
  constructor
  · intro h
    obtain ⟨b, t, hm, rfl, rfl⟩ := wp_exists h
    exact hm
  · intro hm
    exact (wp_of_run hm).mpr ⟨rfl, rfl⟩

theorem wp_of {m : Program σ ε α} (hok : ∀ a s', m s = .ok (a, s') → Q a s')
    (herr : ∀ e, m s = .error e → E e) : wp E m Q s := by
  unfold wp
  cases hm : m s with
  | ok r => exact hok _ _ hm
  | error e => exact herr e hm

/-- A loop over a list, by an invariant on what is left of it. -/
theorem wp_forM {γ : Type} {I : List γ → σ → Prop} {f : γ → Program σ ε PUnit}
    (hstep : ∀ x l s, I (x :: l) s → wp E (f x) (fun _ s' => I l s') s) (l : List γ)
    (h : I l s) : wp E (l.forM f) (fun _ s' => I [] s') s := by
  induction l generalizing s with
  | nil => exact h
  | cons x l ih =>
    show wp E (f x >>= fun _ => l.forM f) _ s
    rw [wp_bind]
    exact wp_imp (hstep x l s h) fun _ s' hs' => ih hs'

theorem wp_forM_append {γ : Type} {f : γ → Program σ ε PUnit} {Q : PUnit → σ → Prop}
    (l l' : List γ) :
    wp E ((l ++ l').forM f) Q s ↔ wp E (l.forM f) (fun _ s' => wp E (l'.forM f) Q s') s := by
  induction l generalizing s with
  | nil => exact Iff.rfl
  | cons x l ih =>
    show wp E (f x >>= fun _ => (l ++ l').forM f) Q s ↔ wp E (f x >>= fun _ => l.forM f) _ s
    simp only [wp_bind, ih]

end Wp

/-! ## Frames -/

/-- `m` leaves the part `g` of the state alone and stops only at faults of `E`. -/
def Keeps {σ ε α γ : Type} (E : ε → Prop) (g : σ → γ) (m : Program σ ε α) : Prop :=
  ∀ s, wp E m (fun _ s' => g s' = g s) s

namespace Keeps

variable {σ ε α β γ : Type} {E E' : ε → Prop} {g : σ → γ} {m : Program σ ε α}
  {k : α → Program σ ε β}

theorem of_pure (a : α) : Keeps E g (pure a : Program σ ε α) := fun _ => rfl

theorem of_get : Keeps E g (get : Program σ ε σ) := fun _ => rfl

theorem of_throw {e : ε} (h : E e) : Keeps E g (throw e : Program σ ε α) := fun _ => h

theorem of_modify {f : σ → σ} (h : ∀ s, g (f s) = g s) :
    Keeps E g (modify f : Program σ ε PUnit) := fun s => h s

theorem of_bind (hm : Keeps E g m) (hk : ∀ a, Keeps E g (k a)) : Keeps E g (m >>= k) := by
  intro s
  rw [wp_bind]
  refine wp_imp (hm s) fun a s' hs' => ?_
  exact wp_imp (hk a s') fun _ _ hs'' => hs''.trans hs'

theorem of_ite {c : Prop} [Decidable c] {m' : Program σ ε α} (hm : Keeps E g m)
    (hm' : Keeps E g m') : Keeps E g (if c then m else m') := by
  split
  · exact hm
  · exact hm'

theorem of_forM {δ : Type} {f : δ → Program σ ε PUnit} (hf : ∀ x, Keeps E g (f x)) (l : List δ) :
    Keeps E g (l.forM f) := by
  induction l with
  | nil => exact of_pure _
  | cons x l ih => exact of_bind (hf x) fun _ => ih

theorem of_map {δ : Type} (f : γ → δ) (hm : Keeps E g m) : Keeps E (fun s => f (g s)) m :=
  fun s => wp_imp (hm s) fun _ _ hs' => congrArg f hs'

theorem mono (hm : Keeps E g m) (hE : ∀ e, E e → E' e) : Keeps E' g m :=
  fun s => wp_mono (hm s) hE fun _ _ hs' => hs'

end Keeps

/-! ## Invariants -/

/-- `m` keeps the invariant `I` and stops only at faults of `E`. -/
def Maintains {σ ε α : Type} (E : ε → Prop) (I : σ → Prop) (m : Program σ ε α) : Prop :=
  ∀ s, I s → wp E m (fun _ s' => I s') s

namespace Maintains

variable {σ ε α β γ : Type} {E : ε → Prop} {I : σ → Prop} {g : σ → γ} {m : Program σ ε α}
  {k : α → Program σ ε β}

theorem of_pure (a : α) : Maintains E I (pure a : Program σ ε α) := fun _ hs => hs

theorem of_get {k : σ → Program σ ε β} (h : ∀ s, Maintains E I (k s)) :
    Maintains E I (get >>= k) := fun s hs => h s s hs

theorem of_bind (hm : Maintains E I m) (hk : ∀ a, Maintains E I (k a)) :
    Maintains E I (m >>= k) := by
  intro s hs
  rw [wp_bind]
  exact wp_imp (hm s hs) fun a s' hs' => hk a s' hs'

theorem of_ite {c : Prop} [Decidable c] {m' : Program σ ε α} (hm : Maintains E I m)
    (hm' : Maintains E I m') : Maintains E I (if c then m else m') := by
  split
  · exact hm
  · exact hm'

/-- Code that leaves alone what the invariant depends on. -/
theorem of_keeps (h : Keeps E g m) (hI : ∀ s s', g s' = g s → I s → I s') : Maintains E I m :=
  fun s hs => wp_imp (h s) fun _ s' hs' => hI s s' hs' hs

end Maintains

/-- A frame, as a family of invariants. -/
theorem keeps_iff_maintains {σ ε α γ : Type} {E : ε → Prop} {g : σ → γ} {m : Program σ ε α} :
    Keeps E g m ↔ ∀ x, Maintains E (fun s => g s = x) m :=
  ⟨fun h _ s hs => wp_imp (h s) fun _ _ hs' => hs'.trans hs, fun h s => h (g s) s rfl⟩

end Lib
