/-!
# What the result of a computation satisfies

`Yields x P`: if `x` returns, its value satisfies `P`.  A call that fails satisfies it too, so the
rules follow a computation through its steps without naming the values in between.

`Avoids e x`: `x` does not end in `e`.

`Relates x y R` says the same of two computations side by side: if both return, their values are
related by `R`.

`Agree x y R` says more: neither returns without the other.
-/

namespace Outcome

def Yields {ε α : Type} (x : Except ε α) (P : α → Prop) : Prop := ∀ a, x = .ok a → P a

section
variable {ε α β : Type} {x : Except ε α} {f : α → Except ε β} {P Q : α → Prop} {R : β → Prop}

theorem Yields.pure {a : α} (h : P a) : Yields (pure a : Except ε α) P := by
  intro b e
  cases e
  exact h

theorem Yields.ok {a : α} (h : P a) : Yields (.ok a : Except ε α) P := Yields.pure h

theorem Yields.error (e : ε) : Yields (.error e : Except ε α) P := nofun

theorem Yields.trivial (x : Except ε α) : Yields x fun _ => True := fun _ _ => True.intro

theorem Yields.bind (h : Yields x Q) (hf : ∀ a, Q a → Yields (f a) R) : Yields (x >>= f) R := by
  intro b e
  cases hx : x with
  | error e' =>
    rw [hx] at e
    cases e
  | ok a =>
    rw [hx] at e
    exact hf a (h a hx) b e

theorem Yields.mono (h : Yields x P) (hPQ : ∀ a, P a → Q a) : Yields x Q :=
  fun a e => hPQ a (h a e)

theorem Yields.ite {c : Prop} [Decidable c] {y : Except ε α} (h : c → Yields x P)
    (h' : ¬ c → Yields y P) : Yields (if c then x else y) P := by
  by_cases hc : c
  · rw [if_pos hc]
    exact h hc
  · rw [if_neg hc]
    exact h' hc

theorem Yields.foldlM {ι : Type} {f : α → ι → Except ε α} (h : ∀ a i, P a → Yields (f a i) P) {a : α}
    (ha : P a) (is : List ι) : Yields (is.foldlM f a) P := by
  induction is generalizing a with
  | nil => exact .pure ha
  | cons i is ih =>
    rw [List.foldlM_cons]
    exact (h a i ha).bind fun _ hb => ih hb

end

/-! ## one failure -/

def Avoids {ε α : Type} (e : ε) (x : Except ε α) : Prop := x ≠ .error e

section
variable {ε α β : Type} {e e' : ε} {x : Except ε α} {f : α → Except ε β}

theorem Avoids.ok (a : α) : Avoids e (.ok a : Except ε α) := nofun

theorem Avoids.pure (a : α) : Avoids e (Pure.pure a : Except ε α) := nofun

theorem Avoids.error (h : e' ≠ e) : Avoids e (.error e' : Except ε α) :=
  fun h' => h (Except.error.inj h')

theorem not_avoids (e : ε) : ¬ Avoids e (.error e : Except ε α) := fun h => h rfl

theorem Avoids.bind (h : Avoids e x) (hf : ∀ a, x = .ok a → Avoids e (f a)) : Avoids e (x >>= f) := by
  cases hx : x with
  | error e' =>
    intro h'
    rw [hx] at h
    exact h (congrArg Except.error (Except.error.inj h'))
  | ok a => exact hf a hx

theorem Avoids.ite {c : Prop} [Decidable c] {y : Except ε α} (h : c → Avoids e x)
    (h' : ¬ c → Avoids e y) :
    Avoids e (if c then x else y) := by
  by_cases hc : c
  · rw [if_pos hc]
    exact h hc
  · rw [if_neg hc]
    exact h' hc

end

/-! ## two computations -/

def Relates {ε α β : Type} (x : Except ε α) (y : Except ε β) (R : α → β → Prop) : Prop :=
  ∀ a b, x = .ok a → y = .ok b → R a b

section
variable {ε α β γ δ : Type} {x : Except ε α} {y : Except ε β} {f : α → Except ε γ} {g : β → Except ε δ}
  {R : α → β → Prop} {S : γ → δ → Prop}

theorem Relates.pure {a : α} {b : β} (h : R a b) :
    Relates (pure a : Except ε α) (pure b : Except ε β) R := by
  intro a' b' ea eb
  cases ea
  cases eb
  exact h

/-- a computation is related to itself -/
theorem Relates.refl (x : Except ε α) : Relates x x Eq := by
  intro a b ea eb
  rw [ea] at eb
  exact Except.ok.inj eb

theorem Relates.bind (h : Relates x y R) (hf : ∀ a b, R a b → Relates (f a) (g b) S) :
    Relates (x >>= f) (y >>= g) S := by
  intro c d ec ed
  cases hx : x with
  | error e =>
    rw [hx] at ec
    cases ec
  | ok a =>
    cases hy : y with
    | error e =>
      rw [hy] at ed
      cases ed
    | ok b =>
      rw [hx] at ec
      rw [hy] at ed
      exact hf a b (h a b hx hy) c d ec ed

/-- both take the same branch -/
theorem Relates.ite {c : Prop} [Decidable c] {x' : Except ε α} {y' : Except ε β}
    (h : c → Relates x y R) (h' : ¬ c → Relates x' y' R) :
    Relates (if c then x else x') (if c then y else y') R := by
  by_cases hc : c
  · rw [if_pos hc, if_pos hc]
    exact h hc
  · rw [if_neg hc, if_neg hc]
    exact h' hc

end

/-! ## two computations that return together -/

def Agree {ε ε' α β : Type} (x : Except ε α) (y : Except ε' β) (R : α → β → Prop) : Prop :=
  (∀ a, x = .ok a → ∃ b, y = .ok b ∧ R a b) ∧ ∀ b, y = .ok b → ∃ a, x = .ok a ∧ R a b

section
variable {ε ε' α β γ δ ι : Type} {x : Except ε α} {y : Except ε' β} {f : α → Except ε γ}
  {g : β → Except ε' δ} {R : α → β → Prop} {S : γ → δ → Prop}

theorem Agree.ok {a : α} {b : β} (h : R a b) : Agree (.ok a : Except ε α) (.ok b : Except ε' β) R := by
  refine ⟨fun a' e => ⟨b, rfl, ?_⟩, fun b' e => ⟨a, rfl, ?_⟩⟩
  · rw [← Except.ok.inj e]
    exact h
  · rw [← Except.ok.inj e]
    exact h

theorem Agree.error (e : ε) (e' : ε') : Agree (.error e : Except ε α) (.error e' : Except ε' β) R :=
  ⟨nofun, nofun⟩

theorem Agree.bind (h : Agree x y R) (hf : ∀ a b, R a b → Agree (f a) (g b) S) :
    Agree (x >>= f) (y >>= g) S := by
  cases hx : x with
  | error e =>
    cases hy : y with
    | error e' => exact .error e e'
    | ok b =>
      obtain ⟨a, ea, _⟩ := h.2 b hy
      rw [hx] at ea
      cases ea
  | ok a =>
    obtain ⟨b, hy, hab⟩ := h.1 a hx
    rw [hy]
    exact hf a b hab

theorem Agree.mono {S : α → β → Prop} (h : Agree x y R) (hRS : ∀ a b, R a b → S a b) : Agree x y S := by
  refine ⟨fun a e => ?_, fun b e => ?_⟩
  · obtain ⟨b, eb, hab⟩ := h.1 a e
    exact ⟨b, eb, hRS a b hab⟩
  · obtain ⟨a, ea, hab⟩ := h.2 b e
    exact ⟨a, ea, hRS a b hab⟩

/-- two steps of refinement -/
theorem Agree.trans {ε'' γ' : Type} {z : Except ε'' γ'} {T : β → γ' → Prop} (h : Agree x y R)
    (h' : Agree y z T) : Agree x z fun a c => ∃ b, R a b ∧ T b c := by
  refine ⟨fun a e => ?_, fun c e => ?_⟩
  · obtain ⟨b, eb, hab⟩ := h.1 a e
    obtain ⟨c, ec, hbc⟩ := h'.1 b eb
    exact ⟨c, ec, b, hab, hbc⟩
  · obtain ⟨b, eb, hbc⟩ := h'.2 c e
    obtain ⟨a, ea, hab⟩ := h.2 b eb
    exact ⟨a, ea, b, hab, hbc⟩

/-- the same list of inputs on both sides -/
theorem Agree.foldlM {f : α → ι → Except ε α} {g : β → ι → Except ε' β}
    (h : ∀ a b i, R a b → Agree (f a i) (g b i) R) {a : α} {b : β} (hab : R a b) (is : List ι) :
    Agree (is.foldlM f a) (is.foldlM g b) R := by
  induction is generalizing a b with
  | nil => exact .ok hab
  | cons i is ih =>
    rw [List.foldlM_cons, List.foldlM_cons]
    exact (h a b i hab).bind fun _ _ hab' => ih hab'

end

end Outcome
