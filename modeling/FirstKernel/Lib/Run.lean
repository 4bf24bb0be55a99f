import Mathlib.Logic.Basic

/-!
# Transition systems

A system has initial states and labelled steps; `Reachable` is the set of states of its runs.

* `Reachable.invariant`   a property of the initial states that every step from a reachable
                          state keeps holds in every reachable state;
* `System.restrict`       the runs whose steps all meet a condition on the state before;
* `System.pair`           two runs side by side from one initial state;
* `Steps.invariant`       what every step of a run from a given state keeps holds at its end;
* `drive`                 a run of a system whose steps are computed.
-/

namespace Run

structure System (σ ι : Type) where
  init : σ → Prop
  step : σ → ι → σ → Prop

inductive Reachable {σ ι : Type} (S : System σ ι) : σ → Prop where
  | init {s : σ} : S.init s → Reachable S s
  | step {s s' : σ} {i : ι} : Reachable S s → S.step s i s' → Reachable S s'

section
variable {σ ι : Type} {S : System σ ι} {P : σ → Prop}

@[elab_as_elim]
theorem Reachable.invariant {s : σ} (h : Reachable S s) (h0 : ∀ s, S.init s → P s)
    (hs : ∀ s i s', Reachable S s → P s → S.step s i s' → P s') : P s := by
  induction h with
  | init hi => exact h0 _ hi
  | step hr hst ih => exact hs _ _ _ hr ih hst

/-- the runs whose steps all meet `C` -/
def System.restrict (S : System σ ι) (C : σ → ι → Prop) : System σ ι where
  init := S.init
  step s i s' := C s i ∧ S.step s i s'

theorem Reachable.of_restrict {C : σ → ι → Prop} {s : σ} (h : Reachable (S.restrict C) s) :
    Reachable S s :=
  h.invariant (fun _ hi => .init hi) fun _ _ _ _ ih hst => ih.step hst.2

/-- two runs from one initial state, step by step -/
def System.pair (S : System σ ι) : System (σ × σ) (ι × ι) where
  init t := S.init t.1 ∧ t.2 = t.1
  step t i t' := S.step t.1 i.1 t'.1 ∧ S.step t.2 i.2 t'.2

/-- `s` leads to `s'` by steps whose labels satisfy `L` -/
inductive Steps (S : System σ ι) (L : ι → Prop) (s : σ) : σ → Prop where
  | refl : Steps S L s s
  | step {s' s'' : σ} {i : ι} : Steps S L s s' → L i → S.step s' i s'' → Steps S L s s''

/-- the steps `f` computes for the labels `is`, as long as each of them meets `C` and succeeds -/
def drive {ε : Type} (f : σ → ι → Except ε σ) (C : σ → ι → Prop) [∀ s i, Decidable (C s i)] (s : σ) :
    List ι → Option σ
  | [] => some s
  | i :: is =>
    if C s i then
      match f s i with
      | .ok s' => drive f C s' is
      | .error _ => none
    else none

theorem Reachable.drive {ε : Type} {f : σ → ι → Except ε σ} {C : σ → ι → Prop}
    [∀ s i, Decidable (C s i)] {is : List ι} {s s' : σ} (h : Reachable (S.restrict C) s)
    (hf : ∀ s i s', f s i = .ok s' → S.step s i s') (e : Run.drive f C s is = some s') :
    Reachable (S.restrict C) s' := by
  induction is generalizing s with
  | nil =>
    cases e
    exact h
  | cons i is ih =>
    rw [Run.drive] at e
    split at e
    · next hc =>
      split at e
      · next s1 he => exact ih (h.step ⟨hc, hf s i s1 he⟩) e
      · cases e
    · cases e

theorem Steps.reachable {L : ι → Prop} {s s' : σ} (h : Steps S L s s') (hs : Reachable S s) :
    Reachable S s' := by
  induction h with
  | refl => exact hs
  | step _ _ hst ih => exact ih.step hst

@[elab_as_elim]
theorem Steps.invariant {L : ι → Prop} {s s' : σ} (h : Steps S L s s') (h0 : P s)
    (hs : ∀ t i t', Steps S L s t → P t → L i → S.step t i t' → P t') : P s' := by
  induction h with
  | refl => exact h0
  | step hst hi hstep ih => exact hs _ _ _ hst ih hi hstep

end

end Run
