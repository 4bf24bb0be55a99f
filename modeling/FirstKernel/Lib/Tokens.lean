import Mathlib.Data.List.Basic

/-!
# The runs of a list between its separators

`tokens p s` are the maximal runs of `s` outside `p`, in order.

* `tokens_append`   separators in front do not matter;
* `tokens_span`     the first run, and the runs behind the separator that ends it.
-/

namespace Tokens

section
variable {α : Type} {p : α → Bool} {c : α} {r s : List α}

def tokens (p : α → Bool) (s : List α) : List (List α) := (s.splitOnP p).filter fun r => !r.isEmpty

theorem tokens_nil (p : α → Bool) : tokens p [] = [] := rfl

theorem tokens_skip (h : p c = true) (s : List α) : tokens p (c :: s) = tokens p s := by
  unfold tokens
  rw [List.splitOnP_cons_eq_if_modifyHead, if_pos h, List.filter_cons]
  rfl

theorem filter_isEmpty_cons (h : r ≠ []) (rs : List (List α)) :
    (r :: rs).filter (fun r => !r.isEmpty) = r :: rs.filter fun r => !r.isEmpty := by
  rw [List.filter_cons, if_pos]
  rw [List.isEmpty_eq_false_iff.mpr h]
  rfl

/-- a run up to the end -/
theorem tokens_last (hne : r ≠ []) (h : ∀ x ∈ r, p x = false) : tokens p r = [r] := by
  unfold tokens
  rw [List.splitOnP_eq_singleton h, filter_isEmpty_cons hne]
  rfl

/-- a run up to a separator -/
theorem tokens_run (hne : r ≠ []) (h : ∀ x ∈ r, p x = false) (hc : p c = true) (s : List α) :
    tokens p (r ++ c :: s) = r :: tokens p s := by
  unfold tokens
  rw [List.splitOnP_append_cons_of_forall_mem h c hc, filter_isEmpty_cons hne]

/-- a list is cut at its first element outside `p`, if it has one -/
theorem first_outside (p : α → Bool) (s : List α) :
    (∀ x ∈ s, p x = true) ∨ ∃ a c b, s = a ++ c :: b ∧ (∀ x ∈ a, p x = true) ∧ p c = false := by
  induction s with
  | nil => exact .inl fun x hx => absurd hx List.not_mem_nil
  | cons d s ih =>
    cases hd : p d with
    | false => exact .inr ⟨[], d, s, rfl, fun x hx => absurd hx List.not_mem_nil, hd⟩
    | true =>
      rcases ih with hall | ⟨a, c, b, rfl, ha, hc⟩
      · exact .inl (List.forall_mem_cons.mpr ⟨hd, hall⟩)
      · exact .inr ⟨d :: a, c, b, rfl, List.forall_mem_cons.mpr ⟨hd, ha⟩, hc⟩

theorem tokens_append (h : ∀ x ∈ r, p x = true) (s : List α) : tokens p (r ++ s) = tokens p s := by
  induction r with
  | nil => rfl
  | cons c r ih =>
    obtain ⟨hc, hr⟩ := List.forall_mem_cons.mp h
    rw [List.cons_append, tokens_skip hc, ih hr]

/-- **A list without a run is made of separators; else it is separators, the first run, and nothing
or a separator and the rest.** -/
theorem tokens_span (p : α → Bool) (s : List α) :
    (tokens p s = [] ∧ ∀ x ∈ s, p x = true) ∨
    ∃ sep r, r ≠ [] ∧ (∀ x ∈ sep, p x = true) ∧ (∀ x ∈ r, p x = false) ∧
      ((s = sep ++ r ∧ tokens p s = [r]) ∨
        ∃ c rest, p c = true ∧ s = sep ++ (r ++ c :: rest) ∧ tokens p s = r :: tokens p rest) := by
  rcases first_outside p s with hall | ⟨sep, b, l, rfl, hsep, hb⟩
  · left
    refine ⟨?_, hall⟩
    rw [← List.append_nil s, tokens_append hall, tokens_nil]
  · right
    rw [tokens_append hsep]
    rcases first_outside (fun x => !p x) l with hall | ⟨r, c, rest, rfl, hr, hc⟩
    · have hrun : ∀ x ∈ b :: l, p x = false :=
        List.forall_mem_cons.mpr ⟨hb, fun x hx => (Bool.not_eq_true' _).mp (hall x hx)⟩
      exact ⟨sep, b :: l, List.cons_ne_nil b l, hsep, hrun,
        .inl ⟨rfl, tokens_last (List.cons_ne_nil b l) hrun⟩⟩
    · have hrun : ∀ x ∈ b :: r, p x = false :=
        List.forall_mem_cons.mpr ⟨hb, fun x hx => (Bool.not_eq_true' _).mp (hr x hx)⟩
      have hc' : p c = true := (Bool.not_eq_false' _).mp hc
      exact ⟨sep, b :: r, List.cons_ne_nil b r, hsep, hrun,
        .inr ⟨c, rest, hc', rfl, tokens_run (List.cons_ne_nil b r) hrun hc' rest⟩⟩

end

end Tokens
