import Mathlib.Data.List.Nodup

/-!
# Every second entry

A loop that deletes entry `j` of a list and then goes on to `j + 1` in the list that is left skips the
entry that moved into the gap.  `evens` are the entries it deletes, `odds` the ones it leaves.

* `evens_drop`, `take_append_odds`   one round of the loop;
* `length_odds`                      half of the entries are left.
-/

namespace Alternate

section
variable {α : Type} {l : List α} {a x : α} {j : Nat}

def evens : List α → List α
  | [] => []
  | [a] => [a]
  | a :: _ :: l => a :: evens l

def odds (l : List α) : List α := evens l.tail

theorem evens_cons (a : α) (l : List α) : evens (a :: l) = a :: odds l := by
  cases l with
  | nil => rfl
  | cons b l => rfl

theorem odds_cons (a : α) (l : List α) : odds (a :: l) = evens l := rfl

theorem evens_eq (l : List α) : evens l = l.take 1 ++ odds (l.drop 1) := by
  cases l with
  | nil => rfl
  | cons a l =>
    rw [evens_cons]
    cases l with
    | nil => rfl
    | cons b l => rfl

theorem length_evens_odds (l : List α) :
    (evens l).length = (l.length + 1) / 2 ∧ (odds l).length = l.length / 2 := by
  induction l with
  | nil =>
    show 0 = (0 + 1) / 2 ∧ 0 = 0 / 2
    omega
  | cons a l ih =>
    obtain ⟨h1, h2⟩ := ih
    rw [evens_cons, odds_cons, List.length_cons, List.length_cons, h1, h2]
    omega

theorem length_odds (l : List α) : (odds l).length = l.length / 2 := (length_evens_odds l).2

theorem mem_evens_or_odds (h : x ∈ l) : x ∈ evens l ∨ x ∈ odds l := by
  induction l with
  | nil => cases h
  | cons a l ih =>
    rw [evens_cons, odds_cons]
    rcases List.mem_cons.mp h with rfl | h
    · exact .inl List.mem_cons_self
    · rcases ih h with h | h
      · exact .inr h
      · exact .inl (List.mem_cons_of_mem _ h)

theorem sublist_evens_odds (l : List α) : List.Sublist (evens l) l ∧ List.Sublist (odds l) l := by
  induction l with
  | nil => exact ⟨List.Sublist.refl _, List.Sublist.refl _⟩
  | cons a l ih =>
    rw [evens_cons, odds_cons]
    exact ⟨ih.2.cons_cons a, ih.1.cons a⟩

theorem disjoint_evens_odds (h : l.Nodup) : List.Disjoint (evens l) (odds l) := by
  induction l with
  | nil => exact List.disjoint_nil_left _
  | cons a l ih =>
    obtain ⟨ha, hl⟩ := List.nodup_cons.mp h
    rw [evens_cons, odds_cons, List.disjoint_cons_left]
    exact ⟨fun hm => ha ((sublist_evens_odds l).1.subset hm), List.disjoint_symm (ih hl)⟩

/-! ## one round -/

theorem drop_eraseIdx (h : j < l.length) : (l.eraseIdx j).drop (j + 1) = (l.drop (j + 1)).drop 1 := by
  have hlen : (l.take j).length = j := List.length_take_of_le (Nat.le_of_lt h)
  rw [List.eraseIdx_eq_take_drop_succ, List.drop_append, hlen, List.drop_eq_nil_of_le (by omega),
    List.nil_append, Nat.add_sub_cancel_left]

/-- entry `j` is deleted, and then those of the rest of what is left -/
theorem evens_drop (h : j < l.length) :
    evens (l.drop j) = l[j] :: evens ((l.eraseIdx j).drop (j + 1)) := by
  rw [drop_eraseIdx h, List.drop_eq_getElem_cons h, evens_cons, List.drop_one]
  rfl

theorem take_append_odds (h : j < l.length) :
    (l.eraseIdx j).take (j + 1) ++ odds ((l.eraseIdx j).drop (j + 1))
      = l.take j ++ odds (l.drop j) := by
  have hlen : (l.take j).length = j := List.length_take_of_le (Nat.le_of_lt h)
  rw [drop_eraseIdx h, List.drop_eq_getElem_cons h, odds_cons, evens_eq, ← List.append_assoc,
    List.eraseIdx_eq_take_drop_succ, List.take_append, hlen, List.take_of_length_le (by omega),
    Nat.add_sub_cancel_left]

end

end Alternate
