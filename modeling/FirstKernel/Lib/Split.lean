import Mathlib.Data.List.Basic

/-!
# Splitting with a running buffer

`pieces sep temp s` is `s.splitOn sep` with `temp` in front of the first part: what a loop over `s` that
collects a part in a buffer has still to see when the buffer holds `temp`.
-/

namespace Split

section
variable {α : Type} [DecidableEq α] {sep c : α} {temp s : List α}

def pieces (sep : α) (temp s : List α) : List (List α) := (s.splitOn sep).modifyHead (temp ++ ·)

theorem pieces_empty (sep : α) (s : List α) : pieces sep [] s = s.splitOn sep := by
  unfold pieces
  cases h : s.splitOn sep with
  | nil => rfl
  | cons p ps => rfl

theorem pieces_nil (sep : α) (temp : List α) : pieces sep temp [] = [temp] := by
  unfold pieces
  rw [List.splitOn_nil, List.modifyHead_cons, List.append_nil]

theorem pieces_sep (sep : α) (temp s : List α) :
    pieces sep temp (sep :: s) = temp :: s.splitOn sep := by
  unfold pieces
  rw [List.splitOn_cons_eq_if_modifyHead, if_pos (beq_self_eq_true sep), List.modifyHead_cons,
    List.append_nil]

theorem pieces_other (h : c ≠ sep) (temp s : List α) :
    pieces sep temp (c :: s) = pieces sep (temp ++ [c]) s := by
  unfold pieces
  rw [List.splitOn_cons_eq_if_modifyHead, if_neg (by simpa using h)]
  cases hs : s.splitOn sep with
  | nil => rfl
  | cons p ps =>
    rw [List.modifyHead_cons, List.modifyHead_cons, List.modifyHead_cons, List.append_assoc]
    rfl

/-- the buffer is the start of the first part -/
theorem head_pieces (sep : α) (temp s : List α) :
    ∃ p ps, pieces sep temp s = p :: ps ∧ temp.length ≤ p.length := by
  unfold pieces
  cases hs : s.splitOn sep with
  | nil => exact absurd hs (List.splitOn_ne_nil sep s)
  | cons p ps => exact ⟨temp ++ p, ps, List.modifyHead_cons, by rw [List.length_append]; omega⟩

/-- a part is the whole with the rest left out -/
theorem sublist_of_mem_splitOn (h : temp ∈ s.splitOn sep) : List.Sublist temp s := by
  induction s generalizing temp with
  | nil =>
    rw [List.splitOn_nil, List.mem_singleton] at h
    rw [h]
  | cons c s ih =>
    rw [List.splitOn_cons_eq_if_modifyHead] at h
    by_cases hc : (c == sep) = true
    · rw [if_pos hc] at h
      rcases List.mem_cons.mp h with rfl | h
      · exact List.nil_sublist _
      · exact (ih h).cons c
    · rw [if_neg hc] at h
      cases hs : s.splitOn sep with
      | nil => exact absurd hs (List.splitOn_ne_nil sep s)
      | cons p ps =>
        rw [hs, List.modifyHead_cons] at h
        rcases List.mem_cons.mp h with rfl | h
        · exact (ih (hs ▸ List.mem_cons_self)).cons_cons c
        · exact (ih (hs ▸ List.mem_cons_of_mem _ h)).cons c

theorem length_le_of_mem_splitOn (h : temp ∈ s.splitOn sep) : temp.length ≤ s.length :=
  (sublist_of_mem_splitOn h).length_le

/-- a list is cut at its last separator, if it has one -/
theorem last_sep (sep : α) (s : List α) :
    sep ∉ s ∨ ∃ pre post, s = pre ++ sep :: post ∧ sep ∉ post := by
  induction s with
  | nil => exact .inl List.not_mem_nil
  | cons c s ih =>
    rcases ih with hno | ⟨pre, post, rfl, hpost⟩
    · by_cases hc : c = sep
      · exact .inr ⟨[], s, by rw [hc]; rfl, hno⟩
      · left
        intro h
        rcases List.mem_cons.mp h with e | h
        · exact hc e.symm
        · exact hno h
    · exact .inr ⟨c :: pre, post, rfl, hpost⟩

end

end Split
