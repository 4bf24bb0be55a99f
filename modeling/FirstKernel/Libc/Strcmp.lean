import FirstKernel.Fs.Lookup

/-!
# `string.cpp`: `strcmp` and `strncmp`

* `strcmp_swap`            the two orders of the arguments;
* `strcmp_lt_iff`          the lexicographic order of unsigned bytes;
* `strncmp_eq`             the first `n` bytes;
* `string_comparison`      the order that name lookup and dispatch rest on.
-/

namespace FirstKernel
open ByteMem

/-- `while (n && *str1 && *str1 == *str2)` and the difference of the bytes it stops at -/
def strncmp : List Byte → List Byte → Nat → Int
  | _, _, 0 => 0
  | a :: as, b :: bs, n+1 => if a ≠ 0 ∧ a = b then strncmp as bs n else a.toNat - b.toNat
  | [], b :: _, _+1 => 0 - b.toNat
  | a :: _, [], _+1 => a.toNat
  | [], [], _+1 => 0

section
variable {a b c : List Byte}

theorem strcmp_swap (a b : List Byte) : strcmp b a = -strcmp a b := by
  induction a generalizing b with
  | nil =>
    cases b with
    | nil => rfl
    | cons y b =>
      rw [strcmp, strcmp]
      omega
  | cons x a ih =>
    cases b with
    | nil =>
      rw [strcmp, strcmp]
      omega
    | cons y b =>
      rw [strcmp, strcmp]
      by_cases h : x = y
      · subst h
        by_cases hx : x = 0
        · rw [if_neg fun hc => hc.1 hx, if_neg fun hc => hc.1 hx]
          omega
        · rw [if_pos ⟨hx, rfl⟩, if_pos ⟨hx, rfl⟩, ih]
      · rw [if_neg fun hc => h hc.2.symm, if_neg fun hc => h hc.2]
        omega

/-- **A smaller answer means a smaller string.** -/
theorem strcmp_lt_iff (ha : (0 : Byte) ∉ a) (hb : (0 : Byte) ∉ b) : strcmp a b < 0 ↔ a < b := by
  induction a generalizing b with
  | nil =>
    cases b with
    | nil => exact iff_of_false (Int.lt_irrefl 0) (List.lt_irrefl [])
    | cons y b =>
      have := toNat_ne_zero_of_not_mem hb
      rw [strcmp]
      exact iff_of_true (by omega) (List.nil_lt_cons y b)
  | cons x a ih =>
    cases b with
    | nil =>
      rw [strcmp]
      exact iff_of_false (by omega) (List.not_lt_nil _)
    | cons y b =>
      have hx0 : x ≠ 0 := (List.ne_of_not_mem_cons ha).symm
      rw [strcmp, List.cons_lt_cons_iff]
      by_cases h : x = y
      · have hrec := ih (List.not_mem_of_not_mem_cons ha) (List.not_mem_of_not_mem_cons hb)
        rw [if_pos ⟨hx0, h⟩, hrec]
        constructor
        · exact fun hl => .inr ⟨h, hl⟩
        · rintro (hl | hl)
          · rw [h] at hl
            exact absurd hl (BitVec.lt_irrefl y)
          · exact hl.2
      · rw [if_neg fun hc => h hc.2]
        have hne : x.toNat ≠ y.toNat := fun e => h (BitVec.eq_of_toNat_eq e)
        constructor
        · intro hl
          exact .inl (BitVec.lt_def.mpr (by omega))
        · rintro (hl | hl)
          · have := BitVec.lt_def.mp hl
            omega
          · exact absurd hl.1 h

/-- **`strncmp` is `strcmp` on the first `n` bytes.** -/
theorem strncmp_eq (a b : List Byte) (n : Nat) : strncmp a b n = strcmp (a.take n) (b.take n) := by
  induction n generalizing a b with
  | zero =>
    rw [List.take_zero, List.take_zero]
    cases a with
    | nil => rfl
    | cons x a => rfl
  | succ n ih =>
    cases a with
    | nil =>
      cases b with
      | nil => rfl
      | cons y b => rfl
    | cons x a =>
      cases b with
      | nil => rfl
      | cons y b =>
        rw [strncmp, List.take_succ_cons, List.take_succ_cons, strcmp, ih]

theorem strcmp_le_iff (ha : (0 : Byte) ∉ a) (hb : (0 : Byte) ∉ b) : strcmp a b ≤ 0 ↔ a ≤ b := by
  rw [← List.not_lt, ← strcmp_lt_iff hb ha, strcmp_swap a b]
  omega

end

/-- **`strcmp` is the lexicographic order of strings, and `strncmp` that of their first bytes.** -/
theorem string_comparison (a b c : CString) :
    (strcmp a.val b.val = 0 ↔ a = b) ∧
    (strcmp a.val b.val < 0 ↔ a.val < b.val) ∧
    (0 < strcmp a.val b.val ↔ b.val < a.val) ∧
    (∀ n, (strncmp a.val b.val n).sign = (strcmp (a.val.take n) (b.val.take n)).sign) ∧
    (strcmp b.val a.val).sign = -(strcmp a.val b.val).sign ∧
    (strcmp a.val b.val < 0 → strcmp b.val c.val < 0 → strcmp a.val c.val < 0) ∧
    (strcmp a.val b.val ≤ 0 → strcmp b.val c.val ≤ 0 → strcmp a.val c.val ≤ 0) := by
  have hab := strcmp_lt_iff a.2 b.2
  have hba := strcmp_lt_iff b.2 a.2
  refine ⟨?_, hab, ?_, fun n => ?_, ?_, fun h1 h2 => ?_, fun h1 h2 => ?_⟩
  · rw [strcmp_eq_zero a.2 b.2]
    exact Subtype.ext_iff.symm
  · rw [← hba, strcmp_swap a.val b.val]
    omega
  · rw [strncmp_eq]
  · rw [strcmp_swap, Int.sign_neg]
  · rw [strcmp_lt_iff a.2 c.2]
    exact List.lt_trans (hab.mp h1) ((strcmp_lt_iff b.2 c.2).mp h2)
  · rw [strcmp_le_iff a.2 c.2]
    exact List.le_trans ((strcmp_le_iff a.2 b.2).mp h1) ((strcmp_le_iff b.2 c.2).mp h2)

end FirstKernel
