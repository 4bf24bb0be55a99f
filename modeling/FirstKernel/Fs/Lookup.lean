import FirstKernel.Fs.Tree
import Mathlib.Data.List.TakeWhile

/-!
# Looking up names

* `strcmp_eq_zero_iff`, `strcmp_eq_zero`    equality of C strings;
* `fsFindChild_eq`                           the first child with the name, or null.
-/

namespace FirstKernel
open ByteMem Cells Arbor

theorem toNat_ne_zero_of_not_mem {x : Byte} {s : List Byte} (h : (0 : Byte) ∉ x :: s) :
    x.toNat ≠ 0 := by
  intro e
  exact h (List.mem_cons.mpr (.inl (BitVec.eq_of_toNat_eq e.symm)))

/-- **Two names compare equal when the first one, up to its terminator, is the second.** -/
theorem strcmp_eq_zero_iff {a b : List Byte} (hb : (0 : Byte) ∉ b) :
    strcmp a b = 0 ↔ a.takeWhile (· ≠ 0) = b := by
  induction a generalizing b with
  | nil =>
    cases b with
    | nil => exact ⟨fun _ => rfl, fun _ => rfl⟩
    | cons y b =>
      have := toNat_ne_zero_of_not_mem hb
      rw [strcmp]
      constructor
      · intro h
        omega
      · exact nofun
  | cons x a ih =>
    by_cases hx : x = 0
    · rw [hx, List.takeWhile_cons_of_neg (by simp)]
      cases b with
      | nil => exact ⟨fun _ => rfl, fun _ => rfl⟩
      | cons y b =>
        have := toNat_ne_zero_of_not_mem hb
        rw [strcmp, if_neg fun h => h.1 rfl]
        constructor
        · intro h
          have hzero : (0 : Byte).toNat = 0 := rfl
          omega
        · exact nofun
    · have hx' : x.toNat ≠ 0 := fun e => hx (BitVec.eq_of_toNat_eq e)
      rw [List.takeWhile_cons_of_pos (by simpa using hx)]
      cases b with
      | nil =>
        rw [strcmp]
        constructor
        · intro h
          omega
        · exact nofun
      | cons y b =>
        rw [strcmp, List.cons.injEq]
        by_cases hxy : x = y
        · rw [if_pos ⟨hx, hxy⟩, ih fun h => hb (List.mem_cons_of_mem _ h)]
          exact ⟨fun h => ⟨hxy, h⟩, fun h => h.2⟩
        · rw [if_neg fun h => hxy h.2]
          constructor
          · intro h
            exact absurd (BitVec.eq_of_toNat_eq (by omega)) hxy
          · exact fun h => absurd h.1 hxy

theorem takeWhile_ne_zero {a : List Byte} (ha : (0 : Byte) ∉ a) : a.takeWhile (· ≠ 0) = a := by
  rw [List.takeWhile_eq_self_iff]
  intro x hx
  exact decide_eq_true fun e => ha (e ▸ hx)

theorem strcmp_eq_zero {a b : List Byte} (ha : (0 : Byte) ∉ a) (hb : (0 : Byte) ∉ b) :
    strcmp a b = 0 ↔ a = b := by
  rw [strcmp_eq_zero_iff hb, takeWhile_ne_zero ha]

/-- the first entry of `p` called `name`, null when there is none -/
def childNamed (k : Kernel) (p : Word) (name : List Byte) : Word :=
  ((kids k p).find? fun c => strcmp (k.node c).name name = 0).getD 0

section
variable {k : Kernel} {p : Word} {name : List Byte}

theorem findNamed_eq (array : Word) (ha : array ≠ 0) (n i : Nat)
    (hc : ∀ c ∈ loadN (k.slot array) i n, c ≠ 0) :
    findNamed k array name n i = .ok (((loadN (k.slot array) i n).find? fun c =>
      strcmp (k.node c).name name = 0).getD 0) := by
  induction n generalizing i with
  | zero => rfl
  | succ n ih =>
    rw [loadN_cons] at hc ⊢
    have hhead := hc _ List.mem_cons_self
    rw [findNamed, deref_ok ha, bind_ok, deref_ok hhead, bind_ok]
    by_cases h : strcmp (k.node (k.slot array i)).name name = 0
    · rw [if_pos h, List.find?_cons_of_pos (by simpa using h)]
      rfl
    · rw [if_neg h, List.find?_cons_of_neg (by simpa using h)]
      exact ih (i + 1) fun c hm => hc c (List.mem_cons_of_mem _ hm)

/-- **`fs_find_child` answers the first child with the name.** -/
theorem fsFindChild_eq (h : WellFormed k) (hp : InTree k p) (name : List Byte) :
    fsFindChild k p name = .ok (childNamed k p name) := by
  have hok := h.node p hp
  unfold fsFindChild childNamed
  cases ht : (k.node p).type with
  | file =>
    rw [if_pos (.inr FSNodeType.noConfusion), kids_eq_nil (hok.file ht)]
    rfl
  | directory =>
    rw [if_neg (not_or.mpr ⟨h.ne_zero hp, not_not.mpr rfl⟩)]
    exact findNamed_eq _ (hok.array ht) _ _ fun c hc => (hok.entry c hc).1

theorem childNamed_mem (h : childNamed k p name ≠ 0) :
    childNamed k p name ∈ kids k p ∧ strcmp (k.node (childNamed k p name)).name name = 0 := by
  unfold childNamed at h ⊢
  cases e : (kids k p).find? fun c => strcmp (k.node c).name name = 0 with
  | none =>
    rw [e] at h
    exact absurd rfl h
  | some c => exact ⟨List.mem_of_find?_eq_some e, by simpa using List.find?_some e⟩

theorem inTree_childNamed (hp : InTree k p) (h : childNamed k p name ≠ 0) :
    InTree k (childNamed k p name) := hp.child (childNamed_mem h).1

end

end FirstKernel
