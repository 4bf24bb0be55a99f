import FirstKernel.Console.Strtok

/-!
# A sequence of `strtok` calls

The first call gets the string, the further ones null.  The strings answered are read when each call
returns.

* `nextTokens_spell`     the answers are the tokens in order, then null;
* `nextTokens_cut`       a byte that changes ends a token answered;
* `strtok_enumerates`    both, from the first call on.
-/

namespace FirstKernel
open ByteMem Tokens

/-- `n` calls `strtok(NULL, delim)`: each answer and the state after it -/
def nextTokens (delim : List Byte) : Nat → Strtok → List (Option Nat × Strtok)
  | 0, _ => []
  | n+1, s => strtok s none delim :: nextTokens delim n (strtok s none delim).2

/-- `strtok(text, delim)` and `n` further calls -/
def strtokCalls (s : Strtok) (text delim : List Byte) (n : Nat) : List (Option Nat × Strtok) :=
  strtok s (some text) delim :: nextTokens delim n (strtok s (some text) delim).2

/-- the answer of a call as a string -/
def spell (r : Option Nat × Strtok) : Option (List Byte) := r.1.map (stringAt r.2.text)

/-- where the tokens answered end -/
def tokenEnds (calls : List (Option Nat × Strtok)) : List Nat :=
  calls.filterMap fun r => r.1.map fun p => p + (stringAt r.2.text p).length

/-- `t` is `text` with some of its delimiters at the places `ends` made NUL -/
structure CutAt (text delim : List Byte) (ends : List Nat) (t : List Byte) : Prop where
  length : t.length = text.length
  change : ∀ j, t[j]? ≠ text[j]? →
    t[j]? = some 0 ∧ (∃ d, isDelim delim d = true ∧ text[j]? = some d) ∧ j ∈ ends

section
variable {s : Strtok} {text t rest delim : List Byte} {ends ends' : List Nat}

theorem CutAt.refl (text delim : List Byte) (ends : List Nat) : CutAt text delim ends text :=
  ⟨rfl, fun _ h => absurd rfl h⟩

theorem CutAt.mono (h : CutAt text delim ends t) (hs : ∀ j ∈ ends, j ∈ ends') :
    CutAt text delim ends' t :=
  ⟨h.length, fun j hj => ⟨(h.change j hj).1, (h.change j hj).2.1, hs j (h.change j hj).2.2⟩⟩

/-- the terminator is no delimiter -/
theorem isDelim_ne_zero {d : Byte} (h : isDelim delim d = true) : d ≠ 0 := by
  rintro rfl
  have hd : strchr delim 0 ≠ none := of_decide_eq_true h
  refine hd (List.findIdx?_eq_none_iff.mpr fun x hx => ?_)
  have hne := List.mem_takeWhile_imp hx
  exact beq_false_of_ne (of_decide_eq_true hne)

/-- one more delimiter becomes NUL -/
theorem CutAt.set (h : CutAt text delim ends t) {d : Byte} {k : Nat} (hd : isDelim delim d = true)
    (hk : t[k]? = some d) (hmem : k ∈ ends) : CutAt text delim ends (t.set k 0) := by
  -- a byte changed before is NUL, so this one is still as it was
  have hkeep : text[k]? = some d := by
    by_contra hne
    obtain ⟨h0, _⟩ := h.change k fun e => hne (e.symm.trans hk)
    rw [hk] at h0
    exact isDelim_ne_zero hd (Option.some.inj h0)
  refine ⟨by rw [List.length_set, h.length], fun j hj => ?_⟩
  by_cases hjk : k = j
  · subst hjk
    refine ⟨?_, ⟨d, hd, hkeep⟩, hmem⟩
    rw [List.getElem?_set_self']
    rw [hk]
    rfl
  · rw [List.getElem?_set_ne hjk] at hj ⊢
    exact h.change j hj

/-- what one call does to the string -/
theorem CutAt.strtok (h : CutAt text delim ends s.text) (hr : s.Rest rest)
    (hs : ∀ j ∈ tokenEnds [strtok s none delim], j ∈ ends) :
    CutAt text delim ends (FirstKernel.strtok s none delim).2.text := by
  cases ht : tokens (isDelim delim) rest with
  | nil =>
    obtain ⟨s', e, htext, _⟩ := strtok_none hr ht
    rw [e]
    exact htext ▸ h
  | cons t ts =>
    obtain ⟨start, s', _, _, _, e, hat, _, _, _, _, _, _, htext⟩ := strtok_token hr ht
    rw [e] at hs ⊢
    rcases htext with htext | ⟨d, hd, hk, htext⟩
    · exact htext ▸ h
    · have hmem : start + t.length ∈ tokenEnds [(some start, s')] := by
        rw [← hat]
        exact List.mem_singleton_self _
      show CutAt text delim ends s'.text
      rw [htext]
      exact h.set hd hk (hs _ hmem)

/-- one call: the first token left and the state for the others -/
theorem strtok_spell (h : s.Rest rest) : ∃ rest', (strtok s none delim).2.Rest rest' ∧
    spell (strtok s none delim) = (tokens (isDelim delim) rest).head? ∧
    tokens (isDelim delim) rest' = (tokens (isDelim delim) rest).tail := by
  cases ht : tokens (isDelim delim) rest with
  | nil =>
    obtain ⟨s', e, _, hr⟩ := strtok_none h ht
    exact ⟨[], by rw [e]; exact hr, by rw [e]; rfl, tokens_nil _⟩
  | cons t ts =>
    obtain ⟨start, s', rest', _, _, e, hat, hr, htok, _⟩ := strtok_token h ht
    refine ⟨rest', by rw [e]; exact hr, ?_, htok⟩
    rw [e]
    exact congrArg some hat

/-- **The answers are the tokens in order, then null.** -/
theorem nextTokens_spell (h : s.Rest rest) (n : Nat) : (nextTokens delim n s).map spell
    = (List.range n).map fun i => (tokens (isDelim delim) rest)[i]? := by
  induction n generalizing s rest with
  | zero => rfl
  | succ n ih =>
    obtain ⟨rest', hr, hspell, htok⟩ := @strtok_spell s rest delim h
    rw [nextTokens, List.map_cons, ih hr, hspell, htok, List.range_succ_eq_map, List.map_cons,
      List.map_map, List.head?_eq_getElem?]
    congr 1
    apply List.map_congr_left
    intro i _
    exact List.getElem?_tail ..

/-- **A byte that changes is a delimiter behind a token answered.** -/
theorem nextTokens_cut (h : s.Rest rest) (hc : CutAt text delim ends s.text) (n : Nat)
    (hs : ∀ j ∈ tokenEnds (nextTokens delim n s), j ∈ ends) :
    ∀ r ∈ nextTokens delim n s, CutAt text delim ends r.2.text := by
  induction n generalizing s rest with
  | zero => exact nofun
  | succ n ih =>
    obtain ⟨rest', hr, _⟩ := @strtok_spell s rest delim h
    have hsplit : tokenEnds (nextTokens delim (n + 1) s) = tokenEnds [strtok s none delim]
        ++ tokenEnds (nextTokens delim n (strtok s none delim).2) :=
      List.filterMap_append (l := [strtok s none delim])
    rw [hsplit] at hs
    have hfirst := hc.strtok h fun j hj => hs j (List.mem_append_left _ hj)
    refine List.forall_mem_cons.mpr ⟨hfirst, ih hr hfirst fun j hj => ?_⟩
    exact hs j (List.mem_append_right _ hj)

end

/-- **The calls `strtok(s, d)`, `strtok(NULL, d)`, … answer the tokens of `s` in order and then null,
and change nothing but delimiters that end a token they answered.** -/
theorem strtok_enumerates (s : Strtok) (text delim : List Byte) (hz : (0 : Byte) ∉ text)
    (hd : (0 : Byte) ∉ delim) (n : Nat) :
    (strtokCalls s text delim n).map spell
      = (List.range (n + 1)).map (fun i => (tokens (· ∈ delim) text)[i]?) ∧
    ∀ r ∈ strtokCalls s text delim n, r.2.text.length = text.length ∧
      ∀ j, r.2.text[j]? ≠ text[j]? → r.2.text[j]? = some 0 ∧ (∃ d ∈ delim, text[j]? = some d) ∧
        ∃ r' ∈ strtokCalls s text delim n, ∃ p t, r'.1 = some p ∧ spell r' = some t ∧
          j = p + t.length := by
  have hp : (fun c => decide (c ∈ delim)) = isDelim delim := by
    funext c
    exact Bool.eq_iff_iff.mpr (decide_eq_true_iff.trans (isDelim_iff hd).symm)
  have hcalls : strtokCalls s text delim n = nextTokens delim (n + 1) ⟨text, some 0⟩ := rfl
  rw [hp, hcalls]
  refine ⟨nextTokens_spell (rest_given hz) (n + 1), fun r hr => ?_⟩
  have hcut := nextTokens_cut (rest_given hz) (CutAt.refl text delim _) (n + 1) (fun _ hj => hj) r hr
  refine ⟨hcut.length, fun j hj => ?_⟩
  obtain ⟨h0, ⟨d, hd', hk⟩, hmem⟩ := hcut.change j hj
  refine ⟨h0, ⟨d, (isDelim_iff hd).mp hd', hk⟩, ?_⟩
  obtain ⟨r', hr', e⟩ := List.mem_filterMap.mp hmem
  obtain ⟨p, hp', rfl⟩ := Option.map_eq_some_iff.mp e
  exact ⟨r', hr', p, stringAt r'.2.text p, hp', by rw [spell, hp']; rfl, rfl⟩

/-- two tokens and then null -/
theorem strtok_enumerates_two : (strtokCalls ⟨[], none⟩ (str " cd a  ") (str " ") 2).map spell
    = [some (str "cd"), some (str "a"), none] :=
  (strtok_enumerates ⟨[], none⟩ (str " cd a  ") (str " ") (by decide) (by decide) 2).1.trans (by decide)

end FirstKernel
