import FirstKernel.Fs.ComponentWalk

/-!
# The two path resolvers

`descend k p comps` goes from `p` from child to child along the names in `comps`, empty ones skipped.

* `descend_eq_walk`        this is the walk along the components that are not empty;
* `fsFindByPath_eq`        the resolver without a starting node stops in front of the last one;
* `fsFindByPathFrom_eq`    the other one goes on to the last component;
* `resolvers_agree_iff`    when they answer the same on an absolute path.
-/

namespace FirstKernel
open ByteMem Cells Arbor Split

/-- the child of `p` called `name`; `p` itself for the empty name -/
def into (k : Kernel) (p : Word) (name : List Byte) : Option Word :=
  if name = [] then some p
  else if childNamed k p name = 0 then none
  else some (childNamed k p name)

def descend (k : Kernel) (p : Word) (comps : List (List Byte)) : Option Word := comps.foldlM (into k) p

section
variable {k : Kernel} {p q : Word} {name : List Byte} {comps : List (List Byte)}

@[simp] theorem descend_nil (k : Kernel) (p : Word) : descend k p [] = some p := rfl

theorem descend_cons (k : Kernel) (p : Word) (name : List Byte) (comps : List (List Byte)) :
    descend k p (name :: comps) = (into k p name).bind fun q => descend k q comps := by
  unfold descend
  rw [List.foldlM_cons]
  rfl

theorem descend_append (k : Kernel) (p : Word) (as bs : List (List Byte)) :
    descend k p (as ++ bs) = (descend k p as).bind fun q => descend k q bs := by
  unfold descend
  rw [List.foldlM_append]
  rfl

theorem inTree_into (hp : InTree k p) (e : into k p name = some q) : InTree k q := by
  unfold into at e
  by_cases hn : name = []
  · rw [if_pos hn] at e
    cases e
    exact hp
  rw [if_neg hn] at e
  by_cases hc : childNamed k p name = 0
  · rw [if_pos hc] at e
    cases e
  · rw [if_neg hc] at e
    cases e
    exact inTree_childNamed hp hc

theorem inTree_descend (hp : InTree k p) (e : descend k p comps = some q) : InTree k q := by
  induction comps generalizing p with
  | nil =>
    cases e
    exact hp
  | cons name comps ih =>
    rw [descend_cons] at e
    obtain ⟨r, e1, e2⟩ := Option.bind_eq_some_iff.mp e
    exact ih (inTree_into hp e1) e2

/-- a child is found under a name at another node than `p` -/
theorem into_ne_self (h : WellFormed k) (hp : InTree k p) (hn : name ≠ []) :
    into k p name ≠ some p := by
  intro e
  unfold into at e
  rw [if_neg hn] at e
  by_cases hc : childNamed k p name = 0
  · rw [if_pos hc] at e
    cases e
  · rw [if_neg hc] at e
    exact h.tree.ne_child hp (childNamed_mem hc).1 (Option.some.inj e)

/-- **Along names without a terminator the two walks are one.** -/
theorem descend_eq_walk (h : WellFormed k) (hp : InTree k p) (hcomps : ∀ c ∈ comps, (0 : Byte) ∉ c) :
    descend k p comps = componentWalk k p (steps comps) := by
  induction comps generalizing p with
  | nil => rfl
  | cons name comps ih =>
    have hi : into k p name = stepInto k p name := by
      unfold into stepInto
      rw [entryOf_eq h hp (hcomps name List.mem_cons_self)]
    rw [descend_cons, steps_cons, ← hi]
    cases e : into k p name with
    | none => rfl
    | some q =>
      apply ih (inTree_into hp e)
      exact fun c hc => hcomps c (List.mem_cons_of_mem _ hc)

/-! ## the resolvers -/

variable {path : CString}

theorem fsFindByPath_eq (h : WellFormed k) (habs : path.val.head? = some (chr '/'))
    (hlen : ∀ c ∈ components path.val, c.length < sizeofTemp) :
    fsFindByPath k (some path) = .ok ((descend k k.root (components path.val).dropLast).getD 0) := by
  rw [fsFindByPath_spec h habs, walkFits_of_short (by decide) fun c hc => Nat.le_of_lt_succ (hlen c hc),
    if_pos rfl, descend_eq_walk h .root fun c hc => component_no_nul (List.mem_of_mem_dropLast hc)]

theorem fsFindByPathFrom_eq (h : WellFormed k) (current : Word)
    (hstart : InTree k (startOf k path current))
    (hlen : ∀ c ∈ components path.val, c.length < sizeofTemp) :
    fsFindByPathFrom k (some path) current
      = .ok ((descend k (startOf k path current) (components path.val)).getD 0) := by
  rw [fsFindByPathFrom_spec h path current (.inr hstart),
    walkFits_of_short (Nat.le_refl _) fun c hc => Nat.le_of_lt_succ (hlen c hc), if_pos rfl,
    descend_eq_walk h hstart fun c hc => component_no_nul hc]

/-- **On an absolute path the resolvers agree exactly when the path ends with a slash or the part in
front of its last slash leads nowhere.** -/
theorem resolvers_agree_iff (h : WellFormed k) (path : CString) (current : Word)
    (habs : path.val.head? = some (chr '/'))
    (hlen : ∀ c ∈ components path.val, c.length ≤ 127) :
    ∃ r r', fsFindByPath k (some path) = .ok r ∧ fsFindByPathFrom k (some path) current = .ok r' ∧
      (r = r' ↔ (components path.val).getLast? = some [] ∨
        descend k k.root (components path.val).dropLast = none) := by
  have hlt : ∀ c ∈ components path.val, c.length < sizeofTemp := fun c hc =>
    Nat.lt_succ_of_le (hlen c hc)
  have e1 := fsFindByPath_eq h habs hlt
  have hs : startOf k path current = k.root := if_pos habs
  have e2 := fsFindByPathFrom_eq h current (by rw [hs]; exact .root) hlt
  rw [hs] at e2
  refine ⟨_, _, e1, e2, ?_⟩
  obtain ⟨init, last, e⟩ := components_concat path.val
  rw [e, List.dropLast_concat, List.getLast?_concat, descend_append]
  cases hd : descend k k.root init with
  | none => simp
  | some q =>
    have hq := inTree_descend .root hd
    rw [Option.bind_some, descend_cons]
    by_cases h0 : last = []
    · rw [h0]
      simp [into]
    · have hne := into_ne_self h hq h0
      have hq0 := h.ne_zero hq
      constructor
      · intro heq
        cases hi : into k q last with
        | none =>
          rw [hi] at heq
          exact absurd heq hq0
        | some r =>
          rw [hi] at heq hne
          exact absurd (congrArg some heq.symm) hne
      · rintro (hl | hl)
        · exact absurd (Option.some.inj hl) h0
        · cases hl

end

/-- the same path with a slash behind it -/
def readmeSlash : CString := ⟨str "/README/", by decide⟩

/-- with the file `README` in the root the resolvers differ on `/README` and agree on `/README/` -/
theorem resolvers_agree_iff_readme : ∃ k,
    (∃ r r', fsFindByPath k (some readme) = .ok r ∧
      fsFindByPathFrom k (some readme) 0x0080000C = .ok r' ∧ r ≠ r' ∧
      descend k k.root (components readme.val).dropLast ≠ none) ∧
    ∃ r, fsFindByPath k (some readmeSlash) = .ok r ∧
      fsFindByPathFrom k (some readmeSlash) 0x0080000C = .ok r := by
  obtain ⟨k, h, e1, e2⟩ := readme_resolved
  obtain ⟨r, r', h1, h2, hiff⟩ := resolvers_agree_iff h readme 0x0080000C (by decide) (by decide +kernel)
  obtain ⟨q, q', h3, h4, hslash⟩ :=
    resolvers_agree_iff h readmeSlash 0x0080000C (by decide) (by decide +kernel)
  have hne : r ≠ r' := by
    rw [← Except.ok.inj (e1.symm.trans h1), ← Except.ok.inj (e2.symm.trans h2)]
    decide
  have heq : q = q' := hslash.mpr (.inl (by decide +kernel))
  exact ⟨k, ⟨r, r', h1, h2, hne, fun hnone => hne (hiff.mpr (.inr hnone))⟩, q, h3, heq ▸ h4⟩

/-- **The resolver without a starting node answers the root for `/README`.** -/
theorem resolvers_disagree : ¬ ∀ (k : Kernel) (path : CString) (current : Word), WellFormed k →
    path.val.head? = some (chr '/') → (∀ c ∈ components path.val, c.length ≤ 127) →
    fsFindByPath k (some path) = fsFindByPathFrom k (some path) current := by
  intro hall
  obtain ⟨k, h, e1, e2⟩ := readme_resolved
  have := hall k readme 0x0080000C h (by decide) (by decide +kernel)
  rw [e1, e2] at this
  exact absurd (Except.ok.inj this) (by decide)

end FirstKernel
