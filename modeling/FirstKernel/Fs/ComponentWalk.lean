import FirstKernel.Fs.Path
import FirstKernel.Fs.TreeRun
import FirstKernel.Lib.Split

/-!
# Resolution as a walk over the components

What the resolvers are for, without buffers and loops: `componentWalk k start comps` takes, for one
component after the other, the first entry of a directory with that name.  `walkFits` says that the
loop over the characters stays inside `temp` on the way.

* `pathLoop_spec`                 the loop walks along all components but the last, or leaves `temp`;
* `fsFindByPath_spec`             the resolver without a starting node stops there;
* `fsFindByPathFrom_spec`         the other one goes on to the last component;
* `fsFindByPathFrom_walk`         it is the walk along the components that are not empty.
-/

namespace FirstKernel
open ByteMem Cells Arbor Split

/-- the parts of a path between slashes -/
def components (path : List Byte) : List (List Byte) := path.splitOn (chr '/')

/-- the components that are not empty -/
def steps (comps : List (List Byte)) : List (List Byte) := comps.filter (· ≠ [])

/-- the name of a node, up to its terminator -/
def textOf (k : Kernel) (c : Word) : List Byte := (k.node c).name.takeWhile (· ≠ 0)

/-- the first entry of the directory `p` with the name -/
def entryOf (k : Kernel) (p : Word) (name : List Byte) : Option Word :=
  if p ≠ 0 ∧ (k.node p).type = .directory then (kids k p).find? fun c => textOf k c = name else none

def componentWalk (k : Kernel) (start : Word) (comps : List (List Byte)) : Option Word :=
  comps.foldlM (entryOf k) start

/-- one component on the way; the empty one does nothing -/
def stepInto (k : Kernel) (p : Word) (name : List Byte) : Option Word :=
  if name = [] then some p else entryOf k p name

/-- the components that the loop gets to from `p` on fit `temp` with their terminator, and the last
one, which the path ends with, has at most `limit` characters -/
def walkFits (k : Kernel) (limit : Nat) : Word → List (List Byte) → Bool
  | _, [] => true
  | _, [last] => last.length ≤ limit
  | p, name :: next :: rest =>
    name.length < sizeofTemp &&
      match stepInto k p name with
      | none => true
      | some q => walkFits k limit q (next :: rest)

/-- where the resolver starts -/
def startOf (k : Kernel) (path : CString) (current : Word) : Word :=
  if path.val.head? = some (chr '/') then k.root else current

section
variable {k : Kernel} {p q : Word} {name temp : List Byte} {comps : List (List Byte)} {path : CString}
  {limit : Nat}

/-! ## the walk -/

@[simp] theorem componentWalk_nil (k : Kernel) (p : Word) : componentWalk k p [] = some p := rfl

theorem componentWalk_cons (k : Kernel) (p : Word) (name : List Byte) (comps : List (List Byte)) :
    componentWalk k p (name :: comps) = (entryOf k p name).bind fun q => componentWalk k q comps := by
  unfold componentWalk
  rw [List.foldlM_cons]
  rfl

theorem steps_cons (k : Kernel) (p : Word) (name : List Byte) (comps : List (List Byte)) :
    componentWalk k p (steps (name :: comps))
      = (stepInto k p name).bind fun q => componentWalk k q (steps comps) := by
  unfold steps stepInto
  by_cases hn : name = []
  · rw [if_pos hn, List.filter_cons_of_neg (by simpa using hn)]
    rfl
  · rw [if_neg hn, List.filter_cons_of_pos (by simpa using hn), componentWalk_cons]

theorem steps_append (k : Kernel) (p : Word) (as bs : List (List Byte)) :
    componentWalk k p (steps (as ++ bs))
      = (componentWalk k p (steps as)).bind fun q => componentWalk k q (steps bs) := by
  unfold steps componentWalk
  rw [List.filter_append, List.foldlM_append]
  rfl

theorem entryOf_mem (e : entryOf k p name = some q) :
    p ≠ 0 ∧ (k.node p).type = .directory ∧ q ∈ kids k p := by
  unfold entryOf at e
  by_cases hd : p ≠ 0 ∧ (k.node p).type = .directory
  · rw [if_pos hd] at e
    exact ⟨hd.1, hd.2, List.mem_of_find?_eq_some e⟩
  · rw [if_neg hd] at e
    cases e

/-- null, or a node of the tree -/
def Start (k : Kernel) (p : Word) : Prop := p = 0 ∨ InTree k p

theorem inTree_entryOf (hp : Start k p) (e : entryOf k p name = some q) : InTree k q := by
  obtain ⟨h0, _, hq⟩ := entryOf_mem e
  exact (hp.resolve_left h0).child hq

theorem start_stepInto (hp : Start k p) (e : stepInto k p name = some q) : Start k q := by
  unfold stepInto at e
  by_cases hn : name = []
  · rw [if_pos hn] at e
    cases e
    exact hp
  · rw [if_neg hn] at e
    exact .inr (inTree_entryOf hp e)

theorem start_walk (hp : Start k p) (e : componentWalk k p (steps comps) = some q) : Start k q := by
  induction comps generalizing p with
  | nil =>
    cases e
    exact hp
  | cons name comps ih =>
    rw [steps_cons] at e
    obtain ⟨r, e1, e2⟩ := Option.bind_eq_some_iff.mp e
    exact ih (start_stepInto hp e1) e2

theorem find_text_eq (hn : (0 : Byte) ∉ name) :
    (kids k p).find? (fun c => textOf k c = name)
      = (kids k p).find? fun c => strcmp (k.node c).name name = 0 := by
  congr 1
  funext c
  exact decide_eq_decide.mpr (strcmp_eq_zero_iff hn).symm

theorem entryOf_eq (h : WellFormed k) (hp : InTree k p) (hn : (0 : Byte) ∉ name) :
    entryOf k p name = if childNamed k p name = 0 then none else some (childNamed k p name) := by
  have hfind := find_text_eq (k := k) (p := p) hn
  unfold entryOf childNamed
  rw [hfind]
  cases e : (kids k p).find? fun c => strcmp (k.node c).name name = 0 with
  | none =>
    rw [Option.getD_none, if_pos rfl]
    exact ite_self none
  | some c =>
    have hc := List.mem_of_find?_eq_some e
    rw [Option.getD_some, if_pos ⟨h.ne_zero hp, h.dir_of_mem hp hc⟩,
      if_neg ((h.node p hp).entry c hc).1]

theorem fsFindChild_entry (h : WellFormed k) (hp : Start k p) (hn : (0 : Byte) ∉ name) :
    fsFindChild k p name = .ok ((entryOf k p name).getD 0) := by
  rcases hp with rfl | hp
  · have hnone : entryOf k 0 name = none := if_neg fun h => h.1 rfl
    rw [hnone]
    rfl
  · rw [fsFindChild_eq h hp, entryOf_eq h hp hn]
    by_cases h0 : childNamed k p name = 0
    · rw [if_pos h0, h0]
      rfl
    · rw [if_neg h0]
      rfl

/-! ## the loop over the characters -/

theorem walkFits_cons (k : Kernel) (limit : Nat) (p : Word) (name : List Byte)
    {comps : List (List Byte)} (hc : comps ≠ []) :
    walkFits k limit p (name :: comps) = (decide (name.length < sizeofTemp) &&
      match stepInto k p name with
      | none => true
      | some q => walkFits k limit q comps) := by
  cases comps with
  | nil => exact absurd rfl hc
  | cons next rest => rfl

theorem walkFits_head (h : walkFits k sizeofTemp p (name :: comps) = true) :
    name.length ≤ sizeofTemp := by
  cases comps with
  | nil => exact of_decide_eq_true h
  | cons next rest =>
    rw [walkFits_cons _ _ _ _ (List.cons_ne_nil _ _), Bool.and_eq_true] at h
    exact Nat.le_of_lt (of_decide_eq_true h.1)

theorem storeAt_full (h : ¬ temp.length < sizeofTemp) :
    storeAt temp.length sizeofTemp = .error .outOfBounds :=
  if_neg h

/-- **The loop walks along the components and leaves the last one in `temp`, or stores past its
end.** -/
theorem pathLoop_spec (h : WellFormed k) (path temp : List Byte) (hp : Start k p)
    (hpath : (0 : Byte) ∉ path) (htemp : (0 : Byte) ∉ temp) (hlen : temp.length ≤ sizeofTemp) :
    pathLoop k path p temp = if walkFits k sizeofTemp p (pieces (chr '/') temp path) then
      .ok ((componentWalk k p (steps (pieces (chr '/') temp path).dropLast)).map fun q =>
        (q, (pieces (chr '/') temp path).getLastD [])) else .error .outOfBounds := by
  induction path generalizing p temp with
  | nil =>
    have hfits : walkFits k sizeofTemp p [temp] = true := decide_eq_true hlen
    rw [pieces_nil, hfits, if_pos rfl]
    rfl
  | cons c path ih =>
    have hpath' : (0 : Byte) ∉ path := List.not_mem_of_not_mem_cons hpath
    by_cases hroom : temp.length < sizeofTemp
    · have hstore : storeAt temp.length sizeofTemp = .ok () := if_pos hroom
      rw [pathLoop, hstore, bind_ok]
      by_cases hc : c = chr '/'
      · subst hc
        have hne : path.splitOn (chr '/') ≠ [] := List.splitOn_ne_nil _ _
        have hnext : ∀ q, Start k q → pathLoop k path q []
            = if walkFits k sizeofTemp q (path.splitOn (chr '/')) then
              .ok ((componentWalk k q (steps (path.splitOn (chr '/')).dropLast)).map fun r =>
                (r, (path.splitOn (chr '/')).getLastD [])) else .error .outOfBounds := by
          intro q hq
          rw [ih [] hq hpath' List.not_mem_nil (Nat.zero_le _), pieces_empty]
        have hlast : (temp :: path.splitOn (chr '/')).getLastD []
            = (path.splitOn (chr '/')).getLastD [] := by
          cases hs : path.splitOn (chr '/') with
          | nil => exact absurd hs hne
          | cons a as => rfl
        rw [if_pos rfl, pieces_sep, List.dropLast_cons_of_ne_nil hne, steps_cons, hlast,
          walkFits_cons _ _ _ _ hne, decide_eq_true hroom, Bool.true_and]
        by_cases h0 : temp = []
        · have hs : stepInto k p temp = some p := if_pos h0
          rw [h0, if_neg (by simp), hnext p hp, ← h0, hs]
          rfl
        · have hs : stepInto k p temp = entryOf k p temp := if_neg h0
          rw [if_pos (List.length_pos_iff.mpr h0), fsFindChild_entry h hp htemp, bind_ok, hs]
          cases e : entryOf k p temp with
          | none => rfl
          | some q =>
            have hq := inTree_entryOf hp e
            rw [Option.getD_some, if_neg (h.ne_zero hq), hnext q (.inr hq)]
            rfl
      · rw [if_neg hc, pieces_other hc]
        apply ih _ hp hpath'
        · intro hm
          rcases List.mem_append.mp hm with hm | hm
          · exact htemp hm
          · exact hpath (List.mem_cons.mpr (.inl (List.mem_singleton.mp hm)))
        · rw [List.length_append]
          exact hroom
    · rw [pathLoop, storeAt_full hroom]
      have hbad : ¬ walkFits k sizeofTemp p (pieces (chr '/') temp (c :: path)) = true := by
        intro hfits
        by_cases hc : c = chr '/'
        · rw [hc, pieces_sep, walkFits_cons _ _ _ _ (List.splitOn_ne_nil _ _),
          Bool.and_eq_true] at hfits
          exact hroom (of_decide_eq_true hfits.1)
        · obtain ⟨first, rest, e, hle⟩ := head_pieces (chr '/') (temp ++ [c]) path
          rw [pieces_other hc, e] at hfits
          have := walkFits_head hfits
          rw [List.length_append] at hle
          exact hroom (Nat.lt_of_lt_of_le (Nat.lt_succ_self _) (Nat.le_trans hle this))
      rw [if_neg hbad]
      rfl

/-! ## the resolvers -/

theorem components_absolute (habs : path.val.head? = some (chr '/')) :
    components path.val = [] :: components path.val.tail := by
  obtain ⟨rest, e⟩ := List.head?_eq_some_iff.mp habs
  rw [e]
  unfold components
  have := pieces_sep (chr '/') [] rest
  rwa [pieces_empty] at this

theorem components_ne_nil (path : List Byte) : components path ≠ [] := List.splitOn_ne_nil _ _

theorem components_concat (path : List Byte) : ∃ init last, components path = init ++ [last] :=
  ⟨_, _, (List.dropLast_append_getLast (components_ne_nil path)).symm⟩

theorem component_no_nul {c : List Byte} (hc : c ∈ components path.val) : (0 : Byte) ∉ c :=
  fun h => path.property ((sublist_of_mem_splitOn hc).subset h)

/-- components that are all short fit -/
theorem walkFits_of_short (hlimit : 127 ≤ limit) (hlen : ∀ c ∈ comps, c.length ≤ 127) :
    walkFits k limit p comps = true := by
  induction comps generalizing p with
  | nil => rfl
  | cons name comps ih =>
    have hname := hlen name List.mem_cons_self
    by_cases hc : comps = []
    · rw [hc]
      exact decide_eq_true (Nat.le_trans hname hlimit)
    · rw [walkFits_cons _ _ _ _ hc, Bool.and_eq_true]
      refine ⟨decide_eq_true (Nat.lt_succ_of_le hname), ?_⟩
      cases stepInto k p name with
      | none => rfl
      | some q => exact ih fun c hc => hlen c (List.mem_cons_of_mem _ hc)

/-- a smaller limit for the last component matters when the walk gets there -/
theorem walkFits_limit (init : List (List Byte)) (last : List Byte) (hlimit : limit ≤ sizeofTemp) :
    walkFits k limit p (init ++ [last]) = (walkFits k sizeofTemp p (init ++ [last]) &&
      match componentWalk k p (steps init) with
      | none => true
      | some _ => decide (last.length ≤ limit)) := by
  induction init generalizing p with
  | nil =>
    show decide (last.length ≤ limit)
      = (decide (last.length ≤ sizeofTemp) && decide (last.length ≤ limit))
    by_cases hle : last.length ≤ limit
    · rw [decide_eq_true hle, decide_eq_true (Nat.le_trans hle hlimit)]
      rfl
    · rw [decide_eq_false hle, Bool.and_false]
  | cons name init ih =>
    have hne : init ++ [last] ≠ [] := by simp
    rw [List.cons_append, walkFits_cons _ _ _ _ hne, walkFits_cons _ _ _ _ hne, steps_cons]
    cases stepInto k p name with
    | none => rw [Option.bind_none, Bool.and_true, Bool.and_true]
    | some q =>
      show (_ && walkFits k limit q (init ++ [last])) = _
      rw [ih, Bool.and_assoc]
      rfl

theorem fsFindByPath_relative (hrel : path.val.head? ≠ some (chr '/')) :
    fsFindByPath k (some path) = .ok 0 := by
  unfold fsFindByPath
  exact if_pos hrel

/-- **The resolver without a starting node leaves the last component out.** -/
theorem fsFindByPath_spec (h : WellFormed k) (habs : path.val.head? = some (chr '/')) :
    fsFindByPath k (some path) = if walkFits k sizeofTemp k.root (components path.val) then
      .ok ((componentWalk k k.root (steps (components path.val).dropLast)).getD 0)
      else .error .outOfBounds := by
  have hloop := pathLoop_spec h path.val [] (.inr .root) path.property List.not_mem_nil (Nat.zero_le _)
  rw [pieces_empty] at hloop
  unfold fsFindByPath components
  simp only [if_neg (not_not.mpr habs), hloop]
  by_cases hfits : walkFits k sizeofTemp k.root (path.val.splitOn (chr '/')) = true
  · rw [if_pos hfits, if_pos hfits, bind_ok]
    cases componentWalk k k.root (steps (path.val.splitOn (chr '/')).dropLast) with
    | none => rfl
    | some q => rfl
  · rw [if_neg hfits, if_neg hfits]
    rfl

/-- **The resolver with a starting node goes along all components.** -/
theorem fsFindByPathFrom_spec (h : WellFormed k) (path : CString) (current : Word)
    (hstart : Start k (startOf k path current)) :
    fsFindByPathFrom k (some path) current
      = if walkFits k 127 (startOf k path current) (components path.val) then
        .ok ((componentWalk k (startOf k path current) (steps (components path.val))).getD 0)
        else .error .outOfBounds := by
  -- the characters after a leading slash have the same components but the empty one in front
  obtain ⟨rest, start, hrest, hs, hnul, hfits, hwalk⟩ : ∃ rest start,
      (if path.val.head? = some (chr '/') then path.val.tail else path.val) = rest ∧
      startOf k path current = start ∧ (0 : Byte) ∉ rest ∧
      walkFits k 127 start (components path.val) = walkFits k 127 start (components rest) ∧
      componentWalk k start (steps (components path.val))
        = componentWalk k start (steps (components rest)) := by
    refine ⟨_, _, rfl, rfl, ?_⟩
    by_cases habs : path.val.head? = some (chr '/')
    · rw [if_pos habs, components_absolute habs, walkFits_cons _ _ _ _ (components_ne_nil _),
      steps_cons]
      exact ⟨fun hm => path.property (List.mem_of_mem_tail hm), rfl, rfl⟩
    · rw [if_neg habs]
      exact ⟨path.property, rfl, rfl⟩
  have hgood : Start k start := hs ▸ hstart
  have hloop := pathLoop_spec h rest [] hgood hnul List.not_mem_nil (Nat.zero_le _)
  rw [pieces_empty] at hloop
  obtain ⟨init, last, e⟩ := components_concat rest
  have hsplit : rest.splitOn (chr '/') = init ++ [last] := e
  rw [hsplit, List.dropLast_concat, List.getLastD_concat] at hloop
  have hlastnul : (0 : Byte) ∉ last := fun hm =>
    hnul ((sublist_of_mem_splitOn (by rw [hsplit]; simp)).subset hm)
  rw [hs, hfits, hwalk, e, walkFits_limit _ _ (by decide : 127 ≤ sizeofTemp), steps_append]
  have hs' : (if path.val.head? = some (chr '/') then k.root else current) = start := hs
  unfold fsFindByPathFrom
  simp only [hrest, hs', hloop]
  by_cases hfit : walkFits k sizeofTemp start (init ++ [last]) = true
  · rw [if_pos hfit, hfit, Bool.true_and, bind_ok]
    cases hd : componentWalk k start (steps init) with
    | none => rfl
    | some q =>
      show (do storeAt last.length sizeofTemp
               if last.length > 0 then fsFindChild k q last else return q) = _
      by_cases hl : last.length ≤ 127
      · have hstore : storeAt last.length sizeofTemp = .ok () := if_pos (Nat.lt_succ_of_le hl)
        rw [hstore, bind_ok, decide_eq_true hl, if_pos rfl, Option.bind_some, steps_cons]
        unfold stepInto
        by_cases h0 : last = []
        · rw [if_pos h0, h0]
          rfl
        · rw [if_neg h0, if_pos (List.length_pos_iff.mpr h0),
            fsFindChild_entry h (start_walk hgood hd) hlastnul]
          cases entryOf k q last with
          | none => rfl
          | some r => rfl
      · have hstore : storeAt last.length sizeofTemp = .error .outOfBounds :=
          if_neg fun hlt => hl (Nat.le_of_lt_succ hlt)
        rw [hstore, decide_eq_false hl]
        rfl
  · rw [if_neg hfit, Bool.eq_false_iff.mpr hfit, Bool.false_and]
    rfl

theorem start_startOf {current : Word}
    (h : path.val.head? = some (chr '/') ∨ current = 0 ∨ InTree k current) :
    Start k (startOf k path current) := by
  unfold startOf
  by_cases habs : path.val.head? = some (chr '/')
  · rw [if_pos habs]
    exact .inr .root
  · rw [if_neg habs]
    exact h.resolve_left habs

/-- **`fs_find_by_path(path, current)` is the walk along the components of the path that are not
empty.** -/
theorem fsFindByPathFrom_walk (h : WellFormed k) (path : CString) (current : Word)
    (hstart : path.val.head? = some (chr '/') ∨ current = 0 ∨ InTree k current)
    (hlen : ∀ c ∈ components path.val, c.length ≤ 127) :
    fsFindByPathFrom k (some path) current
      = .ok ((componentWalk k (startOf k path current) (steps (components path.val))).getD 0) := by
  rw [fsFindByPathFrom_spec h path current (start_startOf hstart),
    walkFits_of_short (Nat.le_refl _) hlen, if_pos rfl]

end

def readme : CString := ⟨str "/README", by decide⟩

/-- after `touch README` the resolvers lead to the root and to the file -/
theorem readme_resolved : ∃ k, WellFormed k ∧ fsFindByPath k (some readme) = .ok 0x0080000C ∧
    fsFindByPathFrom k (some readme) 0x0080000C = .ok 0x00800104 := by
  have hrun : ((fsInit (Kernel.boot bootMachine)).toOption.bind fun k =>
      k.run [(.touch, some ⟨str "README", by decide⟩)]).map (fun k =>
        ((fsFindByPath k (some readme)).toOption,
          (fsFindByPathFrom k (some readme) 0x0080000C).toOption))
      = some (some 0x0080000C, some 0x00800104) := by decide +kernel
  obtain ⟨k, e, hres⟩ := Option.map_eq_some_iff.mp hrun
  obtain ⟨k0, e0, e⟩ := Option.bind_eq_some_iff.mp e
  have h0 : Run.Reachable commands k0 := .init ⟨bootMachine, toOption_eq_some e0, by decide +kernel⟩
  obtain ⟨bs, hk⟩ := shelled_reachable (reachable_commands h0 e)
  obtain ⟨h1, h2⟩ := Prod.mk.inj hres
  exact ⟨k, hk.tree.wf, toOption_eq_some h1, toOption_eq_some h2⟩

/-- along the one component of `/README` to the file -/
theorem fsFindByPathFrom_walk_readme : ∃ k, WellFormed k ∧
    fsFindByPathFrom k (some readme) 0x0080000C = .ok 0x00800104 ∧
    (componentWalk k (startOf k readme 0x0080000C) (steps (components readme.val))).getD 0
      = 0x00800104 := by
  obtain ⟨k, h, _, e⟩ := readme_resolved
  have hwalk := fsFindByPathFrom_walk h readme 0x0080000C (.inl (by decide)) (by decide +kernel)
  exact ⟨k, h, e, Except.ok.inj (hwalk.symm.trans e)⟩

end FirstKernel
