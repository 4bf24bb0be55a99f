import FirstKernel.Lib.Arbor

/-!
# Trees as data

`unfold kids label n p` is the tree below `p`, cut off at depth `n`.  A place in a tree is a path: the
positions to go down by, from the top.  `follow kids is p` goes the same way through the lists.

* `unfold_congr`          lists and labels that agree below `p`;
* `unfold_at`, `unfold_children`   the subtree at a path is the one below the node the path leads to;
* `follow_congr`          a path only depends on the lists above its end;
* `unfold_modify`         lists that change below one node only.
-/

namespace Rose
open Arbor

inductive RoseTree (α : Type) where
  | node (label : α) (children : List (RoseTree α))

section
variable {α β : Type}

def RoseTree.label : RoseTree α → α
  | .node x _ => x

def RoseTree.children : RoseTree α → List (RoseTree α)
  | .node _ ts => ts

def RoseTree.leaf (x : α) : RoseTree α := .node x []

def RoseTree.setChildren (t : RoseTree α) (ts : List (RoseTree α)) : RoseTree α := .node t.label ts

/-- the subtree at a path -/
def RoseTree.at (t : RoseTree α) : List Nat → Option (RoseTree α)
  | [] => some t
  | i :: is => t.children[i]?.bind fun c => c.at is

/-- the tree with `f` of the subtree at a path in its place -/
def RoseTree.modify (f : RoseTree α → RoseTree α) : List Nat → RoseTree α → RoseTree α
  | [], t => f t
  | i :: is, t => t.setChildren (t.children.modify i (modify f is))

def unfold (kids : β → List β) (label : β → α) : Nat → β → RoseTree α
  | 0, p => .leaf (label p)
  | n+1, p => .node (label p) ((kids p).map (unfold kids label n))

def follow (kids : β → List β) : List Nat → β → Option β
  | [], p => some p
  | i :: is, p => (kids p)[i]?.bind (follow kids is)

variable {kids kids' : β → List β} {label label' : β → α} {r p q c w : β} {n i : Nat} {is : List Nat}

/-! ## paths -/

theorem follow_cons : follow kids (i :: is) p = some w ↔
    ∃ c, (kids p)[i]? = some c ∧ follow kids is c = some w := Option.bind_eq_some_iff

theorem follow_at (h : follow kids is p = some w) : At kids p is.length w := by
  induction is generalizing p with
  | nil =>
    cases h
    exact .root
  | cons i is ih =>
    obtain ⟨c, hc, hw⟩ := follow_cons.mp h
    have hstep : At kids p (0 + 1) c := At.root.child (List.mem_of_getElem? hc)
    have hall := hstep.add (ih hw)
    rwa [show 0 + 1 + is.length = (i :: is).length from by rw [List.length_cons]; omega] at hall

theorem follow_reach (h : follow kids is p = some w) : Reach kids p w := (follow_at h).reach

/-- one step further -/
theorem follow_snoc (h : follow kids is p = some w) (i : Nat) :
    follow kids (is ++ [i]) p = (kids w)[i]? := by
  induction is generalizing p with
  | nil =>
    cases h
    show (kids w)[i]?.bind some = _
    exact Option.bind_fun_some _
  | cons j is ih =>
    obtain ⟨c, hc, hw⟩ := follow_cons.mp h
    show (kids p)[j]?.bind (follow kids (is ++ [i])) = _
    rw [hc]
    exact ih hw

/-- the last step back -/
theorem follow_back (h : follow kids is p = some w) (hne : is ≠ []) :
    ∃ q, follow kids is.dropLast p = some q ∧ w ∈ kids q := by
  induction is generalizing p with
  | nil => exact absurd rfl hne
  | cons i is ih =>
    obtain ⟨c, hc, hw⟩ := follow_cons.mp h
    cases is with
    | nil =>
      cases hw
      exact ⟨p, rfl, List.mem_of_getElem? hc⟩
    | cons j is =>
      obtain ⟨q, hq, hmem⟩ := ih hw (List.cons_ne_nil j is)
      exact ⟨q, follow_cons.mpr ⟨c, hc, hq⟩, hmem⟩

/-- **The way to a node stays when no list above it changes.** -/
theorem follow_congr (h : IsTree kids r) (hp : Reach kids r p) (hw : follow kids is p = some w)
    (hk : ∀ q, Reach kids r q → Reach kids q w → q ≠ w → kids' q = kids q) :
    follow kids' is p = some w := by
  induction is generalizing p with
  | nil => exact hw
  | cons i is ih =>
    obtain ⟨c, hc, hcw⟩ := follow_cons.mp hw
    have hmem := List.mem_of_getElem? hc
    have hne : p ≠ w := by
      rintro rfl
      exact h.not_below hp hmem (follow_reach hcw)
    refine follow_cons.mpr ⟨c, ?_, ih (hp.child hmem) hcw⟩
    rw [hk p hp (follow_reach hw) hne]
    exact hc

/-! ## unfolding -/

theorem unfold_label (n : Nat) (p : β) : (unfold kids label n p).label = label p := by
  cases n with
  | zero => rfl
  | succ n => rfl

theorem unfold_children (n : Nat) (p : β) :
    (unfold kids label (n + 1) p).children = (kids p).map (unfold kids label n) := rfl

theorem unfold_leaf (h : kids p = []) (n : Nat) : unfold kids label n p = .leaf (label p) := by
  cases n with
  | zero => rfl
  | succ n =>
    show RoseTree.node (label p) ((kids p).map _) = _
    rw [h]
    rfl

theorem unfold_congr (h : ∀ q, Reach kids p q → kids' q = kids q ∧ label' q = label q) (n : Nat) :
    unfold kids' label' n p = unfold kids label n p := by
  induction n generalizing p with
  | zero => exact congrArg RoseTree.leaf (h p .root).2
  | succ n ih =>
    show RoseTree.node (label' p) ((kids' p).map _) = RoseTree.node (label p) ((kids p).map _)
    rw [(h p .root).1, (h p .root).2]
    refine congrArg (RoseTree.node (label p)) (List.map_congr_left fun c hc => ih fun q hq => ?_)
    exact h q ((Reach.root.child hc).trans hq)

theorem unfold_at (h : follow kids is p = some w) (hn : is.length ≤ n) :
    (unfold kids label n p).at is = some (unfold kids label (n - is.length) w) := by
  induction is generalizing p n with
  | nil =>
    cases h
    rfl
  | cons i is ih =>
    obtain ⟨c, hc, hw⟩ := follow_cons.mp h
    obtain ⟨m, rfl⟩ := Nat.exists_eq_add_one_of_ne_zero (Nat.ne_zero_of_lt hn)
    rw [List.length_cons] at hn
    show ((kids p).map (unfold kids label m))[i]?.bind (fun t => t.at is) = _
    rw [List.getElem?_map, hc, List.length_cons, Nat.add_sub_add_right]
    exact ih hw (by omega)

/-- **Lists and labels that change at `w` and below it only: the unfolded tree changes at the path to
`w`.** -/
theorem unfold_modify (h : IsTree kids r) (hp : Reach kids r p) (hw : follow kids is p = some w)
    (hn : is.length ≤ n)
    (hout : ∀ q, Reach kids r q → ¬ Reach kids w q → kids' q = kids q ∧ label' q = label q)
    {f : RoseTree α → RoseTree α}
    (hf : unfold kids' label' (n - is.length) w = f (unfold kids label (n - is.length) w)) :
    unfold kids' label' n p = (unfold kids label n p).modify f is := by
  induction is generalizing p n with
  | nil =>
    cases hw
    exact hf
  | cons i is ih =>
    obtain ⟨c, hc, hcw⟩ := follow_cons.mp hw
    obtain ⟨m, rfl⟩ := Nat.exists_eq_add_one_of_ne_zero (Nat.ne_zero_of_lt hn)
    rw [List.length_cons, Nat.add_sub_add_right] at hf
    rw [List.length_cons] at hn
    have hmem := List.mem_of_getElem? hc
    have hbelow := follow_reach hcw
    obtain ⟨hkp, hlp⟩ := hout p hp fun hwp => h.not_below hp hmem (hbelow.trans hwp)
    show RoseTree.node (label' p) ((kids' p).map (unfold kids' label' m))
      = RoseTree.node (label p) (((kids p).map (unfold kids label m)).modify i (RoseTree.modify f is))
    rw [hkp, hlp]
    refine congrArg (RoseTree.node (label p)) (List.ext_getElem? fun j => ?_)
    by_cases hij : i = j
    · rw [← hij, List.getElem?_modify_eq, List.getElem?_map, List.getElem?_map, hc]
      exact congrArg some (ih (hp.child hmem) hcw (by omega) hf)
    · rw [List.getElem?_modify_ne _ _ hij, List.getElem?_map, List.getElem?_map]
      cases hd : (kids p)[j]? with
      | none => rfl
      | some d =>
        -- nothing below `d` is below `w`, as `c` is another child
        have hdmem := List.mem_of_getElem? hd
        have hne : c ≠ d := by
          rintro rfl
          obtain ⟨hi, _⟩ := List.getElem?_eq_some_iff.mp hc
          exact hij ((List.getElem?_inj hi (h.nodup p hp)).mp (hc.trans hd.symm))
        refine congrArg some (unfold_congr (fun q hq => hout q ((hp.child hdmem).trans hq) fun hwq => ?_) m)
        exact hne (h.sibling_unique hp hmem hdmem (hbelow.trans hwq) hq)

end

end Rose
