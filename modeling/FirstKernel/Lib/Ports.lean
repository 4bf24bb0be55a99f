import Mathlib.Data.List.Basic

/-!
# Programs that talk to a device through ports

The device may answer a read with anything and change with every access.  A program is known by the log
of its accesses, the last one first.

* `Obeys R log`      each access is one that `R` allows behind the access before it;
* `readWhile`        a loop that reads a port and does something as long as a condition holds of the value;
* `readWhile_spec`   what such a loop leaves in the log;
* `readWhile_ends`   it ends if every round brings the device closer to its end.
-/

namespace Ports

structure Device (σ : Type) where
  read : BitVec 16 → σ → BitVec 8 × σ
  write : BitVec 16 → BitVec 8 → σ → σ

inductive Access where
  | inb (port : BitVec 16) (value : BitVec 8)
  | outb (port : BitVec 16) (value : BitVec 8)
deriving DecidableEq, Repr

/-- a device, and what was done to it -/
structure Bus (σ : Type) where
  state : σ
  log : List Access

section
variable {σ : Type}

def Device.inb (D : Device σ) (port : BitVec 16) (b : Bus σ) : BitVec 8 × Bus σ :=
  ((D.read port b.state).1, ⟨(D.read port b.state).2, .inb port (D.read port b.state).1 :: b.log⟩)

def Device.outb (D : Device σ) (port : BitVec 16) (value : BitVec 8) (b : Bus σ) : Bus σ :=
  ⟨D.write port value b.state, .outb port value :: b.log⟩

/-! ## logs -/

def Obeys (R : Option Access → Access → Prop) : List Access → Prop
  | [] => True
  | a :: log => R log.head? a ∧ Obeys R log

def Access.written : Access → Option (BitVec 16 × BitVec 8)
  | .inb _ _ => none
  | .outb port value => some (port, value)

def Access.readAt (port : BitVec 16) : Access → Option (BitVec 8)
  | .inb p value => if p = port then some value else none
  | .outb _ _ => none

/-- what was written, the first first -/
def writes (log : List Access) : List (BitVec 16 × BitVec 8) := (log.filterMap Access.written).reverse

/-- what a port gave, the first first -/
def readings (port : BitVec 16) (log : List Access) : List (BitVec 8) :=
  (log.filterMap (Access.readAt port)).reverse

theorem writes_outb (port : BitVec 16) (value : BitVec 8) (log : List Access) :
    writes (.outb port value :: log) = writes log ++ [(port, value)] := List.reverse_cons

theorem writes_append (newer older : List Access) : writes (newer ++ older) = writes older ++ writes newer := by
  unfold writes
  rw [List.filterMap_append, List.reverse_append]

theorem readings_append (port : BitVec 16) (newer older : List Access) :
    readings port (newer ++ older) = readings port older ++ readings port newer := by
  unfold readings
  rw [List.filterMap_append, List.reverse_append]

/-! ## a loop that reads -/

/-- `fuel` bounds the rounds -/
def readWhile {ε : Type} (D : Device σ) (port : BitVec 16) (cond : BitVec 8 → Bool) (body : Bus σ → Bus σ)
    (stuck : ε) : Nat → Bus σ → Except ε (Bus σ)
  | 0, _ => .error stuck
  | fuel+1, b =>
    if cond (D.inb port b).1 then readWhile D port cond body stuck fuel (body (D.inb port b).2)
    else .ok (D.inb port b).2

variable {ε : Type} {D : Device σ} {port : BitVec 16} {cond : BitVec 8 → Bool} {body : Bus σ → Bus σ}
  {stuck : ε} {fuel : Nat} {b b' : Bus σ} {R : Option Access → Access → Prop}

/-- the last access is the read that ended the loop, and the rounds have not written -/
theorem readWhile_spec (e : readWhile D port cond body stuck fuel b = .ok b')
    (hR : ∀ prev value, R prev (.inb port value))
    (hbody : ∀ b value, b.log.head? = some (.inb port value) → cond value = true → Obeys R b.log →
      Obeys R (body b).log ∧ writes (body b).log = writes b.log)
    (hb : Obeys R b.log) :
    Obeys R b'.log ∧ (∃ value, b'.log.head? = some (.inb port value) ∧ cond value = false) ∧
      writes b'.log = writes b.log := by
  induction fuel generalizing b with
  | zero => cases e
  | succ fuel ih =>
    rw [readWhile] at e
    have hone : Obeys R (D.inb port b).2.log := ⟨hR _ _, hb⟩
    split at e
    · next hc =>
      obtain ⟨h1, h2⟩ := hbody _ _ rfl hc hone
      obtain ⟨h3, h4, h5⟩ := ih e h1
      exact ⟨h3, h4, h5.trans h2⟩
    · next hc =>
      cases e
      exact ⟨hone, ⟨_, rfl, Bool.eq_false_iff.mpr hc⟩, rfl⟩

theorem readWhile_more (e : readWhile D port cond body stuck fuel b = .ok b') {more : Nat}
    (h : fuel ≤ more) : readWhile D port cond body stuck more b = .ok b' := by
  induction fuel generalizing b more with
  | zero => cases e
  | succ fuel ih =>
    cases more with
    | zero => exact absurd h (Nat.not_succ_le_zero fuel)
    | succ more =>
      rw [readWhile] at e ⊢
      split at e
      · next hc =>
        rw [if_pos hc]
        exact ih e (Nat.le_of_succ_le_succ h)
      · next hc =>
        rw [if_neg hc]
        exact e

/-- `rank` counts the rounds that are left -/
theorem readWhile_ends (rank : σ → Nat)
    (h : ∀ b, cond (D.inb port b).1 = true → rank (body (D.inb port b).2).state < rank b.state) (b : Bus σ) :
    ∃ fuel b', readWhile D port cond body stuck fuel b = .ok b' := by
  generalize hn : rank b.state = n
  induction n using Nat.strongRecOn generalizing b with
  | ind n ih =>
    by_cases hc : cond (D.inb port b).1 = true
    · have hlt : rank (body (D.inb port b).2).state < n := by
        rw [← hn]
        exact h b hc
      obtain ⟨fuel, b', e⟩ := ih _ hlt _ rfl
      refine ⟨fuel + 1, b', ?_⟩
      rw [readWhile, if_pos hc]
      exact e
    · refine ⟨1, (D.inb port b).2, ?_⟩
      rw [readWhile, if_neg hc]

end

end Ports
