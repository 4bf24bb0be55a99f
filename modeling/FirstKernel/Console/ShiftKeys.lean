import FirstKernel.Console.Prompt
import Mathlib.Data.List.Induction

/-!
# The keyboard driver and its shift flag

`read_keyboard` keeps one flag for the two shift keys: either press sets it, either release clears
it.

* `readKeyboard`         one scancode;
* `lastDown_snoc`        a key after one more scancode;
* `shift_step`           the flag stays right unless one key is released while the other is held;
* `shift_follows_iff`    a whole sequence is decoded right exactly when that never happens.
-/

namespace FirstKernel
open ByteMem

def scancodeShiftLeft : Byte := 0x2A
def scancodeShiftRight : Byte := 0x36
def scancodeRelease : Byte := 0x80

/-- the statics of the driver -/
structure Keyboard where
  shiftPressed : Bool
  capsLockActive : Bool

/-- `event` is the local the caller gets: the fields not set here are whatever it held -/
def readKeyboard (k : Keyboard) (event : KeyboardEvent) (scancode : Byte) :
    KeyboardEvent × Keyboard :=
  let shiftPressed :=
    if scancode = 0x2A ∨ scancode = 0x36 then true
    else if scancode = 0x2A ||| 0x80 ∨ scancode = 0x36 ||| 0x80 then false
    else k.shiftPressed
  let capsLockActive := if scancode = 0x3A then !k.capsLockActive else k.capsLockActive
  ({ event with
      scancode := scancode, shift := shiftPressed, release := decide (scancode &&& 0x80 ≠ 0),
      enter := decide (scancode = 0x1C), backspace := decide (scancode = 0x0E),
      capsLock := capsLockActive },
    ⟨shiftPressed, capsLockActive⟩)

/-- the driver after the scancodes `xs`, each read with the local event of its call -/
def keyboardAfter (xs : List (KeyboardEvent × Byte)) : Keyboard :=
  xs.foldl (fun k x => (readKeyboard k x.1 x.2).2) ⟨false, false⟩

/-- the event of the scancode read after `xs` -/
def eventAfter (xs : List (KeyboardEvent × Byte)) (x : KeyboardEvent × Byte) : KeyboardEvent :=
  (readKeyboard (keyboardAfter xs) x.1 x.2).1

/-- of the press and release codes of `key` the last one seen is the press -/
def lastDown (key : Byte) (seen : List Byte) : Bool :=
  (seen.filter fun c => c = key ∨ c = key ||| scancodeRelease).getLast? = some key

/-- one of the two shift keys was last seen pressed -/
def shiftHeld (seen : List Byte) : Bool :=
  lastDown scancodeShiftLeft seen || lastDown scancodeShiftRight seen

/-- `c` does not release one shift key while the other one is held -/
structure ReleasesAlone (seen : List Byte) (c : Byte) : Prop where
  left : c = scancodeShiftLeft ||| scancodeRelease → lastDown scancodeShiftRight seen = false
  right : c = scancodeShiftRight ||| scancodeRelease → lastDown scancodeShiftLeft seen = false

instance (seen : List Byte) (c : Byte) : Decidable (ReleasesAlone seen c) :=
  decidable_of_iff ((c = scancodeShiftLeft ||| scancodeRelease → lastDown scancodeShiftRight seen = false)
    ∧ (c = scancodeShiftRight ||| scancodeRelease → lastDown scancodeShiftLeft seen = false))
    ⟨fun h => ⟨h.1, h.2⟩, fun h => ⟨h.left, h.right⟩⟩

section
variable {key c : Byte} {seen : List Byte}

/-- a press is no release -/
theorem releasesAlone_press (h : c < 128) : ReleasesAlone seen c := by
  refine ⟨fun e => ?_, fun e => ?_⟩
  · rw [e] at h
    exact absurd h (by decide)
  · rw [e] at h
    exact absurd h (by decide)

theorem lastDown_snoc (hk : key ||| scancodeRelease ≠ key) (c : Byte) (seen : List Byte) :
    lastDown key (seen ++ [c]) = if c = key then true
      else if c = key ||| scancodeRelease then false else lastDown key seen := by
  unfold lastDown
  rw [List.filter_append]
  by_cases h1 : c = key
  · rw [if_pos h1, List.filter_cons_of_pos (by simp [h1]), List.filter_nil, List.getLast?_append,
      h1]
    exact decide_eq_true rfl
  rw [if_neg h1]
  by_cases h2 : c = key ||| scancodeRelease
  · rw [if_pos h2, List.filter_cons_of_pos (by simp [h2]), List.filter_nil, List.getLast?_append,
      h2]
    exact decide_eq_false fun e => hk (Option.some.inj e)
  · rw [if_neg h2, List.filter_cons_of_neg (by simp [h1, h2]), List.filter_nil, List.append_nil]

theorem left_release : scancodeShiftLeft ||| scancodeRelease ≠ scancodeShiftLeft := by decide

theorem right_release : scancodeShiftRight ||| scancodeRelease ≠ scancodeShiftRight := by decide

/-- the shift keys after one more scancode -/
theorem shiftHeld_snoc (c : Byte) (seen : List Byte) : shiftHeld (seen ++ [c])
    = if c = 0x2A ∨ c = 0x36 then true
      else if c = 0xAA then lastDown scancodeShiftRight seen
      else if c = 0xB6 then lastDown scancodeShiftLeft seen
      else shiftHeld seen := by
  unfold shiftHeld
  rw [lastDown_snoc left_release, lastDown_snoc right_release]
  show ((if c = 0x2A then true else if c = 0xAA then false else _)
    || (if c = 0x36 then true else if c = 0xB6 then false else _)) = _
  by_cases h1 : c = 0x2A
  · subst h1
    rfl
  by_cases h2 : c = 0x36
  · subst h2
    simp
  by_cases h3 : c = 0xAA
  · subst h3
    simp
  by_cases h4 : c = 0xB6
  · subst h4
    simp
  · rw [if_neg h1, if_neg h3, if_neg h2, if_neg h4, if_neg (not_or.mpr ⟨h1, h2⟩), if_neg h3,
      if_neg h4]

end

/-! ## the flag -/

section
variable {k : Keyboard} {seen : List Byte}

/-- one scancode keeps the flag right -/
theorem shift_step (h : k.shiftPressed = shiftHeld seen) (event : KeyboardEvent) {c : Byte}
    (ha : ReleasesAlone seen c) :
    (readKeyboard k event c).2.shiftPressed = shiftHeld (seen ++ [c]) := by
  rw [shiftHeld_snoc]
  show (if c = 0x2A ∨ c = 0x36 then true else if c = 0xAA ∨ c = 0xB6 then false else k.shiftPressed)
    = _
  by_cases h1 : c = 0x2A ∨ c = 0x36
  · rw [if_pos h1, if_pos h1]
  rw [if_neg h1, if_neg h1]
  by_cases h2 : c = 0xAA
  · rw [if_pos (.inl h2), if_pos h2, ha.left h2]
  rw [if_neg h2]
  by_cases h3 : c = 0xB6
  · rw [if_pos (.inr h3), if_pos h3, ha.right h3]
  · rw [if_neg (not_or.mpr ⟨h2, h3⟩), if_neg h3, h]

/-- a key released while the other one is held clears the flag -/
theorem shift_lost (event : KeyboardEvent) {c : Byte} (ha : ¬ ReleasesAlone seen c) :
    (readKeyboard k event c).2.shiftPressed = false ∧ shiftHeld (seen ++ [c]) = true := by
  have hcase : c = 0xAA ∧ lastDown scancodeShiftRight seen = true ∨
      c = 0xB6 ∧ lastDown scancodeShiftLeft seen = true := by
    by_contra hno
    refine ha ⟨fun e => ?_, fun e => ?_⟩
    · exact Bool.eq_false_iff.mpr fun h => hno (.inl ⟨e, h⟩)
    · exact Bool.eq_false_iff.mpr fun h => hno (.inr ⟨e, h⟩)
  rcases hcase with ⟨rfl, h⟩ | ⟨rfl, h⟩
  · refine ⟨rfl, ?_⟩
    rw [shiftHeld_snoc, if_neg (by decide), if_pos rfl, h]
  · refine ⟨rfl, ?_⟩
    rw [shiftHeld_snoc, if_neg (by decide), if_neg (by decide), if_pos rfl, h]

theorem keyboardAfter_snoc (xs : List (KeyboardEvent × Byte)) (x : KeyboardEvent × Byte) :
    keyboardAfter (xs ++ [x]) = (readKeyboard (keyboardAfter xs) x.1 x.2).2 := by
  rw [keyboardAfter, List.foldl_append]
  rfl

/-- every release so far was alone: the flag is right -/
theorem shiftPressed_eq (xs : List (KeyboardEvent × Byte))
    (h : ∀ pre x post, xs = pre ++ x :: post → ReleasesAlone (pre.map Prod.snd) x.2) :
    (keyboardAfter xs).shiftPressed = shiftHeld (xs.map Prod.snd) := by
  induction xs using List.reverseRecOn with
  | nil => rfl
  | append_singleton xs x ih =>
    have hlast := h xs x [] rfl
    have hxs := ih fun pre y post e => h pre y (post ++ [x]) (by rw [e, List.append_assoc]; rfl)
    rw [keyboardAfter_snoc, shift_step hxs x.1 hlast, List.map_append]
    rfl

end

/-- **The shift flag of every event of a sequence is right exactly when no shift key is released
while the other one is held.** -/
theorem shift_follows_iff (xs : List (KeyboardEvent × Byte)) :
    (∀ pre x post, xs = pre ++ x :: post →
      (eventAfter pre x).shift = shiftHeld ((pre ++ [x]).map Prod.snd)) ↔
    ∀ pre x post, xs = pre ++ x :: post → ReleasesAlone (pre.map Prod.snd) x.2 := by
  have hflag : ∀ pre x, (eventAfter pre x).shift = (keyboardAfter (pre ++ [x])).shiftPressed := by
    intro pre x
    rw [keyboardAfter_snoc]
    rfl
  constructor
  · intro h pre x post e
    by_contra ha
    obtain ⟨hlost, hheld⟩ := shift_lost (k := keyboardAfter pre) x.1 ha
    have hx := h pre x post e
    rw [hflag, keyboardAfter_snoc, hlost, List.map_append] at hx
    exact Bool.noConfusion (hx.trans hheld)
  · intro h pre x post e
    rw [hflag]
    refine shiftPressed_eq _ fun pre' y post' e' => h pre' y (post' ++ post) ?_
    rw [e, ← List.singleton_append, ← List.append_assoc, e', List.append_assoc]
    rfl

/-- an event with no field set -/
def noEvent : KeyboardEvent := ⟨0, false, false, false, false, false, false, false, false⟩

/-- **Left pressed, right pressed, left released: the flag is gone while right is held.** -/
theorem shift_lost_on_release : ¬ ∀ (xs pre : List (KeyboardEvent × Byte)) (x : KeyboardEvent × Byte)
    (post : List (KeyboardEvent × Byte)), xs = pre ++ x :: post →
      (eventAfter pre x).shift = shiftHeld ((pre ++ [x]).map Prod.snd) := by
  intro hall
  have h := hall _ [(noEvent, 0x2A), (noEvent, 0x36)] (noEvent, 0xAA) [] rfl
  exact absurd h (by decide)

end FirstKernel
