import FirstKernel.Fs.Commands
import FirstKernel.Fs.Lookup
import FirstKernel.Console.Strtok
import FirstKernel.Lib.Split

/-!
# `shell.cpp`: the command table

`shellCommands`, the table `commands`, has 256 slots, of which the first nine are filled; the others
hold null pointers.  `shellProcessCommand` takes two tokens of the line and searches the table; what
the functions behind it do is a parameter.

* `cmdHelp_eq`      `cmd_help` passes over the slots that are not filled;
* `dispatch_iff`    the search does not: a line that names no command ends in a null pointer.
-/

namespace FirstKernel
open ByteMem Tokens

def numCommands : Nat := 256

/-- the functions that the table points to -/
inductive CommandFunc where
  | cmdHelp
  | cmdLs
  | cmdCd
  | cmdCat
  | cmdTouch
  | cmdMkdir
  | cmdRm
  | cmdRmdir
  | cmdUptime
deriving DecidableEq, Repr

/-- a slot of the table, null pointers as `none` -/
structure ShellCommand where
  name : Option (List Byte)
  function : Option CommandFunc
  description : Option (List Byte)
deriving DecidableEq, Repr

/-- an entry of the initializer of `commands` -/
def entry (name : String) (function : CommandFunc) (description : String) : ShellCommand :=
  ⟨some (str name), some function, some (str description)⟩

def registered : List ShellCommand :=
  [entry "help" .cmdHelp "Show available commands",
    entry "ls" .cmdLs "List directory contents",
    entry "cd" .cmdCd "Change directory",
    entry "cat" .cmdCat "Display file contents",
    entry "touch" .cmdTouch "Create a new file",
    entry "mkdir" .cmdMkdir "Create a new directory",
    entry "rm" .cmdRm "Remove a file",
    entry "rmdir" .cmdRmdir "Remove a directory",
    entry "uptime" .cmdUptime "Show system uptime"]

/-- the slots that the initializer leaves out are zero -/
def shellCommands : List ShellCommand :=
  registered ++ List.replicate (numCommands - registered.length) ⟨none, none, none⟩

/-- a pointer that is read through -/
def derefStr : Option (List Byte) → Res (List Byte)
  | none => .error .nullDeref
  | some s => .ok s

/-- the loop of `cmd_help` over the slots left -/
def helpLoop : List ShellCommand → Kernel → Res Kernel
  | [], k => return k
  | c :: cs, k => do
    if c.function ≠ none then
      let name ← derefStr c.name
      let description ← derefStr c.description
      helpLoop cs (k.printf "  %s: %s\n" [.str name, .str description])
    else helpLoop cs k

def cmdHelp (k : Kernel) (_args : Option CString) : Res Kernel :=
  helpLoop shellCommands (k.printf "Available commands:\n" [])

/-- the loop of `shell_process_command` over the slots left -/
def commandLoop (call : CommandFunc → Kernel → Option CString → Res Kernel)
    (command : Option (List Byte)) (args : Option CString) (k : Kernel) : List ShellCommand → Res Kernel
  | [] => do
    let command ← derefStr command
    return k.printf "Command not found: %s\n" [.str command]
  | c :: cs => do
    let str1 ← derefStr command
    let str2 ← derefStr c.name
    if strcmp str1 str2 = 0 then
      match c.function with
      | none => .error .nullDeref
      | some f => call f k args
    else commandLoop call command args k cs

/-- the string at an index, for a call -/
def argAt (text : List Byte) (i : Nat) : CString := ⟨stringAt text i, stringAt_no_nul text i⟩

def shellProcessCommand (call : CommandFunc → Kernel → Option CString → Res Kernel) (s : Strtok)
    (k : Kernel) (cmd : CString) : Res (Strtok × Kernel) := do
  let (command, s) := strtok s (some cmd.val) (str " ")
  let (args, s) := strtok s none (str " ")
  let k ← commandLoop call (command.map (stringAt s.text)) (args.map (argAt s.text)) k shellCommands
  return (s, k)

/-! ## what dispatch is for -/

/-- the words of a line -/
def words (line : CString) : List (List Byte) := tokens (· == chr ' ') line.val

/-- `t` is the name of the command `f` -/
def Names (t : List Byte) (f : CommandFunc) : Prop :=
  ∃ c ∈ registered, c.name = some t ∧ c.function = some f

/-- the command that the first word names is called once, with the second word; a first word that names
none is reported, and a blank line calls nothing -/
structure Dispatches (s : Strtok) (k : Kernel) (line : CString) : Prop where
  found : ∀ t ts f, words line = t :: ts → Names t f →
    ∃ s' args, args.map Subtype.val = ts.head? ∧
      ∀ call, shellProcessCommand call s k line = (call f k args).map fun k' => (s', k')
  missing : ∀ t ts, words line = t :: ts → (∀ f, ¬ Names t f) →
    ∃ s', ∀ call, shellProcessCommand call s k line
      = .ok (s', k.printf "Command not found: %s\n" [.str t])
  blank : words line = [] → ∃ s' k', ∀ call, shellProcessCommand call s k line = .ok (s', k')

section
variable {call : CommandFunc → Kernel → Option CString → Res Kernel} {k : Kernel} {line : CString}
  {t : List Byte} {args : Option CString} {cs rest : List ShellCommand}

/-! ## the table -/

/-- a slot with a name and a function -/
def ShellCommand.Filled (c : ShellCommand) : Prop :=
  ∃ n f d, c = ⟨some n, some f, some d⟩ ∧ (0 : Byte) ∉ n

theorem registered_filled : ∀ c ∈ registered, c.Filled := by
  unfold registered
  simp only [List.forall_mem_cons]
  refine ⟨?_, ?_, ?_, ?_, ?_, ?_, ?_, ?_, ?_, List.forall_mem_nil _⟩
  all_goals exact ⟨_, _, _, rfl, by decide⟩

theorem registered_nodup : (registered.map (·.name)).Nodup := by decide

theorem names_unique {f g : CommandFunc} (hf : Names t f) (hg : Names t g) : f = g := by
  obtain ⟨c, hc, hn, hf⟩ := hf
  obtain ⟨d, hd, hn', hg⟩ := hg
  have e : c = d := List.inj_on_of_nodup_map registered_nodup hc hd (hn.trans hn'.symm)
  rw [e, hg] at hf
  exact (Option.some.inj hf).symm

theorem shellCommands_eq : ∃ rest, shellCommands = registered ++ ⟨none, none, none⟩ :: rest := ⟨_, rfl⟩

/-- the line that `cmd_help` prints for a command -/
def helpLine (k : Kernel) (c : ShellCommand) : Kernel :=
  k.printf "  %s: %s\n" [.str (c.name.getD []), .str (c.description.getD [])]

theorem helpLoop_eq (h : ∀ c ∈ cs, c.Filled) (n : Nat) (k : Kernel) :
    helpLoop (cs ++ List.replicate n ⟨none, none, none⟩) k = .ok (cs.foldl helpLine k) := by
  induction cs generalizing k with
  | nil =>
    induction n with
    | zero => rfl
    | succ n ih => exact ih
  | cons c cs ih =>
    obtain ⟨⟨n, f, d, rfl, _⟩, hcs⟩ := List.forall_mem_cons.mp h
    exact ih hcs _

/-- **`cmd_help` prints a line for each command and none for the slots that are not filled.** -/
theorem cmdHelp_eq (k : Kernel) (args : Option CString) :
    cmdHelp k args = .ok (registered.foldl helpLine (k.printf "Available commands:\n" [])) :=
  helpLoop_eq registered_filled _ _

/-! ## the search -/

theorem commandLoop_cons {f : CommandFunc} {n d : List Byte} (ht : (0 : Byte) ∉ t)
    (hn : (0 : Byte) ∉ n) :
    commandLoop call (some t) args k (⟨some n, some f, some d⟩ :: cs)
      = if t = n then call f k args else commandLoop call (some t) args k cs := by
  show (if strcmp t n = 0 then _ else _) = _
  by_cases e : t = n
  · rw [if_pos e, if_pos ((strcmp_eq_zero ht hn).mpr e)]
  · rw [if_neg e, if_neg fun h => e ((strcmp_eq_zero ht hn).mp h)]

/-- the search stops at the first slot with the name -/
theorem commandLoop_found {f : CommandFunc} (ht : (0 : Byte) ∉ t) (h : ∀ c ∈ cs, c.Filled)
    (hone : ∀ c ∈ cs, c.name = some t → c.function = some f) (hex : ∃ c ∈ cs, c.name = some t) :
    commandLoop call (some t) args k (cs ++ rest) = call f k args := by
  induction cs with
  | nil =>
    obtain ⟨c, hc, _⟩ := hex
    cases hc
  | cons c cs ih =>
    obtain ⟨⟨n, g, d, rfl, hn⟩, hcs⟩ := List.forall_mem_cons.mp h
    obtain ⟨hg, hone⟩ := List.forall_mem_cons.mp hone
    rw [List.cons_append, commandLoop_cons ht hn]
    by_cases e : t = n
    · rw [if_pos e]
      have hgf : g = f := Option.some.inj (hg (by rw [e]))
      rw [hgf]
    · rw [if_neg e]
      obtain ⟨c, hc, hct⟩ := hex
      rcases List.mem_cons.mp hc with rfl | hc
      · exact absurd (Option.some.inj hct).symm e
      · exact ih hcs hone ⟨c, hc, hct⟩

/-- it passes over the slots with another name -/
theorem commandLoop_missing (ht : (0 : Byte) ∉ t) (h : ∀ c ∈ cs, c.Filled)
    (hno : ∀ c ∈ cs, c.name ≠ some t) :
    commandLoop call (some t) args k (cs ++ rest) = commandLoop call (some t) args k rest := by
  induction cs with
  | nil => rfl
  | cons c cs ih =>
    obtain ⟨⟨n, g, d, rfl, hn⟩, hcs⟩ := List.forall_mem_cons.mp h
    obtain ⟨hname, hno⟩ := List.forall_mem_cons.mp hno
    have e : t ≠ n := fun e => hname (by rw [e])
    rw [List.cons_append, commandLoop_cons ht hn, if_neg e, ih hcs hno]

/-! ## the whole call -/

theorem isDelim_space : isDelim (str " ") = fun c => c == chr ' ' := by
  funext c
  rw [Bool.eq_iff_iff, isDelim_iff (by decide), beq_iff_eq]
  exact List.mem_singleton

theorem shellProcessCommand_eq (s : Strtok) (k : Kernel) (line : CString) :
    ∃ s' args, args.map Subtype.val = (words line).tail.head? ∧
      ∀ call, shellProcessCommand call s k line
        = (commandLoop call (words line).head? args k shellCommands).map fun k' => (s', k') := by
  obtain ⟨a, s1, b, s2, e1, e2, ha, hb⟩ :
      ∃ a s1 b s2, strtok s (some line.val) (str " ") = (a, s1) ∧ _ :=
    strtok_two s line.property
  rw [isDelim_space] at ha hb
  refine ⟨s2, b.map (argAt s2.text), ?_, fun call => ?_⟩
  · rw [Option.map_map]
    exact hb
  · unfold shellProcessCommand
    rw [e1]
    simp only [e2, ha]
    unfold words
    cases commandLoop call (tokens (· == chr ' ') line.val).head? (b.map (argAt s2.text)) k
      shellCommands with
    | error e => rfl
    | ok k' => rfl

theorem word_no_nul (h : t ∈ words line) : (0 : Byte) ∉ t := by
  have hmem : t ∈ line.val.splitOn (chr ' ') := List.mem_of_mem_filter h
  exact fun hz => line.property ((Split.sublist_of_mem_splitOn hmem).subset hz)

theorem shellProcessCommand_found (s : Strtok) (k : Kernel) {ts : List (List Byte)} {f : CommandFunc}
    (hw : words line = t :: ts) (hf : Names t f) : ∃ s' args, args.map Subtype.val = ts.head? ∧
      ∀ call, shellProcessCommand call s k line = (call f k args).map fun k' => (s', k') := by
  obtain ⟨s', args, hargs, e⟩ := shellProcessCommand_eq s k line
  have ht : (0 : Byte) ∉ t := word_no_nul (hw ▸ List.mem_cons_self)
  rw [hw] at hargs e
  refine ⟨s', args, hargs, fun call => ?_⟩
  have hone : ∀ c ∈ registered, c.name = some t → c.function = some f := by
    intro c hc hn
    obtain ⟨n, g, d, rfl, _⟩ := registered_filled c hc
    rw [names_unique hf ⟨_, hc, hn, rfl⟩]
  obtain ⟨c, hc, hn, _⟩ := hf
  obtain ⟨rest, hcs⟩ := shellCommands_eq
  rw [e call, hcs]
  exact congrArg _ (commandLoop_found ht registered_filled hone ⟨c, hc, hn⟩)

/-- without a command the search reaches a slot without a name -/
theorem shellProcessCommand_null (call : CommandFunc → Kernel → Option CString → Res Kernel)
    (s : Strtok) (k : Kernel) (h : ∀ t ts f, words line = t :: ts → ¬ Names t f) :
    shellProcessCommand call s k line = .error .nullDeref := by
  obtain ⟨s', args, _, e⟩ := shellProcessCommand_eq s k line
  obtain ⟨rest, hcs⟩ := shellCommands_eq
  rw [e call]
  cases hw : words line with
  | nil => rfl
  | cons t ts =>
    have ht : (0 : Byte) ∉ t := word_no_nul (hw ▸ List.mem_cons_self)
    have hno : ∀ c ∈ registered, c.name ≠ some t := by
      intro c hc hn
      obtain ⟨n, f, d, rfl, _⟩ := registered_filled c hc
      exact h t ts f hw ⟨_, hc, hn, rfl⟩
    rw [hcs]
    show (commandLoop call (some t) args k (registered ++ _)).map _ = _
    rw [commandLoop_missing ht registered_filled hno]
    rfl

theorem dispatches_iff (s : Strtok) (k : Kernel) (line : CString) :
    Dispatches s k line ↔ ∃ t ts f, words line = t :: ts ∧ Names t f := by
  constructor
  · intro h
    by_contra hno
    have hnull := shellProcessCommand_null (fun _ k _ => .ok k) s k fun t ts f hw hf =>
      hno ⟨t, ts, f, hw, hf⟩
    cases hw : words line with
    | nil =>
      obtain ⟨s', k', e⟩ := h.blank hw
      rw [e] at hnull
      cases hnull
    | cons t ts =>
      obtain ⟨s', e⟩ := h.missing t ts hw fun f hf => hno ⟨t, ts, f, hw, hf⟩
      rw [e] at hnull
      cases hnull
  · rintro ⟨t, ts, f, hw, hf⟩
    refine ⟨fun t' ts' f' hw' hf' => shellProcessCommand_found s k hw' hf', fun t' ts' hw' hno => ?_,
      fun hw' => ?_⟩
    · rw [hw] at hw'
      cases hw'
      exact absurd hf (hno f)
    · rw [hw] at hw'
      cases hw'

/-- **Dispatch does what it is for exactly on the lines whose first word names a command; every other
line ends in a null pointer.** -/
theorem dispatch_iff (s : Strtok) (k : Kernel) (line : CString) :
    (Dispatches s k line ↔ ∃ t ts f, words line = t :: ts ∧ Names t f) ∧
    ((∀ t ts f, words line = t :: ts → ¬ Names t f) →
      ∀ call, shellProcessCommand call s k line = .error .nullDeref) :=
  ⟨dispatches_iff s k line, fun h call => shellProcessCommand_null call s k h⟩

end

/-- an unknown word and the empty line end in a null pointer, whatever the state and the commands -/
theorem unknown_word_faults (s : Strtok) (k : Kernel)
    (call : CommandFunc → Kernel → Option CString → Res Kernel) :
    shellProcessCommand call s k ⟨str "foo", by decide⟩ = .error .nullDeref ∧
      shellProcessCommand call s k ⟨[], by decide⟩ = .error .nullDeref := by
  constructor
  · refine shellProcessCommand_null call s k fun t ts f hw hf => ?_
    have e : t = str "foo" := (List.cons.inj hw).1.symm
    obtain ⟨c, hc, hn, _⟩ := hf
    have hno : ∀ c ∈ registered, c.name ≠ some (str "foo") := by decide
    exact hno c hc (e ▸ hn)
  · exact shellProcessCommand_null call s k nofun

theorem unknown_word_not_dispatched : ∃ s k, ¬ Dispatches s k ⟨str "foo", by decide⟩ ∧
    ¬ Dispatches s k ⟨[], by decide⟩ := by
  refine ⟨⟨[], none⟩, Kernel.boot bootMachine, fun h => ?_, fun h => ?_⟩
  · obtain ⟨t, ts, f, hw, hf⟩ := (dispatches_iff _ _ _).mp h
    have hnull := (unknown_word_faults ⟨[], none⟩ (Kernel.boot bootMachine) fun _ k _ => .ok k).1
    obtain ⟨s', args, _, e⟩ := h.found t ts f hw hf
    rw [e] at hnull
    cases hnull
  · obtain ⟨t, ts, f, hw, _⟩ := (dispatches_iff _ _ _).mp h
    cases hw

end FirstKernel
