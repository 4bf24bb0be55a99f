import FirstKernel.Session.TreeShell

/-!
# How much a session can make

A file takes 376 bytes of the heap and a directory 248, and none of it comes back.

* `worth`            what the memory that is left may still be made into;
* `call_pays`        a command on the volume pays for what it reports;
* `callback_called`  a key runs at most one command;
* `session_budget`   so over every session, whatever is removed in between.
-/

namespace FirstKernel
open ByteMem Cells Tiling Outcome Rose

def fileMade : String := "File '%s' created.\n"

def directoryMade : String := "Directory '%s' created.\n"

/-- how many of the calls have the format -/
def saying (format : String) (calls : List Printf) : Nat := calls.countP fun c => c.format = format

/-- the bytes of what was made -/
def spent (calls : List Printf) : Nat := 376 * saying fileMade calls + 248 * saying directoryMade calls

/-- the bytes left; at the very end there is no memory for the list of a directory, twice at most -/
def worth (left : Arena) : Nat := left.room 12 + min 280 (140 * (left.room 12 / 108))

section
variable {v v' : Volume} {left left' : Arena} {calls calls' : List Printf} {n : Nat} {timerTicks : Word}

theorem spent_append (calls calls' : List Printf) :
    spent (calls ++ calls') = spent calls + spent calls' := by
  unfold spent saying
  rw [List.countP_append, List.countP_append]
  omega

theorem spent_free (h : ∀ c ∈ calls, c.format ≠ fileMade ∧ c.format ≠ directoryMade) : spent calls = 0 := by
  have hnone : ∀ format, (∀ c ∈ calls, c.format ≠ format) → saying format calls = 0 := by
    intro format hf
    exact List.countP_eq_zero.mpr fun c hc => by simpa using hf c hc
  unfold spent
  rw [hnone _ fun c hc => (h c hc).1, hnone _ fun c hc => (h c hc).2]

theorem spent_one {format : String} {xs : List Arg} (h : format ≠ fileMade ∧ format ≠ directoryMade) :
    spent [⟨format, xs⟩] = 0 :=
  spent_free fun _ hc => by
    rw [List.mem_singleton.mp hc]
    exact h

/-! ## memory -/

theorem take_spent (v : Volume) (n : Nat) : spent (v.take n).2.1 = 0 := by
  unfold Volume.take
  split
  · exact spent_one (by decide)
  · exact spent_one (by decide)

theorem take_room (v : Volume) {n : Nat} :
    ((v.take n).1 = true → (v.take n).2.2.left.room 12 + (n + 12) ≤ v.left.room 12) ∧
    ((v.take n).1 = false → (v.take n).2.2 = v ∧ v.left.room 12 < n + 12) := by
  unfold Volume.take
  cases e : v.left.grab 12 16 n with
  | none => exact ⟨nofun, fun _ => ⟨rfl, Arena.grab_none (by decide) e⟩⟩
  | some p => exact ⟨fun _ => Arena.grab_room e, nofun⟩

theorem add_free (v : Volume) (x : Item) : Yields (v.add x) fun r => spent r.1 = 0 ∧ r.2.left = v.left := by
  unfold Volume.add
  refine .ite (fun _ => .pure ⟨spent_one (by decide), rfl⟩) fun _ => ?_
  exact .ite (fun _ => .error _) fun _ => .pure ⟨rfl, rfl⟩

/-! ## one command -/

/-- the command pays for what it reports -/
def Pays (v : Volume) (r : List Printf × Volume) : Prop := spent r.1 + worth r.2.left ≤ worth v.left

theorem Pays.free (h : spent calls = 0) (hl : v'.left = v.left) : Pays v (calls, v') := by
  unfold Pays
  rw [h, hl, Nat.zero_add]

theorem touch_pays (v : Volume) (name : List Byte) : Yields (v.touch name) (Pays v) := by
  unfold Volume.touch
  have hs1 := take_spent v 96
  obtain ⟨hgiven1, hno1⟩ := @take_room v 96
  rcases hv1 : v.take 96 with ⟨g1, out1, v1⟩
  rw [hv1] at hs1 hgiven1 hno1
  cases g1 with
  | false =>
    obtain ⟨hv, _⟩ := hno1 rfl
    exact .pure (Pays.free hs1 (congrArg Volume.left hv))
  | true =>
    have hs2 := take_spent v1 256
    obtain ⟨hgiven2, _⟩ := @take_room v1 256
    rcases hv2 : v1.take 256 with ⟨g2, out2, v2⟩
    rw [hv2] at hs2 hgiven2
    cases g2 with
    | false =>
      dsimp only
      rw [hv2]
      exact .error _
    | true =>
      dsimp only
      rw [hv2]
      refine (add_free v2 _).bind ?_
      rintro ⟨out3, v3⟩ ⟨hs3, hl3⟩
      refine .pure ?_
      have hmade : spent [⟨"File '%s' created.\n", [.str name]⟩] = 376 := rfl
      have h1 := hgiven1 rfl
      have h2 := hgiven2 rfl
      dsimp only at hs1 hs2 hs3 hl3 h1 h2
      unfold Pays worth
      dsimp only
      rw [spent_append, spent_append, spent_append, hs1, hs2, hs3, hl3, hmade]
      omega

theorem mkdir_pays (v : Volume) (name : List Byte) : Yields (v.mkdir name) (Pays v) := by
  unfold Volume.mkdir
  have hs1 := take_spent v 96
  obtain ⟨hgiven1, hno1⟩ := @take_room v 96
  rcases hv1 : v.take 96 with ⟨g1, out1, v1⟩
  rw [hv1] at hs1 hgiven1 hno1
  cases g1 with
  | false =>
    obtain ⟨hv, _⟩ := hno1 rfl
    exact .pure (Pays.free hs1 (congrArg Volume.left hv))
  | true =>
    have hs2 := take_spent v1 128
    obtain ⟨hgiven2, hno2⟩ := @take_room v1 128
    rcases hv2 : v1.take 128 with ⟨g2, out2, v2⟩
    rw [hv2] at hs2 hgiven2 hno2
    dsimp only
    rw [hv2]
    refine (add_free v2 _).bind ?_
    rintro ⟨out3, v3⟩ ⟨hs3, hl3⟩
    refine .pure ?_
    have hmade : spent [⟨"Directory '%s' created.\n", [.str name]⟩] = 248 := rfl
    have h1 := hgiven1 rfl
    dsimp only at hs1 hs2 hs3 hl3 h1 hgiven2 hno2
    unfold Pays worth
    dsimp only
    rw [spent_append, spent_append, spent_append, hs1, hs2, hs3, hl3, hmade]
    cases g2 with
    | true =>
      have h2 := hgiven2 rfl
      omega
    | false =>
      obtain ⟨hv, h2⟩ := hno2 rfl
      rw [hv]
      omega

theorem say_pays (v : Volume) {format : String} (h : format ≠ fileMade ∧ format ≠ directoryMade)
    (name : List Byte) : Pays v (v.say format name) := Pays.free (spent_one h) rfl

theorem cd_pays (v : Volume) (name : List Byte) : Pays v (v.cd name) := by
  unfold Volume.cd
  split
  · split
    · exact Pays.free (spent_one (by decide)) rfl
    · exact Pays.free rfl rfl
  · split
    · exact Pays.free rfl rfl
    · exact say_pays v (by decide) name

theorem remove_pays (v : Volume) (type : FSNodeType) {removed missing : String}
    (hr : removed ≠ fileMade ∧ removed ≠ directoryMade) (hm : missing ≠ fileMade ∧ missing ≠ directoryMade)
    (name : List Byte) : Pays v (v.remove type removed missing name) := by
  unfold Volume.remove
  split
  · split
    · exact Pays.free (spent_one hr) rfl
    · exact say_pays v hm name
  · exact say_pays v hm name

theorem ls_pays (v : Volume) : Pays v v.ls := by
  refine Pays.free (spent_free fun c hc => ?_) rfl
  rcases List.mem_append.mp hc with hc | hc
  · obtain ⟨t, _, rfl⟩ := List.mem_map.mp hc
    unfold Item.listing
    dsimp only
    split
    · decide
    · decide
  · rw [List.mem_singleton.mp hc]
    decide

theorem callWith_pays (v : Volume) (timerTicks : Word) (g : CommandFunc) (name : List Byte) :
    Yields (v.callWith timerTicks g name) (Pays v) := by
  cases g with
  | cmdHelp => exact .pure (Pays.free rfl rfl)
  | cmdLs => exact .pure (ls_pays v)
  | cmdCd => exact .pure (cd_pays v name)
  | cmdCat =>
    refine .pure ?_
    unfold Volume.cat
    split
    · exact say_pays v (by decide) _
    · exact say_pays v (by decide) name
  | cmdTouch => exact touch_pays v name
  | cmdMkdir => exact mkdir_pays v name
  | cmdRm => exact .pure (remove_pays v _ (by decide) (by decide) name)
  | cmdRmdir => exact .pure (remove_pays v _ (by decide) (by decide) name)
  | cmdUptime => exact .pure (Pays.free (spent_one (by decide)) rfl)

/-- **A command on the volume pays for what it reports.** -/
theorem call_pays (v : Volume) (timerTicks : Word) (g : CommandFunc) (name : Option (List Byte)) :
    Yields (v.call timerTicks g name) (Pays v) := by
  cases name with
  | some name => exact callWith_pays v timerTicks g name
  | none =>
    cases hu : g.usage with
    | none =>
      rw [Volume.call_plain hu]
      exact callWith_pays v timerTicks g []
    | some usage =>
      have hfree : usage ≠ fileMade ∧ usage ≠ directoryMade := by
        cases g with
        | cmdHelp | cmdLs | cmdUptime => cases hu
        | cmdCd | cmdCat | cmdTouch | cmdMkdir | cmdRm | cmdRmdir =>
          cases hu
          decide
      rw [Volume.call_bare hu]
      exact .ok (Pays.free (spent_one hfree) rfl)

/-! ## one key -/

variable {k : Kernel} {t : ShellSession} {readme : Word} {before : List Printf}

/-- `k'` is what a command leaves of `k` -/
def Called (timerTicks : Word) (k k' : Kernel) : Prop :=
  ∃ (g : CommandFunc) (args : Option CString), (∀ a, args = some a → a.val ≠ []) ∧
    g.call timerTicks k args = .ok k'

theorem processCommand_called (t : ShellSession) (timerTicks : Word) (line : CString) :
    Yields (t.processCommand timerTicks line) fun r => Called timerTicks t.kernel r.2.2 := by
  have hcalled : Yields (shellProcessCommand (CommandFunc.call timerTicks) t.strtok t.kernel line)
      fun r => Called timerTicks t.kernel r.2 := by
    by_cases hnamed : ∃ w ws f, words line = w :: ws ∧ Names w f
    · obtain ⟨w, ws, g, hw, hg⟩ := hnamed
      obtain ⟨s', args, ha, e⟩ := shellProcessCommand_found t.strtok t.kernel hw hg
      intro r er
      rw [e] at er
      obtain ⟨k', e1, rfl⟩ := map_eq_ok er
      refine ⟨g, args, fun a ea => ?_, e1⟩
      rw [ea] at ha
      have hmem : a.val ∈ words line := by
        rw [hw]
        exact List.mem_cons_of_mem _ (List.mem_of_head? ha.symm)
      exact word_ne_nil hmem
    · rw [shellProcessCommand_null _ _ _ fun w ws f hw hf => hnamed ⟨w, ws, f, hw, hf⟩]
      exact .error _
  unfold ShellSession.processCommand
  exact hcalled.bind fun r hr => (Yields.trivial _).bind fun _ _ => .pure hr

/-- a key runs at most one command -/
theorem callback_called (t : ShellSession) (x : Stroke) :
    Yields (keyboardCallback t x.timerTicks x.event x.scancode) fun t' =>
      t'.kernel = t.kernel ∨ Called x.timerTicks t.kernel t'.kernel := by
  unfold keyboardCallback
  dsimp only
  cases shellCommandLine t.shell (readKeyboard t.keyboard x.event x.scancode).1 with
  | none => exact (Yields.trivial _).bind fun _ _ => .pure (.inl rfl)
  | some line =>
    refine (processCommand_called t x.timerTicks (cString line)).bind fun r hr => ?_
    exact (Yields.trivial _).bind fun _ _ => .pure (.inr hr)

/-! ## runs -/

/-- what was made behind `before` and what the memory left is worth -/
def InBudget (readme : Word) (before : List Printf) (total : Nat) (k : Kernel) : Prop :=
  ∃ v calls, Depicts readme k v ∧ k.heap.console = before ++ calls ∧ spent calls + worth v.left ≤ total

theorem inBudget_step {total : Nat} (hwork : AtWork readme t) (h : InBudget readme before total t.kernel)
    (x : Stroke) : Yields (keyboardCallback t x.timerTicks x.event x.scancode) fun t' =>
      AtWork readme t' ∧ InBudget readme before total t'.kernel := by
  intro t' e
  refine ⟨(callback_iff hwork x).1 t' e, ?_⟩
  obtain ⟨v, calls, hv, hsay, hle⟩ := h
  rcases callback_called t x t' e with hk | ⟨g, args, ha, ecall⟩
  · rw [hk]
    exact ⟨v, calls, hv, hsay, hle⟩
  · obtain ⟨bs, N, born, hr, hstock⟩ := hwork.stock
    obtain ⟨⟨calls', v'⟩, ev, hsay', hv'⟩ := (call_depicts hv hstock hr ha g).1 _ ecall
    have hpays := call_pays v x.timerTicks g _ _ ev
    refine ⟨v', calls ++ calls', hv', ?_, ?_⟩
    · rw [hsay', hsay, List.append_assoc]
    · rw [spent_append]
      unfold Pays at hpays
      dsimp only at hpays
      omega

end

/-- **Every session starts, and for every list of keys from then on, the files and directories reported
as made, at 376 and 248 bytes each, take no more than the 8388112 bytes left at the start and 280: removing
entries makes no room for others.** -/
theorem session_budget (s : Machine) (term : Terminal) (out : List Byte) :
    ∃ t0, bootSession s term out = .ok t0 ∧ ∀ xs : List Stroke,
      Yields (xs.foldlM (fun t x => keyboardCallback t x.timerTicks x.event x.scancode) t0) fun t =>
        ∃ calls, t.kernel.heap.console = t0.kernel.heap.console ++ calls ∧
          376 * saying fileMade calls + 248 * saying directoryMade calls ≤ 8388112 + 280 := by
  obtain ⟨t0, _, e, _⟩ := @boot_atWork s term out
  obtain ⟨readme, hwork, h⟩ := boot_plays e
  have hstart : InBudget readme t0.kernel.heap.console (8388112 + 280) t0.kernel :=
    ⟨.start, [], h.volume, (List.append_nil _).symm, by decide⟩
  refine ⟨t0, e, fun xs => ?_⟩
  have hrun := Yields.foldlM (fun t x h => inBudget_step h.1 h.2 x) ⟨hwork, hstart⟩ xs
  refine hrun.mono fun t ⟨_, v, calls, _, hsay, hle⟩ => ⟨calls, hsay, ?_⟩
  have hspent : spent calls ≤ 8388112 + 280 := Nat.le_trans (Nat.le_add_right _ _) hle
  exact hspent

end FirstKernel
