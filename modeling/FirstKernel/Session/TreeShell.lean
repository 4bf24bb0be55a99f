import FirstKernel.Fs.DepictCommands
import FirstKernel.Session.Repl

/-!
# The shell on a tree of names

`TreeShell` is the read-eval-print loop with a `Volume` in the place of the kernel: a list of bytes that is
edited, a tree, and the text written so far.  It starts from one constant.

* `TreeShell.press`     what a key does;
* `call_depicts`        a command on the kernel and on the volume;
* `evalLine_depicts`    a command line;
* `boot_plays`          the start;
* `session_plays`       every list of keys.
-/

namespace FirstKernel
open ByteMem Cells Tiling Outcome Arbor Rose

structure TreeShell where
  keyboard : Keyboard
  line : List Byte
  volume : Volume
  /-- all that has been written so far -/
  written : List Byte

/-- the command of a line, with the second word: what it prints, and the volume behind it -/
def Volume.evalLine (timerTicks : Word) (v : Volume) (line : List Byte) : Res (List Byte × Volume) :=
  match words (cString line) with
  | [] => .error .nullDeref
  | t :: ts =>
    match commandNamed t with
    | none => .error .nullDeref
    | some f => do
      let (calls, v') ← v.call timerTicks f ts.head?
      let out ← render calls
      return (out, v')

def TreeShell.press (r : TreeShell) (x : Stroke) : Res TreeShell :=
  let ke := (readKeyboard r.keyboard x.event x.scancode).1
  let keyboard := (readKeyboard r.keyboard x.event x.scancode).2
  let edit := editLine keyboard.capsLockActive ke r.line
  match edit.1 with
  | none => return ⟨keyboard, edit.2, r.volume, r.written ++ echo r.line edit.2⟩
  | some line => do
    let (out, volume) ← r.volume.evalLine x.timerTicks line
    return ⟨keyboard, edit.2, volume, r.written ++ (str "\n" ++ out ++ prompt)⟩

/-- at the first prompt -/
def TreeShell.start : TreeShell :=
  ⟨⟨false, false⟩, [], .start, str "Welcome to nutshell!\n" ++ prompt⟩

/-- the session and the shell on the volume are at the same point, and the terminal is `start` with all
that was written -/
structure Plays (readme : Word) (start : Terminal) (t : ShellSession) (r : TreeShell) : Prop where
  keyboard : t.keyboard = r.keyboard
  line : t.shell.line = r.line
  volume : Depicts readme t.kernel r.volume
  term : t.shell.term = start.write r.written

section
variable {k k' : Kernel} {bs : List Block} {N : Set Word} {born : Word → Nat}
  {readme timerTicks f p q : Word} {v : Volume} {args : Option CString} {g : CommandFunc}
  {t : ShellSession} {r : TreeShell} {loop : Repl} {start : Terminal} {s s' : Machine}

/-! ## one command -/

theorem Tells.agree {x : Res Kernel} {a : List Printf × Volume}
    (h : ∃ k', x = .ok k' ∧ Tells readme k k' a) :
    Agree x (.ok a : Res (List Printf × Volume)) (Tells readme k) := by
  obtain ⟨k', rfl, ht⟩ := h
  exact .ok ht

theorem call_usage {usage : String} (hu : g.usage = some usage) (ha : noArgs args = true) :
    g.call timerTicks k args = .ok (k.enter.printf usage []) := by
  cases g with
  | cmdHelp | cmdLs | cmdUptime => cases hu
  | cmdTouch =>
    cases hu
    exact cmdTouch_usage ha
  | cmdMkdir =>
    cases hu
    exact cmdMkdir_usage ha
  | cmdCd =>
    cases hu
    show cmdCd k args = _
    unfold cmdCd
    simp only [ha, if_true]
    rfl
  | cmdCat =>
    cases hu
    show (cmdCat k args).map Prod.snd = _
    unfold cmdCat
    simp only [ha, if_true]
    rfl
  | cmdRm | cmdRmdir =>
    cases hu
    show removeNamed _ _ _ _ k args = _
    unfold removeNamed
    simp only [ha, if_true]
    rfl

/-- the call with an argument, or of a command that needs none -/
theorem callWith_depicts (h : Depicts readme k v) (hk : Stock readme k bs N born) (hr : readme ∈ N)
    (ha : noArgs args = false ∨ g.usage = none) :
    Agree (g.call timerTicks k args) (v.callWith timerTicks g (argName args)) (Tells readme k) := by
  have hneeds : ∀ usage, g.usage = some usage → noArgs args = false := fun usage hu =>
    ha.resolve_right (by rw [hu]; exact Option.some_ne_none usage)
  have hc := hk.toCensus
  cases g with
  | cmdHelp => exact Tells.agree (cmdHelp_depicts h args)
  | cmdLs => exact Tells.agree (cmdLs_depicts h hc args)
  | cmdCd => exact Tells.agree (cmdCd_depicts h hc (hneeds _ rfl))
  | cmdCat =>
    obtain ⟨r, e, ht⟩ := cmdCat_depicts h hk (hneeds _ rfl)
    refine Tells.agree ⟨r.2, ?_, ht⟩
    show (cmdCat k args).map Prod.snd = _
    rw [e]
    rfl
  | cmdTouch => exact cmdTouch_depicts h hc hr (hneeds _ rfl)
  | cmdMkdir => exact cmdMkdir_depicts h hc (hneeds _ rfl)
  | cmdRm => exact removeNamed_depicts h hk (hneeds _ rfl) _ _ _ _
  | cmdRmdir => exact removeNamed_depicts h hk (hneeds _ rfl) _ _ _ _
  | cmdUptime =>
    exact .ok (Tells.printf (r := ([], v)) ⟨(List.append_nil _).symm, h⟩ "Uptime: %u ms\n" _)

/-- **A command on the kernel and on the volume that it depicts.** -/
theorem call_depicts (h : Depicts readme k v) (hk : Stock readme k bs N born) (hr : readme ∈ N)
    (ha : ∀ a, args = some a → a.val ≠ []) (g : CommandFunc) :
    Agree (g.call timerTicks k args) (v.call timerTicks g (args.map Subtype.val)) (Tells readme k) := by
  cases args with
  | none =>
    show Agree _ (v.call timerTicks g none) _
    cases hu : g.usage with
    | none =>
      rw [Volume.call_plain hu]
      exact callWith_depicts h hk hr (.inr hu)
    | some usage =>
      rw [Volume.call_bare hu, call_usage hu rfl]
      exact .ok (h.tells (hk.toCensus.ne_zero hk.toCensus.root.1) _ _)
  | some a =>
    have hlen : noArgs (some a) = false :=
      decide_eq_false fun h0 => ha a rfl (List.length_eq_zero_iff.mp h0)
    exact callWith_depicts h hk hr (.inl hlen)

/-! ## one line -/

theorem evalLine_depicts (h : Depicts readme k v) (hk : Stock readme k bs N born) (hr : readme ∈ N)
    (line : List Byte) : Agree (evalLine timerTicks k line) (v.evalLine timerTicks line)
      fun a b => a.1 = b.1 ∧ Depicts readme a.2 b.2 := by
  unfold evalLine Volume.evalLine
  cases hw : words (cString line) with
  | nil => exact .error _ _
  | cons w ws =>
    dsimp only
    cases commandNamed w with
    | none => exact .error _ _
    | some g =>
      have hvals : (ws.head?.map cString).map Subtype.val = ws.head? := by
        cases ws with
        | nil => rfl
        | cons u us =>
          have hnul : (0 : Byte) ∉ u := word_no_nul (hw ▸ List.mem_cons_of_mem _ List.mem_cons_self)
          exact congrArg some (cString_val hnul)
      have hne : ∀ a, ws.head?.map cString = some a → a.val ≠ [] := by
        intro a ea
        have hu : ws.head? = some a.val := by
          rw [← hvals, ea]
          rfl
        have hmem : a.val ∈ words (cString line) := by
          rw [hw]
          exact List.mem_cons_of_mem _ (List.mem_of_head? hu)
        exact word_ne_nil hmem
      have hcall := @call_depicts k bs N born readme timerTicks v _ h hk hr hne g
      rw [hvals] at hcall
      refine hcall.bind ?_
      rintro k' ⟨calls, v'⟩ ⟨hout, hd⟩
      rw [hout, List.drop_left]
      cases render calls with
      | error e => exact .error _ _
      | ok out => exact .ok ⟨rfl, hd⟩

/-! ## one key -/

/-- the loop on the kernel and the loop on the volume -/
structure Sees (readme : Word) (loop : Repl) (r : TreeShell) : Prop where
  keyboard : loop.keyboard = r.keyboard
  line : loop.line = r.line
  volume : Depicts readme loop.kernel r.volume
  written : loop.written = r.written

theorem press_sees (h : Sees readme loop r) (hk : Stock readme loop.kernel bs N born) (hr : readme ∈ N)
    (x : Stroke) : Agree (loop.press x) (r.press x) (Sees readme) := by
  obtain ⟨keyboard, line, kernel, written⟩ := loop
  obtain ⟨_, _, volume, _⟩ := r
  obtain ⟨rfl, rfl, hv, rfl⟩ := h
  unfold Repl.press TreeShell.press
  dsimp only
  cases (editLine (readKeyboard keyboard x.event x.scancode).2.capsLockActive
      (readKeyboard keyboard x.event x.scancode).1 line).1 with
  | none => exact .ok ⟨rfl, rfl, hv, rfl⟩
  | some line' =>
    refine (evalLine_depicts hv hk hr line').bind ?_
    rintro ⟨out, kernel'⟩ ⟨_, volume'⟩ ⟨rfl, hv'⟩
    exact .ok ⟨rfl, rfl, hv', rfl⟩

/-- **One key.** -/
theorem press_plays (hwork : AtWork readme t) (h : Plays readme start t r) (x : Stroke) :
    Agree (keyboardCallback t x.timerTicks x.event x.scancode) (r.press x)
      fun t' r' => AtWork readme t' ∧ Plays readme start t' r' := by
  obtain ⟨bs, N, born, hr, hk⟩ := hwork.stock
  let loop : Repl := ⟨t.keyboard, t.shell.line, t.kernel, r.written⟩
  have hloop : Mirrors start t loop := ⟨rfl, rfl, rfl, h.term⟩
  have hsees : Sees readme loop r := ⟨h.keyboard, h.line, h.volume, rfl⟩
  refine ((press_agrees hwork hloop x).trans (press_sees hsees hk hr x)).mono ?_
  rintro t' r' ⟨loop', ⟨hwork', hm⟩, hs⟩
  refine ⟨hwork', hm.keyboard.trans hs.keyboard, hm.line.trans hs.line, ?_, ?_⟩
  · rw [hm.kernel]
    exact hs.volume
  · rw [hm.term, hs.written]

/-! ## the start -/

/-- `fs_init` makes a root with nothing in it -/
theorem fsInit_depicts (e : fsInit (Kernel.boot s) = .ok k) (readme : Word) :
    Depicts readme k ⟨.rest 0x008000F8 0x007FFEFC, .leaf ⟨str "/", .directory true⟩, []⟩ := by
  obtain ⟨hroot, ha, hcur, _⟩ := fsInit_root e
  have hnil : kids k k.root = [] := kids_eq_nil (by rw [hroot]; rfl)
  have honly : ∀ p, InTree k p → p = k.root := by
    intro p hp
    rcases hp.head_cases with rfl | ⟨c, hc, _⟩
    · rfl
    · rw [hnil] at hc
      cases hc
  refine ⟨?_, ⟨?_, ?_, ?_⟩, ?_, ?_, ?_, ?_⟩
  · -- the two blocks of the root
    let v : Volume := ⟨.rest 0x00800000 0x007FFFF4, .leaf ⟨[], .directory true⟩, []⟩
    have hv : ∃ bs, HeapBlocks (Kernel.boot s).heap bs ∧ Leaves bs v.left :=
      ⟨[initBlock], initHeap_blocks s, [], List.forall_mem_nil _, rfl⟩
    obtain ⟨f, h1, e1, hf, _, hl1⟩ := kmalloc_take hv (n := sizeofFSNode) (by decide)
    obtain ⟨q, h2, e2, _, _, bs2, hb2, hl2⟩ := kmalloc_take hl1 (n := sizeofChildren) (by decide)
    have hf0 : f ≠ 0 := of_decide_eq_true hf.symm
    have e3 : fsCreateNode (Kernel.boot s) (str "/") .directory
        = .ok (f, (Kernel.boot s).withDir h2 f q (str "/")) := fsCreateNode_dir e1 hf0 e2
    unfold fsInit at e
    rw [e3, bind_ok] at e
    simp only [if_neg hf0] at e
    cases e
    exact ⟨bs2, hb2.store rfl fun _ _ => rfl, hl2⟩
  · intro p hp
    rw [honly p hp, hnil]
    exact List.not_mem_nil
  · intro p hp
    rw [honly p hp, hnil]
    exact List.nodup_nil
  · intro p r c hp hr _ _
    rw [honly p hp, honly r hr]
  · intro p hp c hc
    rw [honly p hp, hnil] at hc
    cases hc
  · rw [hroot]
    rfl
  · rw [unfold_leaf hnil]
    unfold itemOf
    rw [hroot]
    show RoseTree.leaf (⟨str "/", .directory true⟩ : Item)
      = .leaf ⟨str "/", .directory ((k.node k.root).children ≠ 0)⟩
    rw [decide_eq_true ha]
  · show some k.root = some k.workDir
    unfold Kernel.workDir Kernel.enter
    rw [if_pos hcur]

/-- and `kernel_main` puts its file there -/
theorem createReadme_depicts {k0 : Kernel} (e0 : fsInit (Kernel.boot s) = .ok k0)
    (e : createReadme k0 = .ok k) (hj : JustBooted readme k) : Depicts readme k .start := by
  obtain ⟨hroot, ha, hcur, f, h1, q, h2, e1, hf, e2, hq⟩ := fsInit_root e0
  obtain ⟨bs, hk⟩ := stock_init e0 f
  have hc := hk.toCensus
  have h0 := fsInit_depicts e0 f
  obtain ⟨p, s1, e1', _, _, hl1⟩ := kmalloc_take h0.left (n := sizeofFSNode) (by decide)
  cases Except.ok.inj (e1.symm.trans e1')
  obtain ⟨p, s2, e2', _, _, bs2, hb2, hl2⟩ := kmalloc_take hl1 (n := 128) (by decide)
  cases Except.ok.inj (e2.symm.trans e2')
  obtain ⟨bs', hb, _, hlive, hout, hnew⟩ := hc.create e1 hf e2
  obtain ⟨j, hj', hle⟩ := hlive hq
  have hsize : 128 ≤ j := Nat.le_trans (by decide : 128 ≤ need 128) hle
  have hb' : HeapBlocks { h2 with mem := strncpy h2.mem q.toNat (str "Welcome to ContinuumOS!") 128 } bs' :=
    hb.store rfl fun x hx => by
      have := hx.2 q j hj'
      exact if_neg (by omega)
  let k1 : Kernel := (k0.withNode h2 f (fileNode (str "README") 128 q)).withMem
    (strncpy h2.mem q.toNat (str "Welcome to ContinuumOS!") 128)
  have hname : (0 : Byte) ∉ (str "README").take (sizeofName - 1) := by decide
  obtain ⟨hs, hc1⟩ := hnew k1 (fileNode (str "README") 128 q) hb' rfl rfl rfl (fun _ _ => rfl)
    rfl rfl hname (.inr ⟨rfl, rfl⟩)
  have hself : k1.node f = fileNode (str "README") 128 q := Function.update_self ..
  have hitem : itemOf f k1 f = ⟨str "README", .file (str "Welcome to ContinuumOS!")⟩ := by
    unfold itemOf
    rw [hself, if_pos rfl]
    rfl
  have hwork : k0.workDir = k0.root := by
    unfold Kernel.workDir Kernel.enter
    rw [if_pos hcur]
  have hoffer := h0.offer hc hs hc1 (workDir_congr rfl rfl) hout (by rw [hself]; rfl)
    (by rw [hb.unique hb2]; exact hl2)
  rw [hwork, hitem] at hoffer
  rw [createReadme_eq e1 hf e2, if_pos hq] at e
  obtain ⟨_, eb, ht⟩ := hoffer.1 k e
  cases eb
  -- the one entry of the root is the new node
  have hnode := hs.node _ hc.root.1
  have hdir : IsDir k1 k0.root := ⟨hc.ne_zero hc.root.1, by rw [hnode]; exact hc.root.2⟩
  have hroom : (k1.node k0.root).childCount < maxChildren := by
    rw [hnode, hroot]
    exact (by decide : 0 < maxChildren)
  have hne : f ≠ k0.root := fun efr => hout (efr ▸ hc.root.1)
  have ek := Except.ok.inj (e.symm.trans (fsAddChild_attach hdir hroom (by rw [hnode]; exact ha) hf))
  have hone := hj.kids
  rw [ek] at hone
  have hreadme : kids k1 k0.root ++ [f] = [readme] := (kids_attach_self hne).symm.trans hone
  obtain ⟨_, he⟩ := List.append_eq_singleton_iff.mp hreadme |>.resolve_right (fun h => by cases h.2)
  cases he
  exact ht.2

theorem boot_plays {term : Terminal} {out : List Byte} (e : bootSession s term out = .ok t) :
    ∃ readme, AtWork readme t ∧ Plays readme (Terminal.write term.initialize out) t .start := by
  obtain ⟨t', readme, e', hwork, hj⟩ := @boot_atWork s term out
  cases Except.ok.inj (e'.symm.trans e)
  have hm := boot_mirrors e
  obtain ⟨k0, e0, e⟩ := bind_eq_ok e
  obtain ⟨k, e1, e⟩ := bind_eq_ok e
  obtain ⟨shell, _, e⟩ := bind_eq_ok e
  cases e
  exact ⟨readme, hwork, hm.keyboard, hm.line, createReadme_depicts e0 e1 hj, hm.term⟩

/-! ## runs -/

theorem plays_run (hwork : AtWork readme t) (h : Plays readme start t r) (xs : List Stroke) :
    Agree (xs.foldlM (fun t x => keyboardCallback t x.timerTicks x.event x.scancode) t)
      (xs.foldlM TreeShell.press r) fun t' r' => AtWork readme t' ∧ Plays readme start t' r' :=
  Agree.foldlM (fun _ _ x h => press_plays h.1 h.2 x) ⟨hwork, h⟩ xs

end

/-- **Every session starts, and for every list of keys from then on the shell and the shell on a tree of
names both fail, or the terminal is what the latter has written, and its tree and its place in it are those
of the kernel.** -/
theorem session_plays (s : Machine) (term : Terminal) (out : List Byte) :
    ∃ t0 readme, bootSession s term out = .ok t0 ∧ ∀ xs : List Stroke,
      Agree (xs.foldlM (fun t x => keyboardCallback t x.timerTicks x.event x.scancode) t0)
        (xs.foldlM TreeShell.press .start) (Plays readme (Terminal.write term.initialize out)) := by
  obtain ⟨t0, _, e, _⟩ := @boot_atWork s term out
  obtain ⟨readme, hwork, h⟩ := boot_plays e
  exact ⟨t0, readme, e, fun xs => (plays_run hwork h xs).mono fun _ _ h' => h'.2⟩

end FirstKernel
