import FirstKernel.Fs.FileRun
import FirstKernel.Console.Stdio
import Mathlib.Data.List.TakeWhile

/-!
# `cmd_cat` and the bytes of a file

`cmd_cat` hands `file->data` to `printf("%s\n", …)`, which stops at the first NUL and never looks at
`file->size`.

* `writestring_nul`, `writestring_stops`   what the `%s` loop reads, and when it ends;
* `catsExactly_iff`                         one call, in any state;
* `cats_exactly_iff`                        the same over every run that makes and writes files.
-/

namespace FirstKernel
open ByteMem Cells Tiling

/-- the `n` bytes from `p` on, on addresses of 32 bits -/
def bytesFrom (m : Mem) (p : Word) (n : Nat) : List Byte :=
  (List.range n).map fun i => m (p + BitVec.ofNat 32 i).toNat

/-- the bytes of a file: `size` of them behind `data` -/
def fileBytes (k : Kernel) (f : Word) : List Byte :=
  bytesFrom k.heap.mem (k.node f).data (k.node f).size.toNat

/-- `while (*str) putchar(*str++);`: the characters sent and the addresses read -/
def writestring (m : Mem) : Nat → Word → Res (List Byte × List Word)
  | 0, _ => .error .noFuel
  | fuel+1, str =>
    if m str.toNat = 0 then .ok ([], [str])
    else do
      let (out, reads) ← writestring m fuel (str + 1)
      return (m str.toNat :: out, str :: reads)

/-- one round for every address -/
def writestringBound : Nat := 2^32

/-- `cmd_cat`: the addresses read through `file->data`, and the state after the call -/
def cmdCat (k : Kernel) (args : Option CString) : Res (List Word × Kernel) := do
  let k := k.enter
  if noArgs args then return ([], k.printf "Usage: cat <file>\n" [])
  let file ← fsFindChild k k.currentDir (args.elim [] Subtype.val)
  if file ≠ 0 ∧ (k.node file).type = .file then
    deref (k.node file).data
    let (out, reads) ← writestring k.heap.mem writestringBound (k.node file).data
    return (reads, k.printf "%s\n" [.str out])
  else return ([], k.printf "cat: No such file '%s'\n" (argText args))

/-- the characters of a `printf` call -/
def Printf.text (call : Printf) : Res (List Byte) := FirstKernel.printf (str call.format) call.args

/-- the call prints the bytes of `f` up to the first NUL or up to its size, and a newline, and reads
no byte of it from index `size` on -/
def CatsExactly (k : Kernel) (args : Option CString) (f : Word) : Prop :=
  ∃ reads k' call, cmdCat k args = .ok (reads, k') ∧
    k'.heap.console = k.heap.console ++ [call] ∧
    call.text = .ok ((fileBytes k f).takeWhile (· ≠ 0) ++ [chr '\n']) ∧
    ∀ x ∈ reads, ∃ i, i < (k.node f).size.toNat ∧ x = (k.node f).data + BitVec.ofNat 32 i

/-! ## the loop of `%s` -/

section
variable {m : Mem} {p : Word} {n fuel : Nat}

theorem bytesFrom_succ (m : Mem) (p : Word) (n : Nat) :
    bytesFrom m p (n + 1) = m p.toNat :: bytesFrom m (p + 1) n := by
  have hp : p + BitVec.ofNat 32 0 = p := by simp
  have hs : ∀ i, p + BitVec.ofNat 32 (i + 1) = p + 1 + BitVec.ofNat 32 i := by
    intro i
    bv_omega
  rw [bytesFrom, List.range_succ_eq_map, List.map_cons, List.map_map, hp]
  show _ = _ :: (List.range n).map _
  congr 1
  apply List.map_congr_left
  intro i _
  show m (p + BitVec.ofNat 32 (i + 1)).toNat = _
  rw [hs]

/-- the file bytes are the contents when the buffer ends within the address space -/
theorem fileBytes_eq_contents {k : Kernel} {f : Word}
    (h : (k.node f).data.toNat + (k.node f).size.toNat ≤ 2^32) : fileBytes k f = contents k f := by
  unfold fileBytes contents bytesFrom loadN
  apply List.map_congr_left
  intro i hi
  have hi := List.mem_range.mp hi
  have e : ((k.node f).data + BitVec.ofNat 32 i).toNat = (k.node f).data.toNat + i := by
    rw [BitVec.toNat_add, BitVec.toNat_ofNat]
    omega
  rw [e]

/-- with a NUL among the `n` bytes the loop ends inside them -/
theorem writestring_stops (h0 : 0 ∈ bytesFrom m p n) (hf : n ≤ fuel) :
    ∃ reads, writestring m fuel p = .ok ((bytesFrom m p n).takeWhile (· ≠ 0), reads) ∧
      ∀ x ∈ reads, ∃ i, i < n ∧ x = p + BitVec.ofNat 32 i := by
  induction n generalizing p fuel with
  | zero => cases h0
  | succ n ih =>
    obtain ⟨fuel, rfl⟩ := Nat.exists_eq_add_one_of_ne_zero (Nat.ne_zero_of_lt hf)
    have hhere : p = p + BitVec.ofNat 32 0 := by simp
    rw [bytesFrom_succ] at h0 ⊢
    rw [writestring]
    by_cases hp : m p.toNat = 0
    · rw [if_pos hp, hp, List.takeWhile_cons_of_neg (by simp)]
      refine ⟨[p], rfl, fun x hx => ⟨0, Nat.succ_pos n, ?_⟩⟩
      rw [List.mem_singleton.mp hx]
      exact hhere
    · obtain ⟨reads, e, hr⟩ := ih ((List.mem_cons.mp h0).resolve_left (Ne.symm hp))
        (Nat.le_of_succ_le_succ hf)
      rw [if_neg hp, e, bind_ok, List.takeWhile_cons_of_pos (by simpa using hp)]
      refine ⟨p :: reads, rfl, fun x hx => ?_⟩
      rcases List.mem_cons.mp hx with rfl | hx
      · exact ⟨0, Nat.succ_pos n, hhere⟩
      · obtain ⟨i, hi, rfl⟩ := hr x hx
        exact ⟨i + 1, Nat.succ_lt_succ hi, by bv_omega⟩

/-- a loop that ends has read a NUL -/
theorem writestring_nul {out : List Byte} {reads : List Word}
    (e : writestring m fuel p = .ok (out, reads)) : ∃ x ∈ reads, m x.toNat = 0 := by
  induction fuel generalizing p out reads with
  | zero => cases e
  | succ fuel ih =>
    rw [writestring] at e
    by_cases hp : m p.toNat = 0
    · rw [if_pos hp] at e
      cases e
      exact ⟨p, List.mem_singleton_self p, hp⟩
    · rw [if_neg hp] at e
      obtain ⟨⟨out', reads'⟩, e1, e2⟩ := bind_eq_ok e
      cases e2
      obtain ⟨x, hx, h0⟩ := ih e1
      exact ⟨x, List.mem_cons_of_mem _ hx, h0⟩

end

theorem printf_line (s : List Byte) :
    printf (str "%s\n") [.str s] = .ok (s.takeWhile (· ≠ 0) ++ [chr '\n']) := by
  have hd : directive (chr 's') [.str s] = .ok (s.takeWhile (· ≠ 0), []) := by
    unfold directive
    rw [if_neg (by decide), if_neg (by decide), if_pos rfl]
    rfl
  show printf (chr '%' :: chr 's' :: [chr '\n']) [.str s] = _
  rw [printf_directive, hd]
  rfl

/-! ## one call -/

section
variable {k : Kernel} {args : Option CString} {f : Word}

theorem cmdCat_file (ha : noArgs args = false)
    (hn : fsFindChild k.enter k.enter.currentDir (argName args) = .ok f) (hf : f ≠ 0)
    (ht : (k.node f).type = .file) (hd : (k.node f).data ≠ 0) :
    cmdCat k args = (writestring k.heap.mem writestringBound (k.node f).data).map fun r =>
      (r.2, k.enter.printf "%s\n" [.str r.1]) := by
  unfold argName at hn
  have hguard : f ≠ 0 ∧ (k.enter.node f).type = .file := ⟨hf, by rw [enter_node]; exact ht⟩
  unfold cmdCat
  simp only [ha, Bool.false_eq_true, if_false, hn, bind_ok, if_pos hguard]
  rw [enter_node, enter_heap, deref_ok hd, bind_ok]
  cases writestring k.heap.mem writestringBound (k.node f).data with
  | error e => rfl
  | ok r => rfl

/-- **One call prints the file and nothing more exactly when one of its bytes is NUL.** -/
theorem catsExactly_iff (ha : noArgs args = false)
    (hn : fsFindChild k.enter k.enter.currentDir (argName args) = .ok f) (hf : f ≠ 0)
    (ht : (k.node f).type = .file) (hd : (k.node f).data ≠ 0) :
    CatsExactly k args f ↔ 0 ∈ fileBytes k f := by
  have e := cmdCat_file ha hn hf ht hd
  constructor
  · rintro ⟨reads, k', call, e', _, _, hr⟩
    rw [e] at e'
    obtain ⟨r, e1, e2⟩ := map_eq_ok e'
    obtain ⟨x, hx, h0⟩ := writestring_nul e1
    obtain ⟨rfl, _⟩ := Prod.mk.inj e2
    obtain ⟨i, hi, rfl⟩ := hr x hx
    exact List.mem_map.mpr ⟨i, List.mem_range.mpr hi, h0⟩
  · intro h0
    have hsize : (k.node f).size.toNat ≤ writestringBound := Nat.le_of_lt (k.node f).size.isLt
    obtain ⟨reads, e1, hr⟩ := writestring_stops h0 hsize
    rw [e1] at e
    refine ⟨reads, _, ⟨"%s\n", [.str ((fileBytes k f).takeWhile (· ≠ 0))]⟩, e, ?_, ?_, hr⟩
    · exact congrArg (fun h : Machine => h.console ++ _) (enter_heap k)
    · rw [Printf.text, printf_line, List.takeWhile_idem]

end

/-! ## runs that make and write files -/

inductive CatOp where
  | fsTouch (path : Option CString)
  | cmdTouch (args : Option CString)
  | write (f offset size buffer : Word)
  | rest

/-- files are made with their allocations succeeding and written in any way; the rest of the kernel
may do what it likes but leaves their structs alone -/
def CatOp.step (t : FileSession) (op : CatOp) (t' : FileSession) : Prop :=
  match op with
  | .fsTouch path => ∃ f, FirstKernel.fsTouch t.k path = .ok (f, t'.k) ∧ f ≠ 0 ∧
      (t'.k.node f).data ≠ 0 ∧ t'.files = f :: t.files
  | .cmdTouch args => noArgs args = false ∧ FirstKernel.cmdTouch t.k args = .ok t'.k ∧
      ∃ f q h1 h2, FirstKernel.kmalloc t.k.heap sizeofFSNode = .ok (f, h1) ∧ f ≠ 0 ∧
        FirstKernel.kmalloc h1 256 = .ok (q, h2) ∧ q ≠ 0 ∧ t'.files = f :: t.files
  | .write f offset size buffer => f ∈ t.files ∧
      (∃ r, fsWrite t.k f offset size buffer = .ok (r, t'.k)) ∧ t'.files = t.files
  | .rest => (∀ f ∈ t.files, t'.k.node f = t.k.node f) ∧ t'.files = t.files

def catSystem : Run.System FileSession CatOp where
  init t := t.files = []
  step t op t' := op.step t t'

/-- the struct of a file whose buffer was allocated -/
structure HasBuffer (k : Kernel) (f : Word) : Prop where
  ne_zero : f ≠ 0
  type : (k.node f).type = .file
  data : (k.node f).data ≠ 0

section
variable {k k' : Kernel} {f g : Word}

theorem HasBuffer.congr (h : HasBuffer k f) (e : k'.node f = k.node f) : HasBuffer k' f :=
  ⟨h.ne_zero, e ▸ h.type, e ▸ h.data⟩

theorem HasBuffer.same (h : HasBuffer k f) (hs : SameFiles k k') : HasBuffer k' f :=
  ⟨h.ne_zero, by rw [hs.type]; exact h.type, by rw [hs.data]; exact h.data⟩

theorem HasBuffer.modify {F : FSNode → FSNode} (h : HasBuffer k g)
    (ht : ∀ n, (F n).type = n.type) (hd : ∀ n, (F n).data ≠ 0) : HasBuffer (k.modify f F) g := by
  by_cases hgf : g = f
  · rw [hgf] at h ⊢
    refine ⟨h.ne_zero, ?_, ?_⟩
    · rw [modify_node_self, ht]
      exact h.type
    · rw [modify_node_self]
      exact hd _
  · exact h.congr (modify_node_of_ne _ _ _ _ hgf)

/-- a new file struct at `f`, wherever the heap put it -/
theorem HasBuffer.withNode {h : Machine} {name : List Byte} {size q : Word}
    (hg : g ≠ f → HasBuffer k g) (hf : f ≠ 0) (hq : q ≠ 0) :
    HasBuffer (k.withNode h f (fileNode name size q)) g := by
  by_cases hgf : g = f
  · rw [hgf]
    refine ⟨hf, ?_, ?_⟩
    · rw [withNode_node_self]
      rfl
    · rw [withNode_node_self]
      exact hq
  · exact (hg hgf).congr (Function.update_of_ne hgf _ _)

/-- `fs_touch` with its allocations succeeding -/
theorem fsTouch_hasBuffer {path : Option CString} {t : List Word} (h : ∀ g ∈ t, HasBuffer k g)
    (e : fsTouch k path = .ok (f, k')) (hf : f ≠ 0) (hd : (k'.node f).data ≠ 0) :
    ∀ g ∈ f :: t, HasBuffer k' g := by
  obtain ⟨name, parent, q, h1, h2, _, _, hq, e3⟩ := fsTouch_inv e hf hd
  intro g hg
  refine HasBuffer.same (HasBuffer.withNode (fun hgf => ?_) hf hq) (fsAddChild_sameFiles e3)
  exact h g ((List.mem_cons.mp hg).resolve_left hgf)

theorem cmdTouch_hasBuffer {args : Option CString} {t : List Word} {q : Word} {h1 h2 : Machine}
    (h : ∀ g ∈ t, HasBuffer k g) (ha : noArgs args = false) (e : cmdTouch k args = .ok k')
    (e1 : FirstKernel.kmalloc k.heap sizeofFSNode = .ok (f, h1)) (hf : f ≠ 0)
    (e2 : FirstKernel.kmalloc h1 256 = .ok (q, h2)) (hq : q ≠ 0) :
    ∀ g ∈ f :: t, HasBuffer k' g := by
  rw [cmdTouch_eq ha e1 hf e2 hq] at e
  obtain ⟨k1, e3, rfl⟩ := map_eq_ok e
  intro g hg
  have hnew : HasBuffer (k.enter.withNode h2 f (fileNode (argName args) 256 q)) g := by
    refine HasBuffer.withNode (fun hgf => ?_) hf hq
    have hold := h g ((List.mem_cons.mp hg).resolve_left hgf)
    exact hold.congr (by rw [enter_node])
  have hmem : HasBuffer ((k.enter.withNode h2 f (fileNode (argName args) 256 q)).withMem
      (fill h2.mem q.toNat 0 256)) g := hnew.congr rfl
  exact (hmem.same (fsAddChild_sameFiles e3)).same (printf_sameFiles ..)

/-- a write in any range: the buffer is kept or replaced by one that was allocated -/
theorem fsWrite_hasBuffer {offset size buffer r : Word} (h : HasBuffer k g)
    (e : fsWrite k f offset size buffer = .ok (r, k')) : HasBuffer k' g := by
  unfold fsWrite at e
  split at e
  · cases e
    exact h
  split at e
  · obtain ⟨⟨newData, k1⟩, e1, e2⟩ := bind_eq_ok e
    have hk1 : k1.node = k.node := by
      obtain ⟨⟨p, m⟩, _, e3⟩ := bind_eq_ok e1
      cases e3
      rfl
    have h1 : HasBuffer k1 g := h.congr (by rw [hk1])
    dsimp only at e2
    split at e2
    · cases e2
      exact h1.congr rfl
    · next hd =>
      cases e2
      have hm : HasBuffer (k1.modify f fun n => { n with data := newData, size := offset + size }) g :=
        h1.modify (fun _ => rfl) fun _ => hd
      exact hm.congr rfl
  · dsimp only at e
    split at e
    · obtain ⟨_, _, e2⟩ := bind_eq_ok e
      cases e2
      exact h.congr rfl
    · cases e
      exact h.congr rfl

end

/-- in every run every file has a buffer -/
theorem cat_files {t : FileSession} (h : Run.Reachable catSystem t) :
    ∀ f ∈ t.files, HasBuffer t.k f := by
  refine h.invariant ?_ ?_
  · intro t ht f hf
    rw [show t.files = [] from ht] at hf
    cases hf
  · rintro t op t' _ ih hs
    cases op with
    | fsTouch path =>
      obtain ⟨f, e, hf, hd, hfs⟩ := hs
      rw [hfs]
      exact fsTouch_hasBuffer ih e hf hd
    | cmdTouch args =>
      obtain ⟨ha, e, f, q, h1, h2, e1, hf, e2, hq, hfs⟩ := hs
      rw [hfs]
      exact cmdTouch_hasBuffer ih ha e e1 hf e2 hq
    | write f offset size buffer =>
      obtain ⟨_, ⟨r, e⟩, hfs⟩ := hs
      rw [hfs]
      exact fun g hg => fsWrite_hasBuffer (ih g hg) e
    | rest =>
      obtain ⟨hnode, hfs⟩ := hs
      rw [hfs]
      exact fun g hg => (ih g hg).congr (hnode g hg)

/-- **In every run `cat` prints a file and nothing more exactly when one of the file's bytes is
NUL.** -/
theorem cats_exactly_iff (t : FileSession) (h : Run.Reachable catSystem t) (f : Word)
    (hf : f ∈ t.files) (args : Option CString) (ha : noArgs args = false)
    (hn : fsFindChild t.k.enter t.k.enter.currentDir (argName args) = .ok f) :
    CatsExactly t.k args f ↔ 0 ∈ fileBytes t.k f :=
  have hb := cat_files h f hf
  catsExactly_iff ha hn hb.ne_zero hb.type hb.data

/-- the name of a file in the root -/
def nameF : CString := ⟨str "f", by decide⟩

/-- the file `f` made by `cmd_touch` after start-up is printed as the empty line it holds -/
theorem cats_exactly_iff_touched : ∃ t : FileSession, t.files = [0x00800104] ∧
    CatsExactly t.k (some nameF) 0x00800104 := by
  have hrun : ((fsInit (Kernel.boot bootMachine)).toOption.bind fun k0 =>
      (cmdTouch k0 (some nameF)).toOption.bind fun k1 =>
      (kmalloc k0.heap sizeofFSNode).toOption.bind fun r1 =>
      (kmalloc r1.2 256).toOption.map fun r2 =>
        decide (r1.1 = 0x00800104 ∧ r2.1 ≠ 0 ∧
          (fsFindChild k1.enter k1.enter.currentDir nameF.val).toOption = some 0x00800104 ∧
          (fileBytes k1 0x00800104).head? = some 0)) = some true := by decide +kernel
  obtain ⟨k0, _, hrun⟩ := Option.bind_eq_some_iff.mp hrun
  obtain ⟨k1, e1, hrun⟩ := Option.bind_eq_some_iff.mp hrun
  obtain ⟨⟨f, h1⟩, e2, hrun⟩ := Option.bind_eq_some_iff.mp hrun
  obtain ⟨⟨q, h2⟩, e3, hrun⟩ := Option.map_eq_some_iff.mp hrun
  obtain ⟨rfl, hq, e4, e5⟩ := of_decide_eq_true hrun
  have hs : catSystem.step ⟨k0, []⟩ (.cmdTouch (some nameF)) ⟨k1, [0x00800104]⟩ :=
    ⟨rfl, toOption_eq_some e1, _, q, h1, h2, toOption_eq_some e2, by decide, toOption_eq_some e3, hq,
      rfl⟩
  have h0 : Run.Reachable catSystem ⟨k0, []⟩ := .init rfl
  have hr : Run.Reachable catSystem ⟨k1, [0x00800104]⟩ := h0.step hs
  exact ⟨_, rfl, (cats_exactly_iff _ hr _ (List.mem_singleton_self _) (some nameF) rfl
    (toOption_eq_some e4)).mpr (List.mem_of_head? e5)⟩

/-- **`cat` of the empty file `fs_touch("//f")` makes reads the byte behind its end.** -/
theorem cat_reads_past_end : ¬ ∀ t : FileSession, Run.Reachable catSystem t → ∀ f ∈ t.files,
    ∀ args, noArgs args = false →
      fsFindChild t.k.enter t.k.enter.currentDir (argName args) = .ok f → CatsExactly t.k args f := by
  intro hall
  have hrun : ((fsInit (Kernel.boot bootMachine)).toOption.bind fun k0 =>
      (fsTouch k0 (some ⟨str "//f", by decide⟩)).toOption.map fun r =>
        decide (r.1 = 0x00800104 ∧ (r.2.node r.1).data ≠ 0 ∧
          (fsFindChild r.2.enter r.2.enter.currentDir nameF.val).toOption = some 0x00800104 ∧
          fileBytes r.2 0x00800104 = [])) = some true := by decide +kernel
  obtain ⟨k0, _, hrun⟩ := Option.bind_eq_some_iff.mp hrun
  obtain ⟨⟨f, k1⟩, e1, hrun⟩ := Option.map_eq_some_iff.mp hrun
  obtain ⟨rfl, hd, e2, e3⟩ := of_decide_eq_true hrun
  have hs : catSystem.step ⟨k0, []⟩ (.fsTouch (some ⟨str "//f", by decide⟩)) ⟨k1, [0x00800104]⟩ :=
    ⟨_, toOption_eq_some e1, by decide, hd, rfl⟩
  have h0 : Run.Reachable catSystem ⟨k0, []⟩ := .init rfl
  have hr : Run.Reachable catSystem ⟨k1, [0x00800104]⟩ := h0.step hs
  have hb := cat_files hr _ (List.mem_singleton_self _)
  have hfind := toOption_eq_some e2
  have hcat := hall _ hr _ (List.mem_singleton_self _) (some nameF) rfl hfind
  have hnul := (catsExactly_iff rfl hfind hb.ne_zero hb.type hb.data).mp hcat
  rw [e3] at hnul
  cases hnul

end FirstKernel
