import Xv6.Process.Fork
import Xv6.Vm.Duplicate

/-! `fork` duplicates the calling process or leaves everything as it was. -/
namespace Xv6

open Function Multiset
open Lib Lib.Exec Lib.Radix Vm

variable {img : Image} {own : Multiset Nat} {t : PageTree 3}

structure Process.Clean (proc : Process) : Prop where
  sz : proc.sz = 0
  pagetable : proc.pagetable = 0
  ofile : ∀ fd, proc.ofile fd = none

namespace Vm

variable {s : Vm} {trapframe pagetable sz : Nat} {E : VmPanic → Prop} {Q : Unit → Vm → Prop}

end Vm

namespace Kernel

variable {k k' : Kernel} {p np q : Fin NPROC} {E : Stop → Prop}

def pagesInUse (k : Kernel) (p : Fin NPROC) (t : PageTree 3) (rest : Multiset Nat) : Multiset Nat :=
  t.labels + (frames t 0 (npages (k.proc p).sz) + rest)

/-- Slot `np` duplicates slot `p`. -/
structure Duplicate (img : Image) (k : Kernel) (p : Fin NPROC) (t : PageTree 3)
    (rest : Multiset Nat) (k' : Kernel) (np : Fin NPROC) (t' : PageTree 3) : Prop where
  unused : (k.proc np).state = .unused
  pid : (k'.proc np).pid = k.nextpid
  sz : (k'.proc np).sz = (k.proc p).sz
  space : k'.UserSpace img np t' ((k'.proc np).trapframe ::ₘ k.pagesInUse p t rest)
  copied : Copied k.vm t k'.vm t' (npages (k.proc p).sz)
  trapframe : ∀ i, i < 36 → k'.vm.entry (k'.proc np).trapframe i =
    if i = 14 then 0 else k.vm.entry (k.proc p).trapframe i
  ofile : (k'.proc np).ofile = (k.proc p).ofile
  cwd : (k'.proc np).cwd = (k.proc p).cwd
  files : ∀ f, k'.ftable f = (k.ftable f).setRef ((k.ftable f).ref +
    (List.finRange NOFILE).countP fun fd => (k.proc p).ofile fd = some f)
  inodes : ∀ i, k'.fs.itable i = { k.fs.itable i with
    ref := (k.fs.itable i).ref + if (k.proc p).cwd = some i then 1 else 0 }
  disk : k'.fs.store = k.fs.store
  keeps : Keeps (k.pagesInUse p t rest) k.vm k'.vm
  others : ∀ q, q ≠ np → k'.proc q = k.proc q

variable {t' : PageTree 3} {rest : Multiset Nat}

/-- The child's pages were not in use, and differ. -/
theorem Duplicate.nodup (h : Duplicate img k p t rest k' np t') :
    (frames t' 0 (npages (k.proc p).sz) + (t'.labels + ((k'.proc np).trapframe ::ₘ
      k.pagesInUse p t rest))).Nodup := by
  have hnodup := h.space.holds.accounts.nodup
  rw [h.sz, add_left_comm] at hnodup
  exact hnodup

end Kernel

end Xv6
