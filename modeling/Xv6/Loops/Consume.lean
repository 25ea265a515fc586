import Xv6.Loops.Killed

namespace Xv6

open Lib

variable {L : Layout} {chan : Waited → Nat} {p : Fin NPROC} {w w' : Waits} {o : Outcome} {r : Int}

theorem Waits.copyout_eq (h : w.copyout L p dst byte = .ok (r, w')) : ∃ s, w' = w.setPhys s := by
  obtain ⟨⟨r', s⟩, -, h⟩ := bind_eq_ok.mp h
  exact ⟨s, (return_pair_eq_ok.mp h).2.symm⟩

def Console.head (c : Console) : Byte := c.buf (Fin.ofNat INPUT_BUF_SIZE c.r)

def taken (w w' : Waits) : Nat := wrapU32 (w'.cons.r + (2 ^ 32 - wrapU32 w.cons.r))

end Xv6
