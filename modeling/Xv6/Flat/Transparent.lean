import Xv6.Flat.Memory
import Xv6.System.Shm
import Xv6.System.Spared

namespace Xv6

open Lib

variable {L : Layout} {used : List Nat} {k k' : Kernel} {s t : Phys} {m m' : Mem} {role role' : Nat → Role}
  {p q : Fin NPROC} {f : Flat} {c c' : Mirrored} {e : UserEvent}

theorem KInv.own (h : KInv L used true k role) (hshm : k.shm.allocated = false) (hp : k.Live p) :
    Own L k.phys role (k.self p) (k.procs p).trapframe where
  vm := h.vm
  space := by
    have hsp := h.space p hp
    rwa [limit_true] at hsp
  small := h.size rfl p
  plain := by
    intro a ha
    have hshared := (h.shared a).mp ha
    simp [hshm] at hshared

structure FInv (L : Layout) (used : List Nat) (c : Mirrored) : Prop where
  inv : ∃ role, KInv L used true c.kernel role
  shm : c.kernel.shm.allocated = false
  mirrors : ∀ q, c.kernel.Live q → Mirrors c.kernel.phys.mem (c.kernel.self q) (c.flat q)

theorem plain_of_unshared (h : k.shm.allocated = false) (pte : Pte) : k.Plain pte := by
  rintro ⟨ha, -⟩
  simp [h] at ha

section Steps

theorem Kin.self_eq (h : Kin k k') (q : Fin NPROC) : k'.self q = k.self q := by
  rw [Kernel.self, Kernel.self, (h.procs q).1, (h.procs q).2.2]

theorem Untouched.mirrors (h : Untouched p k k') (hshm : k.shm.allocated = false) (hsz : (k.procs q).sz ≤ TRAPFRAME)
    (hq : q ≠ p) (hl : k.Live q) (hm : Mirrors k.phys.mem (k.self q) f) : Mirrors k'.phys.mem (k'.self q) f := by
  have hself : k'.self q = k.self q := by rw [Kernel.self, Kernel.self, h.procs q hq]
  rw [hself]
  refine hm.alike rfl fun va hva => alike_of_pte (h.pte q va hq hl) fun pte hpte => ?_
  have hup : limit true (k.procs q).sz ≤ TRAPFRAME := limit_le fun _ => hsz
  rw [limit_true] at hup
  exact h.data q va pte hq hl (Nat.lt_of_lt_of_le hva hup) hpte (plain_of_unshared hshm pte)

theorem FInv.swap (h : FInv L used c) (hu : Untouched p c.kernel k') (hinv : ∃ role, KInv L used true k' role)
    (hm : Mirrors k'.phys.mem (k'.self p) f) (hflat : c' = ⟨k', Function.update c.flat p f⟩) : FInv L used c' := by
  subst hflat
  obtain ⟨role, hold⟩ := h.inv
  refine ⟨hinv, hu.shm ▸ h.shm, fun q hq => ?_⟩
  by_cases hqp : q = p
  · subst hqp
    simpa using hm
  · have hl := (hu.live hqp).mp hq
    simpa [hqp] using hu.mirrors h.shm (hold.size rfl q) hqp hl (h.mirrors q hl)

theorem FInv.kin (h : FInv L used c) (hk : Kin c.kernel k') (hflat : c' = ⟨k', c.flat⟩) : FInv L used c' := by
  subst hflat
  obtain ⟨role, hinv⟩ := h.inv
  refine ⟨⟨role, hinv.kin hk⟩, hk.shm ▸ h.shm, fun q hq => ?_⟩
  show Mirrors k'.phys.mem (k'.self q) (c.flat q)
  rw [hk.self_eq, hk.phys]
  exact h.mirrors q ((hk.live q).mp hq)

theorem Mirrored.next_eq_ok (h : c.next L e = .ok c') :
    e.next L c.kernel = .ok c'.kernel ∧ c' = ⟨c'.kernel, e.flat c c'.kernel⟩ := by
  rw [Mirrored.next] at h
  obtain ⟨k, hk, rfl⟩ := bind_return_eq_ok.mp h
  exact ⟨hk, rfl⟩

theorem Mirrors.resize {p : Self} (h : Mirrors m p f) (p' : Self)
    (hin : ∀ va, va < PGROUNDUP p.sz → va < PGROUNDUP p'.sz → Alike m p.pagetable m' p'.pagetable va)
    (hout : ∀ va, PGROUNDUP p.sz ≤ va → va < PGROUNDUP p'.sz → leafPte m' 2 p'.pagetable va = none) :
    Mirrors m' p' (f.resize p'.sz) := by
  refine ⟨rfl, fun va hva => ?_, fun va hva => ?_⟩
  · by_cases hlt : va < PGROUNDUP p.sz
    · simp only [Flat.resize, h.size, if_pos hlt]
      exact (h.rights va hlt).trans (hin va hlt hva).rights
    · simp only [Flat.resize, h.size, if_neg hlt, viewFlags_none (hout va (Nat.le_of_not_lt hlt) hva)]
      exact .refl _
  · by_cases hlt : va < PGROUNDUP p.sz
    · simp only [Flat.resize, h.size, if_pos hlt, h.byte va hlt, (hin va hlt hva).byte]
    · simp only [Flat.resize, h.size, if_neg hlt, viewByte_none (hout va (Nat.le_of_not_lt hlt) hva)]

theorem toU64_neg (hn : n < 0) (hlow : -0x80000000 ≤ n) (hsz : sz ≤ TRAPFRAME) :
    (sz < toU64 (wrap32 (-n)) ↔ n = -0x80000000 ∨ sz < (-n).toNat) ∧
    (n ≠ -0x80000000 → toU64 (wrap32 (-n)) = (-n).toNat) := by
  by_cases hmin : n = -0x80000000
  · subst hmin
    have hwrap : toU64 (wrap32 (- -0x80000000)) = 2 ^ 64 - 0x80000000 := by decide
    simp only [TRAPFRAME_eq] at hsz
    refine ⟨iff_of_true ?_ (.inl rfl), fun hne => absurd rfl hne⟩
    rw [hwrap]
    omega
  · have hwrap : toU64 (wrap32 (-n)) = (-n).toNat := by
      rw [wrap32_eq (by omega) (by omega), toU64]
      omega
    rw [hwrap]
    exact ⟨by simp [hmin], fun _ => rfl⟩

theorem wrap32_bounds (n : Int) : -0x80000000 ≤ wrap32 n ∧ wrap32 n < 0x80000000 := by
  have hlo := Int.le_bmod (x := n) (m := 2 ^ 32) (by decide)
  have hhi := Int.bmod_lt (x := n) (m := 2 ^ 32) (by decide)
  simp only [wrap32]
  omega

section

variable (h : FInv L used c) (hp : c.kernel.Live p)
include h hp

theorem FInv.sbrk_step (n : Int) (hn : Plainly c.kernel (.event (.call p (.sbrk n))))
    (hnext : c.next L (.event (.call p (.sbrk n))) = .ok c') : FInv L used c' := by
  obtain ⟨hkernel, hflat⟩ := Mirrored.next_eq_ok hnext
  obtain ⟨role, hinv⟩ := h.inv
  have hown := hinv.own h.shm hp
  have hm := h.mirrors p hp
  have hsz := hinv.size rfl p
  obtain ⟨hlo, hhi⟩ := wrap32_bounds n
  simp only [UserEvent.next, Event.next, Call.run] at hkernel
  simp only [UserEvent.flat] at hflat
  simp only [Plainly] at hn
  generalize wrap32 n = w at hkernel hflat hn hlo hhi
  by_cases hneg : w < 0
  · obtain ⟨r, j, role', hok, hinv', hu, -, hle', hres⟩ := hinv.sbrk_shrink hp hneg fun hmaps => by
      simp [Kernel.MapsShm, h.shm] at hmaps
    simp only [hok, ok_bind, pure_eq_ok, Except.ok.injEq] at hkernel
    obtain ⟨hiff, hamount⟩ := toU64_neg hneg hlo hsz
    subst hkernel
    refine h.swap hu ⟨role', hinv'⟩ ?_ hflat
    have hflatsz : (c.flat p).sz = (c.kernel.procs p).sz := hm.size
    rw [Flat.sbrk, if_neg (by omega), hflatsz]
    rcases hres with ⟨hlt, heq⟩ | ⟨hle, hnew, hroot, hsame⟩
    · rw [heq, if_pos (hiff.mp hlt)]
      exact hm
    · have hnot : ¬(w = -0x80000000 ∨ (c.kernel.procs p).sz < (-w).toNat) :=
        fun hor => Nat.not_lt.mpr hle (hiff.mpr hor)
      have hmono := pgroundup_mono hle' (hinv.size_le_MAXVA p)
      rw [if_neg hnot, ← hamount fun hmin => hnot (.inl hmin), ← hnew]
      refine hm.resize (c'.kernel.self p) (fun va hlt hva => ?_) fun va hge hva => ?_
      · have hview := hsame va hva
        show Alike _ _ _ (c'.kernel.procs p).pagetable va
        rw [hroot]
        refine alike_of_pte hview.pte fun pte hpte => hview.data ?_ pte hpte
        rcases hown.user (Nat.lt_of_lt_of_le hlt hown.up_le) with hnone | ⟨-, huser⟩
        · exact absurd (hnone.symm.trans hpte) (by simp)
        · exact huser
      · exact absurd (Nat.lt_of_lt_of_le hva hmono) (Nat.not_lt.mpr hge)
  · have hle := hn (Int.not_lt.mp hneg)
    obtain ⟨j, hok, hinv', -, hnew⟩ := hinv.sbrk_grow hp (Int.not_lt.mp hneg) fun _ => hle
    have hwrap : wrap64 ((c.kernel.procs p).sz + w.toNat) = (c.kernel.procs p).sz + w.toNat := by
      apply wrap64_eq_of_lt
      simp only [TRAPFRAME_eq] at hle
      omega
    have hj : j = c.kernel.setProc p { c.kernel.procs p with sz := (c.kernel.procs p).sz + w.toNat } := by
      rw [Xv6.sbrk, if_neg hneg, hwrap, Except.ok.injEq, Prod.mk.injEq] at hok
      exact hok.2.symm
    have hu := hinv.untouched_of_edit hp (Edit.refl hinv.vm (hinv.space p hp).top fun _ => False)
      { c.kernel.procs p with sz := (c.kernel.procs p).sz + w.toNat }
    simp only [hok, ok_bind, pure_eq_ok, Except.ok.injEq] at hkernel
    rw [hkernel] at hj hinv' hnew
    refine h.swap (by rw [hj]; exact hu) ⟨role, hinv'⟩ ?_ hflat
    have hself : c'.kernel.self p = ⟨(c.kernel.procs p).sz + w.toNat, (c.kernel.procs p).pagetable⟩ := by
      rw [Kernel.self, hj, Kernel.setProc_self]
    have hphys : c'.kernel.phys = c.kernel.phys := by rw [hj]; rfl
    rw [Flat.sbrk, if_pos (Int.not_lt.mp hneg), hm.size, hself, hphys]
    refine hm.resize ⟨(c.kernel.procs p).sz + w.toNat, (c.kernel.procs p).pagetable⟩
      (fun va _ _ => .refl ..) fun va hge hva => ?_
    have hup : limit true ((c.kernel.procs p).sz + w.toNat) ≤ TRAPFRAME := limit_le fun _ => hle
    rw [limit_true] at hup
    rcases hown.user (Nat.lt_of_lt_of_le hva hup) with hnone | ⟨hlt, -⟩
    · exact hnone
    · exact absurd hlt (Nat.not_lt.mpr hge)

theorem FInv.copyin_step (srcva len : Nat) (hs : ¬Starves L c.kernel (.event (.call p (.copyin srcva len))))
    (hnext : c.next L (.event (.call p (.copyin srcva len))) = .ok c') : FInv L used c' := by
  obtain ⟨hkernel, hflat⟩ := Mirrored.next_eq_ok hnext
  obtain ⟨role, hinv⟩ := h.inv
  have hm := h.mirrors p hp
  obtain ⟨res, dst, t, role', hok, hinv', -, hu⟩ := hinv.copyin_spec hp (hinv.size_le_MAXVA p) srcva len
  obtain ⟨t', ρ, hok', -, halike⟩ := (hinv.own h.shm hp).copyin_spec hm
    fun n hn bytes t hcopy hd => hs ⟨n, hn, bytes, t, hcopy, hd⟩
  cases hok'.symm.trans hok
  simp only [UserEvent.next, Event.next, Call.run, hok, ok_bind, pure_eq_ok, Except.ok.injEq] at hkernel
  rw [hkernel] at hu hinv'
  refine h.swap (f := c.flat p) hu ⟨role', hinv'⟩ ?_ (by rw [Function.update_eq_self]; exact hflat)
  rw [← hkernel]
  exact hm.alike rfl halike

theorem FInv.copyout_step (dstva : Nat) (src : List Byte)
    (hs : ¬Starves L c.kernel (.event (.call p (.copyout dstva src))))
    (hnext : c.next L (.event (.call p (.copyout dstva src))) = .ok c') : FInv L used c' := by
  obtain ⟨hkernel, hflat⟩ := Mirrored.next_eq_ok hnext
  obtain ⟨role, hinv⟩ := h.inv
  obtain ⟨res, t, role', hok, hinv', -, hu⟩ := hinv.copyout_spec hp (hinv.size_le_MAXVA p) dstva src
  obtain ⟨t', ρ, hok', -, hm'⟩ := (hinv.own h.shm hp).copyout_spec (h.mirrors p hp)
    fun n hn t hcopy hd => hs ⟨n, hn, t, hcopy, hd⟩
  cases hok'.symm.trans hok
  simp only [UserEvent.next, Event.next, Call.run, hok, ok_bind, pure_eq_ok, Except.ok.injEq] at hkernel
  rw [hkernel] at hu hinv'
  refine h.swap hu ⟨role', hinv'⟩ ?_ hflat
  rw [← hkernel]
  exact hm'

theorem FInv.fork_step (hnext : c.next L (.event (.call p .fork)) = .ok c') : FInv L used c' := by
  obtain ⟨hkernel, hflat⟩ := Mirrored.next_eq_ok hnext
  obtain ⟨role, hinv⟩ := h.inv
  have hfork := hinv.fork_spec hp
  simp only [UserEvent.next, Event.next, Call.run] at hkernel
  simp only [UserEvent.flat] at hflat
  generalize fork L p c.kernel = res at hfork hkernel
  cases hfork with
  | stuck panic why => simp at hkernel
  | @failed k' role' inv same intact =>
    cases hkernel
    rw [hflat]
    refine ⟨⟨_, inv⟩, same.shm ▸ h.shm, fun q hq => ?_⟩
    have hl := (same.live q).mp hq
    simp only [hl, not_true_eq_false, false_and, if_false]
    have hself : c'.kernel.self q = c.kernel.self q := by rw [Kernel.self, Kernel.self, intact.procs q hl]
    rw [hself]
    refine (h.mirrors q hl).alike rfl fun va hva => alike_of_pte (intact.pte q va hl) fun pte hpte => ?_
    exact intact.data q va pte hl (Nat.lt_of_lt_of_le hva (hinv.own h.shm hl).up_le) hpte
      (plain_of_unshared h.shm pte)
  | @done np pid k' role' inv slot live untouched parent size copied holes own =>
    cases hkernel
    rw [hflat]
    refine ⟨⟨_, inv⟩, untouched.shm ▸ h.shm, fun q hq => ?_⟩
    by_cases hqnp : q = np
    · subst hqnp
      simp only [slot, live, not_false_eq_true, true_and, if_true]
      refine (h.mirrors p hp).alike size fun va hva => ?_
      have hlow := Nat.lt_of_lt_of_le hva (hinv.own h.shm hp).up_le
      have hdown : PGROUNDDOWN va < (c.kernel.procs p).sz := by
        have hup := pgroundup_bounds (hinv.size_le_MAXVA p)
        have hd := pgrounddown_bounds va
        simp only [Kernel.self, PGSIZE_eq] at *
        omega
      cases hpte : leafPte c.kernel.phys.mem 2 (c.kernel.procs p).pagetable va with
      | none =>
        refine alike_of_pte ((holes va hlow (.inl hpte)).trans hpte.symm) fun e he => ?_
        simp [Kernel.self, hpte] at he
      | some e =>
        obtain ⟨pa, hnew, hdata⟩ := copied va e hlow hdown hpte
        exact alike_of_copy hpte hnew (hdata (plain_of_unshared h.shm e))
    · have hl := (untouched.live hqnp).mp hq
      simp only [hl, not_true_eq_false, false_and, if_false]
      exact untouched.mirrors h.shm (hinv.size rfl q) hqnp hl (h.mirrors q hl)

theorem FInv.translate_spec (htr : c.kernel.translate p a va = some pa) : va < PGROUNDUP (c.kernel.procs p).sz ∧
      ∃ pte, leafPte c.kernel.phys.mem 2 (c.kernel.procs p).pagetable va = some pte ∧ a.permitted pte ∧
        PTE2PA pte = pa := by
  obtain ⟨role, hinv⟩ := h.inv
  rw [Kernel.translate] at htr
  split at htr
  next hmax =>
    cases hpte : leafPte c.kernel.phys.mem 2 (c.kernel.procs p).pagetable va with
    | none => simp [hpte] at htr
    | some pte =>
      simp only [hpte, Option.ite_none_right_eq_some, Option.some.injEq] at htr
      refine ⟨?_, pte, rfl, htr⟩
      by_contra hge
      exact (hinv.own h.shm hp).not_user (Nat.le_of_not_lt hge) (lt_39_of_lt_MAXVA hmax) hpte htr.1.1
  next => simp at htr

end

theorem translate_eq (hmax : va < MAXVA) (hpte : leafPte k.phys.mem 2 (k.procs p).pagetable va = some pte)
    (a : Access) : k.translate p a va = if a.permitted pte then some (PTE2PA pte) else none := by
  rw [Kernel.translate, if_pos hmax, hpte]

section

variable (h : FInv L used c) (hp : c.kernel.Live p)
include h hp

theorem FInv.translate_permits (htr : c.kernel.translate p a va = some pa) : (c.flat p).permits a va := by
  obtain ⟨hva, pte, hpte, hperm, -⟩ := h.translate_spec hp htr
  refine ((h.mirrors p hp).permits_iff a va).mpr ⟨hva, ?_⟩
  show a.permitted (viewFlags _ (c.kernel.procs p).pagetable va)
  rwa [viewFlags_some hpte]

theorem FInv.translate_read (htr : c.kernel.translate p a va = some pa) (hn : va % PGSIZE + n ≤ PGSIZE) :
    c.kernel.phys.readBytes pa (va % PGSIZE) n = readAt (c.flat p).byte va n := by
  obtain ⟨hva, pte, hpte, -, rfl⟩ := h.translate_spec hp htr
  obtain ⟨role, hinv⟩ := h.inv
  exact (hinv.own h.shm hp).readBytes_eq (h.mirrors p hp) hpte hva hn

theorem FInv.fault_step (hd : ¬Denied L (c.kernel.self p) c.kernel.phys va)
    (hfault : pageFault L p va c.kernel = .ok k') : FInv L used ⟨k', c.flat⟩ := by
  obtain ⟨role, hinv⟩ := h.inv
  have hm := h.mirrors p hp
  have hown := hinv.own h.shm hp
  rcases hinv.pageFault_spec hp va with ⟨pa, t, j, role', hvm, hok, hinv', -, hu, hkin⟩ | ⟨-, herr⟩ | ⟨-, err, -, herr⟩
  · rw [hok, Except.ok.injEq] at hfault
    subst hfault
    have hm' : Mirrors t.mem (c.kernel.self p) (c.flat p) := by
      rcases hown.vmfault_spec hd with ⟨-, -, a, t', ρ, hok', -, -, halike, -⟩ | ⟨-, hok'⟩
      · obtain rfl : t' = t := by
          have heq := hok'.symm.trans hvm
          simp only [Except.ok.injEq, Prod.mk.injEq] at heq
          exact heq.2
        exact hm.alike rfl halike
      · obtain rfl : c.kernel.phys = t := by
          have heq := hok'.symm.trans hvm
          simp only [Except.ok.injEq, Prod.mk.injEq] at heq
          exact heq.2
        exact hm
    refine ⟨⟨role', hinv'⟩, hkin.shm.trans hu.shm ▸ h.shm, fun q hq => ?_⟩
    show Mirrors j.phys.mem (j.self q) (c.flat q)
    rw [hkin.self_eq, hkin.phys]
    have hl : c.kernel.Live q := (hkin.live q).mp hq
    by_cases hqp : q = p
    · subst hqp
      exact hm'
    · exact hu.mirrors h.shm (hinv.size rfl q) hqp hl (h.mirrors q hl)
  · simp [hfault] at herr
  · simp [hfault] at herr

theorem FInv.load_step (hs : ¬Starves L c.kernel (.load p va n)) (hnext : c.next L (.load p va n) = .ok c') :
    FInv L used c' := by
  obtain ⟨hkernel, hflat⟩ := Mirrored.next_eq_ok hnext
  simp only [UserEvent.next] at hkernel
  rw [hflat]
  split at hkernel
  next pa htr =>
    simp only [Except.ok.injEq] at hkernel
    rw [← hkernel]
    exact h
  next htr => exact h.fault_step hp (fun hd => hs ⟨htr, hd⟩) hkernel

theorem FInv.store_step (hlen : va % PGSIZE + bytes.length ≤ PGSIZE) (hs : ¬Starves L c.kernel (.store p va bytes))
    (hnext : c.next L (.store p va bytes) = .ok c') : FInv L used c' := by
  obtain ⟨hkernel, hflat⟩ := Mirrored.next_eq_ok hnext
  simp only [UserEvent.next] at hkernel
  simp only [UserEvent.flat] at hflat
  split at hkernel
  next pa htr =>
    simp only [htr, Option.isSome_some, if_true] at hflat
    obtain ⟨role, hinv⟩ := h.inv
    obtain ⟨hinv', hu⟩ := hinv.store_spec hp htr bytes
    obtain ⟨hva, pte, hpte, -, rfl⟩ := h.translate_spec hp htr
    simp only [Except.ok.injEq] at hkernel
    rw [hkernel] at hinv' hu
    refine h.swap hu ⟨role, hinv'⟩ ?_ hflat
    rw [← hkernel]
    exact ((hinv.own h.shm hp).write_spec (h.mirrors p hp) hpte hva hlen).2
  next htr =>
    simp only [htr, Option.isSome_none, Bool.false_eq_true, if_false] at hflat
    rw [hflat]
    exact h.fault_step hp (fun hd => hs ⟨htr, hd⟩) hkernel

end

theorem FInv.step (h : FInv L used c) (hs : Mirrored.Step L c c') : FInv L used c' := by
  obtain ⟨e, he, hplain, hstarves, hnext⟩ := hs
  rcases e with (⟨p, call⟩ | p | p) | ⟨p, va, n⟩ | ⟨p, va, bytes⟩
  · have hp : c.kernel.Live p := live_of_running he
    cases call with
    | sbrk n => exact h.sbrk_step hp n hplain hnext
    | fork => exact h.fork_step hp hnext
    | copyin srcva len => exact h.copyin_step hp srcva len hstarves hnext
    | copyout dstva src => exact h.copyout_step hp dstva src hstarves hnext
    | exec _ _ | exit _ | wait _ | shmGet | fault _ => exact hplain.elim
  · obtain ⟨hkernel, hflat⟩ := Mirrored.next_eq_ok hnext
    have hkin := kin_setState (show ProcState.RUNNING ≠ .UNUSED by simp) (live_of_runnable he)
    simp only [UserEvent.next, Event.next, Except.ok.injEq] at hkernel
    rw [hkernel] at hkin
    exact h.kin hkin hflat
  · obtain ⟨hkernel, hflat⟩ := Mirrored.next_eq_ok hnext
    have hkin := kin_setState (show ProcState.RUNNABLE ≠ .UNUSED by simp) (live_of_running he)
    simp only [UserEvent.next, Event.next, Except.ok.injEq] at hkernel
    rw [hkernel] at hkin
    exact h.kin hkin hflat
  · exact h.load_step (live_of_running he.1) hstarves hnext
  · exact h.store_step (live_of_running he.1) he.2 hstarves hnext

theorem flat_inv (h : Reach (Mirrored.Origin L used) (Mirrored.Step L) c) : FInv L used c := by
  induction h with
  | start h =>
    obtain ⟨hreach, hflat⟩ := h
    obtain ⟨hinv, hshm⟩ := bounded_inv hreach
    refine ⟨hinv, hshm, fun q _ => ?_⟩
    rw [hflat]
    exact ⟨rfl, fun _ _ => .refl _, fun _ _ => rfl⟩
  | step _ hs ih => exact ih.step hs

theorem plainly_spared (h : ∀ q, Spared k.tasks q) (he : e.enabled k) (hplain : Plainly k e)
    (hnext : e.next L k = .ok k') (q : Fin NPROC) : Spared k'.tasks q := by
  rcases e with e | ⟨p, va, n⟩ | ⟨p, va, bytes⟩
  · refine spared_next h he ?_ hnext q
    rcases e with ⟨p, call⟩ | p | p
    · cases call with
      | sbrk n => exact hplain
      | fork | copyin _ _ | copyout _ _ => trivial
      | exec _ _ | exit _ | wait _ | shmGet | fault _ => exact hplain.elim
    · trivial
    · trivial
  · simp only [UserEvent.next] at hnext
    split at hnext
    · simp only [Except.ok.injEq] at hnext
      exact hnext ▸ h q
    · exact spared_pageFault h hnext q
  · simp only [UserEvent.next] at hnext
    split at hnext
    · simp only [Except.ok.injEq] at hnext
      rw [← hnext]
      exact h q
    · exact spared_pageFault h hnext q

theorem mirrored_spared (h : Reach (Mirrored.Origin L used) (Mirrored.Step L) c) :
    ∀ q, Spared c.kernel.tasks q := by
  induction h with
  | start h => exact bounded_spared h.1
  | step _ hs ih =>
    obtain ⟨e, he, hplain, -, hnext⟩ := hs
    exact plainly_spared ih he hplain (Mirrored.next_eq_ok hnext).1

end Steps

section Transparent

theorem FInv.retry_spec (h : FInv L used c) (hp : (c.kernel.tasks p).state = .RUNNING)
    (hkilled : (c.kernel.tasks p).killed = false) (hva : va < (c.kernel.procs p).sz)
    (hd : c.kernel.translate p a va = none → ¬Denied L (c.kernel.self p) c.kernel.phys va)
    (hperm : (c.flat p).permits a va) :
    ∃ pa k', c.kernel.retry L p a va = .ok (some pa, k') ∧ k'.translate p a va = some pa ∧
      FInv L used ⟨k', c.flat⟩ ∧ k'.Live p := by
  have hlive := live_of_running hp
  cases htr : c.kernel.translate p a va with
  | some pa => exact ⟨pa, c.kernel, by rw [Kernel.retry, htr], htr, h, hlive⟩
  | none =>
    obtain ⟨role, hinv⟩ := h.inv
    have hmax : va < MAXVA := Nat.lt_of_lt_of_le hva (hinv.size_le_MAXVA p)
    obtain ⟨hup, hview⟩ := ((h.mirrors p hlive).permits_iff a va).mp hperm
    -- the page is not mapped, for the rights would do
    have hnone : leafPte c.kernel.phys.mem 2 (c.kernel.procs p).pagetable va = none := by
      cases hpte : leafPte c.kernel.phys.mem 2 (c.kernel.procs p).pagetable va with
      | none => rfl
      | some pte =>
        rw [translate_eq hmax hpte, if_pos (by rwa [← viewFlags_some hpte])] at htr
        simp at htr
    rcases (hinv.own h.shm hlive).vmfault_spec (hd htr) with
      ⟨-, -, pa, t, role', hok, hpa, -, -, hnew, hback⟩ | ⟨hor, -⟩
    swap
    · rcases hor with hle | hne
      · exact absurd hva (Nat.not_lt.mpr hle)
      · exact absurd hnone hne
    have hfault : pageFault L p va c.kernel =
        .ok { c.kernel.setTask p { c.kernel.tasks p with killed := false } with phys := t } := by
      have hk : vmfault L (c.kernel.self p) (c.kernel.procs p).pagetable va c.kernel.phys = .ok (pa, t) := hok
      simp only [pageFault, hk, ok_bind, hkilled, hpa, decide_false, Bool.or_self, Bool.false_eq_true, if_false,
        pure_eq_ok]
    have hstep := h.fault_step hlive (hd htr) hfault
    generalize hk' : ({ c.kernel.setTask p { c.kernel.tasks p with killed := false } with phys := t } : Kernel) = k'
      at hfault hstep
    have hrun : (k'.tasks p).state = .RUNNING := by simp [← hk', Kernel.setTask, hp]
    have htr' : k'.translate p a va = some pa := by
      have hpte : leafPte k'.phys.mem 2 (k'.procs p).pagetable va =
          some (PA2PTE pa ||| (PTE_W ||| PTE_U ||| PTE_R) ||| PTE_V) := by
        rw [← hk']
        exact hnew
      rw [translate_eq hmax hpte, hback, if_pos]
      rw [(sameRights_leaf pa _).permitted_iff]
      cases a <;> decide
    refine ⟨pa, k', ?_, htr', hstep, live_of_running hrun⟩
    simp only [Kernel.retry, htr, hfault, ok_bind, if_pos hrun, htr', pure_eq_ok]

theorem FInv.retry_permits (h : FInv L used c) (hp : (c.kernel.tasks p).state = .RUNNING)
    (hd : c.kernel.translate p a va = none → ¬Denied L (c.kernel.self p) c.kernel.phys va)
    (hok : c.kernel.retry L p a va = .ok (some pa, k')) :
    (c.flat p).permits a va ∧ k'.translate p a va = some pa ∧ FInv L used ⟨k', c.flat⟩ ∧ k'.Live p := by
  have hlive := live_of_running hp
  rw [Kernel.retry] at hok
  split at hok
  next pa' htr =>
    cases hok
    exact ⟨h.translate_permits hlive htr, htr, h, hlive⟩
  next htr =>
    obtain ⟨j, hfault, hok⟩ := bind_eq_ok.mp hok
    rw [return_pair_eq_ok] at hok
    obtain ⟨htr', rfl⟩ := hok
    have hstep := h.fault_step hlive (hd htr) hfault
    split at htr'
    next hrun =>
      have hlive' := live_of_running hrun
      exact ⟨hstep.translate_permits hlive' htr', htr', hstep, hlive'⟩
    next => simp at htr'

-- In every state of a run in which the free pages do not run out, loads, stores, copyin() and
-- copyout() are those of the flat memory.
theorem lazy_transparent (h : Reach (Mirrored.Origin L used) (Mirrored.Step L) c)
    (hp : (c.kernel.tasks p).state = .RUNNING) :
    (∀ va n bytes, va < (c.kernel.procs p).sz → va % PGSIZE + n ≤ PGSIZE → ¬Starves L c.kernel (.load p va n) →
      ((∃ pa k', c.kernel.retry L p .load va = .ok (some pa, k') ∧
        k'.phys.readBytes pa (va % PGSIZE) n = bytes) ↔ (c.flat p).load va n = some bytes)) ∧
    (∀ va bytes, va < (c.kernel.procs p).sz → ¬Starves L c.kernel (.store p va bytes) →
      ((∃ pa k', c.kernel.retry L p .store va = .ok (some pa, k')) ↔ (c.flat p).permits .store va)) ∧
    (∀ srcva len, ¬Starves L c.kernel (.event (.call p (.copyin srcva len))) →
      ∃ s, copyin L (c.kernel.self p) (c.kernel.procs p).pagetable srcva len c.kernel.phys =
        .ok (((c.flat p).copyin srcva len).1, ((c.flat p).copyin srcva len).2, s)) ∧
    ∀ dstva src, ¬Starves L c.kernel (.event (.call p (.copyout dstva src))) →
      ∃ s, copyout L (c.kernel.self p) (c.kernel.procs p).pagetable dstva src c.kernel.phys =
        .ok (((c.flat p).copyout dstva src).1, s) := by
  have hinv := flat_inv h
  obtain ⟨role, hkinv⟩ := hinv.inv
  have hlive := live_of_running hp
  have hown := hkinv.own hinv.shm hlive
  have hkilled : (c.kernel.tasks p).killed = false := by
    by_contra hk
    have hzombie := mirrored_spared h p (by simpa using hk)
    simp [hp] at hzombie
  refine ⟨fun va n bytes hva hn hs => ?_, fun va bytes hva hs => ?_, fun srcva len hs => ?_,
    fun dstva src hs => ?_⟩
  · constructor
    · rintro ⟨pa, k', hok, rfl⟩
      obtain ⟨hperm, htr, hstep, hlive'⟩ := hinv.retry_permits hp (fun htr hd => hs ⟨htr, hd⟩) hok
      have hread := hstep.translate_read hlive' htr hn
      rw [Flat.load, if_pos hperm]
      exact congrArg some hread.symm
    · intro hload
      rw [Flat.load] at hload
      split at hload
      next hperm =>
        obtain ⟨pa, k', hok, htr, hstep, hlive'⟩ := hinv.retry_spec hp hkilled hva (fun htr hd => hs ⟨htr, hd⟩) hperm
        rw [Option.some.injEq] at hload
        exact ⟨pa, k', hok, (hstep.translate_read hlive' htr hn).trans hload⟩
      next => simp at hload
  · constructor
    · rintro ⟨pa, k', hok⟩
      exact (hinv.retry_permits hp (fun htr hd => hs ⟨htr, hd⟩) hok).1
    · intro hperm
      obtain ⟨pa, k', hok, -⟩ := hinv.retry_spec hp hkilled hva (fun htr hd => hs ⟨htr, hd⟩) hperm
      exact ⟨pa, k', hok⟩
  · obtain ⟨t, -, hok, -⟩ := hown.copyin_spec (hinv.mirrors p hlive)
      fun n hn bytes t hcopy hd => hs ⟨n, hn, bytes, t, hcopy, hd⟩
    exact ⟨t, hok⟩
  · obtain ⟨t, -, hok, -⟩ := hown.copyout_spec (hinv.mirrors p hlive)
      fun n hn t hcopy hd => hs ⟨n, hn, t, hcopy, hd⟩
    exact ⟨t, hok⟩

-- Enough for an event to be one of a run: an sbrk(), or an access to a page that is there
-- or for which there is memory.
def Served (L : Layout) (k : Kernel) : UserEvent → Bool
  | .event (.call p (.sbrk n)) => decide (0 ≤ wrap32 n → (k.procs p).sz + (wrap32 n).toNat ≤ TRAPFRAME)
  | .load p va _ => decide (va < (k.procs p).sz) && ((k.translate p .load va).isSome ||
      (vmfault L (k.self p) (k.procs p).pagetable va k.phys).toOption.any fun res => decide (res.1 ≠ 0))
  | .store p va _ => decide (va < (k.procs p).sz) && ((k.translate p .store va).isSome ||
      (vmfault L (k.self p) (k.procs p).pagetable va k.phys).toOption.any fun res => decide (res.1 ≠ 0))
  | _ => false

theorem not_denied (h : (vmfault L (k.self p) (k.procs p).pagetable va k.phys).toOption.any
    (fun res => decide (res.1 ≠ 0)) = true) : ¬Denied L (k.self p) k.phys va := by
  rintro ⟨-, -, t, hok⟩
  have hok' : vmfault L (k.self p) (k.procs p).pagetable va k.phys = .ok (0, t) := hok
  simp [hok', Except.toOption] at h

theorem Served.spec (h : Served L k e = true) : Plainly k e ∧ ¬Starves L k e := by
  rcases e with (⟨p, call⟩ | p | p) | ⟨p, va, n⟩ | ⟨p, va, bytes⟩
  · cases call with
    | sbrk n =>
      rw [Served, decide_eq_true_eq] at h
      exact ⟨h, id⟩
    | _ => simp [Served] at h
  · simp [Served] at h
  · simp [Served] at h
  · simp only [Served, Bool.and_eq_true, decide_eq_true_eq, Bool.or_eq_true] at h
    refine ⟨h.1, fun hs => ?_⟩
    rcases h.2 with hsome | hfed
    · simp [hs.1] at hsome
    · exact not_denied hfed hs.2
  · simp only [Served, Bool.and_eq_true, decide_eq_true_eq, Bool.or_eq_true] at h
    refine ⟨h.1, fun hs => ?_⟩
    rcases h.2 with hsome | hfed
    · simp [hs.1] at hsome
    · exact not_denied hfed hs.2

def sampleMirrored (events : List UserEvent) : Option Mirrored :=
  (sampleRun [.schedule initSlot]).bind fun k =>
    runs (fun c e => e.enabled c.kernel ∧ Served sampleLayout c.kernel e = true) (Mirrored.next sampleLayout)
      ⟨k, k.flat⟩ events

theorem sampleMirrored_reach (h : sampleMirrored events = some c) :
    Reach (Mirrored.Origin sampleLayout []) (Mirrored.Step sampleLayout) c := by
  obtain ⟨k, hk, hruns⟩ := Option.bind_eq_some_iff.mp h
  have hstart : Reach (Start sampleLayout []) (Step sampleLayout Bounded) k := by
    refine sampleRun_reach (fun e he _ => ?_) hk
    rw [List.mem_singleton.mp he]
    trivial
  refine Reach.runs (fun e _ s t hen hn => ?_) (.start ⟨hstart, rfl⟩) hruns
  exact ⟨e, hen.1, (Served.spec hen.2).1, (Served.spec hen.2).2, hn⟩

-- init gets two pages and stores two bytes; the first try faults.
def sampleStore : List UserEvent :=
  [.event (.call initSlot (.sbrk 8192)), .store initSlot 5000 [1, 2], .store initSlot 5000 [1, 2]]

theorem lazy_transparent_stored : ∃ c : Mirrored, (c.kernel.tasks initSlot).state = .RUNNING ∧
    ∃ pa k', c.kernel.retry sampleLayout initSlot .load 5000 = .ok (some pa, k') ∧
      k'.phys.readBytes pa (5000 % PGSIZE) 4 = [1, 2, 0, 0] := by
  obtain ⟨c, hc, hstate, hsz, hserved, hload⟩ : ∃ c, sampleMirrored sampleStore = some c ∧
      (c.kernel.tasks initSlot).state = .RUNNING ∧ 5000 < (c.kernel.procs initSlot).sz ∧
      Served sampleLayout c.kernel (.load initSlot 5000 4) = true ∧ (c.flat initSlot).load 5000 4 =
      some [1, 2, 0, 0] :=
    exists_of_any (by decide +kernel)
  have htransparent := lazy_transparent (sampleMirrored_reach hc) hstate
  exact ⟨c, hstate, (htransparent.1 5000 4 _ hsz (by decide) (Served.spec hserved).2).mpr hload⟩

end Transparent

end Xv6
