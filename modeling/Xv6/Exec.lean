import Xv6.Proc

namespace Xv6

open Lib

-- kernel/exec.c. A file is the list of its bytes; the path lookup and the log
-- transaction around the reads are left out.

-- A uint that a larger value becomes, and uint64 subtraction.
def wrapU32 (x : Nat) : Nat := x % 2 ^ 32
def sub64 (a b : Nat) : Nat := wrap64 (a + (2 ^ 64 - wrap64 b))

-- n bytes from offset off on, the lowest first.
def field (bytes : List Byte) (off n : Nat) : Nat :=
  ((bytes.drop off).take n).foldr (fun b acc => b.toNat + 256 * acc) 0

def ELF_MAGIC : Nat := 0x464C457F
def ELF_PROG_LOAD : Nat := 1

-- The fields of struct elfhdr and struct proghdr that exec() reads.
structure ElfHdr where
  magic : Nat
  entry : Nat
  phoff : Nat
  phnum : Nat

structure ProgHdr where
  type : Nat
  flags : Nat
  off : Nat
  vaddr : Nat
  filesz : Nat
  memsz : Nat

def ELFHDR_SIZE : Nat := 64
def PROGHDR_SIZE : Nat := 56

def elfHdr (bytes : List Byte) : ElfHdr where
  magic := field bytes 0 4
  entry := field bytes 24 8
  phoff := field bytes 32 8
  phnum := field bytes 56 2

def progHdr (bytes : List Byte) : ProgHdr where
  type := field bytes 0 4
  flags := field bytes 4 4
  off := field bytes 8 8
  vaddr := field bytes 16 8
  filesz := field bytes 32 8
  memsz := field bytes 40 8

-- The bytes that readi() delivers; off and n are uints.
def readi (file : List Byte) (off n : Nat) : List Byte :=
  if file.length < off ∨ wrapU32 (off + n) < off then [] else (file.drop off).take n

def flags2perm (flags : Nat) : Pte :=
  let perm : Pte := if flags.testBit 0 then PTE_X else 0#64
  if flags.testBit 1 then perm ||| PTE_W else perm

-- The loop of loadseg(). Segments that are mapped are far too small for i to wrap.
def loadsegLoop (pagetable va : Nat) (file : List Byte) (offset sz : Nat) :
    Nat → Nat → Phys → Except Panic (Int × Phys)
  | 0, _, s => .ok (0, s)
  | turns + 1, i, s => do
      let pa ← walkaddr pagetable (wrap64 (va + i)) s
      if pa = 0 then .error .loadseg else
        let n := min (sz - i) PGSIZE
        let bytes := readi file (wrapU32 (offset + i)) n
        let s := s.writeBytes pa 0 bytes
        if bytes.length ≠ n then return (-1, s)
        else loadsegLoop pagetable va file offset sz turns (i + PGSIZE) s

def loadseg (pagetable va : Nat) (file : List Byte) (offset sz : Nat) (s : Phys) :
    Except Panic (Int × Phys) :=
  loadsegLoop pagetable va file offset sz ((sz + (PGSIZE - 1)) / PGSIZE) 0 s

-- One segment of type ELF_PROG_LOAD. The result is whether exec() goes on, and sz.
def loadSegment (L : Layout) (pagetable : Nat) (file : List Byte) (ph : ProgHdr) (sz : Nat) (s : Phys) :
    Except Panic (Bool × Nat × Phys) :=
  if ph.memsz < ph.filesz then .ok (false, sz, s)
  else if wrap64 (ph.vaddr + ph.memsz) < ph.vaddr then .ok (false, sz, s)
  else if ph.vaddr % PGSIZE ≠ 0 then .ok (false, sz, s)
  else do
    let (sz1, s) ← uvmalloc L pagetable sz (wrap64 (ph.vaddr + ph.memsz)) (flags2perm ph.flags) s
    if sz1 = 0 then return (false, sz, s) else do
      let (r, s) ← loadseg pagetable ph.vaddr file (wrapU32 ph.off) (wrapU32 ph.filesz) s
      return (0 ≤ r, sz1, s)

-- The loop over the program headers; off is an int.
def loadSegments (L : Layout) (pagetable : Nat) (file : List Byte) :
    Nat → Int → Nat → Phys → Except Panic (Bool × Nat × Phys)
  | 0, _, sz, s => .ok (true, sz, s)
  | n + 1, off, sz, s =>
    let bytes := readi file (wrapU32 (toU64 off)) PROGHDR_SIZE
    if bytes.length ≠ PROGHDR_SIZE then .ok (false, sz, s)
    else if (progHdr bytes).type ≠ ELF_PROG_LOAD then
      loadSegments L pagetable file n (wrap32 (off + PROGHDR_SIZE)) sz s
    else do
      let (ok, sz, s) ← loadSegment L pagetable file (progHdr bytes) sz s
      if ok then loadSegments L pagetable file n (wrap32 (off + PROGHDR_SIZE)) sz s
      else return (false, sz, s)

def ustackBytes (ustack : List Nat) : List Byte :=
  ustack.flatMap fun a => (List.range 8).map fun i => byteOf (BitVec.ofNat 64 a) i

-- Push the argument strings; none where exec() gives up.
def pushArgs (L : Layout) (p : Self) (pagetable stackbase : Nat) :
    List (List Byte) → Nat → List Nat → Phys → Except Panic (Option (Nat × List Nat) × Phys)
  | [], sp, ustack, s => .ok (some (sp, ustack), s)
  | arg :: argv, sp, ustack, s =>
    if MAXARG ≤ ustack.length then .ok (none, s) else
      let sp := sub64 sp (arg.length + 1)
      let sp := sp - sp % 16
      if sp < stackbase then .ok (none, s) else do
        let (r, s) ← copyout L p pagetable sp (arg ++ [0#8]) s
        if r < 0 then return (none, s)
        else pushArgs L p pagetable stackbase argv sp (ustack ++ [sp]) s

-- Push the array of argv[] pointers; the result is the stack pointer.
def pushUstack (L : Layout) (p : Self) (pagetable stackbase sp : Nat) (ustack : List Nat) (s : Phys) :
    Except Panic (Option Nat × Phys) :=
  let sp := sub64 sp ((ustack.length + 1) * 8)
  let sp := sp - sp % 16
  if sp < stackbase then .ok (none, s) else do
    let (r, s) ← copyout L p pagetable sp (ustackBytes (ustack ++ [0])) s
    if r < 0 then return (none, s) else return (some sp, s)

def pushStack (L : Layout) (p : Self) (pagetable sz : Nat) (argv : List (List Byte)) (s : Phys) :
    Except Panic (Option Nat × Phys) := do
  let stackbase := sz - USERSTACK * PGSIZE
  let (pushed, s) ← pushArgs L p pagetable stackbase argv sz [] s
  match pushed with
  | none => return (none, s)
  | some (sp, ustack) => pushUstack L p pagetable stackbase sp ustack s

-- The new image: its stack pointer, none where exec() goes to bad, and its size.
def execImage (L : Layout) (p : Self) (pagetable : Nat) (file : List Byte) (elf : ElfHdr)
    (argv : List (List Byte)) (s : Phys) : Except Panic (Option Nat × Nat × Phys) := do
  let (ok, sz, s) ← loadSegments L pagetable file elf.phnum (wrap32 elf.phoff) 0 s
  if ok = false then return (none, sz, s) else do
    let sz := PGROUNDUP sz
    let (sz1, s) ← uvmalloc L pagetable sz (wrap64 (sz + (USERSTACK + 1) * PGSIZE)) PTE_W s
    if sz1 = 0 then return (none, sz, s) else do
      let s ← uvmclear pagetable (sz1 - (USERSTACK + 1) * PGSIZE) s
      let (sp, s) ← pushStack L p pagetable sz1 argv s
      return (sp, sz1, s)

-- The registers that exec() sets; argc goes to a0 as the result of the call.
def Phys.setRegs (s : Phys) (trapframe entry sp : Nat) : Phys :=
  ((s.store trapframe TF_A1 (BitVec.ofNat 64 sp)).store trapframe TF_EPC (BitVec.ofNat 64 entry)).store
    trapframe TF_SP (BitVec.ofNat 64 sp)

def exec (L : Layout) (p : Fin NPROC) (file : Option (List Byte)) (argv : List (List Byte))
    (k : Kernel) : Except Panic (Int × Kernel) :=
  match file with
  | none => .ok (-1, k)
  | some file =>
    let bytes := readi file 0 ELFHDR_SIZE
    let elf := elfHdr bytes
    if bytes.length ≠ ELFHDR_SIZE ∨ elf.magic ≠ ELF_MAGIC then .ok (-1, k) else do
      let proc := k.procs p
      let (pagetable, s) ← procPagetable L proc.trapframe k.phys
      if pagetable = 0 then return (-1, { k with phys := s }) else do
        let (sp, sz, s) ← execImage L (k.self p) pagetable file elf argv s
        match sp with
        | none => do
            let s ← procFreepagetable L pagetable sz s
            return (-1, { k with phys := s })
        | some sp => do
            let s ← procFreepagetable L proc.pagetable proc.sz
              (s.setRegs proc.trapframe elf.entry sp)
            return (argv.length,
              { k.setProc p { proc with pagetable := pagetable, sz := sz } with phys := s })

-- What sys_exec() makes of its arguments: fewer than MAXARG strings, each with
-- its NUL in a page.
structure Args where
  strings : List (List Byte)
  few : strings.length < MAXARG
  short : ∀ s ∈ strings, s.length < PGSIZE
  clean : ∀ s ∈ strings, 0#8 ∉ s

end Xv6
