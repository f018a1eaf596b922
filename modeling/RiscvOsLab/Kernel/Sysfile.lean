import RiscvOsLab.Kernel.State

/-!
# System calls on files (`kernel/syscall/sysfile.c`, and the argument fetching of `syscall.c`)

A call is made by a slot `p` of the process table (`myproc()`) with the registers `a0`, `a1`, `a2` of its
trapframe and the user memory it can point to. The bytes `sys_read` stores at its user address are returned
beside its result; nothing the kernel keeps lies in user memory.
-/

namespace RiscvOsLab.Kernel

open Prog Function
open RiscvOsLab.Fs

def O_WRONLY : UInt32 := 0x001
def O_RDWR : UInt32 := 0x002
def O_CREAT : UInt32 := 0x200

/-- The arguments of a call. -/
structure Args where
  a0 : UInt64
  a1 : UInt64
  a2 : UInt64
  mem : UInt64 → UInt8

/-- `(int)argraw(n)`, as the 32 bits it is. -/
def argint (a : UInt64) : UInt32 := a.toUInt32

/-- The string at a user address, cut to `max - 1` bytes. -/
def argstr (mem : UInt64 → UInt8) (addr : UInt64) (max : Nat) : List UInt8 :=
  ((List.range (max - 1)).map fun i => mem (addr + UInt64.ofNat i)).takeWhile (· != 0)

/-- `fd`, if it is in `[0, NOFILE)`. -/
def fdSlot (fd : UInt32) : Option (Fin NOFILE) :=
  if h : 0 ≤ fd.toInt32.toInt ∧ fd.toInt32.toInt < NOFILE then
    some ⟨fd.toInt32.toInt.toNat, by omega⟩
  else none

/-- A valid descriptor of the caller and its file. -/
def fdFile (s : Machine) (p : Fin NPROC) (fd : UInt32) : Option (Fin NOFILE × Fin NFILE) :=
  match fdSlot fd with
  | some i => ((s.proc p).ofile i).map fun f => (i, f)
  | none => none

/-- The part of `sys_open` that finds or creates the inode; `none` for its exits with -1. -/
def openInode (path : List UInt8) (omode : UInt32) : Prog State (Option (Fin NINODE)) := do
  if omode &&& O_CREAT ≠ 0 then
    match ← nameiparent path fun _ => 0 with
    | (none, _) => return none
    | (some ip, name) =>
        ilock ip
        match ← dirlookup ip name with
        | some next =>
            iunlock ip
            iput ip
            ilock next
            let type ← gets fun s => (s.icache next).din.type
            if type = T_DIR ∨ type = T_DEVICE then
              iunlock next
              iput next
              return none
            else
              return some next
        | none =>
            let dev ← gets fun s => (s.icache ip).dev
            let next ← ialloc dev T_FILE
            let inum ← gets fun s => (s.icache next).inum
            let r ← dirlink ip name inum
            if r < 0 then
              .panic "sys_open: dirlink"
            else
              iunlock ip
              iput ip
              ilock next
              return some next
  else
    match ← namei path with
    | none => return none
    | some ip =>
        ilock ip
        let type ← gets fun s => (s.icache ip).din.type
        if type = T_DIR ∧ omode ≠ 0 then
          iunlock ip
          iput ip
          return none
        else
          return some ip

def sysOpen (p : Fin NPROC) (a : Args) : Prog Machine Int := do
  let omode := argint a.a1
  match ← liftFiles (liftFs (openInode (argstr a.mem a.a0 MAXPATH) omode)) with
  | none => return -1
  | some ip =>
      match ← liftFiles filealloc with
      | none =>
          liftFiles (liftFs (iunlock ip))
          liftFiles (liftFs (iput ip))
          return -1
      | some f =>
          let proc ← gets fun s => s.proc p
          match (List.finRange NOFILE).find? fun i => proc.ofile i == none with
          | none =>
              liftFiles (fileclose f)
              liftFiles (liftFs (iunlock ip))
              liftFiles (liftFs (iput ip))
              return -1
          | some fd =>
              modify fun s => s.setProc p { s.proc p with ofile := update (s.proc p).ofile fd (some f) }
              liftFiles (modify fun s => s.setFile f
                { s.ftable f with
                  type := .inode, ip := some ip, off := 0,
                  readable := omode &&& O_WRONLY == 0,
                  writable := omode &&& O_WRONLY != 0 || omode &&& O_RDWR != 0 })
              liftFiles (liftFs (iunlock ip))
              return fd

def sysRead (p : Fin NPROC) (a : Args) : Prog Machine (Int × List UInt8) := do
  let s ← get
  match fdFile s p (argint a.a0) with
  | none => return (-1, [])
  | some (_, f) => liftFiles (fileread f (argint a.a2))

/-- The bytes at `src` go to the UART, of which the kernel keeps nothing. -/
def consolewrite (n : UInt32) : Prog Machine Int := return n.toInt32.toInt

def sysWrite (p : Fin NPROC) (a : Args) : Prog Machine Int := do
  let s ← get
  let fd := argint a.a0
  if fd = 1 ∧ (s.proc p).ofile ⟨1, by decide⟩ = none then
    consolewrite (argint a.a2)
  else
    match fdFile s p fd with
    | none => return -1
    | some (_, f) => liftFiles (filewrite f (fun i => a.mem (a.a1 + UInt64.ofNat i)) (argint a.a2))

def sysClose (p : Fin NPROC) (a : Args) : Prog Machine Int := do
  let s ← get
  match fdFile s p (argint a.a0) with
  | none => return -1
  | some (fd, f) =>
      liftFiles (fileclose f)
      modify fun s => s.setProc p { s.proc p with ofile := update (s.proc p).ofile fd none }
      return 0

/-- The four calls on files. -/
inductive FileCall where
  | open
  | read
  | write
  | close
  deriving DecidableEq

/-- A call, with its result and the bytes it stored in user memory. -/
def fileCall (p : Fin NPROC) (a : Args) : FileCall → Prog Machine (Int × List UInt8)
  | .open => do
      let r ← sysOpen p a
      return (r, [])
  | .read => sysRead p a
  | .write => do
      let r ← sysWrite p a
      return (r, [])
  | .close => do
      let r ← sysClose p a
      return (r, [])

end RiscvOsLab.Kernel
