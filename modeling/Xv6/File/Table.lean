import Xv6.File.Pipe

/-!
# File — Table

The table of open files and the descriptors of the processes.

A call runs from its beginning to its end.  `s.ofile (p, fd)` is `p->ofile[fd]`, and an open file
is given by its place in `ftable.file`.  The page of a pipe is given by its address, and `page` is
what it holds, read as a `struct pipe`; `freelist` is the list of `kalloc` and `kfree`.  The inode of
a file, and the memory of a process, are left out: what `create` or `namei` returns, whether
`allocproc` and `uvmcopy` find memory, and what `copyout` returns, is said by the arguments.
-/

namespace Xv6.File
open Xv6.Lib

abbrev NFILE : Nat := 100
abbrev NOFILE : Nat := 16
abbrev NPROC : Nat := 64
abbrev NDEV : Nat := 10

abbrev FileId := Fin NFILE
abbrev ProcId := Fin NPROC
abbrev Fd := Fin NOFILE

inductive FileType where
  | none | pipe | inode | device
  deriving DecidableEq

structure OpenFile where
  type : FileType
  ref : Nat
  readable : Bool
  writable : Bool
  /-- the address of the pipe's page -/
  pipe : Nat

inductive ProcState where
  | unused | running | zombie
  deriving DecidableEq

structure Files where
  file : FileId → OpenFile
  ofile : ProcId × Fd → Option FileId
  state : ProcId → ProcState
  page : Nat → Pipe
  freelist : List Nat

def setFile (s : Files) (f : FileId) (x : OpenFile) : Files :=
  { s with file := Function.update s.file f x }

def setFd (s : Files) (p : ProcId) (fd : Fd) (f : Option FileId) : Files :=
  { s with ofile := Function.update s.ofile (p, fd) f }

/-! ### Pages -/

def kalloc (s : Files) : Option (Nat × Files) :=
  match s.freelist with
  | [] => none
  | pa :: free => some (pa, { s with freelist := free })

def kfree (s : Files) (pa : Nat) : Files := { s with freelist := pa :: s.freelist }

/-! ### `file.c` and `pipe.c` -/

def filealloc (s : Files) : Option (FileId × Files) :=
  match (List.finRange NFILE).find? fun f => (s.file f).ref = 0 with
  | some f => some (f, setFile s f { s.file f with ref := 1 })
  | none => none

def filedup (s : Files) (f : FileId) : Except String Files :=
  if (s.file f).ref < 1 then .error "filedup"
  else .ok (setFile s f { s.file f with ref := (s.file f).ref + 1 })

/-- `pipeclose`, with the page. -/
def closePipe (s : Files) (pi : Nat) (writable : Bool) : Files :=
  let s := { s with page := Function.update s.page pi (pipeclose (s.page pi) writable) }
  if !(s.page pi).readopen && !(s.page pi).writeopen then kfree s pi else s

def fileclose (s : Files) (f : FileId) : Except String Files :=
  if (s.file f).ref < 1 then .error "fileclose"
  else
    let s := setFile s f { s.file f with ref := (s.file f).ref - 1 }
    if (s.file f).ref > 0 then .ok s
    else
      let ff := s.file f
      let s := setFile s f { s.file f with ref := 0, type := .none }
      if ff.type = .pipe then .ok (closePipe s ff.pipe ff.writable) else .ok s

def pipealloc (s : Files) : Except String (Option (FileId × FileId) × Files) :=
  match filealloc s with
  | none => .ok (none, s)
  | some (f0, s) =>
    match filealloc s with
    | none => do
      let s ← fileclose s f0
      return (none, s)
    | some (f1, s) =>
      match kalloc s with
      | none => do
        let s ← fileclose s f0
        let s ← fileclose s f1
        return (none, s)
      | some (pi, s) =>
        let s := { s with page := Function.update s.page pi (newPipe (s.page pi).data) }
        let s := setFile s f0 { s.file f0 with type := .pipe, readable := true, writable := false, pipe := pi }
        let s := setFile s f1 { s.file f1 with type := .pipe, readable := false, writable := true, pipe := pi }
        .ok (some (f0, f1), s)

/-! ### `sysfile.c` -/

inductive Ret where
  | minusOne
  | zero
  | fd (fd : Fd)
  | child (np : ProcId)

def argfd (s : Files) (p : ProcId) (fd : Int) : Option (Fd × FileId) :=
  if h : 0 ≤ fd ∧ fd < NOFILE then
    (s.ofile (p, ⟨fd.toNat, by omega⟩)).map fun f => (⟨fd.toNat, by omega⟩, f)
  else none

def fdalloc (s : Files) (p : ProcId) (f : FileId) : Option (Fd × Files) :=
  match (List.finRange NOFILE).find? fun fd => s.ofile (p, fd) = none with
  | some fd => some (fd, setFd s p fd (some f))
  | none => none

def sysDup (s : Files) (p : ProcId) (fd : Int) : Except String (Ret × Files) :=
  match argfd s p fd with
  | none => .ok (.minusOne, s)
  | some (_, f) =>
    match fdalloc s p f with
    | none => .ok (.minusOne, s)
    | some (fd', s) => do
      let s ← filedup s f
      return (.fd fd', s)

def sysClose (s : Files) (p : ProcId) (fd : Int) : Except String (Ret × Files) :=
  match argfd s p fd with
  | none => .ok (.minusOne, s)
  | some (fd, f) => do
    let s ← fileclose (setFd s p fd none) f
    return (.zero, s)

abbrev O_RDONLY : BitVec 32 := 0x000
abbrev O_WRONLY : BitVec 32 := 0x001
abbrev O_RDWR : BitVec 32 := 0x002
abbrev O_CREATE : BitVec 32 := 0x200

inductive InodeType where
  | dir | file | device
  deriving DecidableEq

structure Inode where
  type : InodeType
  major : Int

/-- `ip` is what `create` or `namei` returns. -/
def sysOpen (s : Files) (p : ProcId) (omode : BitVec 32) (ip : Option Inode) :
    Except String (Ret × Files) :=
  match ip with
  | none => .ok (.minusOne, s)
  | some ip =>
    if omode &&& O_CREATE = 0 ∧ ip.type = .dir ∧ omode ≠ O_RDONLY then .ok (.minusOne, s)
    else if ip.type = .device ∧ (ip.major < 0 ∨ ip.major ≥ NDEV) then .ok (.minusOne, s)
    else
      match filealloc s with
      | none => .ok (.minusOne, s)
      | some (f, s) =>
        match fdalloc s p f with
        | none => do
          let s ← fileclose s f
          return (.minusOne, s)
        | some (fd, s) =>
          .ok (.fd fd, setFile s f { s.file f with
            type := if ip.type = .device then .device else .inode
            readable := omode &&& O_WRONLY == 0
            writable := omode &&& O_WRONLY != 0 || omode &&& O_RDWR != 0 })

/-- `copied` says whether both `copyout`s succeed. -/
def sysPipe (s : Files) (p : ProcId) (copied : Bool) : Except String (Ret × Files) := do
  let (files, s) ← pipealloc s
  match files with
  | none => return (.minusOne, s)
  | some (rf, wf) =>
    match fdalloc s p rf with
    | none => do
      let s ← fileclose s rf
      let s ← fileclose s wf
      return (.minusOne, s)
    | some (fd0, s) =>
      match fdalloc s p wf with
      | none => do
        let s ← fileclose (setFd s p fd0 none) rf
        let s ← fileclose s wf
        return (.minusOne, s)
      | some (fd1, s) =>
        if copied then return (.zero, s)
        else do
          let s ← fileclose (setFd (setFd s p fd0 none) p fd1 none) rf
          let s ← fileclose s wf
          return (.minusOne, s)

/-! ### `proc.c` -/

/-- `np->ofile[i] = filedup(p->ofile[i])`. -/
def dupFd (p np : ProcId) (s : Files) (i : Fd) : Except String Files :=
  match s.ofile (p, i) with
  | none => .ok s
  | some f => do
    let s ← filedup s f
    return setFd s np i (some f)

/-- `memory` says whether `allocproc` and `uvmcopy` find memory. -/
def kfork (s : Files) (p : ProcId) (memory : Bool) : Except String (Ret × Files) :=
  match (List.finRange NPROC).find? fun np => s.state np = .unused with
  | none => .ok (.minusOne, s)
  | some np =>
    if memory then do
      let s ← (List.finRange NOFILE).foldlM (dupFd p np) s
      return (.child np, { s with state := Function.update s.state np .running })
    else .ok (.minusOne, s)

def closeFd (p : ProcId) (s : Files) (fd : Fd) : Except String Files :=
  match s.ofile (p, fd) with
  | none => .ok s
  | some f => do
    let s ← fileclose s f
    return setFd s p fd none

def initproc : ProcId := ⟨0, by decide⟩

def kexit (s : Files) (p : ProcId) : Except String (Ret × Files) :=
  if p = initproc then .error "init exiting"
  else do
    let s ← (List.finRange NOFILE).foldlM (closeFd p) s
    return (.zero, { s with state := Function.update s.state p .zombie })

/-! ### Calls -/

inductive FileAct where
  | sysOpen (p : ProcId) (omode : BitVec 32) (ip : Option Inode)
  | sysPipe (p : ProcId) (copied : Bool)
  | sysDup (p : ProcId) (fd : Int)
  | sysClose (p : ProcId) (fd : Int)
  | kfork (p : ProcId) (memory : Bool)
  | kexit (p : ProcId)
  /-- by the parent's `kwait` -/
  | freeproc (p : ProcId)
  /-- the rest of the kernel takes pages and gives pages back -/
  | memory (freelist : List Nat)

def fileStep : FileAct → Files → Except String (Ret × Files)
  | .sysOpen p omode ip, s => sysOpen s p omode ip
  | .sysPipe p copied, s => sysPipe s p copied
  | .sysDup p fd, s => sysDup s p fd
  | .sysClose p fd, s => sysClose s p fd
  | .kfork p memory, s => kfork s p memory
  | .kexit p, s => kexit s p
  | .freeproc p, s => .ok (.zero, { s with state := Function.update s.state p .unused })
  | .memory freelist, s => .ok (.zero, { s with freelist := freelist })

/-- The page of a pipe that some descriptor refers to. -/
def HasPipe (s : Files) (pa : Nat) : Prop :=
  ∃ p fd f, s.ofile (p, fd) = some f ∧ (s.file f).type = .pipe ∧ (s.file f).pipe = pa

/-- Calls are made by running processes, the first process does not exit, only zombies are reaped, and
the rest of the kernel neither frees the page of a pipe nor frees a page twice. -/
def CallOk (a : FileAct) (s : Files) : Prop :=
  match a with
  | .sysOpen p _ _ => s.state p = .running
  | .sysPipe p _ => s.state p = .running
  | .sysDup p _ => s.state p = .running
  | .sysClose p _ => s.state p = .running
  | .kfork p _ => s.state p = .running
  | .kexit p => s.state p = .running ∧ p ≠ initproc
  | .freeproc p => s.state p = .zombie
  | .memory freelist => freelist.Nodup ∧ ∀ pa ∈ freelist, ¬ HasPipe s pa

instance decidableHasPipe (s : Files) (pa : Nat) : Decidable (HasPipe s pa) :=
  inferInstanceAs (Decidable (∃ p fd f, s.ofile (p, fd) = some f ∧ (s.file f).type = .pipe ∧
    (s.file f).pipe = pa))

instance decidableCallOk (a : FileAct) (s : Files) : Decidable (CallOk a s) :=
  match a with
  | .sysOpen p _ _ => inferInstanceAs (Decidable (s.state p = .running))
  | .sysPipe p _ => inferInstanceAs (Decidable (s.state p = .running))
  | .sysDup p _ => inferInstanceAs (Decidable (s.state p = .running))
  | .sysClose p _ => inferInstanceAs (Decidable (s.state p = .running))
  | .kfork p _ => inferInstanceAs (Decidable (s.state p = .running))
  | .kexit p => inferInstanceAs (Decidable (s.state p = .running ∧ p ≠ initproc))
  | .freeproc p => inferInstanceAs (Decidable (s.state p = .zombie))
  | .memory freelist =>
    inferInstanceAs (Decidable (freelist.Nodup ∧ ∀ pa ∈ freelist, ¬ HasPipe s pa))

/-- Only the first process runs, and no file is open. -/
def bootFiles (page : Nat → Pipe) (freelist : List Nat) : Files :=
  { file := fun _ => ⟨.none, 0, false, false, 0⟩, ofile := fun _ => none
    state := fun p => if p = initproc then .running else .unused
    page := page, freelist := freelist }

end Xv6.File
