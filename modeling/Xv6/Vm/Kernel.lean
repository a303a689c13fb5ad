import Xv6.Vm.Pte

/-!
# Vm — Kernel

The memory of the kernel, and the functions of `kernel/kalloc.c`, `kernel/swap.c` and
`kernel/vm.c` that change it.

Physical memory is a map from page addresses to pages.  A page table is named by the address of
its root page, as in the source; its three levels are kept as three maps instead of bytes of
physical memory: `l1` and `l0` give the pages of the lower-level tables, and `pte` the leaf
entries, all by the leading bits of the virtual address.  A function that stores through a `pte`
pointer stores to `pte`.

A function that can panic returns in `Except String`; one that can fail returns an `Option`, a
`Bool`, or the source's integer.  Every function takes and returns the whole kernel state, since
any of them may run in the middle of another's work on a different table.
-/

namespace Xv6.Vm
open Xv6.Lib
open Xv6.Raid (Page zeroPage PGSIZE BLOCKS_PER_PAGE MAX_SWAP)

/-! ### Constants -/

abbrev NPROC : Nat := 64
abbrev MAX_FRAMES : Nat := 32
abbrev SWAP_START_BLOCK : Nat := 0
abbrev ROTATIONAL_CONST : Nat := 5
abbrev PHYSTOP : Nat := 0x88000000
abbrev MAXVA : Nat := 2 ^ 38
abbrev TRAMPOLINE : Nat := MAXVA - PGSIZE
abbrev TRAPFRAME : Nat := TRAMPOLINE - PGSIZE

/-- `PGROUNDUP`, in 64 bits. -/
def pgRoundUp (sz : Nat) : Nat := (sz + (PGSIZE - 1)) % 2 ^ 64 / PGSIZE * PGSIZE

/-- `PGROUNDDOWN`. -/
def pgRoundDown (a : Nat) : Nat := a / PGSIZE * PGSIZE

/-- A `uint64` plus an `int`. -/
def addInt (a : Nat) (n : Int) : Nat := (((a : Int) + n) % 2 ^ 64).toNat

/-- The `int` that the low 32 bits of `n` hold. -/
def asInt (n : Int) : Int := n.bmod (2 ^ 32)

/-! ### The state -/

/-- A `struct proc *`, as an index of `proc[]`. -/
abbrev ProcId := Fin NPROC

inductive ProcState where
  | unused
  | used
  | sleeping
  | runnable
  | running
  | zombie
  deriving DecidableEq, Repr

/-- The saved registers that the modelled functions name; `rest` are the others. -/
structure Trapframe where
  epc : Nat
  sp : Nat
  a0 : Nat
  a1 : Nat
  rest : Nat → Nat

/-- `struct proc`.  `chan` is a process because these functions sleep on processes only. -/
structure Proc where
  state : ProcState
  chan : Option ProcId
  killed : Bool
  xstate : Int
  pid : Int
  parent : Option ProcId
  sz : Nat
  pagetable : Option Nat
  trapframe : Option Nat
  regs : Trapframe
  name : List Char
  pageFaults : Int
  pagesEvicted : Int
  pagesSwappedIn : Int
  pagesSwappedOut : Int
  residentPages : Int
  diskReads : Nat
  diskWrites : Nat
  totalDiskLatency : Nat
  diskOps : Int

/-- `struct frame_entry`. -/
structure FrameEntry where
  used : Bool
  proc : Option ProcId
  va : Nat
  pa : Nat
  refBit : Bool
  grace : Int

/-- `struct swap_slot`. -/
structure SwapSlot where
  used : Bool
  proc : Option ProcId
  va : Nat
  diskBlock : Nat

/-- The tables below a root page: `l1 (va >> 30)` and `l0 (va >> 21)` are the pages of the
lower-level tables, `pte (va >> 12)` is the leaf entry. -/
structure PageTable where
  l1 : Nat → Option Nat
  l0 : Nat → Option Nat
  pte : Nat → Pte

abbrev FrameTable := Fin MAX_FRAMES → FrameEntry

/-- The kernel.  `kend` is the linker's `end`, `trampoline` the page of the trampoline code.
`nullAllocs` and `swapFulls` count the calls of `kalloc` that returned 0 and of `swap_alloc` that
returned -1; nothing reads them. -/
structure Kernel where
  kend : Nat
  trampoline : Nat
  freelist : List Nat
  mem : Nat → Page
  tables : Nat → PageTable
  procs : ProcId → Proc
  initproc : ProcId
  nextpid : Int
  frameTable : FrameTable
  clockHand : Fin MAX_FRAMES
  swapSpace : Nat → SwapSlot
  swapHead : Nat
  raid : Raid.State
  nullAllocs : Nat
  swapFulls : Nat

def setProc (s : Kernel) (p : ProcId) (x : Proc) : Kernel :=
  { s with procs := Function.update s.procs p x }

def setPage (s : Kernel) (pa : Nat) (x : Page) : Kernel :=
  { s with mem := Function.update s.mem pa x }

def setTable (s : Kernel) (r : Nat) (t : PageTable) : Kernel :=
  { s with tables := Function.update s.tables r t }

/-- Store `e` in the leaf entry of page number `v`. -/
def setPte (s : Kernel) (r v : Nat) (e : Pte) : Kernel :=
  setTable s r { s.tables r with pte := Function.update (s.tables r).pte v e }

def setFrame (s : Kernel) (i : Fin MAX_FRAMES) (f : FrameEntry) : Kernel :=
  { s with frameTable := Function.update s.frameTable i f }

def setSlot (s : Kernel) (slot : Nat) (x : SwapSlot) : Kernel :=
  { s with swapSpace := Function.update s.swapSpace slot x }

/-! ### Physical pages -/

/-- The free list is the list of its pages; the link that the source stores in a free page is
not kept in `mem`. -/
def kfree (s : Kernel) (pa : Nat) : Except String Kernel :=
  if pa % PGSIZE ≠ 0 ∨ pa < s.kend ∨ pa ≥ PHYSTOP then .error "kfree"
  else .ok { setPage s pa (fun _ => 1) with freelist := pa :: s.freelist }

def kalloc (s : Kernel) : Option Nat × Kernel :=
  match s.freelist with
  | [] => (none, { s with nullAllocs := s.nullAllocs + 1 })
  | pa :: rest => (some pa, { setPage s pa (fun _ => 5) with freelist := rest })

/-! ### Swap slots -/

def swapAlloc (s : Kernel) : Option Nat × Kernel :=
  match (List.range MAX_SWAP).find? fun i => !(s.swapSpace i).used with
  | some i => (some i, setSlot s i { s.swapSpace i with used := true })
  | none => (none, { s with swapFulls := s.swapFulls + 1 })

def swapFree (s : Kernel) (slot : Nat) : Kernel :=
  setSlot s slot { s.swapSpace slot with used := false, proc := none, va := 0 }

/-- `|current_head - requested_block| + C`. -/
def swapLatency (head blk : Nat) : Nat :=
  (if blk > head then blk - head else head - blk) + ROTATIONAL_CONST

/-- The disk counters of `p` after one more write to swap. -/
def creditWrite (s : Kernel) (p : ProcId) (latency : Nat) : Kernel :=
  setProc s p { s.procs p with
    diskWrites := (s.procs p).diskWrites + 1,
    totalDiskLatency := (s.procs p).totalDiskLatency + latency,
    diskOps := (s.procs p).diskOps + 1 }

/-- The disk counters of `p` after one more read from swap. -/
def creditRead (s : Kernel) (p : ProcId) (latency : Nat) : Kernel :=
  setProc s p { s.procs p with
    diskReads := (s.procs p).diskReads + 1,
    totalDiskLatency := (s.procs p).totalDiskLatency + latency,
    diskOps := (s.procs p).diskOps + 1 }

def swapWrite (s : Kernel) (slot pa : Nat) (victim : Option ProcId) (va : Nat)
    (creditor : ProcId) : Except String Kernel := do
  let blk := SWAP_START_BLOCK + slot * BLOCKS_PER_PAGE
  let s := setSlot s slot { s.swapSpace slot with diskBlock := blk, proc := victim, va := va }
  let latency := swapLatency s.swapHead blk
  let s := { s with swapHead := blk }
  -- `raid_write` reads the page, and the kernel maps nothing at address 0
  if pa = 0 then .error "kerneltrap"
  else
    let raid ← Raid.raidWrite s.raid blk (s.mem pa)
    return creditWrite { s with raid := raid } creditor latency

def swapRead (s : Kernel) (slot pa : Nat) (creditor : ProcId) : Except String Kernel := do
  let blk := (s.swapSpace slot).diskBlock
  let latency := swapLatency s.swapHead blk
  let s := { s with swapHead := blk }
  let page ← Raid.raidRead s.raid blk (s.mem pa)
  return creditRead (setPage s pa page) creditor latency

/-! ### Page tables -/

/-- `walk(pagetable, va, 0)`, as the entry its result points to; `none` is the null pointer. -/
def walk (s : Kernel) (r va : Nat) : Except String (Option Pte) :=
  if va ≥ MAXVA then .error "walk"
  else
    match (s.tables r).l1 (va / 2 ^ 30), (s.tables r).l0 (va / 2 ^ 21) with
    | some _, some _ => .ok (some ((s.tables r).pte (va / PGSIZE)))
    | _, _ => .ok none

/-- The first turn of the loop of `walk(_, _, 1)`: the level-1 table, cleared when it is new. -/
def walkL1 (s : Kernel) (r k : Nat) : Bool × Kernel :=
  match (s.tables r).l1 k with
  | some _ => (true, s)
  | none =>
    match kalloc s with
    | (none, s) => (false, s)
    | (some pa, s) =>
      (true, setTable s r { s.tables r with
        l1 := Function.update (s.tables r).l1 k (some pa),
        l0 := fun j => if j / 512 = k then none else (s.tables r).l0 j })

/-- The second turn: the level-0 table. -/
def walkL0 (s : Kernel) (r k : Nat) : Bool × Kernel :=
  match (s.tables r).l0 k with
  | some _ => (true, s)
  | none =>
    match kalloc s with
    | (none, s) => (false, s)
    | (some pa, s) =>
      (true, setTable s r { s.tables r with
        l0 := Function.update (s.tables r).l0 k (some pa),
        pte := fun v => if v / 512 = k then 0 else (s.tables r).pte v })

/-- `walk(pagetable, va, 1)`: whether the pointer is not null. -/
def walkAlloc (s : Kernel) (r va : Nat) : Except String (Bool × Kernel) :=
  if va ≥ MAXVA then .error "walk"
  else
    match walkL1 s r (va / 2 ^ 30) with
    | (false, s) => .ok (false, s)
    | (true, s) => .ok (walkL0 s r (va / 2 ^ 21))

/-- The entry of page number `v` in table `r`. -/
def Kernel.pte (s : Kernel) (r v : Nat) : Pte := (s.tables r).pte v

def walkaddr (s : Kernel) (r va : Nat) : Except String Nat :=
  if va ≥ MAXVA then .ok 0
  else do
    match ← walk s r va with
    | none => return 0
    | some e =>
      if !e.has PTE_V then return 0
      else if !e.has PTE_U then return 0
      else return pte2Pa e

/-- The loop of `mappages`, with the number of pages left. -/
def mappagesLoop (r : Nat) (perm : Pte) : Nat → Kernel → Nat → Nat → Except String (Bool × Kernel)
  | 0, s, _, _ => .ok (true, s)
  | n + 1, s, a, pa => do
    let (found, s) ← walkAlloc s r a
    if !found then return (false, s)
    else if (s.pte r (a / PGSIZE)).has PTE_V then .error "mappages: remap"
    else mappagesLoop r perm n (setPte s r (a / PGSIZE) (mapPte pa perm)) (a + PGSIZE) (pa + PGSIZE)

/-- `true` is the result 0. -/
def mappages (s : Kernel) (r va size pa : Nat) (perm : Pte) : Except String (Bool × Kernel) :=
  if va % PGSIZE ≠ 0 then .error "mappages: va not aligned"
  else if size % PGSIZE ≠ 0 then .error "mappages: size not aligned"
  else if size = 0 then .error "mappages: size"
  else mappagesLoop r perm (size / PGSIZE) s va pa

def uvmcreate (s : Kernel) : Option Nat × Kernel :=
  match kalloc s with
  | (none, s) => (none, s)
  | (some r, s) => (some r, setTable s r ⟨fun _ => none, fun _ => none, fun _ => 0⟩)

/-! ### The frame table -/

/-- One sweep of `clock_pick_victim` over `n` entries.  Entries to `skip` are passed; the others
lose their reference bit or, without one, are the victim. -/
def clockSweep (skip : FrameEntry → Bool) : Nat → FrameTable → Fin MAX_FRAMES →
    Option (Fin MAX_FRAMES) × FrameTable × Fin MAX_FRAMES
  | 0, ft, hand => (none, ft, hand)
  | n + 1, ft, hand =>
    if skip (ft hand) then clockSweep skip n ft (hand + 1)
    else if (ft hand).refBit then
      clockSweep skip n (Function.update ft hand { ft hand with refBit := false }) (hand + 1)
    else (some hand, ft, hand + 1)

/-- `clock_pick_victim`, with the table and the hand it leaves. -/
def clockPickVictim (ft : FrameTable) (hand : Fin MAX_FRAMES) (curr : ProcId) :
    Except String (Fin MAX_FRAMES × FrameTable × Fin MAX_FRAMES) :=
  match clockSweep (fun f => !f.used || f.proc != some curr) (2 * MAX_FRAMES) ft hand with
  | (some i, ft, hand) => .ok (i, ft, hand)
  | (none, ft, hand) =>
    match clockSweep (fun f => !f.used || f.proc == none) (2 * MAX_FRAMES) ft hand with
    | (some i, ft, hand) => .ok (i, ft, hand)
    | (none, ft, hand) =>
      match (List.finRange MAX_FRAMES).find? fun i => (ft i).used && (ft i).proc != none with
      | some i => .ok (i, ft, hand)
      | none => .error "clock_pick_victim: no evictable frame"

/-- The first unused entry. -/
def freeFrame (ft : FrameTable) : Option (Fin MAX_FRAMES) :=
  (List.finRange MAX_FRAMES).find? fun i => !(ft i).used

/-- The entry is taken for page `va` of `p`, with its physical page still to come. -/
def claimFrame (s : Kernel) (i : Fin MAX_FRAMES) (p : ProcId) (va pa : Nat) : Kernel :=
  setFrame s i { used := true, proc := some p, va := va, pa := pa, refBit := true, grace := 0 }

/-- The entry is given back after a failed allocation. -/
def releaseFrame (s : Kernel) (i : Fin MAX_FRAMES) : Kernel :=
  setFrame s i { s.frameTable i with used := false, proc := none }

/-- The last part of both paths of `kalloc_user`. -/
def fillFrame (s : Kernel) (i : Fin MAX_FRAMES) : Option Nat × Kernel :=
  match kalloc s with
  | (none, s) => (none, releaseFrame s i)
  | (some pa, s) => (some pa, setFrame s i { s.frameTable i with pa := pa })

/-- The victim's entry becomes a swapped one, when it is still valid. -/
def swapOutEntry (s : Kernel) (vp : ProcId) (vva slot : Nat) : Except String Kernel :=
  match (s.procs vp).pagetable with
  | none => .ok s
  | some r => do
    match ← walk s r vva with
    | none => return s
    | some e =>
      if e.has PTE_V then return setPte s r (vva / PGSIZE) (swapOutPte slot e) else return s

/-- The victim's counters. -/
def countEviction (s : Kernel) (vp : ProcId) : Kernel :=
  setProc s vp { s.procs vp with
    pagesEvicted := (s.procs vp).pagesEvicted + 1,
    pagesSwappedOut := (s.procs vp).pagesSwappedOut + 1,
    residentPages := (s.procs vp).residentPages - 1 }

def kallocUser (s : Kernel) (p : ProcId) (va : Nat) : Except String (Option Nat × Kernel) :=
  match freeFrame s.frameTable with
  | some i => .ok (fillFrame (claimFrame s i p va (s.frameTable i).pa) i)
  | none => do
    let (victim, ft, hand) ← clockPickVictim s.frameTable s.clockHand p
    let s := { s with frameTable := ft, clockHand := hand }
    let vp := (ft victim).proc
    let vva := (ft victim).va
    let vpa := (ft victim).pa
    let s := claimFrame s victim p va 0
    match swapAlloc s with
    | (none, s) => return (none, releaseFrame s victim)
    | (some slot, s) =>
      let s ← swapWrite s slot vpa vp vva p
      let s ← match vp with
        | none => pure s
        | some q => do
          let s ← swapOutEntry s q vva slot
          pure (countEviction s q)
      let s ← kfree s vpa
      return fillFrame s victim

/-! ### User memory -/

/-- The loop of `uvmunmap` over the frame table: the first used entry with this page. -/
def dropFrame (ft : FrameTable) (pa : Nat) : FrameTable :=
  match (List.finRange MAX_FRAMES).find? fun i => (ft i).used && (ft i).pa == pa with
  | some i => Function.update ft i { ft i with used := false, proc := none, pa := 0, va := 0 }
  | none => ft

/-- One turn of the loop of `uvmunmap`. -/
def uvmunmapPage (s : Kernel) (r : Nat) (doFree : Bool) (a : Nat) : Except String Kernel := do
  match ← walk s r a with
  | none => return s
  | some e =>
    if e.has PTE_SWAPPED then return setPte (swapFree s (swapIdx e)) r (a / PGSIZE) 0
    else if !e.has PTE_V then return s
    else if doFree then
      let s := { s with frameTable := dropFrame s.frameTable (pte2Pa e) }
      let s ← kfree s (pte2Pa e)
      return setPte s r (a / PGSIZE) 0
    else return setPte s r (a / PGSIZE) 0

def uvmunmap (s : Kernel) (r va npages : Nat) (doFree : Bool) : Except String Kernel :=
  if va % PGSIZE ≠ 0 then .error "uvmunmap: not aligned"
  else (List.range npages).foldlM (fun s k => uvmunmapPage s r doFree (va + k * PGSIZE)) s

/-- The loop of `uvmdealloc` over the pages to be unmapped: one less resident page for each
valid entry. -/
def countUnmapped (s : Kernel) (p : ProcId) (r va npages : Nat) : Except String Kernel :=
  (List.range npages).foldlM (fun s k => do
    match ← walk s r (va + k * PGSIZE) with
    | none => return s
    | some e =>
      if e.has PTE_V then
        return setProc s p { s.procs p with residentPages := (s.procs p).residentPages - 1 }
      else return s) s

/-- `uvmdealloc` by process `p`, with the size it returns. -/
def uvmdealloc (s : Kernel) (p : ProcId) (r oldsz newsz : Nat) : Except String (Nat × Kernel) :=
  if newsz ≥ oldsz then .ok (oldsz, s)
  else if pgRoundUp newsz < pgRoundUp oldsz then do
    let npages := (pgRoundUp oldsz - pgRoundUp newsz) / PGSIZE
    let s ← countUnmapped s p r (pgRoundUp newsz) npages
    let s ← uvmunmap s r (pgRoundUp newsz) npages true
    return (newsz, s)
  else .ok (newsz, s)

/-- The loop of `uvmalloc` by process `p`, with the number of pages left; `false` is failure, with
the pages from `base` on unmapped again. -/
def uvmallocLoop (p : ProcId) (r base : Nat) (xperm : Pte) :
    Nat → Nat → Kernel → Except String (Bool × Kernel)
  | 0, _, s => .ok (true, s)
  | n + 1, a, s => do
    let (mem, s) ← kallocUser s p a
    match mem with
    | none =>
      let (_, s) ← uvmdealloc s p r a base
      return (false, s)
    | some pa =>
      let s := setPage s pa zeroPage
      let (mapped, s) ← mappages s r a PGSIZE pa (PTE_R ||| PTE_U ||| xperm)
      if mapped then uvmallocLoop p r base xperm n (a + PGSIZE) s
      else
        let s ← kfree s pa
        let (_, s) ← uvmdealloc s p r a base
        return (false, s)

/-- `uvmalloc` by process `p`; the result is 0 on failure. -/
def uvmalloc (s : Kernel) (p : ProcId) (r oldsz newsz : Nat) (xperm : Pte) :
    Except String (Nat × Kernel) :=
  if newsz < oldsz then .ok (oldsz, s)
  else do
    let base := pgRoundUp oldsz
    let (done, s) ← uvmallocLoop p r base xperm ((newsz - base + (PGSIZE - 1)) / PGSIZE) base s
    return (if done then newsz else 0, s)

/-- `vmfault` by process `p`; the result is the physical page, or 0. -/
def vmfault (s : Kernel) (p : ProcId) (r va : Nat) : Except String (Nat × Kernel) := do
  let va := pgRoundDown va
  if va ≥ (s.procs p).sz then return (0, s)
  let (found, s) ← walkAlloc s r va
  if !found then return (0, s)
  let v := va / PGSIZE
  if (s.pte r v).has PTE_SWAPPED then
    let swapIdx := swapIdx (s.pte r v)
    match ← kallocUser s p va with
    | (none, s) => return (0, s)
    | (some mem, s) =>
      let s ← swapRead s swapIdx mem p
      let s := swapFree s swapIdx
      let s := setPte s r v (swapInPte mem (s.pte r v))
      let c := s.procs p
      return (mem, setProc s p { c with
        pagesSwappedIn := c.pagesSwappedIn + 1, residentPages := c.residentPages + 1 })
  else if !(s.pte r v).has PTE_V then
    match ← kallocUser s p va with
    | (none, s) => return (0, s)
    | (some mem, s) =>
      let s := setPage s mem zeroPage
      let s := setPte s r v (pa2Pte mem ||| PTE_V ||| PTE_R ||| PTE_W ||| PTE_U)
      let c := s.procs p
      return (mem, setProc s p { c with
        pageFaults := c.pageFaults + 1, residentPages := c.residentPages + 1 })
  else
    match (List.finRange MAX_FRAMES).find? fun i => (s.frameTable i).used &&
        (s.frameTable i).proc == some p && (s.frameTable i).va == va with
    | none => return (pte2Pa (s.pte r v), s)
    | some i =>
      return (pte2Pa (s.pte r v), setFrame s i { s.frameTable i with refBit := true })

/-! ### Growing and shrinking -/

/-- `growproc` by process `p` with table `r`; `true` is the result 0. -/
def growproc (s : Kernel) (p : ProcId) (r : Nat) (n : Int) : Except String (Bool × Kernel) := do
  let sz := (s.procs p).sz
  if n > 0 then
    if addInt sz n > TRAPFRAME then return (false, s)
    let (sz, s) ← uvmalloc s p r sz (addInt sz n) PTE_W
    if sz = 0 then return (false, s)
    return (true, setProc s p { s.procs p with sz := sz })
  else if n < 0 then
    let (sz, s) ← uvmdealloc s p r sz (addInt sz n)
    return (true, setProc s p { s.procs p with sz := sz })
  else return (true, s)

/-- `sys_sbrk`; the result is the old size, or `none` for -1. -/
def sysSbrk (s : Kernel) (p : ProcId) (r : Nat) (n : Int) (eager : Bool) :
    Except String (Option Nat × Kernel) := do
  let addr := (s.procs p).sz
  if eager ∨ n < 0 then
    let (ok, s) ← growproc s p r n
    if ok then return (some addr, s) else return (none, s)
  else
    if addInt addr n < addr then return (none, s)
    if addInt addr n > TRAPFRAME then return (none, s)
    return (some addr, setProc s p { s.procs p with sz := addInt (s.procs p).sz n })

end Xv6.Vm
