import ElfHook.Inline32.Relocate
import ElfHook.Lib.CString
import ElfHook.Lib.Run
import ElfHook.Lib.Slots
import ElfHook.Lib.Stdio

/-!
# The table of hooks of `inlineHook.c`

A registered item keeps the first bytes of its function and a page with their relocation; a hook
writes a jump over the bytes, and an unhook writes them back, frees the page and deletes the item.
The threads of the process, at their program counters, are moved out of the bytes that change and
out of the pages that go: `fork`, `ptrace` and `mprotect` do what they are asked for. The variables
that get the trampolines' addresses are apart from the code.

A `step` is one call, with the answers that the outside gives there; `none` is a call that the source
leaves undefined.
-/

namespace ElfHook.Inline32

open Lib

def PAGE_SIZE : Nat := 4096
def SET_BIT0 (addr : Word) : Word := addr ||| 1#32
def CLEAR_BIT0 (addr : Word) : Word := addr &&& 0xFFFFFFFE#32
def TEST_BIT0 (addr : Word) : Bool := addr &&& 1#32 ≠ 0#32

inductive ele7en_status where
  | ELE7EN_OK | ELE7EN_ERROR_NOT_EXECUTABLE | ELE7EN_ERROR_NOT_REGISTERED | ELE7EN_ERROR_NOT_HOOKED
  | ELE7EN_ERROR_ALREADY_REGISTERED | ELE7EN_ERROR_ALREADY_HOOKED
  deriving DecidableEq, Repr

open ele7en_status

inductive hook_status where
  | REGISTERED | HOOKED
  deriving DecidableEq, Repr

open hook_status

inductive Action where
  | ACTION_ENABLE | ACTION_DISABLE
  deriving DecidableEq, Repr

/-- `boundaries` are the first `count` entries of `orig_boundaries` and `trampoline_boundaries`, in
pairs. -/
structure inlineHookItem where
  target_addr : Word
  new_addr : Word
  proto_addr : Word
  orig_instructions : List Byte
  boundaries : List (Nat × Nat)
  trampoline_instructions : Word
  length : Nat
  status : hook_status

/-- A slot that was never used. -/
def inlineHookItem.zero : inlineHookItem := ⟨0#32, 0#32, 0#32, [], [], 0#32, 0, REGISTERED⟩

/-- The process: `info`, the code and the pages with the trampolines, the variables that get the
trampolines' addresses, which bytes were written since the instruction cache was last flushed there,
the program counters of the other threads, and what the last call returned. -/
structure Hooks where
  info : Slots inlineHookItem
  mem : Mem
  protos : Word → Word
  pages : List Word
  unflushed : Word → Bool
  pcs : List Word
  ret : Option ele7en_status

/-! ### Threads -/

/-- The program counter that is set, if a boundary is met. -/
def doProcessThreadPC (item : inlineHookItem) (pc : Word) : Action → Option Word
  | .ACTION_ENABLE =>
    let offset := pc - CLEAR_BIT0 item.target_addr
    (item.boundaries.find? fun b => offset = BitVec.ofNat 32 b.1).map fun b =>
      item.trampoline_instructions + BitVec.ofNat 32 b.2
  | .ACTION_DISABLE =>
    let offset := pc - item.trampoline_instructions
    (item.boundaries.find? fun b => offset = BitVec.ofNat 32 b.2).map fun b =>
      CLEAR_BIT0 item.target_addr + BitVec.ofNat 32 b.1

/-- Without an item, the first item of the table that moves the thread. -/
def processThreadPC (info : Slots inlineHookItem) (item : Option inlineHookItem) (action : Action)
    (pc : Word) : Word :=
  match item with
  | none =>
    ((List.range info.size).findSome? fun pos => doProcessThreadPC (info.item pos) pc action).getD pc
  | some item => (doProcessThreadPC item pc action).getD pc

/-- All the threads, until `unFreeze`. -/
def freeze (s : Hooks) (item : Option inlineHookItem) (action : Action) : Hooks :=
  { s with pcs := s.pcs.map (processThreadPC s.info item action) }

/-! ### Memory -/

/-- What follows the token that `strtok` gives first. -/
def afterToken (delim line : List Char) : List Char :=
  ((line.dropWhile (· ∈ delim)).dropWhile (· ∉ delim)).drop 1

def isExecutableLine (line : List Char) (addr : Word) : Bool :=
  if (strstr "r-xp".toList line).isSome || (strstr "rwxp".toList line).isSome then
    match strtok ['-'] line, strtok [' '] (afterToken ['-'] line) with
    | some start, some stop =>
      strtoul 0xFFFFFFFF start 16 ≤ addr.toNat && addr.toNat ≤ strtoul 0xFFFFFFFF stop 16
    | _, _ => false
  else false

/-- `fopen` gives the text of `/proc/self/maps`, if it can be opened. -/
def isExecutableAddr (maps : Option (List Char)) (addr : Word) : Bool :=
  match maps with
  | none => false
  | some text => (fgetsAll 1024 text).any fun line => isExecutableLine (cstring line) addr

/-- A `memcpy` or stores to code. -/
def Hooks.write (s : Hooks) (a : Word) (bs : List Byte) : Hooks :=
  { s with
    mem := s.mem.store a bs
    unflushed := fun c => decide (InArea a bs.length c) || s.unflushed c }

def Hooks.cacheflush (s : Hooks) (start stop : Word) : Hooks :=
  { s with unflushed := fun c => s.unflushed c && !(decide (start ≤ c) && decide (c < stop)) }

/-- The flush of an item's bytes. -/
def Hooks.flushItem (s : Hooks) (item : inlineHookItem) : Hooks :=
  s.cacheflush (CLEAR_BIT0 item.target_addr)
    (CLEAR_BIT0 item.target_addr + BitVec.ofNat 32 item.length)

/-! ### The calls -/

def findInlineHookItem (info : Slots inlineHookItem) (target_addr : Word) : Option Nat :=
  info.find fun item => item.target_addr = target_addr

/-- The length of the bytes that are saved. -/
def hookLength (target_addr : Word) : Nat := if TEST_BIT0 target_addr then 12 else 8

/-- `alloc` is the page that `mmap` gives, unless it or `malloc` fails. The slot taken keeps its
boundaries from earlier items, and there is room for four. -/
def registerInlineHook (s : Hooks) (target_addr new_addr proto_addr : Word)
    (maps : Option (List Char)) (alloc : Option Word) : Option Hooks :=
  if ¬ isExecutableAddr maps target_addr ∨ ¬ isExecutableAddr maps new_addr then
    some { s with ret := some ELE7EN_ERROR_NOT_EXECUTABLE }
  else
    match findInlineHookItem s.info target_addr with
    | some i =>
      match (s.info.item i).status with
      | REGISTERED => some { s with ret := some ELE7EN_ERROR_ALREADY_REGISTERED }
      | HOOKED => some { s with ret := some ELE7EN_ERROR_ALREADY_HOOKED }
    | none =>
      if 1024 ≤ s.info.size then none
      else alloc.bind fun page =>
        let length := hookLength target_addr
        let orig_instructions := s.mem.read (CLEAR_BIT0 target_addr) length
        let r := relocateInstruction s.mem target_addr orig_instructions
        let boundaries := (s.info.item s.info.size).boundaries ++ r.2
        if 4 < boundaries.length then none
        else
          let s' := s.write page (r.1.flatMap halfBytes)
          some { s' with
            info := s.info.push ⟨target_addr, new_addr, proto_addr, orig_instructions, boundaries, page,
              length, REGISTERED⟩
            pages := page :: s.pages
            ret := some ELE7EN_OK }

/-- What is written over the function. -/
def jump (target_addr new_addr : Word) : List Half :=
  if TEST_BIT0 target_addr then
    (if CLEAR_BIT0 target_addr % 4#32 ≠ 0#32 then [0xBF00#16] else []) ++ thumbJump new_addr
  else wordHalves 0xE51FF004#32 ++ wordHalves new_addr

/-- The address that calls the trampoline. -/
def callable (item : inlineHookItem) : Word :=
  if TEST_BIT0 item.target_addr then SET_BIT0 item.trampoline_instructions
  else item.trampoline_instructions

def doInlineHook (s : Hooks) (pos : Nat) : Hooks :=
  let item := s.info.item pos
  let s :=
    if item.proto_addr ≠ 0#32 then
      { s with protos := Function.update s.protos item.proto_addr (callable item) }
    else s
  let s :=
    s.write (CLEAR_BIT0 item.target_addr) ((jump item.target_addr item.new_addr).flatMap halfBytes)
  let s := { s with info := s.info.set pos { item with status := HOOKED } }
  s.flushItem item

def inlineHook (s : Hooks) (target_addr : Word) : Hooks :=
  match findInlineHookItem s.info target_addr with
  | none => { s with ret := some ELE7EN_ERROR_NOT_REGISTERED }
  | some pos =>
    match (s.info.item pos).status with
    | REGISTERED =>
      let s := doInlineHook (freeze s (some (s.info.item pos)) .ACTION_ENABLE) pos
      { s with ret := some ELE7EN_OK }
    | HOOKED => { s with ret := some ELE7EN_ERROR_ALREADY_HOOKED }

/-- The flush comes after the deletion, when another item can be in the place of the deleted one. -/
def doInlineUnHook (s : Hooks) (pos : Nat) : Hooks :=
  let item := s.info.item pos
  let s := s.write (CLEAR_BIT0 item.target_addr) item.orig_instructions
  let s :=
    { s with
      pages := s.pages.erase item.trampoline_instructions
      info := s.info.remove pos }
  s.flushItem (s.info.item pos)

def inlineUnHook (s : Hooks) (target_addr : Word) : Hooks :=
  match s.info.find fun item => item.target_addr = target_addr ∧ item.status = HOOKED with
  | none => { s with ret := some ELE7EN_ERROR_NOT_HOOKED }
  | some pos =>
    let s := doInlineUnHook (freeze s (some (s.info.item pos)) .ACTION_DISABLE) pos
    { s with ret := some ELE7EN_OK }

/-- `++i` over the table, `n` rounds at most. -/
def inlineHookAllLoop : Nat → Nat → Hooks → Hooks
  | 0, _, s => s
  | n + 1, i, s =>
    if i < s.info.size then
      if (s.info.item i).status = REGISTERED then inlineHookAllLoop n (i + 1) (doInlineHook s i)
      else inlineHookAllLoop n (i + 1) s
    else s

def inlineHookAll (s : Hooks) : Hooks :=
  { inlineHookAllLoop s.info.size 0 (freeze s none .ACTION_ENABLE) with ret := none }

/-- After a deletion the index stays, since the slot holds another item. -/
def inlineUnHookAllLoop : Nat → Nat → Hooks → Hooks
  | 0, _, s => s
  | n + 1, i, s =>
    if i < s.info.size then
      if (s.info.item i).status = HOOKED then inlineUnHookAllLoop n i (doInlineUnHook s i)
      else inlineUnHookAllLoop n (i + 1) s
    else s

def inlineUnHookAll (s : Hooks) : Hooks :=
  { inlineUnHookAllLoop s.info.size 0 (freeze s none .ACTION_DISABLE) with ret := none }

/-! ### Runs -/

/-- A call, or the other threads getting somewhere else between two calls. -/
inductive Event where
  | registerInlineHook (target_addr new_addr proto_addr : Word) (maps : Option (List Char))
      (alloc : Option Word)
  | inlineHook (target_addr : Word)
  | inlineUnHook (target_addr : Word)
  | inlineHookAll
  | inlineUnHookAll
  | threads (pcs : List Word)

/-- `mmap` gives a page of its own: `mapped` are the bytes that the process has anyway. -/
def CanMap (mapped : Word → Bool) (s : Hooks) (page : Word) : Prop :=
  page &&& 0xFFF#32 = 0#32 ∧ page ∉ s.pages ∧
    ∀ i < PAGE_SIZE, mapped (page + BitVec.ofNat 32 i) = false

instance (mapped : Word → Bool) (s : Hooks) (page : Word) : Decidable (CanMap mapped s page) := by
  unfold CanMap
  infer_instance

def step (mapped : Word → Bool) (s : Hooks) : Event → Option Hooks
  | .registerInlineHook target_addr new_addr proto_addr maps alloc =>
    if ∀ page ∈ alloc, CanMap mapped s page then
      registerInlineHook s target_addr new_addr proto_addr maps alloc
    else none
  | .inlineHook target_addr => some (inlineHook s target_addr)
  | .inlineUnHook target_addr => some (inlineUnHook s target_addr)
  | .inlineHookAll => some (inlineHookAll s)
  | .inlineUnHookAll => some (inlineUnHookAll s)
  | .threads pcs => some { s with pcs := pcs }

/-- Before the first call. -/
def Hooks.initial (mem : Mem) : Hooks where
  info := ⟨fun _ => inlineHookItem.zero, 0⟩
  mem := mem
  protos _ := 0#32
  pages := []
  unflushed _ := false
  pcs := []
  ret := none

end ElfHook.Inline32
