import ElfHook.Lib.LittleEndian

/-!
# The instruction relocation of `relocate.c`

The first instructions of an ARM or Thumb function are copied to a trampoline, those that depend on
their address rewritten. A trampoline is a list of halfwords. `mem` is the memory at the time of the
relocation: literals are read from it, and written as values. Boundaries are offsets in bytes.
-/

namespace ElfHook.Inline32

open Lib

inductive INSTRUCTION_TYPE where
  | B1_THUMB16 | B2_THUMB16 | BX_THUMB16 | ADD_THUMB16 | MOV_THUMB16 | ADR_THUMB16 | LDR_THUMB16
  | CB_THUMB16
  | BLX_THUMB32 | BL_THUMB32 | B1_THUMB32 | B2_THUMB32 | ADR1_THUMB32 | ADR2_THUMB32 | LDR_THUMB32
  | TBB_THUMB32 | TBH_THUMB32
  | BLX_ARM | BL_ARM | B_ARM | BX_ARM | ADD_ARM | ADR1_ARM | ADR2_ARM | MOV_ARM | LDR_ARM
  | UNDEFINE
  deriving DecidableEq, Repr

open INSTRUCTION_TYPE

def ALIGN_PC (pc : Word) : Word := pc &&& 0xFFFFFFFC#32

def getTypeInThumb16 (instruction : Half) : INSTRUCTION_TYPE :=
  if instruction &&& 0xF000#16 = 0xD000#16 then B1_THUMB16
  else if instruction &&& 0xF800#16 = 0xE000#16 then B2_THUMB16
  else if instruction &&& 0xFFF8#16 = 0x4778#16 then BX_THUMB16
  else if instruction &&& 0xFF78#16 = 0x4478#16 then ADD_THUMB16
  else if instruction &&& 0xFF78#16 = 0x4678#16 then MOV_THUMB16
  else if instruction &&& 0xF800#16 = 0xA000#16 then ADR_THUMB16
  else if instruction &&& 0xF800#16 = 0x4800#16 then LDR_THUMB16
  else if instruction &&& 0xF500#16 = 0xB100#16 then CB_THUMB16
  else UNDEFINE

def getTypeInThumb32 (instruction : Word) : INSTRUCTION_TYPE :=
  if instruction &&& 0xFFF0D000#32 = 0xF3B08000#32 then UNDEFINE
  else if instruction &&& 0xF800D000#32 = 0xF000C000#32 then BLX_THUMB32
  else if instruction &&& 0xF800D000#32 = 0xF000D000#32 then BL_THUMB32
  else if instruction &&& 0xF800D000#32 = 0xF0008000#32 then B1_THUMB32
  else if instruction &&& 0xF800D000#32 = 0xF0009000#32 then B2_THUMB32
  else if instruction &&& 0xFBFF8000#32 = 0xF2AF0000#32 then ADR1_THUMB32
  else if instruction &&& 0xFBFF8000#32 = 0xF20F0000#32 then ADR2_THUMB32
  else if instruction &&& 0xFF7F0000#32 = 0xF85F0000#32 then LDR_THUMB32
  else if instruction &&& 0xFFFF00F0#32 = 0xE8DF0000#32 then TBB_THUMB32
  else if instruction &&& 0xFFFF00F0#32 = 0xE8DF0010#32 then TBH_THUMB32
  else UNDEFINE

def getTypeInArm (instruction : Word) : INSTRUCTION_TYPE :=
  if instruction &&& 0xFE000000#32 = 0xFA000000#32 then BLX_ARM
  else if instruction &&& 0xF000000#32 = 0xB000000#32 then BL_ARM
  else if instruction &&& 0xF000000#32 = 0xA000000#32 then B_ARM
  else if instruction &&& 0xFF000FF#32 = 0x120001F#32 then BX_ARM
  else if instruction &&& 0xFEF0010#32 = 0x8F0000#32 then ADD_ARM
  else if instruction &&& 0xFFF0000#32 = 0x28F0000#32 then ADR1_ARM
  else if instruction &&& 0xFFF0000#32 = 0x24F0000#32 then ADR2_ARM
  else if instruction &&& 0xE5F0000#32 = 0x41F0000#32 then LDR_ARM
  else if instruction &&& 0xFE00FFF#32 = 0x1A0000F#32 then MOV_ARM
  else UNDEFINE

/-- `x` with its sign bit, bit `n - 1`, carried to the top. -/
def signed (x : Word) (n : Nat) : Word :=
  if x >>> (n - 1) ≠ 0#32 then x ||| (0xFFFFFFFF#32 <<< n) else x

/-- `for (r = n; ; --r)` up to the first `r` that is not taken. -/
def scratch (taken : List Nat) : Nat → Nat
  | 0 => 0
  | r + 1 => if r + 1 ∈ taken then scratch taken r else r + 1

/-- The register number in the field of four bits from bit `lo`. -/
def regField (instruction : Word) (lo : Nat) : Nat := (instruction.extractLsb' lo 4).toNat

def low16 (value : Word) : Half := value.extractLsb' 0 16
def high16 (value : Word) : Half := value.extractLsb' 16 16

/-- `LDR.W PC, [PC]` and the word that it loads. -/
def thumbJump (value : Word) : List Half := [0xF8DF#16, 0xF000#16, low16 value, high16 value]

/-! ### One instruction -/

def relocateInstructionInThumb16 (mem : Mem) (pc : Word) (instruction : Half) : List Half :=
  let wide : Word := instruction.setWidth 32
  match getTypeInThumb16 instruction with
  | B1_THUMB16 =>
    let x := (wide &&& 0xFF#32) <<< 1
    [instruction &&& 0xFF00#16, 0xE003#16] ++ thumbJump ((pc + signed x 9) ||| 1#32)
  | B2_THUMB16 =>
    let x := (wide &&& 0x7FF#32) <<< 1
    thumbJump ((pc + signed x 12) ||| 1#32)
  | BX_THUMB16 => thumbJump (pc ||| 1#32)
  | ADD_THUMB16 =>
    let rdn := (((instruction &&& 0x80#16) >>> 4) ||| (instruction &&& 0x7#16)).toNat
    let r := scratch [rdn] 7
    [0xB400#16 ||| (1#16 <<< r), 0x4802#16 ||| (BitVec.ofNat 16 r <<< 8),
      (instruction &&& 0xFF87#16) ||| (BitVec.ofNat 16 r <<< 3), 0xBC00#16 ||| (1#16 <<< r),
      0xE002#16, 0xBF00#16, low16 pc, high16 pc]
  | MOV_THUMB16 =>
    [0x4800#16 ||| ((instruction &&& 0x7#16) <<< 8), 0xE001#16, low16 pc, high16 pc]
  | ADR_THUMB16 =>
    -- `+` binds tighter than `<<`
    let value := (ALIGN_PC pc + (wide &&& 0xFF#32)) <<< 2
    [0x4800#16 ||| (((instruction &&& 0x700#16) >>> 8) <<< 8), 0xE001#16, low16 value, high16 value]
  | LDR_THUMB16 =>
    let value := mem.word (ALIGN_PC pc + ((wide &&& 0xFF#32) <<< 2))
    [0x4800#16 ||| (((instruction &&& 0x700#16) >>> 8) <<< 8), 0xE001#16, low16 value, high16 value]
  | CB_THUMB16 =>
    let imm32 := ((wide &&& 0x200#32) >>> 3) ||| ((wide &&& 0xF8#32) >>> 2)
    [instruction &&& 0xFD07#16, 0xE003#16] ++ thumbJump (pc + imm32 + 1#32)
  | _ => [instruction, 0xBF00#16]

/-- The offset of `BLX`, `BL` and `B2`; `low` are the bits of the second halfword that count. -/
def branch25 (high_instruction low_instruction low : Half) : Word :=
  let j1 := (low_instruction &&& 0x2000#16).setWidth 32 >>> 13
  let j2 := (low_instruction &&& 0x800#16).setWidth 32 >>> 11
  let s : Word := (high_instruction &&& 0x400#16).setWidth 32 >>> 10
  let i1 := if j1 ^^^ s = 0#32 then 1#32 else 0#32
  let i2 := if j2 ^^^ s = 0#32 then 1#32 else 0#32
  signed ((s <<< 24) ||| (i1 <<< 23) ||| (i2 <<< 22) |||
    ((high_instruction &&& 0x3FF#16).setWidth 32 <<< 12) |||
    ((low_instruction &&& low).setWidth 32 <<< 1)) 25

/-- The offset of `B1`. -/
def branch21 (high_instruction low_instruction : Half) : Word :=
  let j1 := (low_instruction &&& 0x2000#16).setWidth 32 >>> 13
  let j2 := (low_instruction &&& 0x800#16).setWidth 32 >>> 11
  let s : Word := (high_instruction &&& 0x400#16).setWidth 32 >>> 10
  signed ((s <<< 20) ||| (j2 <<< 19) ||| (j1 <<< 18) |||
    ((high_instruction &&& 0x3F#16).setWidth 32 <<< 12) |||
    ((low_instruction &&& 0x7FF#16).setWidth 32 <<< 1)) 21

/-- The fields of `ADR.W`, as the source shifts them. -/
def adrImm32 (instruction : Word) : Word :=
  let i := (instruction &&& 0x4000000#32) >>> 26
  let imm3 := (instruction &&& 0x7000#32) >>> 12
  let imm8 := instruction &&& 0xFF#32
  (i <<< 31) ||| (imm3 <<< 30) ||| (imm8 <<< 27)

/-- The load of `value` to `r`. -/
def thumbLoad (r : Half) (value : Word) : List Half :=
  [0xF8DF#16, (r <<< 12) ||| 4#16, 0xBF00#16, 0xE001#16, low16 value, high16 value]

/-- The table branches: `PUSH {Rx}`, the entry of the table to `Rx`, `pc` and twice the entry to
`Rr`, `POP {Rx}`, `BX Rr`. -/
def thumbTable (pc : Word) (low_instruction : Half) (entry : Nat → Nat → List Half) : List Half :=
  let rm := (low_instruction &&& 0xF#16).toNat
  let r := scratch [rm] 7
  let rx := scratch [rm, r] 7
  [0xB400#16 ||| (1#16 <<< rx), 0x4805#16 ||| (BitVec.ofNat 16 r <<< 8),
    0x4600#16 ||| (BitVec.ofNat 16 rm <<< 3) ||| BitVec.ofNat 16 rx] ++ entry r rx ++
  [0xEB00#16 ||| BitVec.ofNat 16 r, 0x0040#16 ||| (BitVec.ofNat 16 r <<< 8) ||| BitVec.ofNat 16 rx,
    0x3001#16 ||| (BitVec.ofNat 16 r <<< 8), 0xBC00#16 ||| (1#16 <<< rx),
    0x4700#16 ||| (BitVec.ofNat 16 r <<< 3), 0xBF00#16, low16 pc, high16 pc]

def relocateInstructionInThumb32 (mem : Mem) (pc : Word) (high_instruction low_instruction : Half) :
    List Half :=
  let instruction : Word := high_instruction ++ low_instruction
  match getTypeInThumb32 instruction with
  | BLX_THUMB32 =>
    [0xF20F#16, 0x0E09#16] ++
      thumbJump (ALIGN_PC pc + branch25 high_instruction low_instruction 0x7FE#16)
  | BL_THUMB32 =>
    [0xF20F#16, 0x0E09#16] ++
      thumbJump (ALIGN_PC pc + branch25 high_instruction low_instruction 0x7FF#16 + 1#32)
  | B1_THUMB32 =>
    [0xD000#16 ||| ((high_instruction &&& 0x3C0#16) <<< 2), 0xE003#16] ++
      thumbJump (ALIGN_PC pc + branch21 high_instruction low_instruction + 1#32)
  | B2_THUMB32 =>
    thumbJump (ALIGN_PC pc + branch25 high_instruction low_instruction 0x7FF#16 + 1#32)
  | ADR1_THUMB32 =>
    thumbLoad ((low_instruction &&& 0xF00#16) >>> 8) (ALIGN_PC pc + adrImm32 instruction)
  | ADR2_THUMB32 =>
    thumbLoad ((low_instruction &&& 0xF00#16) >>> 8) (ALIGN_PC pc - adrImm32 instruction)
  | LDR_THUMB32 =>
    let imm32 : Word := (low_instruction &&& 0xFFF#16).setWidth 32
    let addr :=
      if high_instruction &&& 0x80#16 ≠ 0#16 then ALIGN_PC pc + imm32 else ALIGN_PC pc - imm32
    thumbLoad (low_instruction >>> 12) (mem.word addr)
  | TBB_THUMB32 =>
    thumbTable pc low_instruction fun r rx =>
      [0xEB00#16 ||| BitVec.ofNat 16 r, (BitVec.ofNat 16 rx <<< 8) ||| BitVec.ofNat 16 rx,
        0x7800#16 ||| (BitVec.ofNat 16 rx <<< 3) ||| BitVec.ofNat 16 rx]
  | TBH_THUMB32 =>
    thumbTable pc low_instruction fun r rx =>
      [0xEB00#16 ||| BitVec.ofNat 16 r, 0x0040#16 ||| (BitVec.ofNat 16 rx <<< 8) ||| BitVec.ofNat 16 rx,
        0x8800#16 ||| (BitVec.ofNat 16 rx <<< 3) ||| BitVec.ofNat 16 rx]
  | _ => [high_instruction, low_instruction]

/-- `LDR Rr, [PC]`, `ADD PC, PC` and the value. -/
def armLoad (r : Nat) (value : Word) : List Word :=
  [0xE51F0000#32 ||| (BitVec.ofNat 32 r <<< 12), 0xE28FF000#32, value]

/-- A round of the loop of `relocateInstructionInArm`. -/
def relocateOneInArm (mem : Mem) (pc instruction : Word) : List Word :=
  let imm24 := (instruction &&& 0xFFFFFF#32) <<< 2
  let imm12 := instruction &&& 0xFFF#32
  let rd := regField instruction 12
  match getTypeInArm instruction with
  | BLX_ARM =>
    let x := imm24 ||| ((instruction &&& 0x1000000#32) >>> 23)
    [0xE28FE004#32, 0xE51FF004#32, pc + signed x 26 + 1#32]
  | BL_ARM => [0xE28FE004#32, 0xE51FF004#32, pc + signed imm24 26]
  | B_ARM => [0xE51FF004#32, pc + signed imm24 26]
  | BX_ARM => [0xE51FF004#32, pc + signed 0#32 26]
  | ADD_ARM =>
    let rm := regField instruction 0
    let r := scratch [rd, rm] 12
    [0xE52D0004#32 ||| (BitVec.ofNat 32 r <<< 12), 0xE59F0008#32 ||| (BitVec.ofNat 32 r <<< 12),
      (instruction &&& 0xFFF0FFFF#32) ||| (BitVec.ofNat 32 r <<< 16),
      0xE49D0004#32 ||| (BitVec.ofNat 32 r <<< 12), 0xE28FF000#32, pc]
  | ADR1_ARM => armLoad rd (pc + imm12)
  | ADR2_ARM => armLoad rd (pc - imm12)
  | LDR_ARM =>
    let addr := if instruction &&& 0x800000#32 ≠ 0#32 then pc + imm12 else pc - imm12
    armLoad rd (mem.word addr)
  | MOV_ARM => armLoad rd pc
  | _ => [instruction]

/-! ### The loops -/

/-- What has been written, and the boundaries noted, when `orig_pos` units of the function have been
taken. -/
structure Relocated (U : Type) where
  orig_pos : Nat
  trampoline : List U
  boundaries : List (Nat × Nat)

/-- The boundary in front of an instruction; a unit has `sz` bytes. -/
def Relocated.mark {U : Type} (s : Relocated U) (sz : Nat) : Relocated U :=
  { s with boundaries := s.boundaries ++ [(s.orig_pos * sz, s.trampoline.length * sz)] }

/-- `n` units of the function became `out`. -/
def Relocated.emit {U : Type} (s : Relocated U) (n : Nat) (out : List U) : Relocated U :=
  { s with orig_pos := s.orig_pos + n, trampoline := s.trampoline ++ out }

def isThumb32 (h : Half) : Prop := 0x1D ≤ (h >>> 11).toNat ∧ (h >>> 11).toNat ≤ 0x1F

instance (h : Half) : Decidable (isThumb32 h) := by
  unfold isThumb32
  infer_instance

/-- The loop of `relocateInstructionInThumb` over the halfwords that are left. A 32-bit instruction
that begins in the last of them is noted and not moved. -/
def thumbLoop (mem : Mem) : Word → List Half → Relocated Half → Relocated Half
  | _, [], s => s
  | pc, high :: rest, s =>
    let s := s.mark 2
    if isThumb32 high then
      match rest with
      | [] => s
      | low :: rest =>
        thumbLoop mem (pc + 4#32) rest (s.emit 2 (relocateInstructionInThumb32 mem pc high low))
    else thumbLoop mem (pc + 2#32) rest (s.emit 1 (relocateInstructionInThumb16 mem pc high))

def relocateInstructionInThumb (mem : Mem) (target_addr : Word) (orig_instructions : List Half) :
    List Half × List (Nat × Nat) :=
  let s := thumbLoop mem (target_addr + 4#32) orig_instructions ⟨0, [], []⟩
  let lr := target_addr + BitVec.ofNat 32 (s.orig_pos * 2) + 1#32
  (s.trampoline ++ thumbJump lr, s.boundaries)

def armLoop (mem : Mem) : Word → List Word → Relocated Word → Relocated Word
  | _, [], s => s
  | pc, instruction :: rest, s =>
    armLoop mem (pc + 4#32) rest ((s.mark 4).emit 1 (relocateOneInArm mem pc instruction))

def relocateInstructionInArm (mem : Mem) (target_addr : Word) (orig_instructions : List Word) :
    List Word × List (Nat × Nat) :=
  let s := armLoop mem (target_addr + 8#32) orig_instructions ⟨0, [], []⟩
  let lr := target_addr + BitVec.ofNat 32 (orig_instructions.length * 4)
  (s.trampoline ++ [0xE51FF004#32, lr], s.boundaries)

/-- A little-endian sequence read in units of twice the size. -/
def pairs {n : Nat} : List (BitVec n) → List (BitVec (n + n))
  | lo :: hi :: rest => (hi ++ lo) :: pairs rest
  | _ => []

def halves (bs : List Byte) : List Half := pairs bs
def words (bs : List Byte) : List Word := pairs (halves bs)

/-- The halfwords of the trampoline, and the boundaries. -/
def relocateInstruction (mem : Mem) (target_addr : Word) (orig_instructions : List Byte) :
    List Half × List (Nat × Nat) :=
  if target_addr &&& 1#32 = 1#32 then
    relocateInstructionInThumb mem (target_addr - 1#32) (halves orig_instructions)
  else
    let (ws, boundaries) := relocateInstructionInArm mem target_addr (words orig_instructions)
    (ws.flatMap wordHalves, boundaries)

end ElfHook.Inline32
