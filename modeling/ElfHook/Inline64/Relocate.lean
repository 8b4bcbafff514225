import ElfHook.Lib.A64

/-!
# The instruction relocation of `And64InlineHook`

`fix_instructions` copies the first instructions of a function to a trampoline and rewrites those
that depend on their address. Addresses are integers, `mem` holds the words of the function, and
`out` the words written so far, from `outp_base` up to `outp`. A branch to an instruction that is
not relocated yet is written with offset zero and entered in the `fmap` of its target, whose
relocation completes it (`process_fix_map`).
-/

namespace ElfHook.Inline64

open Lib Lib.A64

def A64_MAX_INSTRUCTIONS : Nat := 5
def A64_MAX_REFERENCES : Nat := A64_MAX_INSTRUCTIONS * 2
def A64_NOP : Word := 0xd503201f#32

/-- A word at `bp` that waits for its target: left-shift count and `&` operand of the offset. -/
structure FixInfo where
  bp : Int
  ls : Nat
  ad : Word
  deriving DecidableEq, Repr

/-- Where an instruction went, and the words that wait for it: the used entries of its `fmap`,
which are the first ones. -/
structure InsnsInfo where
  ins : Int
  fmap : List FixInfo
  deriving DecidableEq, Repr

structure Context where
  basep : Int
  endp : Int
  dat : Nat → InsnsInfo

namespace Context

variable (ctx : Context)

def is_in_fixing_range (absolute_addr : Int) : Prop :=
  ctx.basep ≤ absolute_addr ∧ absolute_addr < ctx.endp

instance (a : Int) : Decidable (ctx.is_in_fixing_range a) := by
  unfold is_in_fixing_range
  infer_instance

def get_ref_ins_index (absolute_addr : Int) : Nat := ((absolute_addr - ctx.basep) / 4).toNat

def reset_current_ins (idx : Nat) (outp : Int) : Context :=
  { ctx with dat := Function.update ctx.dat idx ⟨outp, (ctx.dat idx).fmap⟩ }

/-- With all `A64_MAX_REFERENCES` entries taken, nothing is entered. -/
def insert_fix_map (idx : Nat) (bp : Int) (ls : Nat) (ad : Word) : Context :=
  if (ctx.dat idx).fmap.length < A64_MAX_REFERENCES then
    let d := ctx.dat idx
    { ctx with dat := Function.update ctx.dat idx ⟨d.ins, d.fmap ++ [⟨bp, ls, ad⟩]⟩ }
  else ctx

end Context

/-- The state of the loop of `fix_instructions`. -/
structure Fixer where
  inp : Int
  outp_base : Int
  out : List Word
  ctx : Context

namespace Fixer

variable (f : Fixer)

def outp : Int := f.outp_base + 4 * f.out.length

/-- Words stored at `outp`, which moves past them. -/
def emit (ws : List Word) : Fixer := { f with out := f.out ++ ws }

/-- `get_and_set_current_index` and `reset_current_ins`: instruction `idx` goes to `outp`. -/
def reset (idx : Nat) : Fixer := { f with ctx := f.ctx.reset_current_ins idx f.outp }

def insert_fix_map (idx : Nat) (ls : Nat) (ad : Word) : Fixer :=
  { f with ctx := f.ctx.insert_fix_map idx f.outp ls ad }

/-- What `process_fix_map` adds to the word at `e.bp` when the target is at `ins`. -/
def fixBits (ins : Int) (e : FixInfo) : Word :=
  (BitVec.ofInt 32 (ins - e.bp)).sshiftRight 2 <<< e.ls &&& e.ad

def patch (ins : Int) (out : List Word) (e : FixInfo) : List Word :=
  out.modify ((e.bp - f.outp_base) / 4).toNat (· ||| fixBits ins e)

def process_fix_map (idx : Nat) : Fixer :=
  { f with
    out := (f.ctx.dat idx).fmap.foldl (f.patch (f.ctx.dat idx).ins) f.out
    ctx := { f.ctx with dat := Function.update f.ctx.dat idx ⟨(f.ctx.dat idx).ins, []⟩ } }

/-- `while (p) *outp++ = A64_NOP`; with aligned addresses the loops stop within four rounds. -/
def nopWhile (p : Int → Bool) : Nat → Fixer → Fixer
  | 0, f => f
  | fuel + 1, f => if p f.outp then nopWhile p fuel (f.emit [A64_NOP]) else f

def advance : Fixer := { f with inp := f.inp + 4 }

end Fixer

/-- The two words of an `int64_t`. -/
def words64 (a : Int) : List Word :=
  [(BitVec.ofInt 64 a).extractLsb' 0 32, (BitVec.ofInt 64 a).extractLsb' 32 32]

open Fixer

def fix_branch_imm (mem : Int → Word) (f : Fixer) : Option Fixer :=
  let mask := 0xfc000000#32
  let rmask := 0x03ffffff#32
  let ins := mem f.inp
  let opc := ins &&& mask
  if opc = 0x14000000#32 ∨ opc = 0x94000000#32 then
    let current_idx := f.ctx.get_ref_ins_index f.inp
    let f := f.reset current_idx
    let absolute_addr := f.inp + ((ins <<< 6).sshiftRight 4).toInt
    let new_pc_offset := (absolute_addr - f.outp) >>> (2 : Nat)
    let f :=
      if ¬ f.ctx.is_in_fixing_range absolute_addr ∧ (rmask >>> 1).toNat ≤ new_pc_offset.natAbs then
        if opc = 0x14000000#32 then
          let f := if (f.outp + 8) % 8 ≠ 0 then (f.emit [A64_NOP]).reset current_idx else f
          f.emit ([0x58000051#32, 0xd61f0220#32] ++ words64 absolute_addr)
        else
          let f := if (f.outp + 8) % 8 = 0 then (f.emit [A64_NOP]).reset current_idx else f
          f.emit ([0x58000071#32, 0x1000009e#32, 0xd61f0220#32] ++ words64 absolute_addr)
      else if f.ctx.is_in_fixing_range absolute_addr then
        let ref_idx := f.ctx.get_ref_ins_index absolute_addr
        if ref_idx ≤ current_idx then
          f.emit [opc ||| (BitVec.ofInt 32 (((f.ctx.dat ref_idx).ins - f.outp) >>> (2 : Nat)) &&& ~~~ mask)]
        else (f.insert_fix_map ref_idx 0 rmask).emit [opc ||| (0#32 &&& ~~~ mask)]
      else f.emit [opc ||| (BitVec.ofInt 32 new_pc_offset &&& ~~~ mask)]
    some (f.advance.process_fix_map current_idx)
  else none

/-- The bits outside the offset field, or `none` if the instruction is no such branch. -/
def cond_lmask (ins : Word) : Option Word :=
  if ins &&& 0xff000010#32 ≠ 0x54000000#32 then
    let opc := ins &&& 0x7f000000#32
    if opc ≠ 0x34000000#32 ∧ opc ≠ 0x35000000#32 then
      if opc ≠ 0x36000000#32 ∧ opc ≠ 0x37000000#32 then none else some 0xfff8001f#32
    else some 0xff00001f#32
  else some 0xff00001f#32

def fix_cond_comp_test_branch (mem : Int → Word) (f : Fixer) : Option Fixer :=
  let lsb := 5
  let ins := mem f.inp
  (cond_lmask ins).map fun lmask =>
    let current_idx := f.ctx.get_ref_ins_index f.inp
    let f := f.reset current_idx
    -- the offset is not sign-extended
    let absolute_addr := f.inp + ((ins &&& ~~~ lmask) >>> (lsb - 2)).toNat
    let new_pc_offset := (absolute_addr - f.outp) >>> (2 : Nat)
    let f :=
      if ¬ f.ctx.is_in_fixing_range absolute_addr ∧
          (~~~ lmask >>> (lsb + 1)).toNat ≤ new_pc_offset.natAbs then
        let f := if (f.outp + 16) % 8 ≠ 0 then (f.emit [A64_NOP]).reset current_idx else f
        f.emit ([((8#32 >>> 2) <<< lsb &&& ~~~ lmask) ||| (ins &&& lmask), 0x14000005#32,
          0x58000051#32, 0xd61f0220#32] ++ words64 absolute_addr)
      else if f.ctx.is_in_fixing_range absolute_addr then
        let ref_idx := f.ctx.get_ref_ins_index absolute_addr
        if ref_idx ≤ current_idx then
          f.emit [(BitVec.ofInt 32 (((f.ctx.dat ref_idx).ins - f.outp) >>> (2 : Nat)) <<< lsb &&& ~~~ lmask)
            ||| (ins &&& lmask)]
        else (f.insert_fix_map ref_idx lsb (~~~ lmask)).emit [(0#32 <<< lsb &&& ~~~ lmask) ||| (ins &&& lmask)]
      else f.emit [(BitVec.ofInt 32 new_pc_offset <<< lsb &&& ~~~ lmask) ||| (ins &&& lmask)]
    f.advance.process_fix_map current_idx

/-- The mask and the alignment, less one, of a literal load. -/
def loadlit_mask (ins : Word) : Option (Word × Nat) :=
  let faligned := if ins &&& 0x40000000#32 ≠ 0#32 then 7 else 3
  if ins &&& 0xbf000000#32 ≠ 0x18000000#32 then
    let faligned :=
      if faligned ≠ 7 then (if ins &&& 0x80000000#32 ≠ 0#32 then 15 else 3) else faligned
    if ins &&& 0x3f000000#32 ≠ 0x1c000000#32 then
      if ins &&& 0xff000000#32 ≠ 0x98000000#32 then none else some (0xff000000#32, 7)
    else some (0x3f000000#32, faligned)
  else some (0xbf000000#32, faligned)

def fix_loadlit (mem : Int → Word) (f : Fixer) : Option Fixer :=
  let lsb := 5
  let lmask := 0xff00001f#32
  let ins := mem f.inp
  let current_idx := f.ctx.get_ref_ins_index f.inp
  if ins &&& 0xff000000#32 = 0xd8000000#32 then
    some ((f.reset current_idx).process_fix_map current_idx).advance
  else (loadlit_mask ins).map fun (mask, faligned) =>
    let f := f.reset current_idx
    -- `& ~3u` makes the offset unsigned
    let absolute_addr := f.inp + ((ins <<< 8).sshiftRight 11 &&& ~~~ 3#32).toNat
    let new_pc_offset := (absolute_addr - f.outp) >>> (2 : Nat)
    let f :=
      if f.ctx.is_in_fixing_range absolute_addr ∨
          (~~~ lmask >>> (lsb + 1)).toNat ≤ new_pc_offset.natAbs + (faligned + 1 - 4) / 4 then
        let f := nopWhile (fun outp => (outp + 8) % (faligned + 1 : Nat) ≠ 0) 4 f
        let f := f.reset current_idx
        let ns := (faligned + 1) / 4
        f.emit ([((8#32 >>> 2) <<< lsb &&& ~~~ mask) ||| (ins &&& lmask),
            0x14000001#32 + BitVec.ofNat 32 ns]
          ++ (List.range ns).map fun i : Nat => mem (absolute_addr + 4 * i))
      else
        let faligned := faligned >>> 2
        let f := nopWhile
          (fun outp => ((absolute_addr - outp) >>> (2 : Nat)) % (faligned + 1 : Nat) ≠ 0) 4 f
        let f := f.reset current_idx
        f.emit [(BitVec.ofInt 32 ((absolute_addr - f.outp) >>> (2 : Nat)) <<< lsb &&& ~~~ mask)
          ||| (ins &&& lmask)]
    f.advance.process_fix_map current_idx

/-- `LDR Xd, #8; B #12` and the address. -/
def ldr_address (ins : Word) (absolute_addr : Int) : List Word :=
  [0x58000000#32 ||| ((8#32 >>> 2) <<< 5 &&& ~~~ 0x9f000000#32) ||| (ins &&& 0x0000001f#32),
    0x14000003#32] ++ words64 absolute_addr

def fix_pcreladdr (mem : Int → Word) (f : Fixer) : Option Fixer :=
  let lsb := 5
  let lmask := 0xff00001f#32
  let fmask := 0x00ffffff#32
  let max_val := 0x001fffff#32
  let ins := mem f.inp
  let current_idx := f.ctx.get_ref_ins_index f.inp
  let imm := ((ins <<< 8).sshiftRight 11 &&& ~~~ 3#32) ||| (ins <<< 1) >>> 30
  if ins &&& 0x9f000000#32 = 0x10000000#32 then
    let f := f.reset current_idx
    let absolute_addr := f.inp + imm.toNat
    let new_pc_offset := absolute_addr - f.outp
    let f :=
      if ¬ f.ctx.is_in_fixing_range absolute_addr ∧ (max_val >>> 1).toNat ≤ new_pc_offset.natAbs then
        let f := if (f.outp + 8) % 8 ≠ 0 then (f.emit [A64_NOP]).reset current_idx else f
        f.emit (ldr_address ins absolute_addr)
      else if f.ctx.is_in_fixing_range absolute_addr then
        let ref_idx := f.ctx.get_ref_ins_index (absolute_addr - absolute_addr % 4)
        if ref_idx ≤ current_idx then
          f.emit [(BitVec.ofInt 32 ((f.ctx.dat ref_idx).ins - f.outp) <<< (lsb - 2) &&& fmask)
            ||| (ins &&& lmask)]
        else (f.insert_fix_map ref_idx lsb fmask).emit [(0#32 <<< (lsb - 2) &&& fmask) ||| (ins &&& lmask)]
      else f.emit [(BitVec.ofInt 32 new_pc_offset <<< (lsb - 2) &&& fmask) ||| (ins &&& lmask)]
    some (f.process_fix_map current_idx).advance
  else if ins &&& 0x9f000000#32 = 0x90000000#32 then
    let f := f.reset current_idx
    let absolute_addr := page f.inp + (imm <<< 12).toNat
    let f :=
      if f.ctx.is_in_fixing_range absolute_addr then f.emit [ins]
      else
        let f := if (f.outp + 8) % 8 ≠ 0 then (f.emit [A64_NOP]).reset current_idx else f
        f.emit (ldr_address ins absolute_addr)
    some (f.process_fix_map current_idx).advance
  else none

/-- One round of the loop of `fix_instructions`. -/
def fix_one (mem : Int → Word) (f : Fixer) : Fixer :=
  ((fix_branch_imm mem f).or <| (fix_cond_comp_test_branch mem f).or <| (fix_loadlit mem f).or <|
    fix_pcreladdr mem f).getD <|
    let current_idx := f.ctx.get_ref_ins_index f.inp
    (((f.reset current_idx).process_fix_map current_idx).emit [mem f.inp]).advance

/-- The jump behind the relocated instructions, back to `callback`. -/
def fix_callback (f : Fixer) : Fixer :=
  let mask := 0x03ffffff#32
  let callback := f.inp
  let pc_offset := (callback - f.outp) >>> (2 : Nat)
  if (mask >>> 1).toNat ≤ pc_offset.natAbs then
    let f := if (f.outp + 8) % 8 ≠ 0 then f.emit [A64_NOP] else f
    f.emit ([0x58000051#32, 0xd61f0220#32] ++ words64 callback)
  else f.emit [0x14000000#32 ||| (BitVec.ofInt 32 pc_offset &&& mask)]

def fix_start (inp : Int) (count : Nat) (outp : Int) : Fixer :=
  ⟨inp, outp, [], ⟨inp, inp + 4 * count, fun _ => ⟨0, []⟩⟩⟩

/-- The words written to the trampoline at `outp`. -/
def fix_instructions (mem : Int → Word) (inp : Int) (count : Nat) (outp : Int) : List Word :=
  (fix_callback ((fix_one mem)^[count] (fix_start inp count outp))).out

end ElfHook.Inline64
