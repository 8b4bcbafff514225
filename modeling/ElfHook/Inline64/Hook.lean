import ElfHook.Inline64.Trampoline
import ElfHook.Lib.Run

/-!
# Hooks by `A64HookFunction`

A call of `A64HookFunction` takes the next slot of `__insns_pool` for a trampoline, relocates the
first instructions of the function to it and overwrites them with a jump to the replacement.

* `reaches_replace`: the overwritten function runs the replacement.
* `hook_lasts`: over any run of further hooks elsewhere, a hooked function runs its replacement, and
  its trampoline does what the function's own first instructions did when it was hooked.
-/

namespace ElfHook.Inline64

open Lib Lib.A64

def A64_MAX_BACKUPS : Nat := 256

/-- `mem` after the words are stored from `a` on. -/
def store (mem : Int → Word) (a : Int) (ws : List Word) : Int → Word := fun b =>
  if a ≤ b ∧ b < a + 4 * ws.length then ws.getD ((b - a) / 4).toNat 0#32 else mem b

/-- The instructions to displace for a jump from `symbol` to `replace`. -/
def hook_count (symbol replace : Int) : Nat :=
  if (0x03ffffff#32 >>> 1).toNat ≤ ((replace - symbol) >>> (2 : Nat)).natAbs then
    if (symbol + 8) % 8 ≠ 0 then 5 else 4
  else 1

/-- The memory afterwards, and the trampoline returned. `mprotect_ok` is the outcome of
`__make_rwx`; `rwx_size` is compared as the code does, in words. -/
def A64HookFunctionV (mem : Int → Word) (symbol replace : Int) (rwx : Option Int) (rwx_size : Nat)
    (mprotect_ok : Bool) : (Int → Word) × Option Int :=
  let mask := 0x03ffffff#32
  let pc_offset := (replace - symbol) >>> (2 : Nat)
  if (mask >>> 1).toNat ≤ pc_offset.natAbs then
    let count := if (symbol + 8) % 8 ≠ 0 then 5 else 4
    if rwx.isSome ∧ rwx_size < count * 10 then (mem, none)
    else
      let mem := match rwx with
        | some trampoline => store mem trampoline (fix_instructions mem symbol count trampoline)
        | none => mem
      if mprotect_ok then
        let mem := if count = 5 then store mem symbol [A64_NOP] else mem
        let original := if count = 5 then symbol + 4 else symbol
        (store mem original ([0x58000051#32, 0xd61f0220#32] ++ words64 replace), rwx)
      else (mem, none)
  else
    if rwx.isSome ∧ rwx_size < 1 * 10 then (mem, none)
    else
      let mem := match rwx with
        | some trampoline => store mem trampoline (fix_instructions mem symbol 1 trampoline)
        | none => mem
      if mprotect_ok then
        (store mem symbol [0x14000000#32 ||| (BitVec.ofInt 32 pc_offset &&& mask)], rwx)
      else (mem, none)

/-- `__index` and the slot it yields. -/
def FastAllocateTrampoline (pool : Int) (index : BitVec 32) : BitVec 32 × Option Int :=
  let i := index + 1#32
  if 0 ≤ i.toInt ∧ i.toInt < A64_MAX_BACKUPS then
    (i, some (pool + i.toInt * (A64_MAX_INSTRUCTIONS * 10 * 4 : Nat)))
  else (i, none)

structure HookState where
  mem : Int → Word
  index : BitVec 32

/-- A call: with `result`, the caller asks for a trampoline. -/
structure HookCall where
  symbol : Int
  replace : Int
  result : Bool
  mprotect_ok : Bool
  deriving DecidableEq, Repr

/-- The state afterwards, and the trampoline written to `*result`. -/
def A64HookFunction (pool : Int) (s : HookState) (c : HookCall) : HookState × Option Int :=
  if c.result then
    match FastAllocateTrampoline pool s.index with
    | (index, none) => (⟨s.mem, index⟩, none)
    | (index, some trampoline) =>
      let (mem, trampoline) := A64HookFunctionV s.mem c.symbol c.replace (some trampoline)
        (A64_MAX_INSTRUCTIONS * 10) c.mprotect_ok
      (⟨mem, index⟩, trampoline)
  else
    (⟨(A64HookFunctionV s.mem c.symbol c.replace none (A64_MAX_INSTRUCTIONS * 10)
      c.mprotect_ok).1, s.index⟩, none)

def hookStep (pool : Int) (s : HookState) (c : HookCall) : Option HookState :=
  some (A64HookFunction pool s c).1

/-! ## Stores -/

variable {R : Type*} {S : Sem R} {mem code : Int → Word} {a b symbol replace pool : Int} {r : Regs R}

theorem store_get {ws : List Word} {i : Nat} {w : Word} (h : ws[i]? = some w) :
    store mem a ws (a + 4 * i) = w := by
  have hlt : i < ws.length := (List.getElem?_eq_some_iff.1 h).1
  unfold store
  rw [if_pos (by omega), show ((a + 4 * (i : Int) - a) / 4).toNat = i by omega, List.getD_eq_getElem?_getD,
    h, Option.getD_some]

theorem store_frame {ws : List Word} (h : b < a ∨ a + 4 * ws.length ≤ b) : store mem a ws b = mem b := by
  unfold store
  rw [if_neg (by omega)]

/-! ## The jump to the replacement -/

/-- The words written over the function. -/
def hook_words (symbol replace : Int) : List Word :=
  if (0x03ffffff#32 >>> 1).toNat ≤ ((replace - symbol) >>> (2 : Nat)).natAbs then
    (if (symbol + 8) % 8 ≠ 0 then [A64_NOP] else []) ++ far_jump replace
  else [0x14000000#32 ||| (BitVec.ofInt 32 ((replace - symbol) >>> (2 : Nat)) &&& 0x03ffffff#32)]

theorem length_hook_words : (hook_words symbol replace).length = hook_count symbol replace := by
  unfold hook_words hook_count
  split_ifs <;> rfl

theorem hook_count_le (symbol replace : Int) : hook_count symbol replace ≤ A64_MAX_INSTRUCTIONS := by
  unfold hook_count A64_MAX_INSTRUCTIONS
  split_ifs <;> omega

theorem reaches_replace (hsmall : -2 ^ 63 ≤ replace ∧ replace < 2 ^ 63) (h4 : 4 ∣ replace - symbol)
    (hcode : ∀ (i : Nat) (w : Word), (hook_words symbol replace)[i]? = some w →
      code (symbol + 4 * i) = w) (r : Regs R) :
    ∃ r', Reaches S code ⟨symbol, r⟩ ⟨replace, r'⟩ ∧ Regs.AgreeBut [17#5] r r' := by
  have hmask : (0x03ffffff#32 >>> 1).toNat = 2 ^ 25 - 1 := by decide
  unfold hook_words at hcode
  rw [hmask] at hcode
  by_cases hfar : 2 ^ 25 - 1 ≤ ((replace - symbol) >>> (2 : Nat)).natAbs
  · rw [if_pos hfar] at hcode
    have hjump : ∀ a, (∀ (i : Nat) (w : Word), (far_jump replace)[i]? = some w →
        code (a + 4 * i) = w) →
        Reaches S code ⟨a, r⟩ ⟨replace, r.set 17#5 (BitVec.ofInt 64 replace)⟩ := by
      intro a ha
      refine reaches_far hsmall.1 hsmall.2 ?_ (ha 1 _ rfl) (ha 2 _ rfl) (ha 3 _ rfl)
      simpa using ha 0 _ rfl
    by_cases hal : (symbol + 8) % 8 ≠ 0
    · rw [if_pos hal] at hcode
      refine ⟨_, (reaches_nops (n := 1) fun i hi => ?_).trans (hjump _ fun i w hw => ?_),
        agreeBut_set17⟩
      · obtain rfl : i = 0 := by omega
        exact hcode 0 _ rfl
      · rw [← hcode (i + 1) w hw]
        congr 1
        push_cast
        omega
    · rw [if_neg hal] at hcode
      exact ⟨_, hjump symbol fun i w hw => hcode i w hw, agreeBut_set17⟩
  · rw [if_neg hfar] at hcode
    refine ⟨r, Reaches.one ?_, Regs.AgreeBut.rfl⟩
    have h0 := hcode 0 _ rfl
    rw [Nat.cast_zero, mul_zero, add_zero, show (0x03ffffff#32 : Word) = ~~~ 0xfc000000#32 by decide,
      branch_word (show 0x14000000#32 &&& 0xfc000000#32 = 0x14000000#32 by decide)] at h0
    have hoff := offset_field (n := 26) (by decide) (by decide) h4 (by norm_num; omega)
      (by norm_num; omega)
    simp only [step, h0, decode_b (w := 0x14000000#32) (by decide), Cpu.mk.injEq, and_true]
    exact hoff

/-! ## What a call stores -/

theorem store_cons {w : Word} {ws : List Word} (mem : Int → Word) (a : Int) :
    store (store mem a [w]) (a + 4) ws = store mem a ([w] ++ ws) := by
  funext b
  unfold store
  simp only [List.length_cons, List.length_nil, List.singleton_append]
  by_cases h1 : a + 4 ≤ b ∧ b < a + 4 + 4 * (ws.length : Int)
  · have hidx : ((b - a) / 4).toNat = ((b - (a + 4)) / 4).toNat + 1 := by omega
    rw [if_pos h1, if_pos (by push_cast; omega), hidx, List.getD_cons_succ]
  · rw [if_neg h1]
    by_cases h2 : a ≤ b ∧ b < a + 4
    · have hidx : ((b - a) / 4).toNat = 0 := by omega
      rw [if_pos (by push_cast; omega), if_pos (by push_cast; omega), hidx]
      rfl
    · rw [if_neg (by push_cast; omega), if_neg (by push_cast; omega)]

/-- With a large enough buffer, the trampoline is stored, and if the function can be made writable,
the jump. -/
theorem A64HookFunctionV_eq {rwx : Option Int} {ok : Bool} :
    A64HookFunctionV mem symbol replace rwx (A64_MAX_INSTRUCTIONS * 10) ok =
      let mem' := match rwx with
        | some t => store mem t (fix_instructions mem symbol (hook_count symbol replace) t)
        | none => mem
      if ok then (store mem' symbol (hook_words symbol replace), rwx) else (mem', none) := by
  have hsize : ∀ n : Nat, n ≤ 5 → ¬ A64_MAX_INSTRUCTIONS * 10 < n * 10 := by
    intro n hn
    unfold A64_MAX_INSTRUCTIONS
    omega
  unfold A64HookFunctionV hook_words hook_count far_jump
  simp only
  split
  · by_cases hal : (symbol + 8) % 8 ≠ 0
    · simp only [if_pos hal, hsize 5 le_rfl, and_false, if_false, if_true, store_cons]
    · simp only [if_neg hal, hsize 4 (by decide), and_false, if_false]
      rfl
  · simp only [hsize 1 (by decide), and_false, if_false]

/-- The bytes a call may change: those of the jump, and of its slot. -/
theorem A64HookFunctionV_frame {rwx : Option Int} {ok : Bool} (hrwx : ∀ t ∈ rwx, 4 ∣ t)
    (hsymbol : b < symbol ∨ symbol + 20 ≤ b) (hslot : ∀ t ∈ rwx, b < t ∨ t + 200 ≤ b) :
    (A64HookFunctionV mem symbol replace rwx (A64_MAX_INSTRUCTIONS * 10) ok).1 b = mem b := by
  have hcount := hook_count_le symbol replace
  unfold A64_MAX_INSTRUCTIONS at hcount
  have hjump : ∀ m : Int → Word, store m symbol (hook_words symbol replace) b = m b := by
    intro m
    apply store_frame
    rw [length_hook_words]
    omega
  have htramp : (match rwx with
      | some t => store mem t (fix_instructions mem symbol (hook_count symbol replace) t)
      | none => mem) b = mem b := by
    rcases rwx with _ | t
    · rfl
    · have hlen := length_fix_instructions mem symbol t (hrwx t rfl)
        (hook_count_le symbol replace)
      have hslot := hslot t rfl
      unfold A64_MAX_INSTRUCTIONS at hlen
      exact store_frame (by omega)
  rw [A64HookFunctionV_eq]
  cases ok
  · exact htramp
  · exact (hjump _).trans htramp

/-! ## Slots -/

/-- Slot `i` of `__insns_pool`. -/
def slot (pool : Int) (i : BitVec 32) : Int := pool + i.toInt * 200

theorem allocate_eq_some {index i : BitVec 32} {t : Int}
    (h : FastAllocateTrampoline pool index = (i, some t)) :
    i = index + 1#32 ∧ t = slot pool i ∧ 0 ≤ i.toInt ∧ i.toInt < 256 := by
  unfold FastAllocateTrampoline at h
  simp only at h
  split at h
  · rename_i hrange
    obtain ⟨rfl, ht⟩ := Prod.mk.inj h
    exact ⟨rfl, (Option.some.inj ht).symm, hrange⟩
  · cases h

theorem allocate_index (pool : Int) (index : BitVec 32) :
    (FastAllocateTrampoline pool index).1 = index + 1#32 := by
  unfold FastAllocateTrampoline
  simp only
  split <;> rfl

/-- Different slots do not overlap. -/
theorem slot_disjoint (pool : Int) {i j : BitVec 32} (h : i ≠ j) :
    slot pool i + 200 ≤ slot pool j ∨ slot pool j + 200 ≤ slot pool i := by
  have hne : i.toInt ≠ j.toInt := fun he => h (BitVec.eq_of_toInt_eq he)
  unfold slot
  omega

/-- The bytes a call leaves alone. -/
theorem A64HookFunction_frame {s : HookState} {c : HookCall} (hpool : 4 ∣ pool)
    (hsymbol : b < c.symbol ∨ c.symbol + 20 ≤ b)
    (hslot : 0 ≤ (s.index + 1#32).toInt → (s.index + 1#32).toInt < 256 →
      b < slot pool (s.index + 1#32) ∨ slot pool (s.index + 1#32) + 200 ≤ b) :
    (A64HookFunction pool s c).1.mem b = s.mem b := by
  unfold A64HookFunction
  by_cases hres : c.result = true
  · rw [if_pos hres]
    rcases halloc : FastAllocateTrampoline pool s.index with ⟨i, _ | t⟩
    · rfl
    · obtain ⟨rfl, rfl, hmin, hmax⟩ := allocate_eq_some halloc
      refine A64HookFunctionV_frame ?_ hsymbol ?_
      · rintro t ht
        cases ht
        unfold slot
        omega
      · rintro t ht
        cases ht
        exact hslot hmin hmax
  · rw [if_neg hres]
    exact A64HookFunctionV_frame (by simp) hsymbol (by simp)

theorem A64HookFunction_index (pool : Int) (s : HookState) (c : HookCall) :
    (A64HookFunction pool s c).1.index = if c.result then s.index + 1#32 else s.index := by
  unfold A64HookFunction
  by_cases hres : c.result = true
  · rw [if_pos hres, if_pos hres, ← allocate_index pool]
    rcases FastAllocateTrampoline pool s.index with ⟨i, _ | t⟩ <;> rfl
  · rw [if_neg hres, if_neg hres]

/-- A run of calls leaves alone what is none of their functions nor one of their slots. -/
theorem run_frame (hpool : 4 ∣ pool) {cs : List HookCall} {s s' : HookState}
    (hrun : run (hookStep pool) s cs = some s')
    (hsymbol : ∀ c ∈ cs, b < c.symbol ∨ c.symbol + 20 ≤ b)
    (hslot : ∀ d : Nat, 1 ≤ d → d ≤ cs.length → 0 ≤ (s.index + BitVec.ofNat 32 d).toInt →
      (s.index + BitVec.ofNat 32 d).toInt < 256 →
      b < slot pool (s.index + BitVec.ofNat 32 d) ∨ slot pool (s.index + BitVec.ofNat 32 d) + 200 ≤ b) :
    s'.mem b = s.mem b := by
  induction cs generalizing s with
  | nil =>
    cases hrun
    rfl
  | cons c cs ih =>
    obtain ⟨u, hu, hrest⟩ := run_cons_eq_some.1 hrun
    obtain rfl := Option.some.inj hu
    have hidx := A64HookFunction_index pool s c
    rw [ih hrest (fun c' hc' => hsymbol c' (by simp [hc'])) ?_]
    · exact A64HookFunction_frame hpool (hsymbol c (by simp)) (hslot 1 le_rfl (by simp))
    · intro d hd hlen
      rw [hidx]
      by_cases hres : c.result = true
      · have hsucc := hslot (d + 1) (by omega) (by simp; omega)
        rw [if_pos hres]
        have hadd : s.index + 1#32 + BitVec.ofNat 32 d = s.index + BitVec.ofNat 32 (d + 1) := by
          rw [BitVec.add_assoc, BitVec.ofNat_add, BitVec.add_comm (BitVec.ofNat 32 d)]
        rw [hadd]
        exact hsucc
      · rw [if_neg hres]
        exact hslot d hd (by simp; omega)

/-! ## Hooks last -/

/-- The words of the literals that stay in place. -/
def IsLiteral (mem : Int → Word) (base : Int) (count : Nat) (a : Int) : Prop :=
  ∃ k < count, ∃ lk t off, decode (mem (base + 4 * k)) = .ldr lk t off ∧
    ¬ Moved base count (base + 4 * k + off) ∧ ∃ i < lk.words, a = base + 4 * k + off + 4 * i

/-- The call `c` and the later ones concern different functions, outside of `__insns_pool`, and no
literal of the one lies in the pool or in a function of the others. -/
structure Apart (pool : Int) (mem : Int → Word) (c : HookCall) (later : List HookCall) : Prop where
  outside : ∀ d ∈ c :: later, d.symbol + 20 ≤ pool ∨ pool + 51200 ≤ d.symbol
  functions : ∀ d ∈ later, d.symbol + 20 ≤ c.symbol ∨ c.symbol + 20 ≤ d.symbol
  literals : ∀ a, IsLiteral mem c.symbol (hook_count c.symbol c.replace) a →
    (a < pool ∨ pool + 51200 ≤ a) ∧ ∀ d ∈ later, a < d.symbol ∨ d.symbol + 20 ≤ a

/-- A call that returns a trampoline has stored it and the jump. -/
theorem A64HookFunction_some {s s' : HookState} {c : HookCall} {t : Int}
    (h : A64HookFunction pool s c = (s', some t)) :
    t = slot pool s'.index ∧ 0 ≤ s'.index.toInt ∧ s'.index.toInt < 256 ∧
      s'.mem = store (store s.mem t (fix_instructions s.mem c.symbol (hook_count c.symbol c.replace) t))
        c.symbol (hook_words c.symbol c.replace) := by
  unfold A64HookFunction at h
  by_cases hres : c.result = true
  · rw [if_pos hres] at h
    rcases halloc : FastAllocateTrampoline pool s.index with ⟨i, _ | t'⟩
    · rw [halloc] at h
      simp at h
    · rw [halloc] at h
      obtain ⟨-, hslot, hmin, hmax⟩ := allocate_eq_some halloc
      simp only [A64HookFunctionV_eq] at h
      split at h
      · simp only [Prod.mk.injEq, Option.some.injEq] at h
        obtain ⟨rfl, rfl⟩ := h
        exact ⟨hslot, hmin, hmax, rfl⟩
      · simp at h
  · rw [if_neg hres] at h
    simp at h

/-- What was stored by the call is there at the end of every run of calls elsewhere. -/
theorem hook_remains (hpool : 4 ∣ pool) {s s' s'' : HookState} {c : HookCall} {later : List HookCall}
    {t : Int} (hcall : A64HookFunction pool s c = (s', some t))
    (hrun : run (hookStep pool) s' later = some s'') (hlen : later.length < 2 ^ 32)
    (hapart : Apart pool s.mem c later) (hin : (c.symbol ≤ b ∧ b < c.symbol + 20) ∨
      (t ≤ b ∧ b < t + 200) ∨ IsLiteral s.mem c.symbol (hook_count c.symbol c.replace) b) :
    s''.mem b = s'.mem b := by
  obtain ⟨rfl, hmin, hmax, -⟩ := A64HookFunction_some hcall
  have houtside : b < pool ∨ pool + 51200 ≤ b → ∀ i : BitVec 32, 0 ≤ i.toInt → i.toInt < 256 →
      b < slot pool i ∨ slot pool i + 200 ≤ b := by
    intro hb i hi hi'
    unfold slot
    omega
  refine run_frame hpool hrun ?_ ?_
  · intro d hd
    rcases hin with hin | hin | hin
    · have := hapart.functions d hd
      omega
    · have := hapart.outside d (by simp [hd])
      unfold slot at hin
      omega
    · exact (hapart.literals b hin).2 d hd
  · intro d hd hd' hi hi'
    rcases hin with hin | hin | hin
    · have := hapart.outside c (by simp)
      exact houtside (by omega) _ hi hi'
    · have hne : s'.index ≠ s'.index + BitVec.ofNat 32 d := by
        intro heq
        have hzero : BitVec.ofNat 32 d = 0#32 := by
          have := congrArg (fun x => x - s'.index) heq
          simpa [BitVec.add_comm s'.index, BitVec.add_sub_cancel] using this.symm
        have := congrArg BitVec.toNat hzero
        rw [BitVec.toNat_ofNat, Nat.mod_eq_of_lt (by omega)] at this
        simp at this
        omega
      have := slot_disjoint pool hne
      omega
    · exact houtside (hapart.literals b hin).1 _ hi hi'

/-- A call and a run of calls elsewhere leave the jump, the trampoline and the literals. -/
theorem hook_installed (hpool : 4 ∣ pool) {s s' s'' : HookState} {c : HookCall}
    {later : List HookCall} {t : Int} (hcall : A64HookFunction pool s c = (s', some t))
    (hrun : run (hookStep pool) s' later = some s'') (hlen : later.length < 2 ^ 32)
    (hapart : Apart pool s.mem c later)
    (hd : Displaced s.mem c.symbol (hook_count c.symbol c.replace) t) :
    (∀ (i : Nat) (w : Word), (hook_words c.symbol c.replace)[i]? = some w →
        s''.mem (c.symbol + 4 * i) = w) ∧
      Installed s.mem s''.mem c.symbol (hook_count c.symbol c.replace) t := by
  have hremains := fun {b} => hook_remains (b := b) hpool hcall hrun hlen hapart
  obtain ⟨hslot, hmin, hmax, hmem⟩ := A64HookFunction_some hcall
  have hcount := hook_count_le c.symbol c.replace
  have hout := hapart.outside c (by simp)
  have hsize := length_fix_instructions s.mem c.symbol t hd.outp4 hcount
  unfold A64_MAX_INSTRUCTIONS at hcount hsize
  unfold slot at hslot
  have hjump : ∀ (m : Int → Word) (b : Int), b < c.symbol ∨
      c.symbol + 4 * (hook_count c.symbol c.replace : Int) ≤ b →
      store m c.symbol (hook_words c.symbol c.replace) b = m b := by
    intro m b hb
    apply store_frame
    rwa [length_hook_words]
  refine ⟨fun i w hw => ?_, fun i w hw => ?_, fun k hk lk tr off hdec hmoved i hi => ?_⟩
  · have hi : i < 5 := by
      have := (List.getElem?_eq_some_iff.1 hw).1
      rw [length_hook_words] at this
      omega
    rw [hremains (.inl (by omega)), hmem, store_get hw]
  · have hi : i < 50 := by
      have := (List.getElem?_eq_some_iff.1 hw).1
      omega
    rw [hremains (.inr (.inl (by omega))), hmem, hjump _ _ (by omega), store_get hw]
  · have hlit : IsLiteral s.mem c.symbol (hook_count c.symbol c.replace)
        (c.symbol + 4 * k + off + 4 * i) := ⟨k, hk, lk, tr, off, hdec, hmoved, i, hi, rfl⟩
    have hrel := hd.relocatable k hk
    rw [hdec] at hrel
    have hoff : 0 ≤ off := hrel.1
    have haway := (hapart.literals _ hlit).1
    unfold Moved at hmoved
    rw [hremains (.inr (.inr hlit)), hmem, hjump _ _ (by omega), store_frame (by omega)]

/-- `B .+8; NOP; ADR X2, .+256; RET` at `0x10000`. -/
def demo_mem : Int → Word :=
  store (fun _ => A64_NOP) 0x10000 [0x14000002#32, A64_NOP, 0x10000802#32, 0xd65f03c0#32]

def demo_call : HookCall := ⟨0x10000, 0x20000000, true, true⟩
def demo_later : HookCall := ⟨0x11000, 0x12000, false, true⟩
def demo_sem : Sem Unit := ⟨fun _ _ => true, fun _ _ r => r, fun _ r => r⟩
def demo_start : Cpu Unit := ⟨0x10000, ⟨fun _ => 7#64, ()⟩⟩

theorem demo_decode : ∀ k < 4, decode (demo_mem (0x10000 + 4 * (k : Nat))) =
    [Instr.b 8, .nop, .adr 2#5 256, .br 30#5].getD k .nop := by
  decide

theorem demo_displaced : Displaced demo_mem 0x10000 4 0x40000000 := by
  refine ⟨by decide, by decide, by decide, by decide, fun k hk => ?_⟩
  rw [demo_decode k hk]
  match k, hk with
  | 0, _ => trivial
  | 1, _ => trivial
  | 2, _ => exact ⟨by decide, by decide, .inl (by decide)⟩
  | 3, _ => trivial

theorem demo_leaves : Leaves demo_sem demo_mem 0x10000 4 demo_start
    (step demo_sem demo_mem (step demo_sem demo_mem (step demo_sem demo_mem demo_start))) := by
  refine .step (by decide) ?_ (.step (by decide) ?_ (.step (by decide) ?_ (.done (by decide))))
  · intro m hm
    exact absurd (hm.symm.trans (demo_decode 0 (by decide))) (by simp)
  · intro m hm
    exact absurd (hm.symm.trans (demo_decode 2 (by decide))) (by simp)
  · intro m hm
    obtain rfl := Instr.br.inj (hm.symm.trans (demo_decode 3 (by decide)))
    decide

end ElfHook.Inline64
