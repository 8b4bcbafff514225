import ElfHook.Inline64.Literals

/-!
# The trampoline is large enough

Every round stores at most nine words (three of padding, a load, a jump and four of a literal), and
the jump back at most five: `length_fix_instructions`.
-/

namespace ElfHook.Inline64

open Lib Lib.A64 Fixer

variable {mem : Int → Word} {f : Fixer}

theorem length_process_fix_map (idx : Nat) : (f.process_fix_map idx).out.length = f.out.length := by
  simp [Fixer.process_fix_map, length_foldl_patch]

theorem length_emit (ws : List Word) : (f.emit ws).out.length = f.out.length + ws.length := by
  simp [Fixer.emit]

theorem length_reset (idx : Nat) : (f.reset idx).out.length = f.out.length := rfl

theorem length_insert_fix_map (idx ls : Nat) (ad : Word) :
    (f.insert_fix_map idx ls ad).out.length = f.out.length := rfl

theorem length_advance : f.advance.out.length = f.out.length := rfl

theorem length_words64 (a : Int) : (words64 a).length = 2 := rfl

/-- `f'` has at most `m` words more, at the same place. -/
def Grows (m : Nat) (f f' : Fixer) : Prop :=
  f'.outp_base = f.outp_base ∧ f'.out.length ≤ f.out.length + m

theorem grows_branch_imm {f' : Fixer} (h : fix_branch_imm mem f = some f') : Grows 6 f f' := by
  unfold fix_branch_imm at h
  simp only at h
  split at h
  · rw [← Option.some.inj h, Grows, length_process_fix_map, length_advance]
    split_ifs <;> refine ⟨rfl, ?_⟩ <;>
      simp only [length_emit, length_reset, length_insert_fix_map, List.length_append,
        length_words64, List.length_cons, List.length_nil] <;>
      omega
  · cases h

theorem grows_cond {f' : Fixer} (h : fix_cond_comp_test_branch mem f = some f') :
    Grows 7 f f' := by
  unfold fix_cond_comp_test_branch at h
  simp only at h
  obtain ⟨lmask, -, h⟩ := Option.map_eq_some_iff.1 h
  rw [← h, Grows, length_process_fix_map, length_advance]
  split_ifs <;> refine ⟨rfl, ?_⟩ <;>
    simp only [length_emit, length_reset, length_insert_fix_map, List.length_append,
      length_words64, List.length_cons, List.length_nil] <;>
    omega

theorem grows_pcreladdr {f' : Fixer} (h : fix_pcreladdr mem f = some f') : Grows 5 f f' := by
  unfold fix_pcreladdr ldr_address at h
  simp only at h
  split at h
  · rw [← Option.some.inj h, Grows, length_advance, length_process_fix_map]
    split_ifs <;> refine ⟨rfl, ?_⟩ <;>
      simp only [length_emit, length_reset, length_insert_fix_map, List.length_append,
        length_words64, List.length_cons, List.length_nil] <;>
      omega
  · split at h
    · rw [← Option.some.inj h, Grows, length_advance, length_process_fix_map]
      split_ifs <;> refine ⟨rfl, ?_⟩ <;>
        simp only [length_emit, length_reset, List.length_append,
          length_words64, List.length_cons, List.length_nil] <;>
        omega
    · cases h

/-- The padding of a literal, up to a word divisible by `m` from any other, is less than `m`. -/
theorem grows_nopWhile {m : Nat} (hm : m = 1 ∨ m = 2 ∨ m = 4) {p : Int → Bool}
    (hp : ∃ i < m, p (f.outp + 4 * (i : Nat)) = false) : Grows (m - 1) f (nopWhile p 4 f) := by
  obtain ⟨i, hi, hpi⟩ := hp
  obtain ⟨j, hj, heq⟩ := nopWhile_eq 4 (by omega) hpi
  rw [heq, Grows, length_emit, List.length_replicate]
  exact ⟨rfl, by omega⟩

theorem loadlit_mask_size {ins mask : Word} {faligned : Nat}
    (h : loadlit_mask ins = some (mask, faligned)) :
    ∃ m, (m = 1 ∨ m = 2 ∨ m = 4) ∧ faligned = 4 * m - 1 := by
  unfold loadlit_mask at h
  simp only at h
  split_ifs at h <;> cases h <;>
    first
      | exact ⟨1, by decide, rfl⟩
      | exact ⟨2, by decide, rfl⟩
      | exact ⟨4, by decide, rfl⟩

theorem grows_loadlit {f' : Fixer} (h4 : 4 ∣ f.outp) (h : fix_loadlit mem f = some f') :
    Grows 9 f f' := by
  unfold fix_loadlit at h
  simp only at h
  split at h
  · rw [← Option.some.inj h, Grows, length_advance, length_process_fix_map, length_reset]
    exact ⟨rfl, by omega⟩
  obtain ⟨⟨mask, faligned⟩, hmask, h⟩ := Option.map_eq_some_iff.1 h
  obtain ⟨m, hm, rfl⟩ := loadlit_mask_size hmask
  have h1 : 4 * m - 1 + 1 = 4 * m := by omega
  have h2 : (4 * m - 1) >>> (2 : Nat) + 1 = m := by rcases hm with rfl | rfl | rfl <;> rfl
  rw [← h]
  simp only [h1, h2]
  rw [Grows, length_process_fix_map, length_advance]
  split_ifs
  · have hpad := grows_nopWhile (f := f.reset (f.ctx.get_ref_ins_index f.inp)) hm
      (p := fun outp => (outp + 8) % (4 * m : Nat) ≠ 0) (by
        refine ⟨((-(f.outp / 4) - 2) % m).toNat, ?_⟩
        have houtp : (f.reset (f.ctx.get_ref_ins_index f.inp)).outp = f.outp := rfl
        rw [houtp]
        rcases hm with rfl | rfl | rfl <;> simp <;> omega)
    refine ⟨hpad.1, ?_⟩
    have hlen := hpad.2
    simp only [length_emit, length_reset, List.length_append, List.length_cons, List.length_nil,
      List.length_map, List.length_range] at hlen ⊢
    omega
  · have hpad := fun tgt : Int => grows_nopWhile (f := f.reset (f.ctx.get_ref_ins_index f.inp)) hm
      (p := fun outp => ((tgt - outp) >>> (2 : Nat)) % (m : Nat) ≠ 0) (by
        refine ⟨(((tgt - f.outp) >>> (2 : Nat)) % m).toNat, ?_⟩
        have houtp : (f.reset (f.ctx.get_ref_ins_index f.inp)).outp = f.outp := rfl
        simp only [houtp, Int.shiftRight_eq_div_pow]
        rcases hm with rfl | rfl | rfl <;> simp <;> omega)
    refine ⟨(hpad _).1, ?_⟩
    have hlen := (hpad ((f.reset (f.ctx.get_ref_ins_index f.inp)).inp +
      ((mem f.inp <<< 8).sshiftRight 11 &&& ~~~3#32).toNat)).2
    simp only [length_emit, length_reset, List.length_cons, List.length_nil] at hlen ⊢
    omega

theorem Grows.le {m n : Nat} {f' : Fixer} (hmn : m ≤ n) (h : Grows m f f') : Grows n f f' :=
  ⟨h.1, by have := h.2; omega⟩

theorem grows_one (mem : Int → Word) (h4 : 4 ∣ f.outp) : Grows 9 f (fix_one mem f) := by
  unfold fix_one
  rcases h0 : fix_branch_imm mem f with _ | f'
  swap
  · simpa using (grows_branch_imm h0).le (by decide)
  rcases h1 : fix_cond_comp_test_branch mem f with _ | f'
  swap
  · simpa using (grows_cond h1).le (by decide)
  rcases h2 : fix_loadlit mem f with _ | f'
  swap
  · simpa using grows_loadlit h4 h2
  rcases h3 : fix_pcreladdr mem f with _ | f'
  swap
  · simpa using (grows_pcreladdr h3).le (by decide)
  refine ⟨rfl, ?_⟩
  simp [length_advance, length_emit, length_process_fix_map, length_reset]

theorem grows_callback : Grows 5 f (fix_callback f) := by
  unfold fix_callback
  simp only
  split_ifs <;> refine ⟨rfl, ?_⟩ <;>
    simp only [length_emit, List.length_append, length_words64, List.length_cons, List.length_nil] <;>
    omega

theorem grows_rounds (mem : Int → Word) (h4 : 4 ∣ f.outp_base) (n : Nat) :
    Grows (9 * n) f ((fix_one mem)^[n] f) := by
  induction n with
  | zero => exact ⟨rfl, le_rfl⟩
  | succ n ih =>
    have houtp : 4 ∣ ((fix_one mem)^[n] f).outp := by
      rw [Fixer.outp, ih.1]
      omega
    have hone := grows_one mem houtp
    rw [Function.iterate_succ_apply']
    exact ⟨hone.1.trans ih.1, by have := hone.2; have := ih.2; omega⟩

/-- Whatever the instructions, the trampoline fits the ten words an instruction it is given. -/
theorem length_fix_instructions (mem : Int → Word) (inp outp : Int) (h4 : 4 ∣ outp) {count : Nat}
    (hcount : count ≤ A64_MAX_INSTRUCTIONS) :
    (fix_instructions mem inp count outp).length ≤ A64_MAX_INSTRUCTIONS * 10 := by
  have hrounds := (grows_rounds mem (f := fix_start inp count outp) h4 count).2
  have hcall := (grows_callback (f := (fix_one mem)^[count] (fix_start inp count outp))).2
  have hstart : (fix_start inp count outp).out.length = 0 := rfl
  unfold A64_MAX_INSTRUCTIONS at hcount ⊢
  unfold fix_instructions
  omega

/-- Five loads of 128-bit literals. -/
theorem length_fix_instructions_quads :
    (fix_instructions (fun _ => 0x9c000200#32) 0x10000 5 0x40000000).length
      ≤ A64_MAX_INSTRUCTIONS * 10 :=
  length_fix_instructions _ _ _ (by decide) (by decide)

end ElfHook.Inline64
