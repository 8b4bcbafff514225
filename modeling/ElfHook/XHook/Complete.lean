import ElfHook.XHook.Process

/-!
# Hook completeness

* `HookComplete`: every slot of every mapped ELF that a registration matches holds its new function.
* `not_complete_late_registration`: a run of a registration, a refresh, a second registration and a
  second refresh ends without it.
* `hook_complete_of_timely`: in every run it holds for all registrations that returned `0`, after each
  refresh that returns `0`, provided that what is new at a refresh (`Timely`) is come to by it, and that
  no slot is left with what its cell gets in a second use.
-/

namespace ElfHook.XHook

open Lib

/-- Every relocation slot for the symbol of a registration, in every mapped ELF whose path its pattern
matches, holds the new function. -/
def HookComplete (P : Platform) (rs : List Registration) (p : Proc) : Prop :=
  ∀ l ∈ p.maps, l.isHeader = true → ∀ elf, l.elf? = some elf →
    ∀ r ∈ rs, ∀ pathname_regex, P.regcomp r.pathname_regex_str = some pathname_regex →
      pathname_regex l.pathname = true → ∀ a ∈ elf.slots r.symbol, p.mem a = r.new_func

/-! ### A hook registered late -/

section Late

/-- `thread_hook` and then `hookAbort`: each registers and refreshes. -/
def lateRun : List Event :=
  [.load 0 [artLine] (fun _ => 7),
    .register false (some ".*\\.so$") (some "pthread_create") 0x5000 none,
    .refresh quietEnv,
    .register false (some ".*\\.so$") (some "abort") 0x6000 none]

def soPattern (path : String) : Bool := ".so".toList.isSuffixOf path.toList

theorem artLine_initialises : Initialises [artLine] := by
  intro l hl img himg
  obtain rfl := List.mem_singleton.1 hl
  cases himg
  refine ⟨_, rfl, ?_⟩
  intro rel hrel
  exact Nat.le_add_right _ _

theorem valid_load_artLine (mem contents : Mem) :
    (Proc.initial mem).Valid armPlatform (.load 0 [artLine] contents) := by
  refine ⟨(by decide : DistinctPaths [artLine]), artLine_initialises, ?_⟩
  intro l hl _
  obtain rfl := List.mem_singleton.1 hl
  rfl

theorem valid_lateRun (mem : Mem) :
    Along (Proc.step? armPlatform) (Proc.Valid armPlatform) (Proc.initial mem) lateRun := by
  refine ⟨valid_load_artLine _ _, ?_⟩
  rintro p ⟨rfl⟩
  refine ⟨by simp [Proc.Valid, Proc.step, Proc.initial, XhCore.initial], ?_⟩
  rintro p ⟨rfl⟩
  refine ⟨trivial, ?_⟩
  rintro p ⟨rfl⟩
  refine ⟨?_, fun _ _ => trivial⟩
  intro hi hhi
  obtain rfl := List.mem_singleton.1 hhi
  decide

/-- `hookAbort` after `thread_hook`: the refresh returns `0`, and the slot of `abort` in a library
hooked before still holds what the linker put there. -/
theorem not_complete_late_registration :
    armPlatform.util.Succeeds ∧
      Along (Proc.step? armPlatform) (Proc.Valid armPlatform) (Proc.initial fun _ => 0) lateRun ∧
      ∃ p, run (Proc.step? armPlatform) (Proc.initial fun _ => 0) lateRun = some p ∧
        (p.refresh armPlatform quietEnv).2 = 0 ∧
        ¬ HookComplete armPlatform (registered armPlatform (Proc.initial fun _ => 0) lateRun)
          (p.refresh armPlatform quietEnv).1 := by
  refine ⟨armPlatform_util_succeeds, valid_lateRun _, _, rfl, by decide +kernel, ?_⟩
  intro h
  have hslot := h artLine List.mem_cons_self (by decide) _ rfl
    ⟨".*\\.so$", "abort", 0x6000, none⟩ (List.mem_cons_of_mem _ List.mem_cons_self) soPattern rfl
    (by decide) 0x1014 (by decide +kernel)
  revert hslot
  decide +kernel

end Late

/-! ### Hooks and libraries that come in time -/

/-- The cells that a refresh comes to, in order, each with the function it gets and the variable that
its old value is saved in. -/
def visits (P : Platform) (env : RefreshEnv) (p : Proc) : List (Redirect Addr Addr) :=
  if env.fopen then refreshRedirects P p.core env.alloc p.maps else []

/-- The condition on a refresh that returns `0`, for each slot of each matching hook in each mapped
ELF. If the hook or the ELF is new, the maps file opens, the ELF is not in the map tree at its base
address (and its item can be allocated), and the walk of `xh_elf_hook` comes to the slot. If the slot
is patched for another hook, or saved in as a variable, it is patched for this hook after that. -/
def Proc.Timely (P : Platform) (p : Proc) : Event → Prop
  | .refresh env => (p.refresh P env).2 = 0 → ∀ l ∈ p.maps, l.isHeader = true →
      ∀ elf, l.elf? = some elf → ∀ hi ∈ p.core.xh_core_hook_info,
        hi.pathname_regex l.pathname = true → ∀ a ∈ elf.slots hi.symbol,
          (l ∈ p.newLines ∨ hi ∈ p.newHooks →
            env.fopen = true ∧ needsHook env.alloc p.core.xh_core_map_info l = true ∧
              a ∈ elf.walk P.util.elfclass_bits hi.symbol) ∧
          Redirect.Settles a hi.new_func (visits P env p)
  | _ => True

/-- Between refreshes: what is not new is hooked. -/
structure Proc.Settled (P : Platform) (p : Proc) : Prop where
  wellFormed : p.WellFormed P
  hooked : ∀ l ∈ p.maps, l.isHeader = true → l ∉ p.newLines → ∀ elf, l.elf? = some elf →
    ∀ hi ∈ p.core.xh_core_hook_info, hi ∉ p.newHooks → hi.pathname_regex l.pathname = true →
      ∀ a ∈ elf.slots hi.symbol, p.mem a = hi.new_func

section Timely

variable {P : Platform} {p : Proc}

theorem settled_initial (mem : Mem) : (Proc.initial mem).Settled P :=
  ⟨wellFormed_initial mem, by simp [Proc.initial]⟩

theorem hooked_register (h : p.Settled P) (nomem : Bool) (regex symbol : Option String)
    (new_func : Addr) (old_func : Option Addr)
    (hwf : (p.step P (.register nomem regex symbol new_func old_func)).WellFormed P) :
    (p.step P (.register nomem regex symbol new_func old_func)).Settled P := by
  refine ⟨hwf, ?_⟩
  rcases xh_core_register_eq P nomem regex symbol new_func old_func p.core with
    ⟨hi, hcore, -⟩ | hcore
  · -- the hook added is itself new
    simp only [Proc.step, hcore, List.drop_left, List.mem_append, List.mem_singleton, not_or]
    rintro l hl hhead hnew elf helf hi' (hmem | rfl) ⟨hold, hneq⟩ hre
    · exact h.hooked l hl hhead hnew elf helf hi' hmem hold hre
    · exact absurd rfl hneq
  · simpa [Proc.step, hcore] using h.hooked

theorem hooked_load (h : p.Settled P) {k : Nat} {lib : List MapLine} {contents : Mem}
    (hwf : (p.step P (.load k lib contents)).WellFormed P) :
    (p.step P (.load k lib contents)).Settled P := by
  refine ⟨hwf, ?_⟩
  intro l hl hhead hnew elf helf hi hhi hold hre a ha
  simp only [Proc.step, List.mem_append, not_or] at hnew
  have hmem : l ∈ p.maps := (mem_insertLines.1 hl).resolve_left hnew.2
  have hcell : loadMem p.maps contents p.mem a = p.mem a :=
    loadMem_of_mapped (slot_mem_mappedCells hmem helf ha)
  exact hcell.trans (h.hooked l hmem hhead hnew.1 elf helf hi hhi hold hre a ha)

theorem refresh_mem_visits (hu : P.util.Succeeds) (h : p.WellFormed P) {env : RefreshEnv}
    (hret : (p.refresh P env).2 = 0) :
    (p.refresh P env).1.mem = Redirect.applyAll p.mem (visits P env p) := by
  unfold visits
  by_cases hfopen : env.fopen = true
  · rw [if_pos hfopen]
    exact refresh_mem hu h hret hfopen
  · rw [if_neg hfopen]
    exact (refresh_unread fun hread => hfopen hread.2).1

/-- A refresh comes to the slots that the walk of an ELF it hooks comes to. -/
theorem visited_of_walk (h : p.WellFormed P) {env : RefreshEnv} (hfopen : env.fopen = true)
    {l : MapLine} (hl : l ∈ p.maps) (hhead : l.isHeader = true)
    (hneeds : needsHook env.alloc p.core.xh_core_map_info l = true) {elf : XhElf}
    (helf : l.elf? = some elf) {hi : HookInfo} (hhi : hi ∈ p.core.xh_core_hook_info)
    (hre : hi.pathname_regex l.pathname = true) {a : Addr}
    (hwalk : a ∈ elf.walk P.util.elfclass_bits hi.symbol) :
    ∃ op ∈ visits P env p, op.cell = a ∧ op.target = hi.new_func := by
  have hconsidered := (considered_iff_of_wellFormed h hl (isSome_image_of_elf helf)).2
    ⟨hhead, hi, hhi, hre⟩
  refine ⟨⟨a, hi.new_func, hi.old_func⟩, ?_, rfl, rfl⟩
  rw [visits, if_pos hfopen]
  exact mem_refreshRedirects.2 ⟨l, hl, hconsidered, hneeds, elf, helf, hi, hhi, hre, a, hwalk, rfl⟩

/-- A refresh under the condition hooks every slot of every hook. -/
theorem hooked_of_settled (hu : P.util.Succeeds) (h : p.Settled P) {env : RefreshEnv}
    (htimely : p.Timely P (.refresh env)) (hret : (p.refresh P env).2 = 0) {l : MapLine}
    (hl : l ∈ p.maps) (hhead : l.isHeader = true) {elf : XhElf} (helf : l.elf? = some elf)
    {hi : HookInfo} (hhi : hi ∈ p.core.xh_core_hook_info)
    (hre : hi.pathname_regex l.pathname = true) {a : Addr} (ha : a ∈ elf.slots hi.symbol) :
    (p.refresh P env).1.mem a = hi.new_func := by
  obtain ⟨hnew, hsettles⟩ := htimely hret l hl hhead elf helf hi hhi hre a ha
  rw [refresh_mem_visits hu h.wellFormed hret]
  refine Redirect.applyAll_settles hsettles ?_
  by_cases hfresh : l ∈ p.newLines ∨ hi ∈ p.newHooks
  · obtain ⟨hfopen, hneeds, hwalk⟩ := hnew hfresh
    exact .inr (visited_of_walk h.wellFormed hfopen hl hhead hneeds helf hhi hre hwalk)
  · obtain ⟨hline, hhook⟩ := not_or.1 hfresh
    exact .inl (h.hooked l hl hhead hline elf helf hi hhi hhook hre a ha)

theorem hooked_refresh (hu : P.util.Succeeds) (h : p.Settled P) {env : RefreshEnv}
    (htimely : p.Timely P (.refresh env)) (hwf : (p.step P (.refresh env)).WellFormed P) :
    (p.step P (.refresh env)).Settled P := by
  refine ⟨hwf, ?_⟩
  intro l hl hhead hnew elf helf hi hhi hold hre a ha
  by_cases hread : (p.refresh P env).2 = 0 ∧ env.fopen = true
  · simp only [Proc.step, (refresh_core env).1] at hhi
    exact hooked_of_settled hu h htimely hread.1 hl hhead helf hhi hre ha
  · have hlines : (p.refresh P env).1.newLines = p.newLines := if_neg hread
    have hhooks : (p.refresh P env).1.newHooks = p.newHooks := if_neg hread
    simp only [Proc.step, hlines, hhooks, (refresh_core env).1, (refresh_unread hread).1]
      at hnew hold hhi ⊢
    exact h.hooked l hl hhead hnew elf helf hi hhi hold hre a ha

theorem settled_step (hu : P.util.Succeeds) (p : Proc) (e : Event) (q : Proc) (h : p.Settled P)
    (hcond : p.Valid P e ∧ p.Timely P e) (hstep : p.step? P e = some q) : q.Settled P := by
  cases hstep
  have hwf := wellFormed_step h.wellFormed hcond.1
  cases e with
  | register nomem regex symbol new_func old_func =>
    exact hooked_register h nomem regex symbol new_func old_func hwf
  | load k lib contents => exact hooked_load h hwf
  | unload pathname =>
    exact ⟨hwf, fun l hl => h.hooked l (List.mem_filter.1 hl).1⟩
  | refresh env => exact hooked_refresh hu h hcond.2 hwf

/-- **Hook completeness.** In every run from an empty process whose refreshes are all timely, a
refresh that returns `0` leaves every slot that a registration of the run is for with its new
function. -/
theorem hook_complete_of_timely (hu : P.util.Succeeds) {mem : Mem} {es : List Event} {env : RefreshEnv}
    (hvalid : Along (Proc.step? P) (Proc.Valid P) (Proc.initial mem) es)
    (htimely : Along (Proc.step? P) (Proc.Timely P) (Proc.initial mem) (es ++ [.refresh env]))
    (hrun : run (Proc.step? P) (Proc.initial mem) es = some p) (hret : (p.refresh P env).2 = 0) :
    HookComplete P (registered P (Proc.initial mem) es) (p.refresh P env).1 := by
  obtain ⟨halong, hlast⟩ := (along_concat hrun).1 htimely
  have hsettled : p.Settled P :=
    run_invariant (settled_step hu) (settled_initial mem) (hvalid.and halong) hrun
  intro l hl hhead elf helf r hr pathname_regex hcomp hre a ha
  obtain ⟨hi, hhi, hregex, hsymbol, hfunc, -⟩ := hook_of_registered hrun hr
  obtain rfl := Option.some.inj (hregex.symm.trans hcomp)
  rw [← hfunc]
  exact hooked_of_settled hu hsettled hlast hret hl hhead helf hhi hre (hsymbol ▸ ha)

end Timely

section Witness

/-- A library that calls `abort`, at a base address. -/
def fooLine (base_addr : Addr) : MapLine where
  base_addr
  perm := ⟨'r', '-', 'x', 'p'⟩
  offset := 0
  pathname := "/system/lib/libfoo.so"
  image := some { artImage with relplt := [⟨0x14, 2, .jumpSlot⟩] }

/-- The library with the variable that the first hook saves in, itself a slot of `pthread_create`. -/
def hookLine : MapLine where
  base_addr := 0x2000
  perm := ⟨'r', '-', 'x', 'p'⟩
  offset := 0
  pathname := "/data/app/com.yan/lib/arm/libyhook.so"
  image := some { artImage with relplt := [⟨0x10, 1, .jumpSlot⟩], reldyn := [⟨0x20, 1, .abs⟩] }

/-- The second hook is registered after a refresh, and the library that it is for is loaded again
before the next one, at another base address. -/
def timelyRun : List Event :=
  [.load 0 [hookLine] (fun _ => 7),
    .load 0 [fooLine 0x1000] (fun _ => 7),
    .register false (some ".*\\.so$") (some "pthread_create") 0x5000 (some 0x2020),
    .refresh quietEnv,
    .register false (some ".*\\.so$") (some "abort") 0x6000 none,
    .unload "/system/lib/libfoo.so",
    .load 0 [fooLine 0x3000] (fun _ => 7)]

theorem initialises_cons {l : MapLine} {maps : List MapLine}
    (hl : ∀ img, l.image = some img → ∃ elf, l.elf? = some elf ∧ elf.InRange)
    (hmaps : Initialises maps) : Initialises (l :: maps) := by
  intro l' hl'
  rcases List.mem_cons.1 hl' with rfl | hl'
  · exact hl
  · exact hmaps l' hl'

theorem initialises_fooLine (n : Nat) : Initialises [fooLine (0x1000 * (n + 1))] := by
  refine initialises_cons ?_ fun _ h => absurd h List.not_mem_nil
  rintro img ⟨rfl⟩
  refine ⟨_, rfl, fun rel _ => ?_⟩
  exact Nat.le_add_right _ _

theorem initialises_hookLine : Initialises [hookLine] := by
  refine initialises_cons ?_ fun _ h => absurd h List.not_mem_nil
  rintro img ⟨rfl⟩
  refine ⟨_, rfl, fun rel _ => ?_⟩
  exact Nat.le_add_right _ _

theorem headersPass_singleton {P : Platform} {l : MapLine} (h : xh_core_check_elf_header P l = 0) :
    HeadersPass P [l] := by
  intro l' hl' _
  rw [List.mem_singleton.1 hl']
  exact h

theorem valid_timelyRun (mem : Mem) :
    Along (Proc.step? armPlatform) (Proc.Valid armPlatform) (Proc.initial mem) timelyRun := by
  refine ⟨⟨(by decide : DistinctPaths [hookLine]), initialises_hookLine,
    headersPass_singleton rfl⟩, ?_⟩
  rintro p ⟨rfl⟩
  refine ⟨⟨(by decide : DistinctPaths [fooLine 0x1000, hookLine]), initialises_fooLine 0,
    headersPass_singleton rfl⟩, ?_⟩
  rintro p ⟨rfl⟩
  refine ⟨by simp [Proc.Valid, Proc.step, Proc.initial, XhCore.initial], ?_⟩
  rintro p ⟨rfl⟩
  refine ⟨trivial, ?_⟩
  rintro p ⟨rfl⟩
  refine ⟨?_, ?_⟩
  · intro hi hhi
    obtain rfl := List.mem_singleton.1 hhi
    decide
  rintro p ⟨rfl⟩
  refine ⟨trivial, ?_⟩
  rintro p ⟨rfl⟩
  exact ⟨⟨(by decide : DistinctPaths [fooLine 0x3000, hookLine]), initialises_fooLine 2,
    headersPass_singleton rfl⟩, fun _ _ => trivial⟩

/-- The process after `n` events of the run. -/
def timelyProc (n : Nat) : Proc :=
  (timelyRun.take n).foldl (Proc.step armPlatform) (Proc.initial fun _ => 0)

def pthreadHook : HookInfo := ⟨soPattern, "pthread_create", 0x5000, some 0x2020⟩
def abortHook : HookInfo := ⟨soPattern, "abort", 0x6000, none⟩

theorem timely_first : (timelyProc 3).Timely armPlatform (.refresh quietEnv) := by
  intro _ l hl _ elf helf hi hhi _
  obtain rfl : hi = pthreadHook := List.mem_singleton.1 hhi
  have hl : l ∈ [fooLine 0x1000, hookLine] := hl
  rcases List.mem_pair.1 hl with rfl | rfl <;> cases helf
  · have hslots : ∀ a ∈ XhElf.slots ⟨"/system/lib/libfoo.so", 0x1000, 0x1000, armSymTab,
        [⟨0x14, 2, .jumpSlot⟩], [], []⟩ "pthread_create", False := by decide +kernel
    exact fun a ha => absurd ha (hslots a)
  · have hneeds : needsHook quietEnv.alloc (timelyProc 3).core.xh_core_map_info hookLine = true := by
      decide +kernel
    have hslots : ∀ a ∈ XhElf.slots ⟨hookLine.pathname, 0x2000, 0x2000, armSymTab,
        [⟨0x10, 1, .jumpSlot⟩], [⟨0x20, 1, .abs⟩], []⟩ "pthread_create",
        a ∈ XhElf.walk ⟨hookLine.pathname, 0x2000, 0x2000, armSymTab,
          [⟨0x10, 1, .jumpSlot⟩], [⟨0x20, 1, .abs⟩], []⟩ armPlatform.util.elfclass_bits
            "pthread_create" ∧
          Redirect.Settles a 0x5000 (visits armPlatform quietEnv (timelyProc 3)) := by
      decide +kernel
    exact fun a ha => ⟨fun _ => ⟨rfl, hneeds, (hslots a ha).1⟩, (hslots a ha).2⟩

theorem timely_second : (timelyProc 7).Timely armPlatform (.refresh quietEnv) := by
  intro _ l hl _ elf helf hi hhi _
  have hhi : hi ∈ [pthreadHook, abortHook] := hhi
  have hl : l ∈ [fooLine 0x3000, hookLine] := hl
  rcases List.mem_pair.1 hl with rfl | rfl <;> cases helf
  · -- the library is new at its base address
    have hneeds : needsHook quietEnv.alloc (timelyProc 7).core.xh_core_map_info
        (fooLine 0x3000) = true := by
      decide +kernel
    have hslots : ∀ a ∈ XhElf.slots ⟨"/system/lib/libfoo.so", 0x3000, 0x3000, armSymTab,
        [⟨0x14, 2, .jumpSlot⟩], [], []⟩ hi.symbol,
        a ∈ XhElf.walk ⟨"/system/lib/libfoo.so", 0x3000, 0x3000, armSymTab,
          [⟨0x14, 2, .jumpSlot⟩], [], []⟩ armPlatform.util.elfclass_bits hi.symbol ∧
          Redirect.Settles a hi.new_func (visits armPlatform quietEnv (timelyProc 7)) := by
      rcases List.mem_pair.1 hhi with rfl | rfl <;> decide +kernel
    exact fun a ha => ⟨fun _ => ⟨rfl, hneeds, (hslots a ha).1⟩, (hslots a ha).2⟩
  · -- neither the library nor the hook with slots in it is new
    have hslots : ∀ a ∈ XhElf.slots ⟨hookLine.pathname, 0x2000, 0x2000, armSymTab,
        [⟨0x10, 1, .jumpSlot⟩], [⟨0x20, 1, .abs⟩], []⟩ hi.symbol, hi.symbol = "pthread_create" ∧
          Redirect.Settles a hi.new_func (visits armPlatform quietEnv (timelyProc 7)) := by
      rcases List.mem_pair.1 hhi with rfl | rfl <;> decide +kernel
    intro a ha
    obtain ⟨hsymbol, hsettles⟩ := hslots a ha
    refine ⟨?_, hsettles⟩
    rintro (hline | hhook)
    · have hbase := congrArg MapLine.base_addr (List.mem_singleton.1 hline)
      exact absurd hbase (by decide)
    · rw [List.mem_singleton.1 hhook] at hsymbol
      exact absurd hsymbol (by decide)

theorem hook_complete_timelyRun :
    ∃ p, run (Proc.step? armPlatform) (Proc.initial fun _ => 0) timelyRun = some p ∧
      (registered armPlatform (Proc.initial fun _ => 0) timelyRun).map Registration.symbol =
        ["pthread_create", "abort"] ∧
      HookComplete armPlatform (registered armPlatform (Proc.initial fun _ => 0) timelyRun)
        (p.refresh armPlatform quietEnv).1 := by
  have htimely : Along (Proc.step? armPlatform) (Proc.Timely armPlatform) (Proc.initial fun _ => 0)
      (timelyRun ++ [.refresh quietEnv]) := by
    refine ⟨trivial, ?_⟩
    rintro p ⟨rfl⟩
    refine ⟨trivial, ?_⟩
    rintro p ⟨rfl⟩
    refine ⟨trivial, ?_⟩
    rintro p ⟨rfl⟩
    refine ⟨timely_first, ?_⟩
    rintro p ⟨rfl⟩
    refine ⟨trivial, ?_⟩
    rintro p ⟨rfl⟩
    refine ⟨trivial, ?_⟩
    rintro p ⟨rfl⟩
    refine ⟨trivial, ?_⟩
    rintro p ⟨rfl⟩
    exact ⟨timely_second, fun _ _ => trivial⟩
  refine ⟨_, rfl, by decide, hook_complete_of_timely armPlatform_util_succeeds (valid_timelyRun _)
    htimely rfl (by decide +kernel)⟩

end Witness

end ElfHook.XHook
