import ElfHook.Lib.Run
import ElfHook.XHook.Core

/-!
# xHook over a whole process run

The process loads and unloads libraries, registers hooks and refreshes, in any order. A library
brings its lines into the maps and fixes what its cells hold; the cells of the other mapped libraries
keep their value, and the rest of the memory may become anything.

`newHooks` and `newLines` are history variables, which no step of the process reads: what has been
registered and mapped since a refresh last read the maps. `Proc.WellFormed` is kept by every valid
step (`wellFormed_step`), and gives what a refresh does to the memory (`refresh_mem`) and to the map
tree (`refresh_map_info`). `registered` are the calls of `xhook_register` in a run that returned `0`, and
`hook_of_registered` says that each of them has its hook in the end.
-/

namespace ElfHook.XHook

open Lib

structure Proc where
  core : XhCore
  maps : List MapLine
  mem : Mem
  newHooks : List HookInfo
  newLines : List MapLine

inductive Event where
  | register (nomem : Bool) (pathname_regex_str symbol : Option String) (new_func : Addr)
      (old_func : Option Addr)
  | load (k : Nat) (lib : List MapLine) (contents : Mem)
  | unload (pathname : String)
  | refresh (env : RefreshEnv)

def Proc.initial (mem : Mem) : Proc := ⟨XhCore.initial, [], mem, [], []⟩

/-- The relocation cells of the mapped ELFs. -/
def mappedCells (maps : List MapLine) : List Addr :=
  maps.flatMap fun l => l.elf?.elim [] XhElf.cells

def insertLines (k : Nat) (lib maps : List MapLine) : List MapLine :=
  maps.take k ++ lib ++ maps.drop k

/-- The memory after a load: the cells mapped before keep their value. -/
def loadMem (maps : List MapLine) (contents m : Mem) : Mem :=
  fun a => if a ∈ mappedCells maps then m a else contents a

def Proc.refresh (P : Platform) (env : RefreshEnv) (p : Proc) : Proc × Int :=
  let r := xh_core_refresh P env p.maps p.core p.mem
  let scanned := r.2.2 = 0 ∧ env.fopen = true
  ({ p with
      core := r.1
      mem := r.2.1
      newHooks := if scanned then [] else p.newHooks
      newLines := if scanned then [] else p.newLines }, r.2.2)

def Proc.step (P : Platform) (p : Proc) : Event → Proc
  | .register nomem regex symbol new_func old_func =>
    let core := (xh_core_register P nomem regex symbol new_func old_func p.core).1
    { p with
      core
      newHooks := p.newHooks ++ core.xh_core_hook_info.drop p.core.xh_core_hook_info.length }
  | .load k lib contents =>
    { p with
      maps := insertLines k lib p.maps
      mem := loadMem p.maps contents p.mem
      newLines := p.newLines ++ lib }
  | .unload pathname => { p with maps := p.maps.filter fun l => l.pathname ≠ pathname }
  | .refresh env => (p.refresh P env).1

abbrev Proc.step? (P : Platform) (p : Proc) (e : Event) : Option Proc := some (p.step P e)

/-- The ELF headers among the lines pass the check. -/
def HeadersPass (P : Platform) (lib : List MapLine) : Prop :=
  ∀ l ∈ lib, l.image.isSome = true → xh_core_check_elf_header P l = 0

/-- What the runs range over: hooks for distinct symbols, and libraries whose ELF passes the header
check and can be initialised and whose path is not mapped a second time. -/
def Proc.Valid (P : Platform) (p : Proc) : Event → Prop
  | .register _ _ symbol _ _ => ∀ hi ∈ p.core.xh_core_hook_info, some hi.symbol ≠ symbol
  | .load k lib _ => DistinctPaths (insertLines k lib p.maps) ∧ Initialises lib ∧ HeadersPass P lib
  | _ => True

/-- 32-bit ARM; the pages are writable; `.*\.so$` matches the paths that end
in `.so`. -/
def armPlatform : Platform where
  target := ⟨1, 40⟩
  util := ⟨32, fun _ => .ok PROT_READ_WRITE, fun _ _ => 0⟩
  regcomp regex :=
    if regex = ".*\\.so$" then some fun path => ".so".toList.isSuffixOf path.toList else none

theorem armPlatform_util_succeeds : armPlatform.util.Succeeds :=
  ⟨fun _ => ⟨_, rfl⟩, fun _ _ => rfl⟩

def quietEnv : RefreshEnv := ⟨0, true, fun _ => true⟩

def armEhdr : Ehdr := ⟨[0x7f, 0x45, 0x4c, 0x46], 1, 1, 1, 3, 40, 1⟩

/-- Two imported functions, `pthread_create` and `abort`. -/
def armSymTab : SymTab where
  symname i := if i = 1 then "pthread_create" else if i = 2 then "abort" else ""
  hash := .elf [1] [0, 2, 0]

def artImage : Image where
  ehdr := armEhdr
  phdr := [⟨PT_LOAD, 0, 0⟩, ⟨PT_DYNAMIC, 0x100, 0x100⟩]
  symtab := some armSymTab
  relplt := [⟨0x10, 1, .jumpSlot⟩, ⟨0x14, 2, .jumpSlot⟩]
  reldyn := []
  relandroid := none

def artLine : MapLine where
  base_addr := 0x1000
  perm := ⟨'r', '-', 'x', 'p'⟩
  offset := 0
  pathname := "/system/lib/libart.so"
  image := some artImage

/-! ### Registrations -/

/-- A call of `xhook_register` with no null string. -/
structure Registration where
  pathname_regex_str : String
  symbol : String
  new_func : Addr
  old_func : Option Addr

/-- The call of an event, if it is one that returns `0`. -/
def Event.registration (P : Platform) (p : Proc) : Event → Option Registration
  | .register nomem (some regex) (some symbol) new_func old_func =>
    if (xh_core_register P nomem (some regex) (some symbol) new_func old_func p.core).2 = 0 then
      some ⟨regex, symbol, new_func, old_func⟩
    else none
  | _ => none

/-- The registrations of a run, those that returned `0`. -/
def registered (P : Platform) : Proc → List Event → List Registration
  | _, [] => []
  | p, e :: es => (e.registration P p).toList ++ registered P (p.step P e) es

/-! ### Well-formed processes -/

/-- No ignore rules, hooks with a function to install, and libraries as in `Proc.Valid`. -/
structure Proc.WellFormed (P : Platform) (p : Proc) : Prop where
  ignore : p.core.xh_core_ignore_info = []
  new_func : ∀ hi ∈ p.core.xh_core_hook_info, hi.new_func ≠ 0
  distinct : DistinctPaths p.maps
  initialises : Initialises p.maps
  headers : HeadersPass P p.maps

section WellFormed

variable {P : Platform} {p : Proc}

theorem mem_insertLines {k : Nat} {lib maps : List MapLine} {l : MapLine} :
    l ∈ insertLines k lib maps ↔ l ∈ lib ∨ l ∈ maps := by
  have hsplit : l ∈ maps ↔ l ∈ maps.take k ∨ l ∈ maps.drop k := by
    rw [← List.mem_append, List.take_append_drop]
  rw [insertLines, List.mem_append, List.mem_append, hsplit]
  tauto

theorem slot_mem_mappedCells {maps : List MapLine} {l : MapLine} (hl : l ∈ maps) {elf : XhElf}
    (helf : l.elf? = some elf) {symbol : String} {a : Addr} (ha : a ∈ elf.slots symbol) :
    a ∈ mappedCells maps :=
  List.mem_flatMap.2 ⟨l, hl, by simpa [helf] using elf.slots_subset_cells symbol ha⟩

/-- The cells mapped before a load are not touched by it. -/
theorem loadMem_of_mapped {maps : List MapLine} {contents m : Mem} {a : Addr}
    (ha : a ∈ mappedCells maps) : loadMem maps contents m a = m a :=
  if_pos ha

theorem init_once_fields (sigaction : Int) (c : XhCore) :
    (xh_core_init_once sigaction c).xh_core_hook_info = c.xh_core_hook_info ∧
      (xh_core_init_once sigaction c).xh_core_ignore_info = c.xh_core_ignore_info ∧
      (xh_core_init_once sigaction c).xh_core_map_info = c.xh_core_map_info := by
  unfold xh_core_init_once
  split_ifs <;> exact ⟨rfl, rfl, rfl⟩

theorem refresh_core (env : RefreshEnv) :
    (p.refresh P env).1.core.xh_core_hook_info = p.core.xh_core_hook_info ∧
      (p.refresh P env).1.core.xh_core_ignore_info = p.core.xh_core_ignore_info := by
  obtain ⟨hhook, hignore, -⟩ := init_once_fields env.sigaction p.core
  simp only [Proc.refresh, xh_core_refresh]
  split_ifs
  · exact ⟨hhook, hignore⟩
  · unfold xh_core_refresh_impl
    split_ifs <;> exact ⟨hhook, hignore⟩

/-- Whether a line is considered depends on the hooks and the ignore rules only. -/
theorem considered_congr {c d : XhCore} (hhook : c.xh_core_hook_info = d.xh_core_hook_info)
    (hignore : c.xh_core_ignore_info = d.xh_core_ignore_info) (l : MapLine) :
    considered P c l = considered P d l := by
  unfold considered
  rw [hhook, hignore]

/-- No step forgets a hook. -/
theorem hook_info_subset_step (e : Event) :
    p.core.xh_core_hook_info ⊆ (p.step P e).core.xh_core_hook_info := by
  cases e with
  | register nomem regex symbol new_func old_func =>
    rcases xh_core_register_eq P nomem regex symbol new_func old_func p.core with
      ⟨hi, hcore, -⟩ | hcore
    · simp only [Proc.step, hcore]
      exact List.subset_append_left _ _
    · simp only [Proc.step, hcore]
      exact List.Subset.refl _
  | load k lib contents => exact List.Subset.refl _
  | unload pathname => exact List.Subset.refl _
  | refresh env =>
    rw [Proc.step, (refresh_core env).1]
    exact List.Subset.refl _

/-- What a hook keeps of a registration. -/
def HookInfo.Of (P : Platform) (hi : HookInfo) (r : Registration) : Prop :=
  P.regcomp r.pathname_regex_str = some hi.pathname_regex ∧ hi.symbol = r.symbol ∧
    hi.new_func = r.new_func ∧ hi.old_func = r.old_func

theorem hook_of_registration {e : Event} {r : Registration} (h : e.registration P p = some r) :
    ∃ hi ∈ (p.step P e).core.xh_core_hook_info, hi.Of P r := by
  cases e with
  | register nomem regex symbol new_func old_func =>
    cases regex with
    | none => cases h
    | some regex =>
      cases symbol with
      | none => cases h
      | some symbol =>
        simp only [Event.registration] at h
        split_ifs at h with hret
        obtain rfl := Option.some.inj h
        cases hcomp : P.regcomp regex with
        | none => simp [xh_core_register, hcomp, XH_ERRNO_INVAL] at hret
        | some pathname_regex =>
          simp only [Proc.step, xh_core_register, hcomp] at hret ⊢
          split_ifs at hret ⊢
          · cases hret
          · cases hret
          · exact ⟨_, List.mem_append_right _ List.mem_cons_self, hcomp, rfl, rfl, rfl⟩
  | _ => cases h

/-- Every registration that returned `0` has its hook at the end of the run. -/
theorem hook_of_registered {q : Proc} {es : List Event} {r : Registration}
    (hrun : run (Proc.step? P) p es = some q) (hr : r ∈ registered P p es) :
    ∃ hi ∈ q.core.xh_core_hook_info, hi.Of P r := by
  have hkept : ∀ {p q : Proc} {es : List Event}, run (Proc.step? P) p es = some q →
      p.core.xh_core_hook_info ⊆ q.core.xh_core_hook_info := by
    intro p q es hrun
    refine run_invariant' (I := fun u => p.core.xh_core_hook_info ⊆ u.core.xh_core_hook_info) ?_
      (List.Subset.refl _) hrun
    rintro s e _ hs ⟨rfl⟩
    exact List.Subset.trans hs (hook_info_subset_step e)
  induction es generalizing p with
  | nil => cases hr
  | cons e es ih =>
    obtain ⟨u, ⟨rfl⟩, hrest⟩ := run_cons_eq_some.1 hrun
    rcases List.mem_append.1 hr with hr | hr
    · obtain ⟨hi, hhi, hof⟩ := hook_of_registration (Option.mem_toList.1 hr)
      exact ⟨hi, hkept hrest hhi, hof⟩
    · exact ih hrest hr

theorem wellFormed_initial (mem : Mem) : (Proc.initial mem).WellFormed P where
  ignore := rfl
  new_func := by simp [Proc.initial, XhCore.initial]
  distinct := List.nodup_nil
  initialises := by simp [Proc.initial, Initialises]
  headers := by simp [Proc.initial, HeadersPass]

theorem wellFormed_step (h : p.WellFormed P) {e : Event} (hvalid : p.Valid P e) :
    (p.step P e).WellFormed P := by
  cases e with
  | register nomem regex symbol new_func old_func =>
    rcases xh_core_register_eq P nomem regex symbol new_func old_func p.core with
      ⟨hi, hcore, -, hfunc, -, hne⟩ | hcore
    · refine ⟨?_, ?_, h.distinct, h.initialises, h.headers⟩
      · simpa only [Proc.step, hcore] using h.ignore
      · simp only [Proc.step, hcore, List.mem_append, List.mem_singleton]
        rintro hi' (hmem | rfl)
        · exact h.new_func hi' hmem
        · exact hfunc ▸ hne
    · refine ⟨?_, ?_, h.distinct, h.initialises, h.headers⟩
      · simpa only [Proc.step, hcore] using h.ignore
      · simpa only [Proc.step, hcore] using h.new_func
  | load k lib contents =>
    obtain ⟨hdistinct, hinit, hheaders⟩ := hvalid
    exact ⟨h.ignore, h.new_func, hdistinct,
      fun l hl => (mem_insertLines.1 hl).elim (hinit l) (h.initialises l),
      fun l hl => (mem_insertLines.1 hl).elim (hheaders l) (h.headers l)⟩
  | unload pathname =>
    have hsub : ∀ l ∈ p.maps.filter (fun l => l.pathname ≠ pathname), l ∈ p.maps :=
      fun l hl => (List.mem_filter.1 hl).1
    refine ⟨h.ignore, h.new_func, ?_, fun l hl => h.initialises l (hsub l hl),
      fun l hl => h.headers l (hsub l hl)⟩
    refine List.Nodup.sublist ?_ h.distinct
    exact (List.filter_sublist.filter _).map _
  | refresh env =>
    obtain ⟨hhook, hignore⟩ := refresh_core (P := P) (p := p) env
    exact ⟨hignore.trans h.ignore, fun hi hhi => h.new_func hi (hhook ▸ hhi), h.distinct,
      h.initialises, h.headers⟩

/-- A header line with an ELF is considered exactly if some hook matches its path. -/
theorem considered_iff_of_wellFormed (h : p.WellFormed P) {l : MapLine} (hl : l ∈ p.maps)
    (himg : l.image.isSome = true) :
    considered P p.core l = true ↔ l.isHeader = true ∧
      ∃ hi ∈ p.core.xh_core_hook_info, hi.pathname_regex l.pathname = true := by
  rw [considered_iff h.ignore]
  simp [h.headers l hl himg]

theorem isSome_image_of_elf {l : MapLine} {elf : XhElf} (h : l.elf? = some elf) :
    l.image.isSome = true := by
  obtain ⟨img, himg, -⟩ := Option.bind_eq_some_iff.1 h
  rw [himg, Option.isSome_some]

/-- What a refresh that returns `0` and reads the maps does to the memory. -/
theorem refresh_mem (hu : P.util.Succeeds) (h : p.WellFormed P) {env : RefreshEnv}
    (hret : (p.refresh P env).2 = 0) (hfopen : env.fopen = true) :
    (p.refresh P env).1.mem =
      Redirect.applyAll p.mem (refreshRedirects P p.core env.alloc p.maps) := by
  obtain ⟨hhook, hignore, htree⟩ := init_once_fields env.sigaction p.core
  simp only [Proc.refresh, xh_core_refresh] at hret ⊢
  split_ifs at hret ⊢ with hok
  · simp [XH_ERRNO_UNKNOWN] at hret
  · simp only [xh_core_refresh_impl, hfopen, if_true, htree]
    rw [(refreshLines_eq hu (hignore.trans h.ignore) (hhook ▸ h.new_func) h.initialises h.distinct _
      p.mem fun _ _ _ => rfl).1, hhook]
    simp only [refreshRedirects, hookedLines, considered_congr hhook hignore]

theorem refresh_unread {env : RefreshEnv}
    (hread : ¬ ((p.refresh P env).2 = 0 ∧ env.fopen = true)) :
    (p.refresh P env).1.mem = p.mem ∧
      (p.refresh P env).1.core.xh_core_map_info = p.core.xh_core_map_info := by
  obtain ⟨-, -, htree⟩ := init_once_fields env.sigaction p.core
  simp only [Proc.refresh, xh_core_refresh] at hread ⊢
  split_ifs at hread ⊢ with hok
  · exact ⟨rfl, htree⟩
  · have hfopen : ¬ env.fopen = true := fun hf => hread ⟨rfl, hf⟩
    simpa only [xh_core_refresh_impl, if_neg hfopen, true_and] using htree

/-- The map tree after a refresh that read the maps: the considered lines whose item exists. -/
theorem refresh_map_info (hu : P.util.Succeeds) (h : p.WellFormed P) {env : RefreshEnv}
    (hret : (p.refresh P env).2 = 0) (hfopen : env.fopen = true) (path : String) (base : Addr) :
    (p.refresh P env).1.core.xh_core_map_info path = some base ↔
      ∃ l ∈ p.maps, considered P p.core l = true ∧ l.pathname = path ∧ l.base_addr = base ∧
        ((p.core.xh_core_map_info path).isSome || env.alloc path) = true := by
  obtain ⟨hhook, hignore, htree⟩ := init_once_fields env.sigaction p.core
  simp only [Proc.refresh, xh_core_refresh] at hret ⊢
  split_ifs at hret ⊢ with hok
  · simp [XH_ERRNO_UNKNOWN] at hret
  · simp only [xh_core_refresh_impl, hfopen, if_true, htree]
    rw [(refreshLines_eq hu (hignore.trans h.ignore) (hhook ▸ h.new_func) h.initialises h.distinct _
      p.mem fun _ _ _ => rfl).2]
    simp [considered_congr hhook hignore]

/-- An ELF that a refresh considered is not hooked by the next one while it stays at its base
address, whatever has been registered in between. -/
theorem needsHook_after_refresh (hu : P.util.Succeeds) (h : p.WellFormed P) {env : RefreshEnv}
    (hret : (p.refresh P env).2 = 0) (hfopen : env.fopen = true) {l : MapLine} (hl : l ∈ p.maps)
    (hconsidered : considered P p.core l = true) (halloc : env.alloc l.pathname = true)
    (alloc : String → Bool) :
    needsHook alloc (p.refresh P env).1.core.xh_core_map_info l = false := by
  have htree := (refresh_map_info hu h hret hfopen l.pathname l.base_addr).2
    ⟨l, hl, hconsidered, rfl, rfl, by rw [halloc, Bool.or_true]⟩
  simp [needsHook, htree]

end WellFormed

end ElfHook.XHook
