import Mathlib.Data.List.Nodup
import ElfHook.XHook.Process

/-!
# The saved `pthread_create`

`thread_hook` registers `thread_create_proxy` for `pthread_create` in every path matching `.*\.so$`,
saving in the variable `thread_create_original`, which starts as `pthread_create`. That initialiser
makes the variable itself a relocation cell of `libyhook.so` for the symbol hooked, so a refresh that
comes to it stores the proxy in the very cell the proxy calls through.

* `original_genuine_iff`: in every run of loads and refreshes, the variable holds the genuine function
  after each refresh that leaves the proxy in some slot, if and only if each refresh that redirects
  the variable redirects another cell for the first time after it (`RepairsOriginal`).
* `not_original_genuine`: with `libyhook.so` last in the maps the proxy calls itself.
-/

namespace ElfHook.XHook

open Lib

def pthread_create : String := "pthread_create"

/-- The registration in `thread_hook`: `thread_create_proxy` and `&thread_create_original`. -/
def thread_hook_register (proxy original : Addr) : Event :=
  .register false (some ".*\\.so$") (some pthread_create) proxy (some original)

/-- The hook that `thread_hook` registers, `.*\.so$` compiled. -/
def threadHookInfo (pathname_regex : String → Bool) (proxy original : Addr) : HookInfo where
  pathname_regex
  symbol := pthread_create
  new_func := proxy
  old_func := some original

/-- Distinct mapped libraries have distinct cells. -/
def OwnCells (maps : List MapLine) : Prop :=
  ∀ l ∈ maps, l.isHeader = true → ∀ l' ∈ maps, l'.isHeader = true → ∀ elf elf', l.elf? = some elf →
    l'.elf? = some elf' → ∀ a ∈ elf.cells, a ∈ elf'.cells → l.pathname = l'.pathname

/-- Every slot that imports `pthread_create` in the lines holds the genuine function. -/
def SlotsGenuine (genuine : Addr) (lines : List MapLine) (m : Mem) : Prop :=
  ∀ l ∈ lines, l.isHeader = true → ∀ elf, l.elf? = some elf →
    ∀ a ∈ elf.slots pthread_create, m a = genuine

/-- What `thread_hook` starts from: nothing registered, any mapped libraries in any order, and the
variable, a relocation cell of one of them, holding the genuine function like every slot. -/
structure BeforeThreadHook (P : Platform) (original genuine : Addr) (p : Proc) : Prop where
  core : p.core = XhCore.initial
  wellFormed : p.WellFormed P
  ownCells : OwnCells p.maps
  slots : SlotsGenuine genuine p.maps p.mem
  original_mapped : original ∈ mappedCells p.maps
  original_genuine : p.mem original = genuine

/-- The later events: a refresh, or a load of a library of its own cells whose slots come resolved
to the genuine function. -/
def LaterEvent (P : Platform) (genuine : Addr) (p : Proc) : Event → Prop
  | .load k lib contents => p.Valid P (.load k lib contents) ∧ OwnCells (insertLines k lib p.maps) ∧
      SlotsGenuine genuine lib (loadMem p.maps contents p.mem)
  | .refresh _ => True
  | _ => False

/-- If some slot holds the proxy, the variable holds the genuine function. -/
def OriginalGenuine (original proxy genuine : Addr) (p : Proc) : Prop :=
  (∃ l ∈ p.maps, l.isHeader = true ∧ ∃ elf, l.elf? = some elf ∧
    ∃ a ∈ elf.slots pthread_create, p.mem a = proxy) → p.mem original = genuine

/-- The state after a refresh has the property. -/
def AfterRefresh (P : Platform) (Good : Proc → Prop) (p : Proc) : Event → Prop
  | .refresh env => Good (p.step P (.refresh env))
  | _ => True

/-- The cells a refresh comes to, in order. -/
def refreshCells (P : Platform) (env : RefreshEnv) (p : Proc) : List Addr :=
  (refreshRedirects P p.core env.alloc p.maps).map (·.cell)

/-- A refresh that comes to the variable itself comes to a new cell after it. -/
def RepairsOriginal (P : Platform) (original : Addr) (p : Proc) : Event → Prop
  | .refresh env => (p.refresh P env).2 = 0 → env.fopen = true →
      original ∈ refreshCells P env p → Redirect.Repaired original (refreshCells P env p)
  | _ => True

/-! ### The invariant -/

/-- Libraries that the map tree does not have at their base address are unhooked, and the variable
holds the genuine function. -/
structure ThreadHooked (P : Platform) (pathname_regex : String → Bool)
    (original proxy genuine : Addr) (p : Proc) : Prop where
  hooks : p.core.xh_core_hook_info = [threadHookInfo pathname_regex proxy original]
  wellFormed : p.WellFormed P
  ownCells : OwnCells p.maps
  tree : ∀ path base, p.core.xh_core_map_info path = some base →
    ∃ l ∈ p.maps, considered P p.core l = true ∧ l.pathname = path ∧ l.base_addr = base
  unhooked : ∀ l ∈ p.maps, l.isHeader = true →
    p.core.xh_core_map_info l.pathname ≠ some l.base_addr → ∀ elf, l.elf? = some elf →
      ∀ a ∈ elf.slots pthread_create, p.mem a = genuine
  original_mapped : original ∈ mappedCells p.maps
  original_genuine : p.mem original = genuine

theorem eq_of_pathname_eq {maps : List MapLine} (hdistinct : DistinctPaths maps) {l l' : MapLine}
    (hl : l ∈ maps) (hhead : l.isHeader = true) (hl' : l' ∈ maps) (hhead' : l'.isHeader = true)
    (hpath : l.pathname = l'.pathname) : l = l' :=
  List.inj_on_of_nodup_map hdistinct (List.mem_filter.2 ⟨hl, hhead⟩)
    (List.mem_filter.2 ⟨hl', hhead'⟩) hpath

theorem mappedCells_subset_insertLines (k : Nat) (lib maps : List MapLine) :
    mappedCells maps ⊆ mappedCells (insertLines k lib maps) := by
  intro a ha
  obtain ⟨l, hl, hcell⟩ := List.mem_flatMap.1 ha
  exact List.mem_flatMap.2 ⟨l, mem_insertLines.2 (Or.inr hl), hcell⟩

theorem not_kept_of_needsHook {alloc : String → Bool} {map_info : MapInfoTree} {l : MapLine}
    (h : needsHook alloc map_info l = true) : map_info l.pathname ≠ some l.base_addr := by
  intro hkept
  simp [needsHook, hkept] at h

section ThreadHooked

variable {P : Platform} {pathname_regex : String → Bool} {original proxy genuine : Addr} {p : Proc}

theorem threadHooked_of_start (hregex : P.regcomp ".*\\.so$" = some pathname_regex)
    (hproxy : proxy ≠ 0) (h : BeforeThreadHook P original genuine p) :
    ThreadHooked P pathname_regex original proxy genuine
      (p.step P (thread_hook_register proxy original)) := by
  have hcore : (xh_core_register P false (some ".*\\.so$") (some pthread_create) proxy
      (some original) p.core).1 = { XhCore.initial with
        xh_core_hook_info := [threadHookInfo pathname_regex proxy original] } := by
    simp [xh_core_register, hproxy, hregex, h.core, XhCore.initial, threadHookInfo]
  have hmaps : (p.step P (thread_hook_register proxy original)).maps = p.maps := rfl
  have hmem : (p.step P (thread_hook_register proxy original)).mem = p.mem := rfl
  have hvalid : p.Valid P (thread_hook_register proxy original) := by
    intro hi hhi
    rw [h.core] at hhi
    exact absurd hhi List.not_mem_nil
  refine ⟨?_, wellFormed_step h.wellFormed hvalid, h.ownCells, ?_, ?_, h.original_mapped,
    h.original_genuine⟩
  · simp only [Proc.step, thread_hook_register, hcore]
  · simp only [Proc.step, thread_hook_register, hcore, XhCore.initial]
    intro path base htree
    simp at htree
  · intro l hl hhead _ elf helf
    exact h.slots l hl hhead elf helf

/-- All redirections of a refresh go to the proxy and save in the variable. -/
theorem refreshRedirects_eq_toward
    (hhooks : p.core.xh_core_hook_info = [threadHookInfo pathname_regex proxy original])
    (env : RefreshEnv) :
    refreshRedirects P p.core env.alloc p.maps =
      Redirect.toward proxy original (refreshCells P env p) := by
  rw [Redirect.toward, refreshCells, List.map_map]
  refine (List.map_id _).symm.trans (List.map_congr_left fun op hop => ?_)
  obtain ⟨_, -, -, -, _, -, hi, hhi, -, a, -, rfl⟩ := mem_refreshRedirects.1 hop
  rw [hhooks] at hhi
  obtain rfl := List.mem_singleton.1 hhi
  rfl

/-- A cell that a refresh comes to is an unhooked slot. -/
theorem slot_of_mem_refreshCells (h : ThreadHooked P pathname_regex original proxy genuine p)
    {env : RefreshEnv} {a : Addr} (ha : a ∈ refreshCells P env p) :
    ∃ l ∈ p.maps, considered P p.core l = true ∧
      needsHook env.alloc p.core.xh_core_map_info l = true ∧
      ∃ elf, l.elf? = some elf ∧ a ∈ elf.slots pthread_create := by
  obtain ⟨op, hop, rfl⟩ := List.mem_map.1 ha
  obtain ⟨l, hl, hc, hn, elf, helf, hi, hhi, -, b, hb, rfl⟩ := mem_refreshRedirects.1 hop
  rw [h.hooks] at hhi
  obtain rfl := List.mem_singleton.1 hhi
  exact ⟨l, hl, hc, hn, elf, helf, elf.walk_subset_slots _ _ hb⟩

theorem genuine_of_mem_refreshCells (h : ThreadHooked P pathname_regex original proxy genuine p)
    {env : RefreshEnv} {a : Addr} (ha : a ∈ refreshCells P env p) : p.mem a = genuine := by
  obtain ⟨l, hl, hc, hn, elf, helf, hslot⟩ := slot_of_mem_refreshCells h ha
  exact h.unhooked l hl (isHeader_of_considered hc) (not_kept_of_needsHook hn) elf helf a hslot

/-- The variable after a refresh that reads the maps. -/
theorem original_after_refresh (hu : P.util.Succeeds) (hne : genuine ≠ proxy)
    (h : ThreadHooked P pathname_regex original proxy genuine p) {env : RefreshEnv}
    (hret : (p.refresh P env).2 = 0) (hfopen : env.fopen = true) :
    ((p.refresh P env).1.mem original = genuine ∧
        (original ∈ refreshCells P env p → Redirect.Repaired original (refreshCells P env p))) ∨
      ((p.refresh P env).1.mem original = proxy ∧ original ∈ refreshCells P env p ∧
        ¬ Redirect.Repaired original (refreshCells P env p)) := by
  rw [refresh_mem hu h.wellFormed hret hfopen, refreshRedirects_eq_toward h.hooks]
  exact Redirect.applyAll_save hne (fun a ha => genuine_of_mem_refreshCells h ha) h.original_genuine

theorem good_iff_repairs (hu : P.util.Succeeds) (hne : genuine ≠ proxy)
    (h : ThreadHooked P pathname_regex original proxy genuine p) (e : Event) :
    AfterRefresh P (OriginalGenuine original proxy genuine) p e ↔ RepairsOriginal P original p e := by
  cases e with
  | refresh env =>
    by_cases hread : (p.refresh P env).2 = 0 ∧ env.fopen = true
    · obtain ⟨hret, hfopen⟩ := hread
      rcases original_after_refresh hu hne h hret hfopen with ⟨hgood, hrep⟩ | ⟨hbad, hmem, hrep⟩
      · exact ⟨fun _ _ _ => hrep, fun _ _ => hgood⟩
      · -- the variable is a slot, and it holds the proxy
        obtain ⟨l, hl, hc, -, elf, helf, hslot⟩ := slot_of_mem_refreshCells h hmem
        constructor
        · intro hgood
          have hgen : (p.refresh P env).1.mem original = genuine :=
            hgood ⟨l, hl, isHeader_of_considered hc, elf, helf, original, hslot, hbad⟩
          exact absurd (hgen.symm.trans hbad) hne
        · exact fun hcond => absurd (hcond hret hfopen hmem) hrep
    · have hgen : (p.refresh P env).1.mem original = genuine :=
        (congrFun (refresh_unread hread).1 original).trans h.original_genuine
      exact ⟨fun _ hret hfopen => absurd ⟨hret, hfopen⟩ hread, fun _ _ => hgen⟩
  | _ => exact Iff.rfl

theorem threadHooked_load (h : ThreadHooked P pathname_regex original proxy genuine p) {k : Nat}
    {lib : List MapLine} {contents : Mem} (hlater : LaterEvent P genuine p (.load k lib contents)) :
    ThreadHooked P pathname_regex original proxy genuine (p.step P (.load k lib contents)) := by
  obtain ⟨hvalid, hown, hslots⟩ := hlater
  refine ⟨h.hooks, wellFormed_step h.wellFormed hvalid, hown, ?_, ?_,
    mappedCells_subset_insertLines k lib p.maps h.original_mapped,
    (loadMem_of_mapped h.original_mapped).trans h.original_genuine⟩
  · intro path base htree
    obtain ⟨l, hl, hrest⟩ := h.tree path base htree
    exact ⟨l, mem_insertLines.2 (Or.inr hl), hrest⟩
  · intro l hl hhead hkept elf helf a ha
    rcases mem_insertLines.1 hl with hl | hl
    · exact hslots l hl hhead elf helf a ha
    · exact (loadMem_of_mapped (slot_mem_mappedCells hl helf ha)).trans
        (h.unhooked l hl hhead hkept elf helf a ha)

section Unhooked

variable {env : RefreshEnv} {l : MapLine} {elf : XhElf} {a : Addr}

/-- A line that is not in the tree after a refresh was not in it before: it would have stayed. -/
theorem not_in_tree_before (hu : P.util.Succeeds)
    (h : ThreadHooked P pathname_regex original proxy genuine p) (hret : (p.refresh P env).2 = 0)
    (hfopen : env.fopen = true) (hl : l ∈ p.maps) (hhead : l.isHeader = true)
    (hkept : (p.refresh P env).1.core.xh_core_map_info l.pathname ≠ some l.base_addr) :
    p.core.xh_core_map_info l.pathname ≠ some l.base_addr := by
  intro hin
  obtain ⟨l', hl', hc, hpath, -⟩ := h.tree _ _ hin
  obtain rfl := eq_of_pathname_eq h.wellFormed.distinct hl hhead hl'
    (isHeader_of_considered hc) hpath.symm
  refine hkept ((refresh_map_info hu h.wellFormed hret hfopen _ _).2 ?_)
  exact ⟨l, hl, hc, rfl, rfl, by rw [hin]; rfl⟩

/-- The refresh did not come to the cells of such a line. -/
theorem not_mem_refreshCells (hu : P.util.Succeeds)
    (h : ThreadHooked P pathname_regex original proxy genuine p) (hret : (p.refresh P env).2 = 0)
    (hfopen : env.fopen = true) (hl : l ∈ p.maps) (hhead : l.isHeader = true)
    (hkept : (p.refresh P env).1.core.xh_core_map_info l.pathname ≠ some l.base_addr)
    (helf : l.elf? = some elf) (ha : a ∈ elf.slots pthread_create) :
    a ∉ refreshCells P env p := by
  intro hcell
  obtain ⟨l', hl', hc, hn, elf', helf', hslot⟩ := slot_of_mem_refreshCells h hcell
  have hpath := h.ownCells l hl hhead l' hl' (isHeader_of_considered hc) elf elf' helf helf' a
    (elf.slots_subset_cells _ ha) (elf'.slots_subset_cells _ hslot)
  obtain rfl := eq_of_pathname_eq h.wellFormed.distinct hl hhead hl'
    (isHeader_of_considered hc) hpath
  refine hkept ((refresh_map_info hu h.wellFormed hret hfopen _ _).2 ⟨l, hl, hc, rfl, rfl, ?_⟩)
  unfold needsHook at hn
  cases hin : p.core.xh_core_map_info l.pathname with
  | some base => rfl
  | none => simpa [hin] using hn

end Unhooked

theorem threadHooked_refresh (hu : P.util.Succeeds) (hne : genuine ≠ proxy)
    (h : ThreadHooked P pathname_regex original proxy genuine p) {env : RefreshEnv}
    (hrepairs : RepairsOriginal P original p (.refresh env)) :
    ThreadHooked P pathname_regex original proxy genuine (p.step P (.refresh env)) := by
  obtain ⟨hhook, hignore⟩ := refresh_core (P := P) (p := p) env
  have hconsidered := considered_congr (P := P) hhook hignore
  have hwf : (p.step P (.refresh env)).WellFormed P := wellFormed_step h.wellFormed trivial
  by_cases hread : (p.refresh P env).2 = 0 ∧ env.fopen = true
  · obtain ⟨hret, hfopen⟩ := hread
    have hmap := refresh_map_info hu h.wellFormed hret hfopen
    have hgood : (p.refresh P env).1.mem original = genuine := by
      rcases original_after_refresh hu hne h hret hfopen with ⟨hgood, -⟩ | ⟨-, hmem, hrep⟩
      · exact hgood
      · exact absurd (hrepairs hret hfopen hmem) hrep
    refine ⟨hhook.trans h.hooks, hwf, h.ownCells, ?_, ?_, h.original_mapped, hgood⟩
    · intro path base htree
      obtain ⟨l, hl, hc, hpath, hbase, -⟩ := (hmap path base).1 htree
      exact ⟨l, hl, (hconsidered l).trans hc, hpath, hbase⟩
    · intro l hl hhead hkept elf helf a ha
      have hl : l ∈ p.maps := hl
      by_cases ha0 : a = original
      · rw [ha0]
        exact hgood
      have hbefore := not_in_tree_before hu h hret hfopen hl hhead hkept
      have huntouched := not_mem_refreshCells hu h hret hfopen hl hhead hkept helf ha
      show (p.refresh P env).1.mem a = genuine
      rw [refresh_mem hu h.wellFormed hret hfopen, refreshRedirects_eq_toward h.hooks,
        Redirect.applyAll_toward_frame ha0 huntouched]
      exact h.unhooked l hl hhead hbefore elf helf a ha
  · obtain ⟨hmem, htree⟩ := refresh_unread hread
    refine ⟨hhook.trans h.hooks, hwf, h.ownCells, ?_, ?_, h.original_mapped,
      (congrFun hmem original).trans h.original_genuine⟩
    · intro path base hin
      obtain ⟨l, hl, hc, hrest⟩ := h.tree path base (htree ▸ hin)
      exact ⟨l, hl, (hconsidered l).trans hc, hrest⟩
    · intro l hl hhead hkept elf helf a ha
      refine (congrFun hmem a).trans (h.unhooked l hl hhead (fun hin => hkept ?_) elf helf a ha)
      exact (congrFun htree _).trans hin

/-- **The saved function.** Whatever is mapped when `thread_hook` registers, and whatever is loaded
and refreshed from then on (its own refresh is the first event), the variable holds the genuine
`pthread_create` after every refresh that leaves the proxy in some slot, if and only if every refresh
that redirects the variable redirects another cell for the first time after it. -/
theorem original_genuine_iff (hu : P.util.Succeeds)
    (hregex : P.regcomp ".*\\.so$" = some pathname_regex) (hproxy : proxy ≠ 0)
    (hne : genuine ≠ proxy) (hstart : BeforeThreadHook P original genuine p) {es : List Event}
    (hlater : Along (Proc.step? P) (LaterEvent P genuine)
      (p.step P (thread_hook_register proxy original)) es) :
    Along (Proc.step? P) (AfterRefresh P (OriginalGenuine original proxy genuine))
        (p.step P (thread_hook_register proxy original)) es ↔
      Along (Proc.step? P) (RepairsOriginal P original)
        (p.step P (thread_hook_register proxy original)) es := by
  refine along_iff_of_invariant (I := ThreadHooked P pathname_regex original proxy genuine)
    (fun q e hq _ => good_iff_repairs hu hne hq e) ?_ (threadHooked_of_start hregex hproxy hstart)
    hlater
  rintro q e _ hq hlater hrepairs ⟨rfl⟩
  cases e with
  | load k lib contents => exact threadHooked_load hq hlater
  | refresh env => exact threadHooked_refresh hu hne hq hrepairs
  | _ => exact absurd hlater id

end ThreadHooked

/-! ### `libyhook.so` last, and first -/

section Order

/-- `libyhook.so` calls `pthread_create` itself, and its variable `thread_create_original`, at
`0x2020`, is initialised by an `ABS` relocation. -/
def yhookImage : Image where
  ehdr := armEhdr
  phdr := [⟨PT_LOAD, 0, 0⟩, ⟨PT_DYNAMIC, 0x100, 0x100⟩]
  symtab := some armSymTab
  relplt := [⟨0x10, 1, .jumpSlot⟩]
  reldyn := [⟨0x20, 1, .abs⟩]
  relandroid := none

def yhookLine : MapLine where
  base_addr := 0x2000
  perm := ⟨'r', '-', 'x', 'p'⟩
  offset := 0
  pathname := "/data/app/com.yan/lib/arm/libyhook.so"
  image := some yhookImage

/-- Every cell holds the genuine function, `7`. -/
def procOf (maps : List MapLine) : Proc := ⟨XhCore.initial, maps, fun _ => 7, [], []⟩

theorem beforeThreadHook_procOf {maps : List MapLine} (hdistinct : DistinctPaths maps)
    (hmaps : ∀ l, l ∈ maps ↔ l = artLine ∨ l = yhookLine) :
    BeforeThreadHook armPlatform 0x2020 7 (procOf maps) := by
  have hcells : ∀ l ∈ maps, ∀ elf, l.elf? = some elf → elf.InRange ∧
      ((l = artLine ∧ elf.cells = [0x1010, 0x1014]) ∨
        (l = yhookLine ∧ elf.cells = [0x2010, 0x2020])) := by
    intro l hl elf helf
    rcases (hmaps l).1 hl with rfl | rfl
    · cases helf
      exact ⟨fun rel _ => Nat.le_add_right _ _, Or.inl ⟨rfl, by decide⟩⟩
    · cases helf
      exact ⟨fun rel _ => Nat.le_add_right _ _, Or.inr ⟨rfl, by decide⟩⟩
  have happart : ∀ a ∈ [(0x1010 : Addr), 0x1014], a ∉ [(0x2010 : Addr), 0x2020] := by decide
  have hyhook : yhookLine ∈ maps := (hmaps _).2 (Or.inr rfl)
  refine ⟨rfl, ⟨rfl, by simp [procOf, XhCore.initial], hdistinct, ?_, ?_⟩, ?_, fun _ _ _ _ _ _ _ => rfl,
    ?_, rfl⟩
  · intro l hl img himg
    rcases (hmaps l).1 hl with rfl | rfl
    · cases himg
      exact ⟨_, rfl, (hcells _ hl _ rfl).1⟩
    · cases himg
      exact ⟨_, rfl, (hcells _ hl _ rfl).1⟩
  · intro l hl _
    rcases (hmaps l).1 hl with rfl | rfl <;> rfl
  · intro l hl _ l' hl' _ elf elf' helf helf' a ha ha'
    rcases (hcells l hl elf helf).2 with ⟨rfl, hc⟩ | ⟨rfl, hc⟩ <;>
      rcases (hcells l' hl' elf' helf').2 with ⟨rfl, hc'⟩ | ⟨rfl, hc'⟩
    · rfl
    · rw [hc] at ha
      rw [hc'] at ha'
      exact absurd ha' (happart a ha)
    · rw [hc] at ha
      rw [hc'] at ha'
      exact absurd ha (happart a ha')
    · rfl
  · exact List.mem_flatMap.2 ⟨yhookLine, hyhook, by decide⟩

/-- `libyhook.so` is the last library in the maps, and the variable its last cell: after
`thread_hook`'s own refresh the variable holds the proxy. -/
theorem not_original_genuine :
    armPlatform.util.Succeeds ∧ BeforeThreadHook armPlatform 0x2020 7 (procOf [artLine, yhookLine]) ∧
      (∃ elf, yhookLine.elf? = some elf ∧ 0x2020 ∈ elf.slots pthread_create) ∧
      ¬ Along (Proc.step? armPlatform) (AfterRefresh armPlatform (OriginalGenuine 0x2020 0x5000 7))
        ((procOf [artLine, yhookLine]).step armPlatform (thread_hook_register 0x5000 0x2020))
        [.refresh quietEnv] := by
  refine ⟨armPlatform_util_succeeds, beforeThreadHook_procOf (by decide) (by simp),
    ⟨_, rfl, by decide +kernel⟩, ?_⟩
  rintro ⟨hgood, -⟩
  have hgenuine := hgood ⟨yhookLine, List.mem_cons_of_mem _ List.mem_cons_self, by decide, _, rfl,
    0x2020, by decide +kernel, by decide +kernel⟩
  revert hgenuine
  decide +kernel

/-- The other order: the slot of `libart.so` is redirected after the variable. -/
theorem original_genuine_yhook_first :
    Along (Proc.step? armPlatform) (AfterRefresh armPlatform (OriginalGenuine 0x2020 0x5000 7))
      ((procOf [yhookLine, artLine]).step armPlatform (thread_hook_register 0x5000 0x2020))
      [.refresh quietEnv] := by
  have hstart : BeforeThreadHook armPlatform 0x2020 7 (procOf [yhookLine, artLine]) :=
    beforeThreadHook_procOf (by decide) (by simp [or_comm])
  have hlater : Along (Proc.step? armPlatform) (LaterEvent armPlatform 7)
      ((procOf [yhookLine, artLine]).step armPlatform (thread_hook_register 0x5000 0x2020))
      [.refresh quietEnv] := ⟨trivial, fun _ _ => trivial⟩
  refine (original_genuine_iff armPlatform_util_succeeds rfl (by decide) (by decide) hstart
    hlater).2 ⟨?_, fun _ _ => trivial⟩
  intro _ _ _
  have hcells : refreshCells armPlatform quietEnv ((procOf [yhookLine, artLine]).step armPlatform
      (thread_hook_register 0x5000 0x2020)) = [0x2010, 0x2020, 0x1010] := by decide +kernel
  rw [hcells]
  exact ⟨[0x2010, 0x2020], 0x1010, [], rfl, by decide, by decide, by decide⟩

end Order

end ElfHook.XHook
