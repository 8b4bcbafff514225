import ElfHook.XHook.Elf

/-!
# xHook: registering and refreshing

`xh_core.c`: the list of registered hooks, the ignore rules, and the map tree that a refresh leaves
for the next one. A `MapLine` is one line of `/proc/self/maps` with what stands at its start address.
The map tree is the function from path to base address that `RB_FIND`, `RB_INSERT` and `RB_REMOVE`
make of it. The synchronous refresh is modelled, with its failures: the signal handler that cannot be
installed, the maps file that cannot be opened, the map item that cannot be allocated. A fault in
the middle of an ELF is not.

`refreshLines_eq` says what a refresh does when no ignore rules exist and the lines name different
ELFs: it redirects the cells of the ELFs that are new to the tree or have moved (`needsHook`), in the
order of the lines, and of no others.
-/

namespace ElfHook.XHook

open Lib

/-! ### Hooks, ignore rules, maps -/

/-- A compiled `pathname_regex` is the predicate that `regexec` computes with it. -/
structure HookInfo where
  pathname_regex : String → Bool
  symbol : String
  new_func : Addr
  old_func : Option Addr

/-- No symbol means all symbols. -/
structure IgnoreInfo where
  pathname_regex : String → Bool
  symbol : Option String

structure Perm where
  r : Char
  w : Char
  x : Char
  p : Char
deriving DecidableEq

structure MapLine where
  base_addr : Addr
  perm : Perm
  offset : Nat
  pathname : String
  /-- What is mapped at `base_addr`, if it starts with bytes of an ELF header. -/
  image : Option Image

abbrev MapInfoTree := String → Option Addr

structure XhCore where
  xh_core_hook_info : List HookInfo
  xh_core_ignore_info : List IgnoreInfo
  xh_core_map_info : MapInfoTree
  xh_core_inited : Bool
  xh_core_init_ok : Bool
  xh_core_sigsegv_enable : Bool

def XhCore.initial : XhCore where
  xh_core_hook_info := []
  xh_core_ignore_info := []
  xh_core_map_info := fun _ => none
  xh_core_inited := false
  xh_core_init_ok := false
  xh_core_sigsegv_enable := true

/-- What xHook runs on: the target it is built for, the page protection, and `regcomp`. -/
structure Platform where
  target : Target
  util : Util
  regcomp : String → Option (String → Bool)

/-- `nomem`: `malloc` or `strdup` fails. A null string is `none`. -/
def xh_core_register (P : Platform) (nomem : Bool) (pathname_regex_str symbol : Option String)
    (new_func : Addr) (old_func : Option Addr) (c : XhCore) : XhCore × Int :=
  match pathname_regex_str, symbol with
  | some pathname_regex_str, some symbol =>
    if new_func = 0 then (c, XH_ERRNO_INVAL)
    else
      -- registering after a refresh is not refused: the check of `xh_core_inited` is commented out
      match P.regcomp pathname_regex_str with
      | none => (c, XH_ERRNO_INVAL)
      | some pathname_regex =>
        if nomem then (c, XH_ERRNO_NOMEM)
        else
          let hi := { pathname_regex, symbol, new_func, old_func }
          ({ c with xh_core_hook_info := c.xh_core_hook_info ++ [hi] }, 0)
  | _, _ => (c, XH_ERRNO_INVAL)

def xh_core_ignore (P : Platform) (nomem : Bool) (pathname_regex_str symbol : Option String)
    (c : XhCore) : XhCore × Int :=
  match pathname_regex_str with
  | none => (c, XH_ERRNO_INVAL)
  | some pathname_regex_str =>
    if c.xh_core_inited then (c, XH_ERRNO_INVAL)
    else
      match P.regcomp pathname_regex_str with
      | none => (c, XH_ERRNO_INVAL)
      | some pathname_regex =>
        if nomem then (c, XH_ERRNO_NOMEM)
        else
          let ii := { pathname_regex, symbol }
          ({ c with xh_core_ignore_info := c.xh_core_ignore_info ++ [ii] }, 0)

/-- What the loop over the ignore rules decides for a hook in an ELF. -/
inductive Ignored where
  | no
  | symbol
  | all
deriving DecidableEq

def findIgnore (pathname symbol : String) : List IgnoreInfo → Ignored
  | [] => .no
  | ii :: iis =>
    if ii.pathname_regex pathname then
      match ii.symbol with
      | none => .all
      | some s => if s = symbol then .symbol else findIgnore pathname symbol iis
    else findIgnore pathname symbol iis

/-! ### Hooking one ELF -/

/-- The loop of `xh_core_hook_impl` over the registered hooks. -/
def hookLoop (P : Platform) (iis : List IgnoreInfo) (elf : XhElf) : List HookInfo → Mem → Mem
  | [], m => m
  | hi :: his, m =>
    if hi.pathname_regex elf.pathname then
      match findIgnore elf.pathname hi.symbol iis with
      | .all => m
      | .symbol => hookLoop P iis elf his m
      | .no => hookLoop P iis elf his (xh_elf_hook P.util elf hi.new_func hi.old_func hi.symbol m).1
    else hookLoop P iis elf his m

def xh_core_hook_impl (P : Platform) (c : XhCore) (img : Image) (base_addr : Addr)
    (pathname : String) (m : Mem) : Mem :=
  match xh_elf_init img base_addr pathname with
  | .error _ => m
  | .ok elf => hookLoop P c.xh_core_ignore_info elf c.xh_core_hook_info m

/-! ### Refreshing -/

/-- Is there a hook for this path? Only the first hook that matches is held against the ignore
rules. -/
def checkPathname (iis : List IgnoreInfo) (pathname : String) : List HookInfo → Bool
  | [] => false
  | hi :: his =>
    if hi.pathname_regex pathname then findIgnore pathname hi.symbol iis = .no
    else checkPathname iis pathname his

def xh_core_check_elf_header (P : Platform) (l : MapLine) : Int :=
  match l.image with
  | none => XH_ERRNO_FORMAT
  | some img => xh_elf_check_elfheader P.target img.ehdr

/-- The tree of the previous refresh, from which items are taken, and the one being built. -/
structure Trees where
  map_info : MapInfoTree
  refreshed : MapInfoTree

/-- Move or create the map item of a line; whether to hook it. `alloc` says for which paths `malloc`
and `strdup` succeed. -/
def Trees.visit (alloc : String → Bool) (t : Trees) (pathname : String) (base_addr : Addr) :
    Trees × Bool :=
  match t.map_info pathname with
  | some old_base =>
    let map_info := Function.update t.map_info pathname none
    match t.refreshed pathname with
    | some _ => (⟨map_info, t.refreshed⟩, false) -- repeated, only the first one is kept
    | none =>
      (⟨map_info, Function.update t.refreshed pathname (some base_addr)⟩, old_base ≠ base_addr)
  | none =>
    if alloc pathname then
      match t.refreshed pathname with
      | some _ => (t, false)
      | none => (⟨t.map_info, Function.update t.refreshed pathname (some base_addr)⟩, true)
    else (t, false)

/-- The checks on a line before the map item is looked up. -/
def considered (P : Platform) (c : XhCore) (l : MapLine) : Bool :=
  if l.perm.r ≠ 'r' then false
  else if l.perm.p ≠ 'p' then false
  else if l.offset ≠ 0 then false
  else if l.pathname = "" then false
  else if l.pathname.toList.head? = some '[' then false
  else if ! checkPathname c.xh_core_ignore_info l.pathname c.xh_core_hook_info then false
  else if xh_core_check_elf_header P l ≠ 0 then false
  else true

/-- The body of the loop over the lines. -/
def refreshLine (P : Platform) (c : XhCore) (alloc : String → Bool) (s : Trees × Mem) (l : MapLine) :
    Trees × Mem :=
  if considered P c l then
    let r := s.1.visit alloc l.pathname l.base_addr
    match r.2, l.image with
    | true, some img => (r.1, xh_core_hook_impl P c img l.base_addr l.pathname s.2)
    | _, _ => (r.1, s.2)
  else s

/-- The outcomes of a refresh's calls: the code `sigaction` fails with (or `0`), whether `fopen`
succeeds, and for which paths a map item can be allocated. -/
structure RefreshEnv where
  sigaction : Int
  fopen : Bool
  alloc : String → Bool

def xh_core_refresh_impl (P : Platform) (env : RefreshEnv) (maps : List MapLine) (c : XhCore)
    (m : Mem) : XhCore × Mem :=
  if env.fopen then
    let r := maps.foldl (refreshLine P c env.alloc) (⟨c.xh_core_map_info, fun _ => none⟩, m)
    ({ c with xh_core_map_info := r.1.refreshed }, r.2)
  else (c, m)

def xh_core_init_once (sigaction : Int) (c : XhCore) : XhCore :=
  if c.xh_core_inited then c
  else
    { c with
      xh_core_inited := true
      xh_core_init_ok := if c.xh_core_sigsegv_enable then decide (sigaction = 0) else true }

/-- `xh_core_refresh(0)`. -/
def xh_core_refresh (P : Platform) (env : RefreshEnv) (maps : List MapLine) (c : XhCore) (m : Mem) :
    XhCore × Mem × Int :=
  let c := xh_core_init_once env.sigaction c
  if ! c.xh_core_init_ok then (c, m, XH_ERRNO_UNKNOWN)
  else
    let r := xh_core_refresh_impl P env maps c m
    (r.1, r.2, 0)

/-! ### What registering does -/

theorem xh_core_register_eq (P : Platform) (nomem : Bool) (regex symbol : Option String)
    (new_func : Addr) (old_func : Option Addr) (c : XhCore) :
    (∃ hi, (xh_core_register P nomem regex symbol new_func old_func c).1 =
        { c with xh_core_hook_info := c.xh_core_hook_info ++ [hi] } ∧ some hi.symbol = symbol ∧
        hi.new_func = new_func ∧ hi.old_func = old_func ∧ new_func ≠ 0) ∨
      (xh_core_register P nomem regex symbol new_func old_func c).1 = c := by
  unfold xh_core_register
  split
  · by_cases hnew : new_func = 0
    · rw [if_pos hnew]
      exact Or.inr rfl
    · rw [if_neg hnew]
      split
      · exact Or.inr rfl
      · cases nomem with
        | true => exact Or.inr rfl
        | false => exact Or.inl ⟨_, rfl, rfl, rfl, rfl, hnew⟩
  · exact Or.inr rfl

/-! ### What a refresh does -/

/-- A line that a library's ELF header is found at: private, readable, offset `0`, and named by a
path rather than a kernel pseudo-path. -/
def MapLine.isHeader (l : MapLine) : Bool :=
  l.perm.r = 'r' ∧ l.perm.p = 'p' ∧ l.offset = 0 ∧ l.pathname ≠ "" ∧ l.pathname.toList.head? ≠ some '['

theorem isHeader_of_considered {P : Platform} {c : XhCore} {l : MapLine}
    (h : considered P c l = true) : l.isHeader = true := by
  unfold considered at h
  split_ifs at h with h1 h2 h3 h4 h5
  simp only [not_not] at h1 h2 h3
  simp [MapLine.isHeader, h1, h2, h3, h4, h5]

theorem checkPathname_of_no_ignore {pathname : String} {his : List HookInfo} :
    checkPathname [] pathname his = his.any fun hi => hi.pathname_regex pathname := by
  induction his with
  | nil => rfl
  | cons hi his ih =>
    rw [checkPathname, List.any_cons, ih]
    cases hi.pathname_regex pathname <;> simp [findIgnore]

theorem considered_iff {P : Platform} {c : XhCore} (hignore : c.xh_core_ignore_info = [])
    {l : MapLine} :
    considered P c l = true ↔ l.isHeader = true ∧
      (∃ hi ∈ c.xh_core_hook_info, hi.pathname_regex l.pathname = true) ∧
      xh_core_check_elf_header P l = 0 := by
  unfold considered MapLine.isHeader
  rw [hignore, checkPathname_of_no_ignore, ← List.any_eq_true]
  split_ifs <;> simp_all

/-- The redirections of all registered hooks in one ELF. -/
def elfRedirects (P : Platform) (his : List HookInfo) (elf : XhElf) : List (Redirect Addr Addr) :=
  (his.filter fun hi => hi.pathname_regex elf.pathname).flatMap fun hi =>
    redirects P.util elf hi.symbol hi.new_func hi.old_func

theorem hookLoop_eq {P : Platform} (hu : P.util.Succeeds) {elf : XhElf} (hrange : elf.InRange)
    {his : List HookInfo} (hnew : ∀ hi ∈ his, hi.new_func ≠ 0) (m : Mem) :
    hookLoop P [] elf his m = Redirect.applyAll m (elfRedirects P his elf) := by
  induction his generalizing m with
  | nil => rfl
  | cons hi his ih =>
    have ih := ih fun hi' h => hnew hi' (List.mem_cons_of_mem _ h)
    rw [hookLoop, elfRedirects, List.filter_cons]
    cases hi.pathname_regex elf.pathname with
    | true =>
      simp only [if_true, findIgnore, List.flatMap_cons, Redirect.applyAll_append,
        xh_elf_hook_eq hu hrange (hnew hi List.mem_cons_self)]
      exact ih _
    | false => simpa [elfRedirects] using ih m

/-- The ELF that `xh_elf_init` makes of a line. -/
def MapLine.elf? (l : MapLine) : Option XhElf :=
  l.image.bind fun img => (xh_elf_init img l.base_addr l.pathname).toOption

theorem MapLine.elf?_pathname {l : MapLine} {elf : XhElf} (h : l.elf? = some elf) :
    elf.pathname = l.pathname := by
  obtain ⟨img, _, hinit⟩ := Option.bind_eq_some_iff.1 h
  cases hres : xh_elf_init img l.base_addr l.pathname with
  | error r => simp [hres, Except.toOption] at hinit
  | ok elf' =>
    simp only [hres, Except.toOption, Option.some.injEq] at hinit
    exact hinit ▸ xh_elf_init_pathname hres

def lineRedirects (P : Platform) (his : List HookInfo) (l : MapLine) : List (Redirect Addr Addr) :=
  l.elf?.elim [] (elfRedirects P his)

/-- The line's ELF is not in the map tree at its present base address, and its map item can be
allocated if it is not there at all. -/
def needsHook (alloc : String → Bool) (map_info : MapInfoTree) (l : MapLine) : Bool :=
  match map_info l.pathname with
  | some base => base ≠ l.base_addr
  | none => alloc l.pathname

/-- The lines whose ELF a refresh hooks. -/
def hookedLines (P : Platform) (c : XhCore) (alloc : String → Bool) (maps : List MapLine) :
    List MapLine :=
  maps.filter fun l => considered P c l && needsHook alloc c.xh_core_map_info l

/-- Every ELF among the lines can be initialised, and its relocation tables are in range. -/
def Initialises (maps : List MapLine) : Prop :=
  ∀ l ∈ maps, ∀ img, l.image = some img → ∃ elf, l.elf? = some elf ∧ elf.InRange

/-- No path has two header lines. -/
def DistinctPaths (maps : List MapLine) : Prop :=
  ((maps.filter (·.isHeader)).map (·.pathname)).Nodup

instance (maps : List MapLine) : Decidable (DistinctPaths maps) :=
  inferInstanceAs (Decidable (List.Nodup _))

section Refresh

variable {P : Platform} {c : XhCore} {alloc : String → Bool}

theorem lineRedirects_of_elf {his : List HookInfo} {l : MapLine} {elf : XhElf}
    (h : l.elf? = some elf) : lineRedirects P his l = elfRedirects P his elf := by
  rw [lineRedirects, h, Option.elim_some]

theorem xh_core_hook_impl_eq (hu : P.util.Succeeds) (hignore : c.xh_core_ignore_info = [])
    (hnew : ∀ hi ∈ c.xh_core_hook_info, hi.new_func ≠ 0) {l : MapLine} {img : Image}
    (himg : l.image = some img) (hinit : Initialises [l]) (m : Mem) :
    xh_core_hook_impl P c img l.base_addr l.pathname m =
      Redirect.applyAll m (lineRedirects P c.xh_core_hook_info l) := by
  obtain ⟨elf, helf, hrange⟩ := hinit l (by simp) img himg
  rw [lineRedirects_of_elf helf, ← hookLoop_eq hu hrange hnew, ← hignore]
  simp only [MapLine.elf?, himg, Option.bind_some] at helf
  unfold xh_core_hook_impl
  cases hres : xh_elf_init img l.base_addr l.pathname with
  | error r => simp [hres, Except.toOption] at helf
  | ok elf' =>
    simp only [hres, Except.toOption, Option.some.injEq] at helf
    rw [helf]

/-- A path not met before in this refresh: the item goes to the new tree, and is hooked exactly if
`needsHook`. -/
theorem Trees.visit_fresh (alloc : String → Bool) {t : Trees} {l : MapLine}
    (hfresh : t.refreshed l.pathname = none) :
    (t.visit alloc l.pathname l.base_addr).2 = needsHook alloc t.map_info l ∧
      (∀ path, path ≠ l.pathname →
        (t.visit alloc l.pathname l.base_addr).1.map_info path = t.map_info path ∧
        (t.visit alloc l.pathname l.base_addr).1.refreshed path = t.refreshed path) ∧
      (t.visit alloc l.pathname l.base_addr).1.refreshed l.pathname =
        if (t.map_info l.pathname).isSome || alloc l.pathname then some l.base_addr else none := by
  unfold Trees.visit needsHook
  cases t.map_info l.pathname with
  | some base => simp +contextual [hfresh, Function.update_of_ne]
  | none => cases halloc : alloc l.pathname <;> simp +contextual [hfresh, Function.update_of_ne]

theorem refreshLine_considered (hu : P.util.Succeeds) (hignore : c.xh_core_ignore_info = [])
    (hnew : ∀ hi ∈ c.xh_core_hook_info, hi.new_func ≠ 0) {l : MapLine}
    (hinit : Initialises [l]) (hl : considered P c l = true) {t : Trees} {m : Mem}
    (hfresh : t.refreshed l.pathname = none) :
    refreshLine P c alloc (t, m) l = ((t.visit alloc l.pathname l.base_addr).1,
      Redirect.applyAll m (if needsHook alloc t.map_info l then
        lineRedirects P c.xh_core_hook_info l else [])) := by
  obtain ⟨img, himg⟩ : ∃ img, l.image = some img := by
    have hcheck := ((considered_iff hignore).1 hl).2.2
    unfold xh_core_check_elf_header at hcheck
    cases himg : l.image with
    | none => simp [himg, XH_ERRNO_FORMAT] at hcheck
    | some img => exact ⟨img, rfl⟩
  rw [refreshLine, if_pos hl]
  simp only [himg, (Trees.visit_fresh alloc hfresh).1]
  cases needsHook alloc t.map_info l with
  | true => simp [xh_core_hook_impl_eq hu hignore hnew himg hinit]
  | false => simp

theorem DistinctPaths.tail {l : MapLine} {maps : List MapLine} (h : DistinctPaths (l :: maps)) :
    DistinctPaths maps := by
  unfold DistinctPaths at h ⊢
  rw [List.filter_cons] at h
  split_ifs at h with hheader
  · exact (List.nodup_cons.1 h).2
  · exact h

/-- The considered lines after a considered line have other paths. -/
theorem DistinctPaths.ne_head {l l' : MapLine} {maps : List MapLine}
    (h : DistinctPaths (l :: maps)) (hl : considered P c l = true) (hmem : l' ∈ maps)
    (hl' : considered P c l' = true) : l'.pathname ≠ l.pathname := by
  intro heq
  have hheads : l' ∈ maps.filter (·.isHeader) :=
    List.mem_filter.2 ⟨hmem, isHeader_of_considered hl'⟩
  unfold DistinctPaths at h
  rw [List.filter_cons, if_pos (isHeader_of_considered hl)] at h
  exact (List.nodup_cons.1 h).1 (List.mem_map.2 ⟨l', hheads, heq⟩)

/-- **The lines of a refresh.** From any pair of trees that has none of the considered paths in the
new tree yet: the memory is redirected for the lines that need it, in order, and a path is in the new
tree exactly if it was there already or a considered line has it and its item exists. -/
theorem refreshLines_eq (hu : P.util.Succeeds) (hignore : c.xh_core_ignore_info = [])
    (hnew : ∀ hi ∈ c.xh_core_hook_info, hi.new_func ≠ 0) {maps : List MapLine}
    (hinit : Initialises maps) (hdistinct : DistinctPaths maps) (t : Trees) (m : Mem)
    (hfresh : ∀ l ∈ maps, considered P c l = true → t.refreshed l.pathname = none) :
    (maps.foldl (refreshLine P c alloc) (t, m)).2 =
        Redirect.applyAll m ((maps.filter fun l => considered P c l && needsHook alloc t.map_info l).flatMap
          (lineRedirects P c.xh_core_hook_info)) ∧
      ∀ path base, (maps.foldl (refreshLine P c alloc) (t, m)).1.refreshed path = some base ↔
        t.refreshed path = some base ∨ ∃ l ∈ maps, considered P c l = true ∧ l.pathname = path ∧
          l.base_addr = base ∧ ((t.map_info path).isSome || alloc path) = true := by
  induction maps generalizing t m with
  | nil => simp
  | cons l maps ih =>
    have hinit' : Initialises maps := fun l' h => hinit l' (List.mem_cons_of_mem _ h)
    rw [List.foldl_cons]
    cases hl : considered P c l with
    | false =>
      rw [refreshLine, hl, if_neg Bool.false_ne_true]
      have ih := ih hinit' hdistinct.tail t m fun l' h => hfresh l' (List.mem_cons_of_mem _ h)
      simpa [hl] using ih
    | true =>
      have hnone := hfresh l List.mem_cons_self hl
      obtain ⟨-, hother, hself⟩ := Trees.visit_fresh alloc hnone
      -- the other considered lines have other paths, so the trees agree there
      have hne : ∀ l' ∈ maps, considered P c l' = true → l'.pathname ≠ l.pathname :=
        fun l' hmem hl' => hdistinct.ne_head hl hmem hl'
      rw [refreshLine_considered hu hignore hnew (fun l' h => hinit l' (by simp_all)) hl hnone]
      obtain ⟨hmem, htree⟩ := ih hinit' hdistinct.tail (t.visit alloc l.pathname l.base_addr).1 _
        fun l' h hl' => by
          rw [(hother _ (hne l' h hl')).2]
          exact hfresh l' (List.mem_cons_of_mem _ h) hl'
      refine ⟨?_, fun path base => ?_⟩
      · rw [hmem]
        have hfilter : maps.filter (fun l' => considered P c l' &&
              needsHook alloc (t.visit alloc l.pathname l.base_addr).1.map_info l') =
            maps.filter fun l' => considered P c l' && needsHook alloc t.map_info l' := by
          refine List.filter_congr fun l' h => ?_
          cases hl' : considered P c l' with
          | false => rfl
          | true => simp only [needsHook, (hother _ (hne l' h hl')).1]
        rw [hfilter, List.filter_cons, hl]
        cases needsHook alloc t.map_info l <;> simp [Redirect.applyAll_append]
      · rw [htree]
        by_cases hpath : path = l.pathname
        · subst hpath
          simp only [hself, hnone, List.mem_cons, exists_eq_or_imp, hl, true_and, reduceCtorEq,
            false_or]
          constructor
          · rintro (h | ⟨l', hl', hc, hp, _⟩)
            · left
              split_ifs at h with hcond
              exact ⟨Option.some.inj h, hcond⟩
            · exact absurd hp (hne l' hl' hc)
          · rintro (⟨rfl, hcond⟩ | ⟨l', hl', hc, hp, _⟩)
            · left
              rw [if_pos hcond]
            · exact absurd hp (hne l' hl' hc)
        · simp only [(hother path hpath).1, (hother path hpath).2, List.mem_cons, exists_eq_or_imp,
            Ne.symm hpath, false_and, and_false, false_or]

/-- The redirections of a refresh, in order. -/
def refreshRedirects (P : Platform) (c : XhCore) (alloc : String → Bool) (maps : List MapLine) :
    List (Redirect Addr Addr) :=
  (hookedLines P c alloc maps).flatMap (lineRedirects P c.xh_core_hook_info)

theorem mem_refreshRedirects {maps : List MapLine} {op : Redirect Addr Addr} :
    op ∈ refreshRedirects P c alloc maps ↔
      ∃ l ∈ maps, considered P c l = true ∧ needsHook alloc c.xh_core_map_info l = true ∧
        ∃ elf, l.elf? = some elf ∧
          ∃ hi ∈ c.xh_core_hook_info, hi.pathname_regex l.pathname = true ∧
            ∃ a ∈ elf.walk P.util.elfclass_bits hi.symbol, op = ⟨a, hi.new_func, hi.old_func⟩ := by
  simp only [refreshRedirects, hookedLines, List.mem_flatMap, List.mem_filter, Bool.and_eq_true,
    lineRedirects]
  constructor
  · rintro ⟨l, ⟨hl, hc, hn⟩, hop⟩
    cases helf : l.elf? with
    | none => simp [helf] at hop
    | some elf =>
      simp only [helf, Option.elim_some, elfRedirects, List.mem_flatMap, List.mem_filter, redirects,
        List.mem_map, MapLine.elf?_pathname helf] at hop
      obtain ⟨hi, ⟨hhi, hre⟩, a, ha, rfl⟩ := hop
      exact ⟨l, hl, hc, hn, elf, helf, hi, hhi, hre, a, ha, rfl⟩
  · rintro ⟨l, hl, hc, hn, elf, helf, hi, hhi, hre, a, ha, rfl⟩
    refine ⟨l, ⟨hl, hc, hn⟩, ?_⟩
    simp only [helf, Option.elim_some, elfRedirects, List.mem_flatMap, List.mem_filter, redirects,
      List.mem_map, MapLine.elf?_pathname helf]
    exact ⟨hi, ⟨hhi, hre⟩, a, ha, rfl⟩

end Refresh

end ElfHook.XHook
