import ElfHook.SoTool.FindDatabase

/-!
# The base of a module

`find_database_of2`, the other lookup in `/proc/<pid>/maps`: it takes the first line with the name in
it, whatever its permissions, and reads its first token; a base of `0x8000` becomes 0. Both lookups are
compared with the lowest mapping of the module, in texts whose lines are sorted by address.

* `find_database_of_eq_lowest`, `find_database_of2_eq_lowest`: the mapping that each of them finds.
* `find_database_of_agree_iff`: when both give the start of the module's lowest mapping.
* `basesFit_iff`: the same condition for names that only a path can contain.
* `not_find_database_of_agree`: a module whose first segment is not executable, and one at `0x8000`.
-/

namespace ElfHook.SoTool

open Lib

variable {ULONG_MAX : Nat}

/-- The body of the loop: `none` goes on, `some base` breaks. -/
def find_database_of2_body (ULONG_MAX : Nat) (soName lineTxt : List Char) : Option Nat :=
  if (strstr soName (cstring lineTxt)).isSome then
    (strtok ['-'] (cstring lineTxt)).map fun address =>
      let base := strtoul ULONG_MAX address 16
      if base = 0x8000 then 0 else base
  else none

def mapFilePath (pid : Int) : String :=
  if pid < 0 then "/proc/self/maps" else "/proc/" ++ toString pid ++ "/maps"

/-- `fopen` gives the text of a file that can be opened. -/
def find_database_of2 (ULONG_MAX : Nat) (pid : Int) (soName : List Char)
    (fopen : String → Option (List Char)) : Nat :=
  match fopen (mapFilePath pid) with
  | none => 0
  | some maps => ((fgetsAll 1024 maps).findSome? (find_database_of2_body ULONG_MAX soName)).getD 0

/-- A maps text sorted by address, whose lines have a start address and fit in both buffers. -/
structure SortedMaps (ULONG_MAX : Nat) where
  lines : List (MapsLine ULONG_MAX)
  start_ne_nil : ∀ line ∈ lines, line.start ≠ []
  short : ∀ line ∈ lines, line.text.length < 256
  sorted : lines.Pairwise fun a b => a.startAddress ≤ b.startAddress

def SortedMaps.text (maps : SortedMaps ULONG_MAX) : List Char := mapsText maps.lines

/-! ### The lines that the lookups find -/

/-- The search for the name finds the line. -/
def MapsLine.Named (soName : List Char) (line : MapsLine ULONG_MAX) : Prop :=
  soName <:+: cstring line.text

instance (soName : List Char) (line : MapsLine ULONG_MAX) : Decidable (line.Named soName) :=
  inferInstanceAs (Decidable (_ <:+: _))

theorem find_database_of2_body_text (soName : List Char) {line : MapsLine ULONG_MAX}
    (hstart : line.start ≠ []) : find_database_of2_body ULONG_MAX soName line.text =
      if line.Named soName then
        some (if line.startAddress = 0x8000 then 0 else line.startAddress)
      else none := by
  have hother : ∀ {c : Char}, (∀ d < 16, digitOf c ≠ some d) → c ∉ numeralText line.start :=
    fun hc => not_mem_numeralText (Nat.le_refl _) hc
  have htoken : strtok ['-'] (cstring line.text) = some (numeralText line.start) := by
    rw [MapsLine.text, List.append_assoc, List.cons_append,
      cstring_append_cons (hother (by decide)) (by decide)]
    exact strtok_append_cons (mt List.map_eq_nil_iff.1 hstart) (hother (by decide))
  have hbase : strtoul ULONG_MAX (numeralText line.start) 16 = line.startAddress := by
    rw [strtoul_numeralText, numeral_numeralText]
    exact Nat.min_eq_left line.start_le
  simp only [find_database_of2_body, strstr_isSome, htoken, Option.map_some, hbase]
  rfl

namespace SortedMaps

variable (maps : SortedMaps ULONG_MAX) (soName : List Char)

/-- The lowest line that passes gives the result. -/
theorem find_database_of_eq_lowest : find_database_of ULONG_MAX soName (some maps.text) =
    some (((lowest MapsLine.startAddress (fun line => Passes soName line.text) maps.lines).map
      MapsLine.startAddress).getD 0) := by
  rw [text, find_database_of_short maps.short, find?_eq_lowest maps.sorted]

/-- When the result is a given lower bound of the lines that pass. -/
theorem find_database_of_eq_some_iff {base : Nat} (hle : ∀ line ∈ maps.lines,
    Passes soName line.text → base ≤ line.startAddress) :
    find_database_of ULONG_MAX soName (some maps.text) = some base ↔
      (∃ line ∈ maps.lines, Passes soName line.text ∧ line.startAddress = base) ∨
        base = 0 ∧ ∀ line ∈ maps.lines, ¬ Passes soName line.text := by
  rw [find_database_of_eq_lowest, Option.some_inj, map_lowest_getD_eq_iff hle, eq_comm (a := 0)]

/-- The lowest line with the name gives the result, unless it starts at `0x8000`. -/
theorem find_database_of2_eq_lowest (pid : Int) {fopen : String → Option (List Char)}
    (hopen : fopen (mapFilePath pid) = some maps.text) :
    find_database_of2 ULONG_MAX pid soName fopen =
      ((lowest MapsLine.startAddress (MapsLine.Named soName) maps.lines).map fun line =>
        if line.startAddress = 0x8000 then 0 else line.startAddress).getD 0 := by
  have hlen : ∀ line ∈ maps.lines, line.text.length < 1024 := fun line hline =>
    (maps.short line hline).trans (by decide)
  have hpieces : fgetsAll 1024 maps.text = maps.lines.map MapsLine.text :=
    fgetsAll_flatMap_of_short (by decide) (fun line _ => line.terminated_text) hlen
  have hloop : maps.lines.findSome? (find_database_of2_body ULONG_MAX soName ∘ MapsLine.text) =
      (maps.lines.find? fun line => line.Named soName).map fun line =>
        if line.startAddress = 0x8000 then 0 else line.startAddress :=
    findSome?_eq_map_find? fun line hline =>
      find_database_of2_body_text soName (maps.start_ne_nil line hline)
  simp only [find_database_of2, hopen]
  rw [hpieces, List.findSome?_map, hloop, find?_eq_lowest maps.sorted]

end SortedMaps

/-! ### When it is the lowest mapping -/

/-- The start of the lowest mapping whose path contains the name, or 0. -/
def moduleBase (soName : List Char) (lines : List (MapsLine ULONG_MAX)) : Nat :=
  ((lowest MapsLine.startAddress (fun line => soName <:+: line.path) lines).map
    MapsLine.startAddress).getD 0

/-- Where the lowest line with the name must start, and what must be there. -/
def BasesFit (soName : List Char) (lines : List (MapsLine ULONG_MAX)) : Prop :=
  match lowest MapsLine.startAddress (MapsLine.Named soName) lines with
  | none => moduleBase soName lines = 0
  | some first =>
    if first.startAddress = 0x8000 then
      moduleBase soName lines = 0 ∧ ∀ line ∈ lines, ¬ Passes soName line.text
    else
      moduleBase soName lines = first.startAddress ∧
        ((∃ line ∈ lines, Passes soName line.text ∧ line.startAddress = first.startAddress) ∨
          first.startAddress = 0 ∧ ∀ line ∈ lines, ¬ Passes soName line.text)

/-- **The two lookups.** In every maps text sorted by address, for every name: both give the start of
the module's lowest mapping, or 0 without one, if and only if the bases fit. -/
theorem find_database_of_agree_iff {fopen : String → Option (List Char)}
    (maps : SortedMaps ULONG_MAX) (soName : List Char)
    (hopen : fopen "/proc/self/maps" = some maps.text) :
    (find_database_of ULONG_MAX soName (fopen "/proc/self/maps") =
        some (moduleBase soName maps.lines) ∧
      find_database_of2 ULONG_MAX (-1) soName fopen = moduleBase soName maps.lines) ↔
    BasesFit soName maps.lines := by
  rw [hopen, maps.find_database_of2_eq_lowest soName (-1) hopen, BasesFit]
  generalize moduleBase soName maps.lines = base
  have hnamed : ∀ line ∈ maps.lines, Passes soName line.text → line.Named soName :=
    fun _ _ hpasses => hpasses.1
  have hzero := maps.find_database_of_eq_some_iff soName fun line _ _ => Nat.zero_le _
  cases hfirst : lowest MapsLine.startAddress (MapsLine.Named soName) maps.lines with
  | none =>
    have hno : ∀ line ∈ maps.lines, ¬ Passes soName line.text := fun line hline hpasses =>
      lowest_eq_none.1 hfirst line hline (hnamed line hline hpasses)
    rw [Option.map_none, Option.getD_none]
    constructor
    · rintro ⟨-, rfl⟩
      rfl
    · rintro rfl
      exact ⟨hzero.2 (Or.inr ⟨rfl, hno⟩), rfl⟩
  | some first =>
    have hle : ∀ line ∈ maps.lines, Passes soName line.text →
        first.startAddress ≤ line.startAddress :=
      fun line hline hpasses => key_le_of_lowest hfirst hline (hnamed line hline hpasses)
    rw [Option.map_some, Option.getD_some]
    by_cases hspecial : first.startAddress = 0x8000
    · -- no line with the name starts at 0, so the other lookup must find none
      simp only [if_pos hspecial]
      constructor
      · rintro ⟨hhit, rfl⟩
        rcases hzero.1 hhit with ⟨line, hline, hpasses, hstart⟩ | hno
        · have := hle line hline hpasses
          omega
        · exact hno
      · rintro ⟨rfl, hno⟩
        exact ⟨hzero.2 (Or.inr ⟨rfl, hno⟩), rfl⟩
    · simp only [if_neg hspecial]
      constructor
      · rintro ⟨hhit, rfl⟩
        exact ⟨rfl, (maps.find_database_of_eq_some_iff soName hle).1 hhit⟩
      · rintro ⟨rfl, hhit⟩
        exact ⟨(maps.find_database_of_eq_some_iff soName hle).2 hhit, rfl⟩

/-! ### Names that only a path can contain -/

theorem named_iff {soName : List Char} {line : MapsLine ULONG_MAX} (hdot : '.' ∈ soName)
    (hspace : ' ' ∉ soName) (hnewline : '\n' ∉ soName) (hnul : '\x00' ∉ line.path) :
    line.Named soName ↔ soName <:+: line.path := by
  rw [MapsLine.Named, cstring_of_not_mem (line.nul_not_mem_text hnul),
    line.infix_text_iff hdot hspace hnewline]

/-- A mapping of the module that has `r-xp` as permissions, or in its path. -/
def MapsLine.LooksExecutable (soName : List Char) (line : MapsLine ULONG_MAX) : Prop :=
  soName <:+: line.path ∧ (line.perms = r_xp ∨ ['r', '-', 'x', 'p'] <:+: line.path)

/-- Either the module is not mapped; or it does not start at `0x8000`, and is executable where it
starts, or it starts at 0 and is executable nowhere. -/
theorem basesFit_iff {soName : List Char} {lines : List (MapsLine ULONG_MAX)} (hdot : '.' ∈ soName)
    (hspace : ' ' ∉ soName) (hnewline : '\n' ∉ soName) (hnul : ∀ line ∈ lines, '\x00' ∉ line.path) :
    BasesFit soName lines ↔
      (∀ line ∈ lines, ¬ soName <:+: line.path) ∨
        moduleBase soName lines ≠ 0x8000 ∧
          ((∃ line ∈ lines, line.LooksExecutable soName ∧
              line.startAddress = moduleBase soName lines) ∨
            moduleBase soName lines = 0 ∧ ∀ line ∈ lines, ¬ line.LooksExecutable soName) := by
  have hnamed : ∀ line ∈ lines, line.Named soName ↔ soName <:+: line.path :=
    fun line hline => named_iff hdot hspace hnewline (hnul line hline)
  have hpasses : ∀ line ∈ lines, Passes soName line.text ↔ line.LooksExecutable soName :=
    fun line hline => passes_text_iff_or hdot hspace hnewline (hnul line hline)
  rw [BasesFit, moduleBase, lowest_congr hnamed]
  cases hfirst : lowest MapsLine.startAddress (fun line => soName <:+: line.path) lines with
  | none => simpa using Or.inl (lowest_eq_none.1 hfirst)
  | some first =>
    obtain ⟨hline, hpath⟩ := of_lowest_eq_some hfirst
    have hmapped : ¬ ∀ line ∈ lines, ¬ soName <:+: line.path := fun h => h first hline hpath
    have hex : (∃ line ∈ lines, Passes soName line.text ∧
        line.startAddress = first.startAddress) ↔ ∃ line ∈ lines, line.LooksExecutable soName ∧
          line.startAddress = first.startAddress :=
      exists_congr fun line => and_congr_right fun hline => and_congr_left fun _ =>
        hpasses line hline
    have hno : (∀ line ∈ lines, ¬ Passes soName line.text) ↔
        ∀ line ∈ lines, ¬ line.LooksExecutable soName :=
      forall₂_congr fun line hline => not_congr (hpasses line hline)
    simp only [Option.map_some, Option.getD_some, hmapped, false_or, hex, hno]
    by_cases hspecial : first.startAddress = 0x8000
    · simp [hspecial]
    · simp [hspecial]

/-! ### Modules with two segments -/

section Sample

def fooPath : List Char := '/' :: fooName

/-- The second segment is executable. -/
def twoSegments (d e : Fin 16) (perms : Perms) (h : d ≤ e) : SortedMaps (2 ^ 64 - 1) where
  lines := [mappedAt d perms fooPath (by decide), mappedAt e r_xp fooPath (by decide)]
  start_ne_nil := by simp [mappedAt]
  short := by
    simp [MapsLine.text, MapsLine.afterDash, mappedAt, numeralText, Perms.text, fooPath, fooName]
  sorted := by simpa [MapsLine.startAddress, mappedAt, Nat.ofDigits] using Fin.le_def.1 h

def readOnly : Perms := ⟨true, false, false, false⟩

/-- The file system, with the maps of one process. -/
def procFs (maps : SortedMaps (2 ^ 64 - 1)) (path : String) : Option (List Char) :=
  if path = "/proc/self/maps" then some maps.text else none

theorem find_database_of_agree_twoSegments :
    find_database_of (2 ^ 64 - 1) fooName
        (procFs (twoSegments 7 9 r_xp (by decide)) "/proc/self/maps") = some 0x7000 ∧
      find_database_of2 (2 ^ 64 - 1) (-1) fooName (procFs (twoSegments 7 9 r_xp (by decide))) =
        0x7000 := by
  refine (find_database_of_agree_iff (twoSegments 7 9 r_xp (by decide)) fooName (if_pos rfl)).2 ?_
  refine (basesFit_iff (by decide) (by decide) (by decide) (by decide)).2 (Or.inr ⟨by decide, ?_⟩)
  exact Or.inl ⟨_, List.mem_cons_self, ⟨by decide, Or.inl rfl⟩, rfl⟩

/-- The executable segment is not the first one; and the module starts at `0x8000`. -/
theorem not_find_database_of_agree :
    (find_database_of (2 ^ 64 - 1) fooName
          (procFs (twoSegments 7 9 readOnly (by decide)) "/proc/self/maps") = some 0x9000 ∧
        find_database_of2 (2 ^ 64 - 1) (-1) fooName (procFs (twoSegments 7 9 readOnly (by decide))) =
          0x7000 ∧
        moduleBase fooName (twoSegments 7 9 readOnly (by decide)).lines = 0x7000) ∧
      find_database_of (2 ^ 64 - 1) fooName
          (procFs (twoSegments 8 9 r_xp (by decide)) "/proc/self/maps") = some 0x8000 ∧
        find_database_of2 (2 ^ 64 - 1) (-1) fooName (procFs (twoSegments 8 9 r_xp (by decide))) = 0 ∧
        moduleBase fooName (twoSegments 8 9 r_xp (by decide)).lines = 0x8000 := by
  decide +kernel

end Sample

end ElfHook.SoTool
