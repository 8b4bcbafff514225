import ElfHook.Lib.Search
import ElfHook.Lib.Stdio
import ElfHook.SoTool.Maps
import Mathlib.Data.List.Find

/-!
# `find_database_of`

The lookup of a module's executable segment in `/proc/self/maps`. Each piece that `fgets` reads into
the 256 bytes of `cmdline` is taken for a line: it is searched for the name and for `r-xp`, and what
stands before its first dash is read as a number, through the 32 bytes of `num`.

* `find_database_of_eq`: the result is that of the first piece that passes both searches.
* `find_database_of_iff`: when it is the start of the module's first executable line: both words stand
  in the first 255 characters of that line and in no earlier piece (`SegmentRead`), or the number read
  elsewhere happens to be the same (`Coincides`).
* `segmentRead_of_short`: the ordinary texts.
* `not_find_database_of`: a long path, and a long path with `r-xp` in it.
-/

namespace ElfHook.SoTool

open Lib

variable {ULONG_MAX : Nat}

/-- `sprintf` into an array: `none` when the text and its terminator do not fit. -/
def sprintf (size : Nat) (text : List Char) : Option (List Char) :=
  if text.length + 1 ≤ size then some text else none

/-- The body of the loop: `none` goes on, `some r` returns; `none` as `r` is the overflow of `num`. -/
def find_database_of_body (ULONG_MAX : Nat) (soName cmdline : List Char) : Option (Option Nat) :=
  if (strstr soName (cstring cmdline)).isSome ∧
      (strstr ['r', '-', 'x', 'p'] (cstring cmdline)).isSome then
    (strstr ['-'] (cstring cmdline)).map fun str =>
      (sprintf 32 ('0' :: 'x' :: cstring (cmdline.set str '\x00'))).map fun num =>
        strtoul ULONG_MAX num 0
  else none

/-- `maps` is the file, if it can be opened. -/
def find_database_of (ULONG_MAX : Nat) (soName : List Char) (maps : Option (List Char)) :
    Option Nat :=
  match maps with
  | none => some 0
  | some maps =>
    ((fgetsAll 256 maps).findSome? (find_database_of_body ULONG_MAX soName)).getD (some 0)

/-! ### The first piece that passes -/

/-- The piece contains the name and `r-xp`. -/
def Passes (soName cmdline : List Char) : Prop :=
  soName <:+: cstring cmdline ∧ ['r', '-', 'x', 'p'] <:+: cstring cmdline

instance (soName cmdline : List Char) : Decidable (Passes soName cmdline) :=
  inferInstanceAs (Decidable (_ ∧ _))

/-- What the code takes for the start address. -/
def beforeDash (cmdline : List Char) : List Char := (cstring cmdline).takeWhile (· ≠ '-')

/-- The number made of it, unless it overflows `num`. -/
def readAddress (ULONG_MAX : Nat) (cmdline : List Char) : Option Nat :=
  if (beforeDash cmdline).length ≤ 29 then some (min (numeral 16 (beforeDash cmdline)) ULONG_MAX)
  else none

/-- The dash is overwritten by a terminator. -/
theorem cstring_cut (cmdline : List Char) :
    cstring (cmdline.set (beforeDash cmdline).length '\x00') = beforeDash cmdline := by
  have hpre : beforeDash cmdline <+: cstring cmdline := List.takeWhile_prefix _
  rw [cstring_set hpre.length_le]
  exact (List.prefix_iff_eq_take.1 hpre).symm

theorem find_database_of_body_eq (soName cmdline : List Char) :
    find_database_of_body ULONG_MAX soName cmdline =
      if Passes soName cmdline then some (readAddress ULONG_MAX cmdline) else none := by
  simp only [find_database_of_body, strstr_isSome]
  by_cases hpasses : soName <:+: cstring cmdline ∧ ['r', '-', 'x', 'p'] <:+: cstring cmdline
  · have hdash : '-' ∈ cstring cmdline := hpasses.2.subset (by simp)
    rw [if_pos hpasses, if_pos (show Passes soName cmdline from hpasses), strstr_singleton hdash,
      Option.map_some, ← beforeDash, cstring_cut, sprintf, readAddress]
    have hnum : ('0' :: 'x' :: beforeDash cmdline).length + 1 ≤ 32 ↔
        (beforeDash cmdline).length ≤ 29 := by
      simp only [List.length_cons]
      omega
    by_cases hlen : (beforeDash cmdline).length ≤ 29
    · rw [if_pos hlen, if_pos (hnum.2 hlen), Option.map_some, strtoul_hex]
    · rw [if_neg hlen, if_neg (mt hnum.1 hlen), Option.map_none]
  · rw [if_neg hpasses, if_neg (show ¬ Passes soName cmdline from hpasses)]

theorem find_database_of_eq (soName maps : List Char) :
    find_database_of ULONG_MAX soName (some maps) =
      (((fgetsAll 256 maps).find? fun cmdline => Passes soName cmdline).map
        (readAddress ULONG_MAX)).getD (some 0) := by
  rw [find_database_of, findSome?_eq_map_find? fun cmdline _ => find_database_of_body_eq soName cmdline]

/-! ### The first piece of a line -/

theorem beforeDash_append {digits rest : List Char} (hnul : '\x00' ∉ digits)
    (hdash : '-' ∉ digits) : beforeDash (digits ++ '-' :: rest) = digits := by
  rw [beforeDash, cstring_append_cons hnul (by decide), List.takeWhile_append_of_pos fun c hc => by
    simpa using fun heq : c = '-' => hdash (heq ▸ hc)]
  simp

/-- The start address is in the first piece, and is read from there. -/
theorem readAddress_head (line : MapsLine ULONG_MAX) :
    readAddress ULONG_MAX (line.text.take 255) = some line.startAddress := by
  have hlen : (numeralText line.start).length ≤ 16 := by
    simpa [numeralText] using line.start_length
  obtain ⟨n, hn⟩ : ∃ n, 255 - (numeralText line.start).length = n + 1 :=
    ⟨254 - (numeralText line.start).length, by omega⟩
  have hhead : line.text.take 255 =
      numeralText line.start ++ '-' :: (line.afterDash ++ ['\n']).take n := by
    rw [MapsLine.text, List.append_assoc, List.take_append, List.take_of_length_le (by omega), hn,
      List.cons_append, List.take_succ_cons]
  have hbefore : beforeDash (line.text.take 255) = numeralText line.start := by
    rw [hhead]
    exact beforeDash_append (not_mem_numeralText (Nat.le_refl _) (by decide))
      (not_mem_numeralText (Nat.le_refl _) (by decide))
  have hmin : min line.startAddress ULONG_MAX = line.startAddress := Nat.min_eq_left line.start_le
  rw [readAddress, hbefore, if_pos (by omega), numeral_numeralText, ← MapsLine.startAddress, hmin]

/-! ### When it is the executable segment -/

def MapsLine.Qualifies (soName : List Char) (line : MapsLine ULONG_MAX) : Prop :=
  soName <:+: line.path ∧ line.perms = r_xp

instance (soName : List Char) (line : MapsLine ULONG_MAX) : Decidable (line.Qualifies soName) :=
  inferInstanceAs (Decidable (_ ∧ _))

/-- The start address of the first line of the module with permissions `r-xp`, or 0. -/
def executableStart (soName : List Char) (lines : List (MapsLine ULONG_MAX)) : Nat :=
  ((lines.find? fun line => line.Qualifies soName).map MapsLine.startAddress).getD 0

/-- The `i`-th 255 characters of the line, which is what `fgets` gives of it in its `i`-th piece. -/
def MapsLine.piece (line : MapsLine ULONG_MAX) (i : Nat) : List Char :=
  (line.text.drop (255 * i)).take 255

/-- The name and `r-xp` both stand in the `i`-th 255 characters of the line. -/
def MapsLine.Shows (soName : List Char) (line : MapsLine ULONG_MAX) (i : Nat) : Prop :=
  Passes soName (line.piece i)

instance (soName : List Char) (line : MapsLine ULONG_MAX) (i : Nat) :
    Decidable (line.Shows soName i) :=
  inferInstanceAs (Decidable (Passes _ _))

/-- No line shows both words. -/
def NothingShows (soName : List Char) (lines : List (MapsLine ULONG_MAX)) : Prop :=
  ∀ line ∈ lines, ∀ i, ¬ line.Shows soName i

/-- The first place where both words stand is the `i`-th piece of the line after `before`. -/
structure FirstShown (soName : List Char) (lines before : List (MapsLine ULONG_MAX))
    (line : MapsLine ULONG_MAX) (i : Nat) : Prop where
  split : ∃ after, lines = before ++ line :: after
  before : NothingShows soName before
  shows : line.Shows soName i
  first : ∀ k < i, ¬ line.Shows soName k

/-- The line after `before` is the first that qualifies. -/
def IsSegment (soName : List Char) (before : List (MapsLine ULONG_MAX)) (line : MapsLine ULONG_MAX) :
    Prop :=
  line.Qualifies soName ∧ ∀ l ∈ before, ¬ l.Qualifies soName

/-- The first place where both words stand is the beginning of the first qualifying line; or no line
qualifies, and they stand nowhere. -/
def SegmentRead (soName : List Char) (lines : List (MapsLine ULONG_MAX)) : Prop :=
  (∃ before line, FirstShown soName lines before line 0 ∧ IsSegment soName before line) ∨
    NothingShows soName lines ∧ ∀ line ∈ lines, ¬ line.Qualifies soName

/-- The words stand first elsewhere, or nowhere, and it makes no difference: another line starts at the
same address, or a later piece of a line begins with its digits and has a dash soon after, or the
segment that is missed starts at 0. -/
def Coincides (soName : List Char) (lines : List (MapsLine ULONG_MAX)) : Prop :=
  (∃ before line, FirstShown soName lines before line 0 ∧ ¬ IsSegment soName before line ∧
      line.startAddress = executableStart soName lines) ∨
    (∃ before line i, FirstShown soName lines before line (i + 1) ∧
      (∃ head rest, line.piece (i + 1) = head ++ '-' :: rest ∧ head.length ≤ 29) ∧
        min (numeral 16 (line.piece (i + 1))) ULONG_MAX = executableStart soName lines) ∨
      NothingShows soName lines ∧ (∃ line ∈ lines, line.Qualifies soName) ∧
        executableStart soName lines = 0

section Condition

variable {soName : List Char} {lines before : List (MapsLine ULONG_MAX)} {line : MapsLine ULONG_MAX}
  {i : Nat}

theorem piece_zero (line : MapsLine ULONG_MAX) : line.piece 0 = line.text.take 255 := rfl

/-- The pieces that `fgets` reads of a line. -/
theorem fgetsAll_text (line : MapsLine ULONG_MAX) (i : Nat) :
    (fgetsAll 256 line.text)[i]? = if 255 * i < line.text.length then some (line.piece i) else none :=
  fgetsAll_getElem? (by decide) (Or.inr line.terminated_text) i

theorem lt_length_of_shows (h : line.Shows soName i) : 255 * i < line.text.length := by
  refine Nat.lt_of_not_le fun hle => ?_
  have hnil : line.piece i = [] := by rw [MapsLine.piece, List.drop_eq_nil_of_le hle, List.take_nil]
  have hr_xp := h.2
  rw [hnil] at hr_xp
  exact List.cons_ne_nil _ _ (List.infix_nil.1 hr_xp)

/-- What the search comes to in one line. -/
theorem find?_line (soName : List Char) (line : MapsLine ULONG_MAX) :
    ((fgetsAll 256 line.text).find? (fun cmdline => Passes soName cmdline) = none ∧
        ∀ i, ¬ line.Shows soName i) ∨
      ∃ i, line.Shows soName i ∧ (∀ k < i, ¬ line.Shows soName k) ∧
        (fgetsAll 256 line.text).find? (fun cmdline => Passes soName cmdline) =
          some (line.piece i) := by
  cases hfind : (fgetsAll 256 line.text).find? fun cmdline => Passes soName cmdline with
  | none =>
    refine Or.inl ⟨rfl, fun i hi => ?_⟩
    have hget := fgetsAll_text line i
    rw [if_pos (lt_length_of_shows hi)] at hget
    exact List.find?_eq_none.1 hfind _ (List.mem_of_getElem? hget) (decide_eq_true hi)
  | some cmdline =>
    obtain ⟨hpasses, as, bs, hsplit, hno⟩ := List.find?_eq_some_iff_append.1 hfind
    have hget : ∀ k, (as ++ cmdline :: bs)[k]? =
        if 255 * k < line.text.length then some (line.piece k) else none :=
      fun k => hsplit ▸ fgetsAll_text line k
    have hcmdline : cmdline = line.piece as.length := by
      have hhere := hget as.length
      rw [List.getElem?_append_right (Nat.le_refl _), Nat.sub_self, List.getElem?_cons_zero] at hhere
      split_ifs at hhere
      exact Option.some.inj hhere
    refine Or.inr ⟨as.length, ?_, ?_, congrArg some hcmdline⟩
    · rw [MapsLine.Shows, ← hcmdline]
      exact of_decide_eq_true hpasses
    · intro k hk hshows
      have hhere := hget k
      rw [List.getElem?_append_left hk, if_pos (lt_length_of_shows hshows)] at hhere
      have hfalse := hno _ (List.mem_of_getElem? hhere)
      simp only [Bool.not_eq_true', decide_eq_false_iff_not] at hfalse
      exact hfalse hshows

/-- What the search comes to in a text. -/
theorem find?_cases (soName : List Char) (lines : List (MapsLine ULONG_MAX)) :
    ((fgetsAll 256 (mapsText lines)).find? (fun cmdline => Passes soName cmdline) = none ∧
        NothingShows soName lines) ∨
      ∃ before line i, FirstShown soName lines before line i ∧
        (fgetsAll 256 (mapsText lines)).find? (fun cmdline => Passes soName cmdline) =
          some (line.piece i) := by
  rw [mapsText, fgetsAll_flatMap (by decide) fun line _ => line.terminated_text]
  induction lines with
  | nil => exact Or.inl ⟨rfl, fun _ h => absurd h List.not_mem_nil⟩
  | cons line lines ih =>
    rw [List.flatMap_cons, List.find?_append]
    rcases find?_line soName line with ⟨hfind, hno⟩ | ⟨i, hshows, hfirst, hfind⟩
    · rw [hfind, Option.none_or]
      rcases ih with ⟨hrest, hnothing⟩ | ⟨before, line', i, ⟨⟨after, rfl⟩, hbefore, hshows, hfirst⟩,
        hrest⟩
      · exact Or.inl ⟨hrest, List.forall_mem_cons.2 ⟨hno, hnothing⟩⟩
      · exact Or.inr ⟨line :: before, line', i,
          ⟨⟨after, rfl⟩, List.forall_mem_cons.2 ⟨hno, hbefore⟩, hshows, hfirst⟩, hrest⟩
    · exact Or.inr ⟨[], line, i, ⟨⟨lines, rfl⟩, fun _ h => absurd h List.not_mem_nil, hshows, hfirst⟩,
        by rw [hfind, Option.some_or]⟩

theorem NothingShows.find?_eq (h : NothingShows soName lines) :
    (fgetsAll 256 (mapsText lines)).find? (fun cmdline => Passes soName cmdline) = none := by
  rcases find?_cases soName lines with ⟨hfind, -⟩ | ⟨before, line, i, hfirst, -⟩
  · exact hfind
  · obtain ⟨after, rfl⟩ := hfirst.split
    exact absurd hfirst.shows (h line (by simp) i)

/-- The first place is one place. -/
theorem FirstShown.find?_eq (h : FirstShown soName lines before line i) :
    (fgetsAll 256 (mapsText lines)).find? (fun cmdline => Passes soName cmdline) =
      some (line.piece i) := by
  obtain ⟨⟨after, rfl⟩, hbefore, hshows, hfirst⟩ := h
  have hnone := hbefore.find?_eq
  rw [mapsText, fgetsAll_flatMap (by decide) fun line _ => line.terminated_text] at hnone ⊢
  rw [List.flatMap_append, List.flatMap_cons, List.find?_append, hnone, Option.none_or,
    List.find?_append]
  rcases find?_line soName line with ⟨-, hno⟩ | ⟨k, hk, hkfirst, hfind⟩
  · exact absurd hshows (hno i)
  · rw [hfind, Option.some_or]
    rcases Nat.lt_trichotomy i k with hlt | rfl | hlt
    · exact absurd hshows (hkfirst i hlt)
    · rfl
    · exact absurd hk (hfirst k hlt)

theorem NothingShows.find_database_of_eq (h : NothingShows soName lines) :
    find_database_of ULONG_MAX soName (some (mapsText lines)) = some 0 := by
  rw [SoTool.find_database_of_eq, h.find?_eq, Option.map_none, Option.getD_none]

theorem FirstShown.find_database_of_eq (h : FirstShown soName lines before line i) :
    find_database_of ULONG_MAX soName (some (mapsText lines)) =
      readAddress ULONG_MAX (line.piece i) := by
  rw [SoTool.find_database_of_eq, h.find?_eq, Option.map_some, Option.getD_some]

theorem IsSegment.executableStart_eq (h : IsSegment soName before line)
    (hsplit : ∃ after, lines = before ++ line :: after) :
    executableStart soName lines = line.startAddress := by
  obtain ⟨after, rfl⟩ := hsplit
  have hnone : (before.find? fun l => l.Qualifies soName) = none :=
    List.find?_eq_none.2 fun l hl => by simpa using h.2 l hl
  rw [executableStart, List.find?_append, hnone, Option.none_or, List.find?_cons,
    decide_eq_true h.1]
  rfl

theorem executableStart_of_none (h : ∀ line ∈ lines, ¬ line.Qualifies soName) :
    executableStart soName lines = 0 := by
  have hnone : (lines.find? fun l => l.Qualifies soName) = none :=
    List.find?_eq_none.2 fun l hl => by simpa using h l hl
  rw [executableStart, hnone]
  rfl

/-- The digits at the beginning of a piece end before its first dash. -/
theorem numeral_beforeDash (cmdline : List Char) :
    numeral 16 (beforeDash cmdline) = numeral 16 cmdline := by
  rw [beforeDash, numeral_takeWhile (by decide), cstring, numeral_takeWhile (by decide)]

/-- A piece that passes has a first dash. -/
theorem exists_dash {cmdline : List Char} (h : Passes soName cmdline) :
    ∃ rest, cmdline = beforeDash cmdline ++ '-' :: rest ∧ '-' ∉ beforeDash cmdline := by
  have hdash : '-' ∈ cstring cmdline := h.2.subset (by simp)
  obtain ⟨head, tail, hstring, hhead⟩ := List.eq_append_cons_of_mem hdash
  obtain ⟨rest, hrest⟩ : cstring cmdline <+: cmdline := List.takeWhile_prefix _
  have hnul : '\x00' ∉ head := by
    intro hmem
    have hchar : '\x00' ∈ cstring cmdline := by
      rw [hstring]
      exact List.mem_append_left _ hmem
    simpa using List.mem_takeWhile_imp hchar
  have hcmdline : cmdline = head ++ '-' :: (tail ++ rest) := by
    rw [← hrest, hstring, List.append_assoc, List.cons_append]
  have hbefore : beforeDash cmdline = head := by
    rw [hcmdline]
    exact beforeDash_append hnul hhead
  exact ⟨tail ++ rest, hbefore ▸ hcmdline, hbefore ▸ hhead⟩

theorem beforeDash_length_le_iff {cmdline : List Char} (h : Passes soName cmdline) (n : Nat) :
    (beforeDash cmdline).length ≤ n ↔
      ∃ head rest, cmdline = head ++ '-' :: rest ∧ head.length ≤ n := by
  obtain ⟨rest, hcmdline, hdash⟩ := exists_dash h
  constructor
  · exact fun hlen => ⟨_, rest, hcmdline, hlen⟩
  · rintro ⟨head, rest', heq, hlen⟩
    refine Nat.le_trans ?_ hlen
    rcases List.append_eq_append_iff.1 (hcmdline.symm.trans heq) with ⟨x, rfl, -⟩ | ⟨x, hx, hrest⟩
    · rw [List.length_append]
      exact Nat.le_add_right _ _
    · cases x with
      | nil => rw [hx, List.append_nil]
      | cons c x =>
        -- a dash before the first one
        obtain ⟨rfl, -⟩ := List.cons.inj hrest
        rw [hx] at hdash
        exact absurd (List.mem_append_right _ List.mem_cons_self) hdash

theorem readAddress_eq_iff {cmdline : List Char} (h : Passes soName cmdline) (base : Nat) :
    readAddress ULONG_MAX cmdline = some base ↔
      (∃ head rest, cmdline = head ++ '-' :: rest ∧ head.length ≤ 29) ∧
        min (numeral 16 cmdline) ULONG_MAX = base := by
  rw [readAddress, numeral_beforeDash, ← beforeDash_length_le_iff h]
  split_ifs with hlen
  · simp [hlen]
  · simp [hlen]

/-- Where the segment's line is read, the result is its start. -/
theorem SegmentRead.find_database_of_eq (h : SegmentRead soName lines) :
    find_database_of ULONG_MAX soName (some (mapsText lines)) =
      some (executableStart soName lines) := by
  rcases h with ⟨before, line, hfirst, hsegment⟩ | ⟨hnothing, hno⟩
  · rw [hfirst.find_database_of_eq, piece_zero, readAddress_head,
      hsegment.executableStart_eq hfirst.split]
  · rw [hnothing.find_database_of_eq, executableStart_of_none hno]

/-- **The executable segment.** In every maps text and for every name, `find_database_of` gives the
start of the first line with the name in its path and the permissions `r-xp`, or 0 without one, and
`num` has room for what is copied, if and only if the search stops at that line, or the number read
elsewhere is the same by coincidence. -/
theorem find_database_of_iff (soName : List Char) (lines : List (MapsLine ULONG_MAX)) :
    find_database_of ULONG_MAX soName (some (mapsText lines)) =
        some (executableStart soName lines) ↔ SegmentRead soName lines ∨ Coincides soName lines := by
  constructor
  · intro h
    rcases find?_cases soName lines with ⟨-, hnothing⟩ | ⟨before, line, i, hfirst, -⟩
    · rw [hnothing.find_database_of_eq] at h
      by_cases hno : ∀ line ∈ lines, ¬ line.Qualifies soName
      · exact Or.inl (Or.inr ⟨hnothing, hno⟩)
      · push Not at hno
        exact Or.inr (Or.inr (Or.inr ⟨hnothing, hno, (Option.some.inj h).symm⟩))
    · rw [hfirst.find_database_of_eq] at h
      cases i with
      | zero =>
        rw [piece_zero, readAddress_head, Option.some_inj] at h
        by_cases hsegment : IsSegment soName before line
        · exact Or.inl (Or.inl ⟨before, line, hfirst, hsegment⟩)
        · exact Or.inr (Or.inl ⟨before, line, hfirst, hsegment, h⟩)
      | succ i =>
        rw [readAddress_eq_iff hfirst.shows] at h
        exact Or.inr (Or.inr (Or.inl ⟨before, line, i, hfirst, h⟩))
  · rintro (h | ⟨before, line, hfirst, -, h⟩ | ⟨before, line, i, hfirst, h⟩ | ⟨hnothing, -, h⟩)
    · exact h.find_database_of_eq
    · rw [hfirst.find_database_of_eq, piece_zero, readAddress_head, h]
    · rw [hfirst.find_database_of_eq, readAddress_eq_iff hfirst.shows]
      exact h
    · rw [hnothing.find_database_of_eq, h]

end Condition

/-! ### Ordinary texts -/

/-- The name is in the path field only, and `r-xp` there or in the permissions. -/
theorem passes_text_iff_or {soName : List Char} {line : MapsLine ULONG_MAX} (hdot : '.' ∈ soName)
    (hspace : ' ' ∉ soName) (hnewline : '\n' ∉ soName) (hnul : '\x00' ∉ line.path) :
    Passes soName line.text ↔
      soName <:+: line.path ∧ (line.perms = r_xp ∨ ['r', '-', 'x', 'p'] <:+: line.path) := by
  rw [Passes, cstring_of_not_mem (line.nul_not_mem_text hnul),
    line.infix_text_iff hdot hspace hnewline, line.r_xp_infix_text_iff]

theorem passes_text_iff {soName : List Char} {line : MapsLine ULONG_MAX} (hdot : '.' ∈ soName)
    (hspace : ' ' ∉ soName) (hnewline : '\n' ∉ soName) (hnul : '\x00' ∉ line.path)
    (hr_xp : ¬ ['r', '-', 'x', 'p'] <:+: line.path) :
    Passes soName line.text ↔ line.Qualifies soName := by
  rw [passes_text_iff_or hdot hspace hnewline hnul, MapsLine.Qualifies]
  simp [hr_xp]

/-- The first line that passes gives the result. -/
theorem find_database_of_short {soName : List Char} {lines : List (MapsLine ULONG_MAX)}
    (hlen : ∀ line ∈ lines, line.text.length < 256) :
    find_database_of ULONG_MAX soName (some (mapsText lines)) =
      some (((lines.find? fun line => Passes soName line.text).map MapsLine.startAddress).getD 0) := by
  have hpieces : fgetsAll 256 (mapsText lines) = lines.map MapsLine.text :=
    fgetsAll_flatMap_of_short (by decide) (fun line _ => line.terminated_text) hlen
  rw [find_database_of_eq, hpieces, List.find?_map]
  change ((Option.map MapsLine.text (lines.find? fun line => Passes soName line.text)).map
    (readAddress ULONG_MAX)).getD (some 0) = _
  cases hfind : lines.find? fun line => Passes soName line.text with
  | none => rfl
  | some line =>
    have hline := hlen line (List.mem_of_find?_eq_some hfind)
    have hhead := readAddress_head line
    rw [List.take_of_length_le (by omega)] at hhead
    simp [hhead]

/-- A line that fits in the buffer shows the words in its only piece. -/
theorem shows_iff_of_short {soName : List Char} {line : MapsLine ULONG_MAX} {i : Nat}
    (hlen : line.text.length < 256) : line.Shows soName i ↔ i = 0 ∧ Passes soName line.text := by
  have hhead : line.piece 0 = line.text := List.take_of_length_le (Nat.le_of_lt_succ hlen)
  constructor
  · intro h
    have hlt := lt_length_of_shows h
    obtain rfl : i = 0 := by omega
    rw [MapsLine.Shows, hhead] at h
    exact ⟨rfl, h⟩
  · rintro ⟨rfl, h⟩
    rw [MapsLine.Shows, hhead]
    exact h

/-- If every line fits in the buffer and no path contains `r-xp`, the segment's line is read. -/
theorem segmentRead_of_short {soName : List Char} {lines : List (MapsLine ULONG_MAX)}
    (hdot : '.' ∈ soName) (hspace : ' ' ∉ soName) (hnewline : '\n' ∉ soName)
    (hlen : ∀ line ∈ lines, line.text.length < 256)
    (hpath : ∀ line ∈ lines, '\x00' ∉ line.path ∧ ¬ ['r', '-', 'x', 'p'] <:+: line.path) :
    SegmentRead soName lines := by
  have hshows : ∀ line ∈ lines, ∀ i, line.Shows soName i ↔ i = 0 ∧ line.Qualifies soName := by
    intro line hline i
    rw [shows_iff_of_short (hlen line hline),
      passes_text_iff hdot hspace hnewline (hpath line hline).1 (hpath line hline).2]
  cases hfind : lines.find? fun line => line.Qualifies soName with
  | none =>
    have hno : ∀ line ∈ lines, ¬ line.Qualifies soName := by
      simpa using List.find?_eq_none.1 hfind
    exact Or.inr ⟨fun line hline i hi => hno line hline ((hshows line hline i).1 hi).2, hno⟩
  | some line =>
    obtain ⟨hqualifies, before, after, rfl, hbefore⟩ := List.find?_eq_some_iff_append.1 hfind
    have hno : ∀ l ∈ before, ¬ l.Qualifies soName := by simpa using hbefore
    have hline := of_decide_eq_true hqualifies
    refine Or.inl ⟨before, line, ⟨⟨after, rfl⟩, ?_, ?_, ?_⟩, hline, hno⟩
    · intro l hl i hi
      exact hno l hl ((hshows l (List.mem_append_left _ hl) i).1 hi).2
    · exact (hshows line (by simp) 0).2 ⟨rfl, hline⟩
    · exact fun k hk => absurd hk (Nat.not_lt_zero k)

section Sample

/-- One page of a file. -/
def mappedAt (d : Fin 16) (perms : Perms) (path : List Char) (h : '\n' ∉ path) :
    MapsLine (2 ^ 64 - 1) where
  start := [d, 0, 0, 0]
  stop := [d, 1, 0, 0]
  perms := perms
  offset := [0]
  major := [0]
  minor := [1]
  inode := [7]
  path := path
  start_length := Nat.le_of_ble_eq_true rfl
  start_le := by
    revert d
    decide
  path_newline := h

def fooName : List Char := ['l', 'i', 'b', 'f', 'o', 'o', '.', 's', 'o']

/-- The name is cut by the end of the buffer. -/
def longPath : List Char := '/' :: List.replicate 228 'a' ++ '/' :: fooName

/-- The end of the path does not fit in the buffer, and contains `r-xp`. -/
def dashedPath : List Char :=
  '/' :: List.replicate 300 'a' ++ ['/', 'r', '-', 'x', 'p', '/'] ++ fooName

/-- The address of an executable line is missed, and a piece of a path overflows `num`. -/
theorem not_find_database_of :
    find_database_of (2 ^ 64 - 1) fooName
        (some (mapsText [mappedAt 7 r_xp longPath (by decide)])) = some 0 ∧
      executableStart fooName [mappedAt 7 r_xp longPath (by decide)] = 0x7000 ∧
      find_database_of (2 ^ 64 - 1) fooName
        (some (mapsText [mappedAt 7 r_xp dashedPath (by decide)])) = none := by
  decide +kernel

end Sample

end ElfHook.SoTool
