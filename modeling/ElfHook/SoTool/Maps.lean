import ElfHook.Lib.CString
import ElfHook.Lib.Lines

/-!
# `/proc/self/maps`

A line `start-end perms offset dev inode path` by its fields, and its text. Numbers are given by their
digits, so a line has any padding; the path is whatever follows the inode, without a newline.
-/

namespace ElfHook.SoTool

open Lib

structure Perms where
  r : Bool
  w : Bool
  x : Bool
  shared : Bool
  deriving DecidableEq

def Perms.text (p : Perms) : List Char :=
  [if p.r then 'r' else '-', if p.w then 'w' else '-', if p.x then 'x' else '-',
    if p.shared then 's' else 'p']

theorem Perms.not_mem_text {c : Char} (hc : c ∉ ['-', 'r', 'w', 'x', 's', 'p']) (p : Perms) :
    c ∉ p.text := by
  simp only [List.mem_cons, List.not_mem_nil, or_false, not_or] at hc
  obtain ⟨hdash, hr, hw, hx, hs, hp⟩ := hc
  simp only [Perms.text, List.mem_cons, List.not_mem_nil, or_false, not_or]
  refine ⟨?_, ?_, ?_, ?_⟩ <;> split_ifs <;> assumption

/-- Readable, executable and private. -/
def r_xp : Perms := ⟨true, false, true, false⟩

/-- A line whose start address is an `unsigned long` of at most 16 digits. -/
structure MapsLine (ULONG_MAX : Nat) where
  start : List (Fin 16)
  stop : List (Fin 16)
  perms : Perms
  offset : List (Fin 16)
  major : List (Fin 16)
  minor : List (Fin 16)
  inode : List (Fin 10)
  path : List Char
  start_length : start.length ≤ 16
  start_le : Nat.ofDigits 16 (start.map Fin.val).reverse ≤ ULONG_MAX
  path_newline : '\n' ∉ path

namespace MapsLine

variable {ULONG_MAX : Nat} (line : MapsLine ULONG_MAX)

def startAddress : Nat := Nat.ofDigits 16 (line.start.map Fin.val).reverse

/-- What follows the dash. -/
def afterDash : List Char :=
  numeralText line.stop ++ ' ' :: (line.perms.text ++ ' ' :: (numeralText line.offset ++
    ' ' :: (numeralText line.major ++ ':' :: (numeralText line.minor ++
      ' ' :: (numeralText line.inode ++ ' ' :: line.path)))))

def text : List Char := numeralText line.start ++ '-' :: line.afterDash ++ ['\n']

/-- A character of the text is one of the fields, a separator, or in the path. -/
theorem not_mem_text {c : Char} (hc : c ∉ [' ', ':', '-', 'r', 'w', 'x', 's', 'p'])
    (hdigit : ∀ d < 16, digitOf c ≠ some d) (hpath : c ∉ line.path) :
    c ∉ numeralText line.start ++ '-' :: line.afterDash := by
  have hdigits : ∀ {b : Nat} (ds : List (Fin b)), b ≤ 16 → c ∉ numeralText ds :=
    fun ds hb => not_mem_numeralText hb hdigit
  simp only [List.mem_cons, List.not_mem_nil, or_false, not_or] at hc
  obtain ⟨hspace, hcolon, hdash, hletters⟩ := hc
  have hperms : c ∉ line.perms.text := Perms.not_mem_text (by simp [hdash, hletters]) line.perms
  simp [afterDash, hdigits, hperms, hpath, hdash, hspace, hcolon]

theorem terminated_text : Terminated '\n' line.text :=
  ⟨_, rfl, line.not_mem_text (by decide) (by decide) line.path_newline⟩

theorem nul_not_mem_text (hnul : '\x00' ∉ line.path) : '\x00' ∉ line.text := by
  have hbody := line.not_mem_text (c := '\x00') (by decide) (by decide) hnul
  rw [text, List.mem_append, not_or]
  exact ⟨hbody, by decide⟩

/-- A word is in the text if it is in one of the fields that spaces separate. -/
theorem infix_text_iff_fields {word : List Char} (hspace : ' ' ∉ word) (hnewline : '\n' ∉ word)
    (hword : word ≠ []) : word <:+: line.text ↔
      word <:+: numeralText line.start ++ '-' :: numeralText line.stop ∨
      word <:+: line.perms.text ∨ word <:+: numeralText line.offset ∨
      word <:+: numeralText line.major ++ ':' :: numeralText line.minor ∨
      word <:+: numeralText line.inode ∨ word <:+: line.path := by
  have htext : line.text = (numeralText line.start ++ '-' :: numeralText line.stop) ++ ' ' ::
      (line.perms.text ++ ' ' :: (numeralText line.offset ++ ' ' ::
        ((numeralText line.major ++ ':' :: numeralText line.minor) ++ ' ' ::
          (numeralText line.inode ++ ' ' :: (line.path ++ '\n' :: []))))) := by
    simp [text, afterDash]
  rw [htext]
  simp only [infix_append_cons_iff hspace, infix_append_cons_iff hnewline, List.infix_nil, hword,
    or_false]

/-- A name with a dot in it is in the text exactly if it is in the path. -/
theorem infix_text_iff {soName : List Char} (hdot : '.' ∈ soName) (hspace : ' ' ∉ soName)
    (hnewline : '\n' ∉ soName) : soName <:+: line.text ↔ soName <:+: line.path := by
  have hdigits : ∀ {b : Nat} (ds : List (Fin b)), b ≤ 16 → '.' ∉ numeralText ds :=
    fun ds hb => not_mem_numeralText hb (by decide)
  have hperms : '.' ∉ line.perms.text := Perms.not_mem_text (by decide) line.perms
  have hother : ∀ {field : List Char}, '.' ∉ field → ¬ soName <:+: field :=
    fun h => not_infix_of_not_mem hdot h
  rw [line.infix_text_iff_fields hspace hnewline (List.ne_nil_of_mem hdot)]
  simp [hother, hdigits, hperms]

theorem r_xp_infix_text_iff : ['r', '-', 'x', 'p'] <:+: line.text ↔
    line.perms = r_xp ∨ ['r', '-', 'x', 'p'] <:+: line.path := by
  have hdigits : ∀ {b : Nat} (ds : List (Fin b)), b ≤ 16 → 'r' ∉ numeralText ds :=
    fun ds hb => not_mem_numeralText hb (by decide)
  have hother : ∀ {field : List Char}, 'r' ∉ field → ¬ ['r', '-', 'x', 'p'] <:+: field :=
    fun h => not_infix_of_not_mem List.mem_cons_self h
  have hperms : ['r', '-', 'x', 'p'] <:+: line.perms.text ↔ line.perms = r_xp := by
    obtain ⟨r, w, x, shared⟩ := line.perms
    revert r w x shared
    decide
  rw [line.infix_text_iff_fields (by decide) (by decide) (List.cons_ne_nil _ _), hperms]
  simp [hother, hdigits]

end MapsLine

def mapsText {ULONG_MAX : Nat} (lines : List (MapsLine ULONG_MAX)) : List Char :=
  lines.flatMap MapsLine.text

end ElfHook.SoTool
