import Mathlib.Data.List.TakeWhile
import ElfHook.Thread.Jni

/-!
# `xunwind_cfi_get`

The native stack of the calling thread as one C string, or `NULL`. The unwinder behind it, the
success of its initialisation and of each call of `realloc` are given by an `Unwinding`.

* `xunwind_cfi_get_isSome`: a string is returned exactly when one of the calls of `realloc` that the
  printed strings give rise to succeeds.
-/

namespace ElfHook.Thread

def XU_CFI_MAX_FRAME : Nat := 256

/-- What the unwinder formats, frame by frame: `none` when it cannot be created or cannot unwind. -/
inductive Backtrace where
  | libcorkscrew (frames : Option (List CText))
  | libbacktrace (format : Option (Nat → CText))

/-- The lines that the printing loop goes over. -/
def Backtrace.frame_lines : Backtrace → List CText
  | .libcorkscrew frames => frames.getD []
  | .libbacktrace format => format.elim [] fun f => (List.range XU_CFI_MAX_FRAME).map f

/-- What one call of `xunwind_cfi_get` finds: the status of `xu_cfi_init`, the unwinder, and whether
the first, the second and each further call of `realloc` gives a buffer. -/
structure Unwinding where
  init_status : Int
  backtrace : Backtrace
  realloc : Nat → Bool

/-- The `get` part of `xu_printer_t`, `buf_sz` being the length of the string in `buf`; and how often
`realloc` has been called. -/
structure Printer where
  buf : Option CText
  buf_cap : Nat
  reallocs : Nat
  deriving DecidableEq

def xu_printer_init_get : Printer := ⟨none, 0, 0⟩

def Printer.buf_sz (self : Printer) : Nat := (self.buf.getD []).length

/-- The capacity asked for when `str` does not fit. -/
def new_buf_cap (buf_cap str_len : Nat) : Nat :=
  (buf_cap + str_len) / 0x400 * 0x400 + 0x400

/-- Appends `str`, or nothing when the buffer has to grow and cannot. -/
def xu_printer_string_append_to_buf (realloc : Nat → Bool) (self : Printer) (str : CText) :
    Printer :=
  if str = [] then self
  else if self.buf_cap - self.buf_sz < str.length + 1 then
    if realloc self.reallocs then
      ⟨some (self.buf.getD [] ++ str), new_buf_cap self.buf_cap str.length, self.reallocs + 1⟩
    else { self with reallocs := self.reallocs + 1 }
  else { self with buf := some (self.buf.getD [] ++ str) }

/-- The byte `'\n'`. -/
def newline : UInt8 := 10

/-- The strings appended for `str`: itself, and a newline if it does not end with one. -/
def withNewline (str : CText) : List CText :=
  if str.getLast? = some newline then [str] else [str, [newline]]

def xu_printer_append_string (realloc : Nat → Bool) (self : Printer) (str : CText) : Printer :=
  if str = [] then self
  else (withNewline str).foldl (xu_printer_string_append_to_buf realloc) self

/-- `"%s%s"` through the 1024 bytes of `tmpbuf`. -/
def xu_printer_append_format (realloc : Nat → Bool) (self : Printer) (pre line : CText) : Printer :=
  xu_printer_append_string realloc self ((pre ++ line).take 1023)

/-- The printing loop, which stops at the first line of fewer than five bytes. -/
def xu_cfi_thread (realloc : Nat → Bool) (pre : CText) : List CText → Printer → Printer
  | [], printer => printer
  | frame_line :: frame_lines, printer =>
    if frame_line.length < 5 then printer
    else xu_cfi_thread realloc pre frame_lines
      (xu_printer_append_format realloc printer pre frame_line)

def xunwind_cfi_get (u : Unwinding) (pre : CText) : Option CText :=
  if u.init_status ≠ 0 then none
  else (xu_cfi_thread u.realloc pre u.backtrace.frame_lines xu_printer_init_get).buf

/-! ### When there is a string -/

/-- The strings that the loop appends. -/
def printed (pre : CText) (frame_lines : List CText) : List CText :=
  (frame_lines.takeWhile fun l => 5 ≤ l.length).flatMap fun l => withNewline ((pre ++ l).take 1023)

/-- The unwinder is initialised, and one of the first calls of `realloc`, as many as there are strings
to print, gives a buffer. -/
def Unwinding.Captured (u : Unwinding) (pre : CText) : Prop :=
  u.init_status = 0 ∧
    ∃ n < (printed pre u.backtrace.frame_lines).length, u.realloc n = true

section Printer

variable {realloc : Nat → Bool} {self : Printer} {str pre : CText}

/-- A buffer that was never allocated has no capacity. -/
def Printer.Fresh (self : Printer) : Prop := self.buf = none → self.buf_cap = 0

theorem fresh_append (h : self.Fresh) :
    (xu_printer_string_append_to_buf realloc self str).Fresh := by
  unfold xu_printer_string_append_to_buf
  split_ifs
  · exact h
  · exact fun hnone => absurd hnone (Option.some_ne_none _)
  · exact h
  · exact fun hnone => absurd hnone (Option.some_ne_none _)

theorem isSome_append_of_isSome (h : self.buf.isSome = true) :
    (xu_printer_string_append_to_buf realloc self str).buf.isSome = true := by
  unfold xu_printer_string_append_to_buf
  split_ifs <;> simp [h]

/-- A string that comes while there is no buffer asks for one. -/
theorem append_of_eq_none (h : self.Fresh) (hbuf : self.buf = none) (hstr : str ≠ []) :
    xu_printer_string_append_to_buf realloc self str =
      if realloc self.reallocs then
        ⟨some str, new_buf_cap self.buf_cap str.length, self.reallocs + 1⟩
      else { self with reallocs := self.reallocs + 1 } := by
  have hcap := h hbuf
  have hfull : self.buf_cap - self.buf_sz < str.length + 1 := by omega
  rw [xu_printer_string_append_to_buf, if_neg hstr, if_pos hfull, hbuf]
  rfl

theorem isSome_foldl_append (realloc : Nat → Bool) {strs : List CText} (h : self.Fresh)
    (hstrs : ∀ s ∈ strs, s ≠ []) :
    (strs.foldl (xu_printer_string_append_to_buf realloc) self).buf.isSome = true ↔
      self.buf.isSome = true ∨ ∃ n < strs.length, realloc (self.reallocs + n) = true := by
  induction strs generalizing self with
  | nil => simp
  | cons s strs ih =>
    have hfresh : (xu_printer_string_append_to_buf realloc self s).Fresh := fresh_append h
    have hrest := ih hfresh fun t ht => hstrs t (List.mem_cons_of_mem _ ht)
    rw [List.foldl_cons, hrest]
    cases hbuf : self.buf with
    | some text =>
      have hsome : self.buf.isSome = true := by rw [hbuf]; rfl
      simp [isSome_append_of_isSome hsome]
    | none =>
      -- as long as there is no buffer, each string is one call
      rw [append_of_eq_none h hbuf (hstrs s List.mem_cons_self), List.length_cons,
        Nat.exists_lt_succ_left]
      have hshift : ∀ n, self.reallocs + 1 + n = self.reallocs + (n + 1) := fun n => by omega
      by_cases hrealloc : realloc self.reallocs = true
      · simp [hrealloc]
      · simp [hrealloc, hbuf, hshift]

theorem tmpbuf_ne_nil {l : CText} (h : 5 ≤ l.length) : (pre ++ l).take 1023 ≠ [] := by
  intro hnil
  rcases List.take_eq_nil_iff.1 hnil with hzero | hnil
  · exact absurd hzero (by decide)
  · rw [(List.append_eq_nil_iff.1 hnil).2] at h
    exact absurd h (by decide)

/-- The loop appends the printed strings one after the other. -/
theorem xu_cfi_thread_eq (frame_lines : List CText) (printer : Printer) :
    xu_cfi_thread realloc pre frame_lines printer =
      (printed pre frame_lines).foldl (xu_printer_string_append_to_buf realloc) printer := by
  induction frame_lines generalizing printer with
  | nil => rfl
  | cons l frame_lines ih =>
    rw [xu_cfi_thread]
    by_cases hshort : l.length < 5
    · simp [hshort, printed, Nat.not_le.2 hshort]
    · have hne : (pre ++ l).take 1023 ≠ [] := tmpbuf_ne_nil (Nat.le_of_not_lt hshort)
      rw [if_neg hshort, ih, xu_printer_append_format, xu_printer_append_string, if_neg hne,
        ← List.foldl_append]
      simp [printed, Nat.le_of_not_lt hshort]

end Printer

theorem ne_nil_of_mem_printed {pre str : CText} {frame_lines : List CText}
    (h : str ∈ printed pre frame_lines) : str ≠ [] := by
  obtain ⟨l, hl, hstr⟩ := List.mem_flatMap.1 h
  have hlen : 5 ≤ l.length := by simpa using List.mem_takeWhile_imp hl
  have hne : (pre ++ l).take 1023 ≠ [] := tmpbuf_ne_nil hlen
  unfold withNewline at hstr
  split_ifs at hstr
  · rwa [List.mem_singleton.1 hstr]
  · rcases List.mem_cons.1 hstr with rfl | hstr
    · exact hne
    · rw [List.mem_singleton.1 hstr]
      exact List.cons_ne_nil _ _

theorem xunwind_cfi_get_isSome {u : Unwinding} {pre : CText} :
    (xunwind_cfi_get u pre).isSome = true ↔ u.Captured pre := by
  unfold xunwind_cfi_get Unwinding.Captured
  by_cases hinit : u.init_status = 0
  · have hstrs : ∀ s ∈ printed pre u.backtrace.frame_lines, s ≠ [] :=
      fun s hs => ne_nil_of_mem_printed hs
    have hfresh : xu_printer_init_get.Fresh := fun _ => rfl
    have hfold := isSome_foldl_append u.realloc hfresh hstrs
    simpa [hinit, xu_cfi_thread_eq, xu_printer_init_get] using hfold
  · simp [hinit]

end ElfHook.Thread
