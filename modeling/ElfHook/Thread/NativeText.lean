import Mathlib.Data.List.ReduceOption
import ElfHook.Thread.Filter
import ElfHook.Thread.Unwind

/-!
# From the frames to the recorded text

The printer's buffer grows with the text; its capacity leaves room for the terminator. What it
holds when the loop is through is the printed strings but for those whose growth was refused, in their
order, and `record4Jni` filters it line by line.

* `xunwind_cfi_get_granted`: the buffer is never written past its end, and a call of `realloc` that is
  refused costs its own string only.
* `record4Jni_capture`: the text recorded for frames of one line each.
-/

namespace ElfHook.Thread

open Lib

/-! ### The buffer -/

section Buffer

variable {realloc : Nat → Bool} {self : Printer} {str : CText} {strs : List CText}

/-- The string and its terminator are in the buffer. -/
def Printer.Fits (self : Printer) : Prop := ∀ text ∈ self.buf, text.length + 1 ≤ self.buf_cap

theorem fits_init : xu_printer_init_get.Fits := fun _ h => by cases h

theorem lt_new_buf_cap (cap len : Nat) : cap + len < new_buf_cap cap len := by
  unfold new_buf_cap
  omega

theorem buf_sz_le (h : self.Fits) : self.buf_sz ≤ self.buf_cap := by
  unfold Printer.buf_sz
  cases hbuf : self.buf with
  | none => exact Nat.zero_le _
  | some text => exact Nat.le_of_succ_le (h text hbuf)

/-- What `memcpy` and the terminator write is in the buffer. -/
theorem fits_append (h : self.Fits) :
    (xu_printer_string_append_to_buf realloc self str).Fits := by
  have hsz := buf_sz_le h
  unfold xu_printer_string_append_to_buf
  split_ifs with hstr hfull hrealloc
  · exact h
  · intro text htext
    have hlt := lt_new_buf_cap self.buf_cap str.length
    obtain rfl := Option.some.inj htext
    rw [List.length_append]
    exact Nat.le_trans (Nat.succ_le_succ (Nat.add_le_add_right hsz _)) hlt
  · exact h
  · intro text htext
    obtain rfl := Option.some.inj htext
    rw [List.length_append]
    have hroom := Nat.not_lt.1 hfull
    change _ + _ + 1 ≤ self.buf_cap
    unfold Printer.buf_sz at hsz hroom
    omega

theorem fits_foldl_append (h : self.Fits) :
    (strs.foldl (xu_printer_string_append_to_buf realloc) self).Fits := by
  induction strs generalizing self with
  | nil => exact h
  | cons s strs ih => exact ih (fits_append h)

/-! ### The growths -/

/-- How a string fares: without a call of `realloc`, or with one and its answer. -/
abbrev Growth := Option Bool

/-- The answers of the calls, one after the other, are those of `realloc` from its `n`-th call on. -/
def Answers (realloc : Nat → Bool) (n : Nat) (growths : List Growth) : Prop :=
  growths.reduceOption = (List.range' n growths.reduceOption.length).map realloc

/-- The strings whose growth was not refused. -/
def kept (strs : List CText) (growths : List Growth) : CText :=
  ((strs.zip growths).filter fun p => p.2 ≠ some false).flatMap Prod.fst

variable (realloc self) in
/-- The string is appended whole, unless it asks and is refused; then the printer stays as it is. -/
theorem append_growth (hstr : str ≠ []) : ∃ growth : Growth,
    (xu_printer_string_append_to_buf realloc self str).buf.getD [] =
        self.buf.getD [] ++ kept [str] [growth] ∧
      (xu_printer_string_append_to_buf realloc self str).reallocs =
        self.reallocs + growth.toList.length ∧
      ∀ answer ∈ growth, answer = realloc self.reallocs := by
  unfold xu_printer_string_append_to_buf
  rw [if_neg hstr]
  split_ifs with hfull hrealloc
  · exact ⟨some true, by simp [kept], rfl, by simp [hrealloc]⟩
  · exact ⟨some false, by simp [kept], rfl, by simpa using hrealloc⟩
  · exact ⟨none, by simp [kept], rfl, by simp⟩

variable (realloc self) in
/-- The strings appended are those given, but for the ones refused. -/
theorem foldl_append_growths (hstrs : ∀ s ∈ strs, s ≠ []) : ∃ growths : List Growth,
    growths.length = strs.length ∧ Answers realloc self.reallocs growths ∧
      (strs.foldl (xu_printer_string_append_to_buf realloc) self).buf.getD [] =
        self.buf.getD [] ++ kept strs growths := by
  induction strs generalizing self with
  | nil => exact ⟨[], rfl, rfl, by simp [kept]⟩
  | cons s strs ih =>
    obtain ⟨growth, hbuf, hcalls, hanswer⟩ :=
      append_growth realloc self (hstrs s List.mem_cons_self)
    obtain ⟨growths, hlen, hanswers, htext⟩ :=
      ih (xu_printer_string_append_to_buf realloc self s) fun t ht =>
        hstrs t (List.mem_cons_of_mem _ ht)
    refine ⟨growth :: growths, by simp [hlen], ?_, ?_⟩
    · rw [hcalls] at hanswers
      cases growth with
      | none => exact hanswers
      | some answer =>
        obtain rfl := hanswer answer rfl
        simp only [Answers, List.reduceOption_cons_of_some, List.length_cons, List.range'_succ,
          List.map_cons]
        exact congrArg _ hanswers
    · rw [List.foldl_cons, htext, hbuf, List.append_assoc]
      congr 1
      simp only [kept, List.zip_cons_cons, List.filter_cons]
      split_ifs <;> simp

variable (self) in
theorem append_granted (hgranted : ∀ n, realloc n = true) (hstr : str ≠ []) :
    (xu_printer_string_append_to_buf realloc self str).buf = some (self.buf.getD [] ++ str) := by
  unfold xu_printer_string_append_to_buf
  rw [if_neg hstr]
  split_ifs with hfull hrealloc
  · rfl
  · exact absurd (hgranted _) hrealloc
  · rfl

variable (self) in
theorem foldl_append_granted (hgranted : ∀ n, realloc n = true) (hstrs : ∀ s ∈ strs, s ≠ []) :
    (strs.foldl (xu_printer_string_append_to_buf realloc) self).buf.getD [] =
      self.buf.getD [] ++ strs.flatten := by
  induction strs generalizing self with
  | nil => simp
  | cons s strs ih =>
    rw [List.foldl_cons, ih _ fun t ht => hstrs t (List.mem_cons_of_mem _ ht),
      append_granted self hgranted (hstrs s List.mem_cons_self)]
    simp

end Buffer

/-- At every moment of the loop the buffer has room for what is in it. -/
def NeverOverflows (u : Unwinding) (pre : CText) : Prop :=
  ∀ k, (((printed pre u.backtrace.frame_lines).take k).foldl
    (xu_printer_string_append_to_buf u.realloc) xu_printer_init_get).Fits

/-- Two frames, and the first call of `realloc` is refused. -/
def refusedOnce : Unwinding where
  init_status := 0
  backtrace := .libcorkscrew (some [bytes "#00 pc 0 a.so".toList, bytes "#01 pc 0 b.so".toList])
  realloc n := n != 0

/-- The body of the line printed for a frame: the buffer for one line cuts it. -/
def FrameBody.cut (b : FrameBody) : FrameBody where
  text := b.text.take 1019
  oneLine c hc := b.oneLine c (List.mem_of_mem_take hc)

theorem take_line (l : Text) : (TAG_bytes ++ bytes l).take 1023 = bytes (TAG ++ l.take 1019) := by
  rw [List.take_append]
  simp [bytes, TAG_bytes, TAG, List.map_take]

theorem toUInt8_eq_newline {c : Char} (hc : c.toNat < 128) (h : c.toUInt8 = newline) : c = '\n' := by
  have hbyte : c.toUInt8.toNat = c.toNat := Nat.mod_eq_of_lt (Nat.lt_trans hc (by decide))
  rw [h] at hbyte
  exact Char.toNat_inj.1 hbyte.symm

/-- An ASCII line ends with the byte only if it ends with the character. -/
theorem getLast?_bytes {text : Text} (h : IsAscii text) (hlast : (bytes text).getLast? = some newline) :
    text.getLast? = some '\n' := by
  rw [bytes, List.getLast?_map] at hlast
  obtain ⟨c, hc, hbyte⟩ := Option.map_eq_some_iff.1 hlast
  rw [hc, toUInt8_eq_newline (h c (List.mem_of_getLast? hc)) hbyte]

theorem isAscii_line {b : FrameBody} (h : IsAscii b.text) : IsAscii (TAG ++ b.text.take 1019) := by
  intro c hc
  rcases List.mem_append.1 hc with hc | hc
  · exact isAscii_TAG c hc
  · exact h c (List.mem_of_mem_take hc)

theorem withNewline_frame {b : FrameBody} (h : IsAscii b.text) :
    (withNewline ((TAG_bytes ++ bytes b.text).take 1023)).flatten = bytes b.cut.line := by
  have hlast : ((TAG_bytes ++ bytes b.text).take 1023).getLast? ≠ some newline := by
    rw [take_line]
    intro hlast
    have hchar := getLast?_bytes (isAscii_line h) hlast
    exact newline_not_mem_line (b := b.cut) (List.mem_of_getLast? hchar)
  rw [withNewline, if_neg hlast, take_line]
  simp [FrameBody.line, FrameBody.cut, bytes]
  rfl

theorem printed_frames {frame_lines : List CText} {frames : List FrameBody}
    (hascii : ∀ b ∈ frames, IsAscii b.text)
    (h : (frame_lines.takeWhile fun l => 5 ≤ l.length) = frames.map fun b => bytes b.text) :
    (printed TAG_bytes frame_lines).flatten = bytes (nativeText (frames.map FrameBody.cut)) := by
  unfold printed
  rw [h]
  clear h
  induction frames with
  | nil => rfl
  | cons b frames ih =>
    rw [List.map_cons, List.flatMap_cons, List.flatten_append,
      ih fun b' hb' => hascii b' (List.mem_cons_of_mem _ hb'),
      withNewline_frame (hascii b List.mem_cons_self)]
    simp [nativeText, bytes]

theorem isAscii_nativeText {frames : List FrameBody} (hascii : ∀ b ∈ frames, IsAscii b.text) :
    IsAscii (nativeText (frames.map FrameBody.cut)) := by
  intro c hc
  obtain ⟨l, hl, hc⟩ := List.mem_flatMap.1 hc
  obtain ⟨b, hb, rfl⟩ := List.mem_map.1 hl
  rcases List.mem_append.1 hc with hc | hc
  · exact isAscii_line (hascii b hb) c hc
  · rw [List.mem_singleton.1 hc]
    decide

/-- What is recorded of a capture whose buffer can grow, with at least one frame printed and all of
them ASCII text: the frames up to the first of fewer than five characters, each cut to the line buffer,
prefixed, and filtered for itself. -/
theorem record4Jni_capture (strings : JniStrings) {u : Unwinding} (hinit : u.init_status = 0)
    (hgranted : ∀ n, u.realloc n = true) {frames : List FrameBody} (hne : frames ≠ [])
    (hascii : ∀ b ∈ frames, IsAscii b.text)
    (hframes : (u.backtrace.frame_lines.takeWhile fun l => 5 ≤ l.length) =
      frames.map fun b => bytes b.text) (sb : Text) (trace : List StackTraceElement) :
    record4Jni sb (strings.NewStringUTF TAG_bytes) (some trace)
        ((xunwind_cfi_get u TAG_bytes).map strings.NewStringUTF) =
      ⟨sb ++ frameText 0 trace ++ separator ++
        (frames.map FrameBody.cut).flatMap FrameBody.filtered, none⟩ := by
  have hstrs : ∀ s ∈ printed TAG_bytes u.backtrace.frame_lines, s ≠ [] :=
    fun s hs => ne_nil_of_mem_printed hs
  have hprinted := printed_frames hascii hframes
  have hcaptured : (xunwind_cfi_get u TAG_bytes).isSome = true := by
    refine xunwind_cfi_get_isSome.2 ⟨hinit, 0, List.length_pos_iff.2 fun hnil => ?_, hgranted 0⟩
    obtain ⟨b, frames, rfl⟩ := List.exists_cons_of_ne_nil hne
    rw [hnil] at hprinted
    simp [nativeText, FrameBody.line, bytes] at hprinted
  obtain ⟨text, htext⟩ := Option.isSome_iff_exists.1 hcaptured
  have hfold := foldl_append_granted xu_printer_init_get hgranted hstrs
  have hbuf : text = bytes (nativeText (frames.map FrameBody.cut)) := by
    unfold xunwind_cfi_get at htext
    rw [if_neg (not_not.2 hinit), xu_cfi_thread_eq] at htext
    rw [htext, hprinted] at hfold
    simpa [xu_printer_init_get] using hfold
  have hstring : strings.NewStringUTF text = nativeText (frames.map FrameBody.cut) := by
    rw [hbuf]
    exact strings.ascii _ (isAscii_nativeText hascii)
  rw [htext, Option.map_some, hstring, JniStrings.NewStringUTF_TAG, record4Jni, removeAll_nativeText]

/-- One frame of the hook library, then nothing. -/
def oneFrame : Unwinding where
  init_status := 0
  backtrace := .libbacktrace (some fun i => if i = 0 then bytes "#00 libyhook.so".toList else [])
  realloc _ := true

/-- The body of that frame. -/
def hookFrame : FrameBody where
  text := "#00 libyhook.so".toList
  oneLine := by
    have hall : ("#00 libyhook.so".toList.all fun c => !isLineTerminator c) = true := by decide
    intro c hc
    simpa only [Bool.not_eq_true'] using List.all_eq_true.1 hall c hc

theorem record4Jni_capture_oneFrame :
    record4Jni [] (byteStrings.NewStringUTF TAG_bytes) (some [])
      ((xunwind_cfi_get oneFrame TAG_bytes).map byteStrings.NewStringUTF) = ⟨separator, none⟩ := by
  have hframes : (oneFrame.backtrace.frame_lines.takeWhile fun l => 5 ≤ l.length) =
      [hookFrame].map fun b => bytes b.text := rfl
  have hascii : ∀ b ∈ [hookFrame], IsAscii b.text := by
    intro b hb
    rw [List.mem_singleton.1 hb]
    decide
  exact (record4Jni_capture byteStrings rfl (fun _ => rfl) (List.cons_ne_nil _ _) hascii hframes
    [] []).trans rfl

end ElfHook.Thread
