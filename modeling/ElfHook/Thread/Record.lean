import ElfHook.Lib.Regex

/-!
# `Thread4StartStack.record4Jni`

The text recorded for a thread: the Java frames of the thread that created it, a separator, and the
native stack without the lines that the filter's pattern matches.
-/

namespace ElfHook.Thread

open Lib

abbrev Text := List Char

/-- The prefix that `xunwind_cfi_get` puts before each line, and the tag that `record4Jni` gets. -/
def TAG : Text := "TAGT".toList

structure StackTraceElement where
  getClassName : Text
  getMethodName : Text
  toString : Text
  deriving DecidableEq

inductive JavaException where
  | NullPointerException
  deriving DecidableEq

/-! ### The filter -/

/-- The characters that `.` does not match. -/
def isLineTerminator (c : Char) : Bool :=
  c == '\n' || c == '\r' || c == '\u0085' || c == '\u2028' || c == '\u2029'

/-- The class `.`. -/
def dot (c : Char) : Bool := !isLineTerminator c

/-- `libyhook.so` as a part of a pattern: its dot is the class `.`. -/
def yhookClasses : List (Char → Bool) :=
  ['l', 'i', 'b', 'y', 'h', 'o', 'o', 'k'].map (fun a b => a == b) ++
    dot :: ['s', 'o'].map (fun a b => a == b)

/-- `".+libyhook.so[^" + tag + "]+"`, for a tag of letters. -/
def filterPattern (tag : Text) : List (Atom Char) :=
  .plus dot :: (yhookClasses.map .one ++ [.plus fun c => !tag.contains c])

/-! ### The recorded text -/

/-- The loop over the trace, which leaves out the two frames of `getStackTrace` itself. -/
def frameText : Nat → List StackTraceElement → Text
  | _, [] => []
  | index, ste :: stackTraceElements =>
    if index + 1 = 1 ∧ "dalvik.system.VMStack".toList = ste.getClassName then
      frameText (index + 1) stackTraceElements
    else if index + 1 = 2 ∧ "java.lang.Thread".toList = ste.getClassName ∧
        "getStackTrace".toList = ste.getMethodName then
      frameText (index + 1) stackTraceElements
    else
      ste.toString ++ '\n' :: frameText (index + 1) stackTraceElements

/-- What a call of `record4Jni` leaves: the thread's builder, and the exception thrown. The builder
is put into `STACK_MAP` when there is none. -/
structure RecordResult where
  sb : Text
  thrown : Option JavaException
  deriving DecidableEq

def separator : Text := "---native---\n".toList

/-- `record4Jni` with the builder that `STACK_LOCAL` holds for the thread, which is never `null`;
`none` is `null`. -/
def record4Jni (sb tag : Text) (stackTraceElements : Option (List StackTraceElement))
    (nativeStack : Option Text) : RecordResult :=
  match stackTraceElements with
  | none => ⟨sb, some .NullPointerException⟩
  | some trace =>
    match nativeStack with
    -- the receiver of `replaceAll` is null, after the appends before it
    | none => ⟨sb ++ frameText 0 trace ++ separator, some .NullPointerException⟩
    | some text => ⟨sb ++ frameText 0 trace ++ separator ++ removeAll (filterPattern tag) text, none⟩

theorem record4Jni_thrown_eq_none {sb tag : Text} {trace : Option (List StackTraceElement)}
    {nativeStack : Option Text} :
    (record4Jni sb tag trace nativeStack).thrown = none ↔
      trace.isSome = true ∧ nativeStack.isSome = true := by
  cases trace <;> cases nativeStack <;> simp [record4Jni]

end ElfHook.Thread
