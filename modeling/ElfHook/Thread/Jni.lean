import Mathlib.Tactic.SplitIfs
import ElfHook.Thread.Record

/-!
# JNI

* `getJNIEnv`: the three-way status, from the answers of the virtual machine.
* `JniStrings`: the Java strings that `NewStringUTF` makes of C strings.
-/

namespace ElfHook.Thread

/-! ### `getJNIEnv` -/

def JNI_OK : Int := 0

def JNI_EDETACHED : Int := -2

/-- `GET_JNI_ENV_STATUS_NORMAL`, `GET_JNI_ENV_STATUS_NEED_DETACH` and `GET_JNI_ENV_STATUS_ERROR`. -/
inductive JniEnvStatus where
  | normal
  | needDetach
  | error
  deriving DecidableEq

/-- The results of `GetEnv` and, if it comes to it, of `AttachCurrentThread`. -/
structure EnvAnswer where
  getEnvStat : Int
  status : Int
  deriving DecidableEq

def getJNIEnv (a : EnvAnswer) : JniEnvStatus :=
  if a.getEnvStat = JNI_EDETACHED then
    if a.status = 0 then .needDetach else .error
  else if a.getEnvStat = JNI_OK then .normal
  else .error

/-- `GetEnv` says `JNI_OK` on attached threads only, and `JNI_EDETACHED` on detached threads only;
any other error can come on both. -/
def GetEnvAnswers (attached : Bool) (getEnvStat : Int) : Prop :=
  (getEnvStat = JNI_OK → attached = true) ∧ (getEnvStat = JNI_EDETACHED → attached = false)

instance (attached : Bool) (getEnvStat : Int) : Decidable (GetEnvAnswers attached getEnvStat) :=
  inferInstanceAs (Decidable (_ ∧ _))

/-! ### Strings -/

/-- A C string: the bytes before its terminator. -/
abbrev CText := List UInt8

def IsAscii (text : Text) : Prop := ∀ c ∈ text, c.toNat < 128

instance (text : Text) : Decidable (IsAscii text) :=
  List.decidableBAll (fun c : Char => c.toNat < 128) text

/-- The C string of an ASCII text. -/
def bytes (text : Text) : CText := text.map Char.toUInt8

/-- `NewStringUTF` takes an ASCII text as it is; what it makes of other bytes is left to the machine. -/
structure JniStrings where
  NewStringUTF : CText → Text
  ascii : ∀ text, IsAscii text → NewStringUTF (bytes text) = text

/-- The prefix of the lines, as `thread_create_proxy` passes it. -/
def TAG_bytes : CText := bytes TAG

theorem isAscii_TAG : IsAscii TAG := by decide

@[simp] theorem JniStrings.NewStringUTF_TAG (strings : JniStrings) :
    strings.NewStringUTF TAG_bytes = TAG :=
  strings.ascii TAG isAscii_TAG

/-- Every byte as one character. -/
def byteStrings : JniStrings where
  NewStringUTF text := text.map fun b => Char.ofNat b.toNat
  ascii := by
    intro text h
    rw [bytes, List.map_map]
    refine (List.map_congr_left fun c hc => ?_).trans (List.map_id text)
    have hbyte : c.toUInt8.toNat = c.toNat :=
      Nat.mod_eq_of_lt (Nat.lt_trans (h c hc) (by decide))
    rw [Function.comp_apply, hbyte, Char.ofNat_toNat]
    rfl

end ElfHook.Thread
