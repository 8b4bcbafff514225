import Mathlib.Data.List.Infix
import Mathlib.Data.List.TakeWhile
import Mathlib.Data.Nat.Digits.Defs

/-!
# C strings

A `Char` stands for one `char`. A buffer is a list of them; the string in it ends before its first
NUL, and one that has none is followed by its terminator.

* `strstr_isSome`, `strstr_singleton`: the search of a string, and of one character.
* `cstring_set`: a NUL written into a string cuts it there.
* `strtok_append_cons`: the token before a delimiter.
* `strtoul_hex`, `strtoul_numeralText`: the number of a text after `0x`, and of one without it.
-/

namespace ElfHook.Lib

/-- The string in a buffer. -/
def cstring (buf : List Char) : List Char := buf.takeWhile (· ≠ '\x00')

/-- The index of the first occurrence. -/
def strstr (needle : List Char) : List Char → Option Nat
  | [] => if needle = [] then some 0 else none
  | c :: s => if needle <+: c :: s then some 0 else (strstr needle s).map (· + 1)

/-- The token of the first call: up to the first delimiter that does not lead the string. -/
def strtok (delim s : List Char) : Option (List Char) :=
  let token := s.dropWhile (· ∈ delim)
  if token = [] then none else some (token.takeWhile (· ∉ delim))

section Strings

variable {needle s buf : List Char} {c : Char}

theorem strstr_isSome : (strstr needle s).isSome = true ↔ needle <:+: s := by
  induction s with
  | nil =>
    rw [strstr, List.infix_nil]
    split_ifs with h <;> simp [h]
  | cons c s ih =>
    rw [strstr, List.infix_cons_iff]
    split_ifs with h
    · simp [h]
    · simp [h, ih]

theorem strstr_singleton (h : c ∈ s) : strstr [c] s = some (s.takeWhile (· ≠ c)).length := by
  induction s with
  | nil => cases h
  | cons d s ih =>
    rw [strstr]
    by_cases hcd : c = d
    · simp [hcd]
    · have hmem : c ∈ s := (List.mem_cons.1 h).resolve_left hcd
      simp [hcd, Ne.symm hcd, ih hmem]

theorem cstring_set {i : Nat} (h : i ≤ (cstring buf).length) :
    cstring (buf.set i '\x00') = (cstring buf).take i := by
  induction buf generalizing i with
  | nil => simp [cstring]
  | cons c buf ih =>
    cases i with
    | zero => simp [cstring]
    | succ i =>
      by_cases hc : c = '\x00'
      · simp [cstring, hc] at h
      · have hcons : ∀ t, cstring (c :: t) = c :: cstring t := fun t => by simp [cstring, hc]
        rw [hcons, List.length_cons] at h
        rw [List.set_cons_succ, hcons, hcons, List.take_succ_cons, ih (Nat.le_of_succ_le_succ h)]

theorem cstring_of_not_mem (h : '\x00' ∉ buf) : cstring buf = buf := by
  refine List.takeWhile_eq_self_iff.2 fun c hc => ?_
  simpa using fun heq : c = '\x00' => h (heq ▸ hc)

theorem cstring_append_cons {a b : List Char} (ha : '\x00' ∉ a) (hc : c ≠ '\x00') :
    cstring (a ++ c :: b) = a ++ c :: cstring b := by
  rw [cstring, List.takeWhile_append_of_pos fun d hd => by
    simpa using fun heq : d = '\x00' => ha (heq ▸ hd)]
  simp [cstring, hc]

theorem strtok_append_cons {token rest : List Char} (hnil : token ≠ []) (hc : c ∉ token) :
    strtok [c] (token ++ c :: rest) = some token := by
  obtain ⟨d, token, rfl⟩ := List.exists_cons_of_ne_nil hnil
  have hd : d ≠ c := fun heq => hc (heq ▸ List.mem_cons_self)
  have hstart : (d :: token ++ c :: rest).dropWhile (· ∈ [c]) = d :: token ++ c :: rest := by
    simp [hd]
  have hend : (d :: token ++ c :: rest).takeWhile (· ∉ [c]) = d :: token := by
    rw [List.takeWhile_append_of_pos fun e he => by
      simpa using fun heq : e = c => hc (heq ▸ he)]
    simp
  simp only [strtok, hstart, hend]
  simp

/-- A text with a separator in it contains what one of its parts contains. -/
theorem infix_append_cons_iff {a b : List Char} (h : c ∉ needle) :
    needle <:+: a ++ c :: b ↔ needle <:+: a ∨ needle <:+: b := by
  constructor
  · rintro ⟨s, t, heq⟩
    rcases List.append_eq_append_iff.1 heq with ⟨x, rfl, -⟩ | ⟨x, hx, hb⟩
    · exact Or.inl ⟨s, x, rfl⟩
    · cases x with
      | nil => exact Or.inl ⟨s, [], by simpa using hx⟩
      | cons d x =>
        obtain ⟨rfl, rfl⟩ := List.cons.inj hb
        rcases List.append_eq_append_iff.1 hx with ⟨y, -, hneedle⟩ | ⟨y, -, hneedle⟩
        · exact absurd (hneedle ▸ List.mem_append_right _ List.mem_cons_self) h
        · cases y with
          | nil => exact absurd ((List.nil_append needle ▸ hneedle) ▸ List.mem_cons_self) h
          | cons e y =>
            obtain ⟨-, rfl⟩ := List.cons.inj hneedle
            exact Or.inr ⟨y, t, rfl⟩
  · rintro (ha | hb)
    · exact ha.trans (List.prefix_append _ _).isInfix
    · exact hb.trans ((List.suffix_cons _ _).trans (List.suffix_append _ _)).isInfix

theorem not_infix_of_not_mem (hc : c ∈ needle) (hs : c ∉ s) : ¬ needle <:+: s :=
  fun h => hs (h.subset hc)

end Strings

/-! ### Numbers -/

def isspace (c : Char) : Bool :=
  c == ' ' || c == '\t' || c == '\n' || c == '\x0b' || c == '\x0c' || c == '\r'

def digitOf (c : Char) : Option Nat :=
  if '0' ≤ c ∧ c ≤ '9' then some (c.toNat - '0'.toNat)
  else if 'a' ≤ c ∧ c ≤ 'z' then some (c.toNat - 'a'.toNat + 10)
  else if 'A' ≤ c ∧ c ≤ 'Z' then some (c.toNat - 'A'.toNat + 10)
  else none

def leadingDigits (base : Nat) : List Char → List Nat
  | [] => []
  | c :: s =>
    match digitOf c with
    | some d => if d < base then d :: leadingDigits base s else []
    | none => []

/-- The number that the digits at the beginning of `s` make. -/
def numeral (base : Nat) (s : List Char) : Nat := Nat.ofDigits base (leadingDigits base s).reverse

/-- The base to read in, and the text without its prefix. -/
def basePrefix (base : Nat) (s : List Char) : Nat × List Char :=
  match s with
  | '0' :: x :: rest =>
    if (x = 'x' ∨ x = 'X') ∧ (base = 0 ∨ base = 16) ∧ leadingDigits 16 rest ≠ [] then (16, rest)
    else if base = 0 then (8, s) else (base, s)
  | '0' :: _ => if base = 0 then (8, s) else (base, s)
  | _ => if base = 0 then (10, s) else (base, s)

def skipSign : List Char → List Char
  | '-' :: s => s
  | '+' :: s => s
  | s => s

def strtoul (ULONG_MAX : Nat) (nptr : List Char) (base : Nat) : Nat :=
  let s := nptr.dropWhile isspace
  let r := basePrefix base (skipSign s)
  let n := numeral r.1 r.2
  if ULONG_MAX < n then ULONG_MAX
  else if s.head? = some '-' then (ULONG_MAX + 1 - n) % (ULONG_MAX + 1)
  else n

/-- Digits as `printf` writes them. -/
def numeralText {b : Nat} (ds : List (Fin b)) : List Char := ds.map fun d => Nat.digitChar d.val

section Numbers

/-- After `0x` the digits are read in base 16; without any, the zero is read in base 8. -/
theorem numeral_basePrefix (s : List Char) :
    numeral (basePrefix 0 ('0' :: 'x' :: s)).1 (basePrefix 0 ('0' :: 'x' :: s)).2 =
      numeral 16 s := by
  by_cases hdigits : leadingDigits 16 s = []
  · have hpre : basePrefix 0 ('0' :: 'x' :: s) = (8, '0' :: 'x' :: s) := by
      simp [basePrefix, hdigits]
    rw [hpre]
    simp [numeral, leadingDigits, digitOf, hdigits]
  · have hpre : basePrefix 0 ('0' :: 'x' :: s) = (16, s) := by simp [basePrefix, hdigits]
    rw [hpre]

/-- A number ends before any character that is no digit. -/
theorem numeral_takeWhile {base : Nat} {c : Char} {s : List Char} (hc : digitOf c = none) :
    numeral base (s.takeWhile (· ≠ c)) = numeral base s := by
  have hdigits : leadingDigits base (s.takeWhile (· ≠ c)) = leadingDigits base s := by
    induction s with
    | nil => rfl
    | cons d s ih =>
      by_cases hd : d = c
      · simp [hd, leadingDigits, hc]
      · rw [List.takeWhile_cons_of_pos (by simpa using hd), leadingDigits, leadingDigits, ih]
  rw [numeral, hdigits, numeral]

theorem strtoul_hex (ULONG_MAX : Nat) (s : List Char) :
    strtoul ULONG_MAX ('0' :: 'x' :: s) 0 = min (numeral 16 s) ULONG_MAX := by
  have hspace : ('0' :: 'x' :: s).dropWhile isspace = '0' :: 'x' :: s := by simp [isspace]
  have hsign : skipSign ('0' :: 'x' :: s) = '0' :: 'x' :: s := by simp [skipSign]
  have hpositive : ¬ ('0' :: 'x' :: s).head? = some '-' := by simp
  simp only [strtoul, hspace, hsign, numeral_basePrefix, if_neg hpositive]
  split_ifs <;> omega

theorem skipSign_of_not_mem {s : List Char} (hminus : '-' ∉ s) (hplus : '+' ∉ s) :
    skipSign s = s := by
  unfold skipSign
  split <;> simp_all

/-- Without an `x` there is no prefix. -/
theorem basePrefix_sixteen {s : List Char} (hx : 'x' ∉ s) (hX : 'X' ∉ s) :
    basePrefix 16 s = (16, s) := by
  unfold basePrefix
  split
  case h_1 mark rest =>
    have hmark : ¬ (mark = 'x' ∨ mark = 'X') := by
      rintro (rfl | rfl)
      · exact hx (by simp)
      · exact hX (by simp)
    simp [hmark]
  all_goals simp

theorem digitOf_digitChar : ∀ d < 16, digitOf (Nat.digitChar d) = some d := by decide

theorem digitOf_lt_of_mem {b : Nat} {ds : List (Fin b)} {c : Char} (hb : b ≤ 16)
    (hc : c ∈ numeralText ds) : ∃ d < 16, digitOf c = some d := by
  obtain ⟨d, -, rfl⟩ := List.mem_map.1 hc
  have hd : d.val < 16 := Nat.lt_of_lt_of_le d.isLt hb
  exact ⟨d, hd, digitOf_digitChar d hd⟩

theorem not_mem_numeralText {b : Nat} {ds : List (Fin b)} {c : Char} (hb : b ≤ 16)
    (hc : ∀ d < 16, digitOf c ≠ some d) : c ∉ numeralText ds := by
  intro hmem
  obtain ⟨d, hd, heq⟩ := digitOf_lt_of_mem hb hmem
  exact hc d hd heq

theorem isspace_digitChar : ∀ d < 16, isspace (Nat.digitChar d) = false := by decide

/-- Hexadecimal digits, read in base 16 without a prefix. -/
theorem strtoul_numeralText (ULONG_MAX : Nat) (ds : List (Fin 16)) :
    strtoul ULONG_MAX (numeralText ds) 16 = min (numeral 16 (numeralText ds)) ULONG_MAX := by
  have hother : ∀ {c : Char}, (∀ d < 16, digitOf c ≠ some d) → c ∉ numeralText ds :=
    fun hc => not_mem_numeralText (Nat.le_refl _) hc
  have hminus := hother (c := '-') (by decide)
  have hspace : (numeralText ds).dropWhile isspace = numeralText ds := by
    cases ds with
    | nil => rfl
    | cons d ds => simp [numeralText, isspace_digitChar d d.isLt]
  have hsign := skipSign_of_not_mem hminus (hother (c := '+') (by decide))
  have hpre := basePrefix_sixteen (hother (c := 'x') (by decide)) (hother (c := 'X') (by decide))
  have hpositive : ¬ (numeralText ds).head? = some '-' :=
    fun hhead => hminus (List.mem_of_head? hhead)
  simp only [strtoul, hspace, hsign, hpre, if_neg hpositive]
  split_ifs <;> omega

theorem numeral_numeralText (ds : List (Fin 16)) :
    numeral 16 (numeralText ds) = Nat.ofDigits 16 (ds.map Fin.val).reverse := by
  have hdigits : leadingDigits 16 (numeralText ds) = ds.map Fin.val := by
    induction ds with
    | nil => rfl
    | cons d ds ih =>
      have hd := digitOf_digitChar d d.isLt
      have ih : leadingDigits 16 (ds.map fun d => Nat.digitChar d.val) = ds.map Fin.val := ih
      simp [numeralText, leadingDigits, hd, ih]
  rw [numeral, hdigits]

end Numbers

end ElfHook.Lib
