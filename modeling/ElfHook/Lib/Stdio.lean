import ElfHook.Lib.Lines

/-!
# Reading a text through a small buffer

`fgets` fills a buffer with at most one line. A line longer than the buffer comes in pieces, and only
the first of them is the beginning of a line.

* `fgetsAll_eq`: the first piece, and the pieces of what is left.
* `fgetsAll_flatMap`: the pieces of a text are those of its lines.
-/

namespace ElfHook.Lib

/-- At most `room` characters, up to the first newline; and what is left. -/
def readLine : Nat → List Char → List Char × List Char
  | 0, stream => ([], stream)
  | _ + 1, [] => ([], [])
  | room + 1, c :: stream =>
    if c = '\n' then ([c], stream)
    else (c :: (readLine room stream).1, (readLine room stream).2)

/-- One place of the buffer is for the terminator. -/
def fgets (size : Nat) (stream : List Char) : Option (List Char × List Char) :=
  if stream = [] then none else some (readLine (size - 1) stream)

/-- The buffers of at most `n` calls of `fgets`. -/
def fgetsUpTo (size : Nat) : Nat → List Char → List (List Char)
  | 0, _ => []
  | n + 1, stream =>
    match fgets size stream with
    | none => []
    | some r => r.1 :: fgetsUpTo size n r.2

/-- The buffers of all calls of `fgets`, up to the one that returns `NULL`. -/
def fgetsAll (size : Nat) (stream : List Char) : List (List Char) :=
  fgetsUpTo size stream.length stream

section Stdio

variable {size room : Nat} {stream l s : List Char}

theorem readLine_length_le (room : Nat) (stream : List Char) :
    (readLine room stream).2.length ≤ stream.length := by
  induction room generalizing stream with
  | zero => exact Nat.le_refl _
  | succ room ih =>
    cases stream with
    | nil => exact Nat.le_refl _
    | cons c stream =>
      rw [readLine, List.length_cons]
      split_ifs
      · exact Nat.le_succ _
      · exact Nat.le_succ_of_le (ih stream)

theorem readLine_length_lt (hroom : room ≠ 0) (hstream : stream ≠ []) :
    (readLine room stream).2.length < stream.length := by
  obtain ⟨room, rfl⟩ := Nat.exists_eq_succ_of_ne_zero hroom
  obtain ⟨c, stream, rfl⟩ := List.exists_cons_of_ne_nil hstream
  rw [readLine, List.length_cons]
  split_ifs
  · exact Nat.lt_succ_self _
  · exact Nat.lt_succ_of_le (readLine_length_le room stream)

/-- Calls beyond the end of the stream fill no buffer. -/
theorem fgetsUpTo_eq (hsize : 2 ≤ size) {n m : Nat} (hn : stream.length ≤ n)
    (hm : stream.length ≤ m) : fgetsUpTo size n stream = fgetsUpTo size m stream := by
  induction n generalizing m stream with
  | zero =>
    obtain rfl := List.eq_nil_of_length_eq_zero (Nat.le_zero.1 hn)
    cases m <;> rfl
  | succ n ih =>
    cases m with
    | zero =>
      obtain rfl := List.eq_nil_of_length_eq_zero (Nat.le_zero.1 hm)
      rfl
    | succ m =>
      by_cases hnil : stream = []
      · simp [fgetsUpTo, fgets, hnil]
      · have hlt := readLine_length_lt (show size - 1 ≠ 0 by omega) hnil
        simp only [fgetsUpTo, fgets, if_neg hnil]
        rw [ih (m := m) (by omega) (by omega)]

theorem fgetsAll_nil : fgetsAll size [] = [] := rfl

theorem fgetsAll_eq (hsize : 2 ≤ size) (hstream : stream ≠ []) :
    fgetsAll size stream = (readLine (size - 1) stream).1 ::
      fgetsAll size (readLine (size - 1) stream).2 := by
  have hlt := readLine_length_lt (show size - 1 ≠ 0 by omega) hstream
  obtain ⟨n, hn⟩ : ∃ n, stream.length = n + 1 :=
    Nat.exists_eq_succ_of_ne_zero fun h => hstream (List.eq_nil_of_length_eq_zero h)
  rw [fgetsAll, hn]
  simp only [fgetsUpTo, fgets, if_neg hstream]
  rw [fgetsAll, fgetsUpTo_eq hsize (by omega) (Nat.le_refl _)]

/-! ### Lines -/

/-- What is left of a line is nothing or the end of a line. -/
theorem terminated_drop (h : Terminated '\n' l) (n : Nat) :
    l.drop n = [] ∨ Terminated '\n' (l.drop n) := by
  obtain ⟨x, rfl, hx⟩ := h
  rcases Nat.lt_or_ge x.length n with hlt | hle
  · refine Or.inl (List.drop_eq_nil_of_le ?_)
    rw [List.length_append, List.length_singleton]
    exact hlt
  · exact Or.inr ⟨x.drop n, by rw [List.drop_append_of_le_length hle],
      fun hmem => hx (List.mem_of_mem_drop hmem)⟩

/-- A line is read up to its end, or as far as there is room. -/
theorem readLine_append (h : Terminated '\n' l) (room : Nat) (s : List Char) :
    readLine room (l ++ s) = (l.take room, l.drop room ++ s) := by
  obtain ⟨x, rfl, hx⟩ := h
  induction x generalizing room with
  | nil => cases room <;> simp [readLine]
  | cons c x ih =>
    cases room with
    | zero => simp [readLine]
    | succ room =>
      have hc : c ≠ '\n' := fun hc => hx (hc ▸ List.mem_cons_self)
      have htail := ih room fun hmem => hx (List.mem_cons_of_mem _ hmem)
      simp only [List.cons_append, readLine, if_neg hc, htail, List.take_succ_cons,
        List.drop_succ_cons]

theorem fgetsAll_line (hsize : 2 ≤ size) (h : Terminated '\n' l) :
    fgetsAll size l = l.take (size - 1) :: fgetsAll size (l.drop (size - 1)) := by
  have hread := readLine_append h (size - 1) []
  rw [List.append_nil, List.append_nil] at hread
  rw [fgetsAll_eq hsize h.ne_nil, hread]

theorem fgetsAll_append (hsize : 2 ≤ size) (h : l = [] ∨ Terminated '\n' l) (s : List Char) :
    fgetsAll size (l ++ s) = fgetsAll size l ++ fgetsAll size s := by
  induction hlen : l.length using Nat.strongRecOn generalizing l with
  | ind n ih =>
    rcases h with rfl | h
    · rfl
    · have hpos : 0 < l.length := List.length_pos_iff.2 h.ne_nil
      have hne : l ++ s ≠ [] := fun hnil => h.ne_nil (List.append_eq_nil_iff.1 hnil).1
      have hshort : (l.drop (size - 1)).length < n := by
        rw [List.length_drop]
        omega
      rw [fgetsAll_eq hsize hne, readLine_append h, fgetsAll_line hsize h,
        ih _ hshort (terminated_drop h _) rfl, List.cons_append]

/-- The `i`-th piece of a line. -/
theorem fgetsAll_getElem? (hsize : 2 ≤ size) (h : l = [] ∨ Terminated '\n' l) (i : Nat) :
    (fgetsAll size l)[i]? =
      if (size - 1) * i < l.length then some ((l.drop ((size - 1) * i)).take (size - 1)) else none := by
  induction i generalizing l with
  | zero =>
    rcases h with rfl | h
    · rfl
    · have hpos : 0 < l.length := List.length_pos_iff.2 h.ne_nil
      rw [fgetsAll_line hsize h, Nat.mul_zero, if_pos hpos]
      rfl
  | succ i ih =>
    rcases h with rfl | h
    · rfl
    · have hlt : (size - 1) * i < (l.drop (size - 1)).length ↔ (size - 1) * (i + 1) < l.length := by
        rw [List.length_drop, Nat.mul_succ]
        omega
      rw [fgetsAll_line hsize h, List.getElem?_cons_succ, ih (terminated_drop h _), List.drop_drop,
        Nat.mul_succ, Nat.add_comm]
      simp only [hlt, Nat.mul_succ]

/-- The pieces of a text are those of its lines, one line after the other. -/
theorem fgetsAll_flatMap {α : Type*} {f : α → List Char} {xs : List α} (hsize : 2 ≤ size)
    (h : ∀ x ∈ xs, Terminated '\n' (f x)) :
    fgetsAll size (xs.flatMap f) = xs.flatMap fun x => fgetsAll size (f x) := by
  induction xs with
  | nil => rfl
  | cons x xs ih =>
    rw [List.flatMap_cons, List.flatMap_cons,
      fgetsAll_append hsize (Or.inr (h x List.mem_cons_self)),
      ih fun y hy => h y (List.mem_cons_of_mem _ hy)]

/-- A line for which there is room comes in one piece. -/
theorem fgetsAll_of_short (hsize : 2 ≤ size) (h : Terminated '\n' l) (hlen : l.length < size) :
    fgetsAll size l = [l] := by
  rw [fgetsAll_line hsize h, List.take_of_length_le (by omega), List.drop_of_length_le (by omega),
    fgetsAll_nil]

theorem fgetsAll_flatMap_of_short {α : Type*} {f : α → List Char} {xs : List α} (hsize : 2 ≤ size)
    (h : ∀ x ∈ xs, Terminated '\n' (f x)) (hlen : ∀ x ∈ xs, (f x).length < size) :
    fgetsAll size (xs.flatMap f) = xs.map f := by
  rw [fgetsAll_flatMap hsize h, List.map_eq_flatMap]
  exact List.flatMap_congr fun x hx => fgetsAll_of_short hsize (h x hx) (hlen x hx)

end Stdio

end ElfHook.Lib
