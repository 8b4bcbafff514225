import Mathlib.Data.List.Infix
import Mathlib.Data.List.TakeWhile
import ElfHook.Lib.Lines
import ElfHook.Thread.Record

/-!
# What the filter removes

`record4Jni` means to leave out the lines of the native stack that name `libyhook.so`. Its pattern
has a class for the dot and takes the letters of the tag as a class: a run of other characters after
the name ends at the next line's prefix, but also at any `T`, `A` or `G` before it.

* `record4Jni_filter_iff`: the text appended is the text of the lines that do not name the library,
  if and only if each line is `Exact`.
* `not_record4Jni_filter`: a symbol with a `T` in it.
-/

namespace ElfHook.Thread

open Lib

/-- A line of the native stack between its prefix and its newline. -/
structure FrameBody where
  text : Text
  oneLine : ∀ c ∈ text, isLineTerminator c = false

/-- The line as `xunwind_cfi_get` prints it. -/
def FrameBody.line (b : FrameBody) : Text := TAG ++ b.text ++ ['\n']

def nativeText (bodies : List FrameBody) : Text := bodies.flatMap FrameBody.line

/-- The body names the hook library. -/
def FrameBody.NamesYhook (b : FrameBody) : Prop := "libyhook.so".toList <:+: b.text

instance (b : FrameBody) : Decidable b.NamesYhook :=
  inferInstanceAs (Decidable (_ <:+: _))

/-- The lines that do not name the hook library. -/
def foreignText (bodies : List FrameBody) : Text :=
  nativeText (bodies.filter fun b => ¬ b.NamesYhook)

/-- The body has the name, its dot being any character, and no letter of the tag after it. -/
def FrameBody.Cleared (b : FrameBody) : Prop :=
  ∃ u q v, b.text = u ++ q ++ v ∧ Spells yhookClasses q ∧ ∀ c ∈ v, c ∉ TAG

/-- The pattern is exact on the body: if the body names the library, it is cleared; if it does not,
each such name in it, with any character for the dot, is followed at once by a letter of the tag. -/
def FrameBody.Exact (b : FrameBody) : Prop :=
  (b.NamesYhook → b.Cleared) ∧
    (¬ b.NamesYhook → ∀ u q v, b.text = u ++ q ++ v → Spells yhookClasses q →
      ∃ c ∈ v.head?, c ∈ TAG)

/-! ### Occurrences in one line -/

/-- The name, its dot being any character, followed by no letter of the tag. -/
def Occurs (x : Text) : Prop :=
  ∃ u q z, x = u ++ q ++ z ∧ Spells yhookClasses q ∧ ∀ c ∈ z.head?, c ∉ TAG

/-- The class of the characters that are no letters of the tag. -/
def notTag (c : Char) : Bool := !TAG.contains c

theorem notTag_iff {c : Char} : notTag c = true ↔ c ∉ TAG := by
  simp [notTag]

theorem filterPattern_TAG :
    filterPattern TAG = .plus dot :: (yhookClasses.map .one ++ [.plus notTag]) := rfl

theorem dot_iff {c : Char} : dot c = true ↔ isLineTerminator c = false := by
  simp [dot]

theorem spells_cons {q : Text} (h : Spells yhookClasses q) : ∃ q', q = 'l' :: q' := by
  obtain ⟨x, q', hx, -, rfl⟩ := List.forall₂_cons_left_iff.1 h
  have hl : 'l' = x := by simpa using hx
  exact ⟨q', by rw [← hl]⟩

theorem dot_of_mem_spells {q : Text} (h : Spells yhookClasses q) : ∀ c ∈ q, dot c = true := by
  have hclass : ∀ p ∈ yhookClasses, ∀ c, p c = true → dot c = true := by
    intro p hp c hc
    rw [yhookClasses, List.mem_append, List.mem_cons, List.mem_map, List.mem_map] at hp
    rcases hp with ⟨a, ha, rfl⟩ | rfl | ⟨a, ha, rfl⟩
    · obtain rfl : a = c := by simpa using hc
      have hall : ['l', 'i', 'b', 'y', 'h', 'o', 'o', 'k'].all dot = true := by decide
      exact List.all_eq_true.1 hall a ha
    · exact hc
    · obtain rfl : a = c := by simpa using hc
      have hall : ['s', 'o'].all dot = true := by decide
      exact List.all_eq_true.1 hall a ha
  generalize yhookClasses = classes at h hclass
  induction h with
  | nil => simp
  | cons hx _ ih =>
    intro c hc
    rcases List.mem_cons.1 hc with rfl | hc
    · exact hclass _ List.mem_cons_self _ hx
    · exact ih (fun p hp => hclass p (List.mem_cons_of_mem _ hp)) c hc

theorem Occurs.append {x : Text} (h : Occurs x) (y : Text) : Occurs (y ++ x) := by
  obtain ⟨u, q, z, rfl, hq, hz⟩ := h
  exact ⟨y ++ u, q, z, by simp, hq, hz⟩

theorem not_occurs_nil : ¬ Occurs [] := by
  rintro ⟨u, q, z, h, hq, -⟩
  obtain ⟨q', rfl⟩ := spells_cons hq
  simp at h

/-- The prefix of the line is no part of a name. -/
theorem occurrence_in_body {b u q z : Text} (hq : Spells yhookClasses q)
    (h : TAG ++ b = u ++ q ++ z) : ∃ u', u = TAG ++ u' ∧ b = u' ++ q ++ z := by
  obtain ⟨q', rfl⟩ := spells_cons hq
  rw [List.append_assoc] at h
  rcases List.append_eq_append_iff.1 h with ⟨u', rfl, hb⟩ | ⟨c, htag, hc⟩
  · exact ⟨u', rfl, by rw [hb, List.append_assoc]⟩
  · cases c with
    | nil => exact ⟨[], by simpa using htag.symm, by simpa using hc.symm⟩
    | cons a c =>
      -- the first letter of the name is none of the tag's
      have ha : a ∈ TAG := by rw [htag]; simp
      obtain ⟨rfl, -⟩ := List.cons.inj hc
      exact absurd ha (by decide)

theorem occurs_body {b : Text} : Occurs (TAG ++ b) ↔ Occurs b := by
  constructor
  · rintro ⟨u, q, z, h, hq, hz⟩
    obtain ⟨u', -, hb⟩ := occurrence_in_body hq h
    exact ⟨u', q, z, hb, hq, hz⟩
  · exact fun h => h.append TAG

/-- The last occurrence in the line. -/
theorem Occurs.exists_last {x : Text} (h : Occurs x) : ∃ u q z, x = u ++ q ++ z ∧
    Spells yhookClasses q ∧ (∀ c ∈ z.head?, c ∉ TAG) ∧ ¬ Occurs (q ++ z).tail := by
  induction x with
  | nil => exact absurd h not_occurs_nil
  | cons a x ih =>
    by_cases htail : Occurs x
    · obtain ⟨u, q, z, rfl, hq, hz, hlast⟩ := ih htail
      exact ⟨a :: u, q, z, rfl, hq, hz, hlast⟩
    · obtain ⟨u, q, z, hx, hq, hz⟩ := h
      cases u with
      | nil => exact ⟨[], q, z, hx, hq, hz, by rwa [show q ++ z = a :: x from hx.symm]⟩
      | cons b u =>
        obtain ⟨-, rfl⟩ := List.cons.inj hx
        exact absurd ⟨u, q, z, rfl, hq, hz⟩ htail

/-! ### The matcher on one line -/

section Line

variable {x u : Text} (next : Text)

/-- A match of the pattern after the leading run is an occurrence in the same line. -/
theorem occurrence_of_mem_rests {next r t : Text} (hu : ∀ c ∈ u, dot c = true)
    (h : x ++ '\n' :: next = u ++ r)
    (ht : t ∈ rests (yhookClasses.map .one ++ [.plus notTag]) r) :
    ∃ q z, x = u ++ q ++ z ∧ Spells yhookClasses q ∧ ∀ c ∈ z.head?, c ∉ TAG := by
  obtain ⟨q, r, hq, rfl, hmem⟩ := mem_rests_ones.1 ht
  obtain ⟨v, r, hv, hvall, rfl, -⟩ := mem_rests_plus.1 hmem
  rw [← List.append_assoc] at h
  rcases List.append_eq_append_iff.1 h with ⟨c, huq, hc⟩ | ⟨z, rfl, hz⟩
  · cases c with
    | nil =>
      refine ⟨q, [], by simpa using huq.symm, hq, by simp⟩
    | cons a c =>
      -- the run and the name do not reach the newline
      obtain ⟨rfl, -⟩ := List.cons.inj hc
      have hmem : '\n' ∈ u ++ q := by rw [huq]; simp
      rcases List.mem_append.1 hmem with hmem | hmem
      · exact absurd (hu _ hmem) (by decide)
      · exact absurd (dot_of_mem_spells hq _ hmem) (by decide)
  · refine ⟨q, z, rfl, hq, ?_⟩
    intro c hc
    cases z with
    | nil => simp at hc
    | cons a z =>
      obtain rfl : a = c := by simpa using hc
      cases v with
      | nil => exact absurd rfl hv
      | cons b v =>
        obtain ⟨rfl, -⟩ := List.cons.inj hz
        exact notTag_iff.1 (hvall _ List.mem_cons_self)

theorem rests_eq_nil_of_not_occurs (h : ¬ Occurs x) :
    rests (filterPattern TAG) (x ++ '\n' :: next) = [] := by
  refine List.eq_nil_iff_forall_not_mem.2 fun t ht => h ?_
  rw [filterPattern_TAG] at ht
  obtain ⟨u, r, -, hu, hsplit, hmem⟩ := mem_rests_plus.1 ht
  obtain ⟨q, z, hx, hq, hz⟩ := occurrence_of_mem_rests hu hsplit hmem
  exact ⟨u, q, z, hx, hq, hz⟩

/-- A line without an occurrence is kept. -/
theorem removeAll_of_not_occurs (h : ¬ Occurs x) :
    removeAll (filterPattern TAG) (x ++ '\n' :: next) =
      x ++ '\n' :: removeAll (filterPattern TAG) next := by
  have hkeep : removeAll (filterPattern TAG) ((x ++ ['\n']) ++ next) =
      (x ++ ['\n']) ++ removeAll (filterPattern TAG) next := by
    refine removeAll_append fun v w hvw hw => ?_
    obtain ⟨w', rfl⟩ : ∃ w', w = w' ++ ['\n'] := by
      refine ⟨w.dropLast, ?_⟩
      have hlast := congrArg List.getLast? hvw
      rw [List.getLast?_append_of_ne_nil _ hw] at hlast
      simp at hlast
      exact (List.dropLast_append_getLast? _ hlast.symm).symm
    rw [← List.append_assoc] at hvw
    obtain rfl := List.append_cancel_right hvw
    have hno : ¬ Occurs w' := fun hoc => h (hoc.append v)
    simpa using rests_eq_nil_of_not_occurs next hno
  simpa using hkeep

/-- The match reported for a line with occurrences ends with the run after the last one. -/
theorem head?_rests_of_last {next q z rest : Text} (hu : u ≠ []) (hdots : ∀ c ∈ u, dot c = true)
    (hq : Spells yhookClasses q) (hlast : ¬ Occurs (q ++ z).tail)
    (hrun : (rests [.plus notTag] (z ++ '\n' :: next)).head? = some rest) :
    (rests (filterPattern TAG) (u ++ q ++ z ++ '\n' :: next)).head? = some rest := by
  have hafter : (rests (yhookClasses.map .one ++ [.plus notTag])
      (q ++ (z ++ '\n' :: next))).head? = some rest := by
    rw [rests_ones_of_spells hq, hrun]
  have hmatch := head?_rests_plus_of_longest (p := dot) hu hdots hafter ?_
  · rw [filterPattern_TAG]
    simpa using hmatch
  · -- a longer run would leave a later occurrence
    intro v w hv hvw hvall
    refine List.eq_nil_iff_forall_not_mem.2 fun t ht => hlast ?_
    have hsplit : (q ++ z) ++ '\n' :: next = v ++ w := by simpa using hvw
    obtain ⟨q', z', hqz, hq', hz'⟩ := occurrence_of_mem_rests hvall hsplit ht
    cases v with
    | nil => exact absurd rfl hv
    | cons a v => exact ⟨v, q', z', by rw [hqz]; rfl, hq', hz'⟩

end Line

/-! ### Line by line -/

/-- What the filter leaves of one line: all, nothing, or the part after the last occurrence from the
next letter of the tag on. -/
inductive Left (b : FrameBody) : Text → Prop where
  | all (h : ¬ Occurs b.text) : Left b b.line
  | nothing (h : Occurs b.text) (hcleared : b.Cleared) : Left b []
  | part (h : Occurs b.text) (hcleared : ¬ b.Cleared) {y : Text} (hy : ¬ Occurs y)
      (hline : '\n' ∉ y) : Left b (y ++ ['\n'])

section Left

variable {b : FrameBody}

theorem dot_of_mem_line {c : Char} (h : c ∈ TAG ++ b.text) : dot c = true := by
  rcases List.mem_append.1 h with h | h
  · have hall : TAG.all dot = true := by decide
    exact List.all_eq_true.1 hall c h
  · exact dot_iff.2 (b.oneLine c h)

theorem newline_not_mem_line : '\n' ∉ TAG ++ b.text := fun h => by
  have hdot := dot_of_mem_line h
  exact absurd hdot (by decide)

/-- The last occurrence decides whether the body is cleared. -/
theorem not_cleared_of_last {u q z : Text} (hsplit : TAG ++ b.text = u ++ q ++ z)
    (hq : Spells yhookClasses q) (hlast : ¬ Occurs (q ++ z).tail) {c : Char} (hc : c ∈ z)
    (htag : c ∈ TAG) : ¬ b.Cleared := by
  rintro ⟨u', q', v, hb, hq', hv⟩
  have hlen : q.length = q'.length := hq.length_eq.symm.trans hq'.length_eq
  have hz : z <:+ TAG ++ b.text := ⟨u ++ q, hsplit.symm⟩
  have hv' : v <:+ TAG ++ b.text := ⟨TAG ++ u' ++ q', by rw [hb]; simp⟩
  rcases Nat.lt_or_ge v.length z.length with hlt | hge
  · -- an occurrence that is later than the last one
    obtain ⟨a, hqa⟩ := spells_cons hq
    have hqv : q' ++ v <:+ TAG ++ b.text := ⟨TAG ++ u', by rw [hb]; simp⟩
    have htail : (q ++ z).tail <:+ TAG ++ b.text :=
      (List.tail_suffix _).trans ⟨u, by rw [hsplit, List.append_assoc]⟩
    have hle : (q' ++ v).length ≤ (q ++ z).tail.length := by
      rw [List.length_tail, List.length_append, List.length_append]
      omega
    obtain ⟨w, hw⟩ := List.suffix_of_suffix_length_le hqv htail hle
    refine hlast ⟨w, q', v, by rw [← hw, List.append_assoc], hq', ?_⟩
    exact fun d hd => hv d (List.mem_of_head? hd)
  · have hsuffix := List.suffix_of_suffix_length_le hz hv' hge
    exact hv c (hsuffix.subset hc) htag

/-- What the filter leaves of a line. -/
def FrameBody.Leaves (b : FrameBody) (out : Text) : Prop :=
  ∀ next : Text, (∀ c ∈ next.head?, c ∈ TAG) → removeAll (filterPattern TAG) (b.line ++ next) =
    out ++ removeAll (filterPattern TAG) next

theorem leaves_of_not_occurs (h : ¬ Occurs b.text) : b.Leaves b.line := by
  intro next _
  have hno : ¬ Occurs (TAG ++ b.text) := fun hocc => h (occurs_body.1 hocc)
  simpa [FrameBody.line] using removeAll_of_not_occurs next hno

section Last

variable {u q z : Text} (hsplit : TAG ++ b.text = u ++ q ++ z) (hu : u ≠ [])
  (hq : Spells yhookClasses q) (hlast : ¬ Occurs (q ++ z).tail)

include hsplit in
theorem line_append_eq (next : Text) : b.line ++ next = u ++ q ++ z ++ '\n' :: next := by
  rw [FrameBody.line, hsplit]
  simp

include hsplit in
theorem dot_of_mem_before {c : Char} (hc : c ∈ u) : dot c = true :=
  dot_of_mem_line (b := b) (by rw [hsplit]; simp [hc])

include hsplit hu hq hlast in
/-- With no letter of the tag after the last occurrence, the run takes the newline too. -/
theorem leaves_nothing (hall : ∀ c ∈ z, notTag c = true) : b.Leaves [] := by
  intro next hnext
  have hrun : (rests [.plus notTag] (z ++ ['\n'] ++ next)).head? = some next := by
    refine head?_rests_plus (by simp) ?_ ?_
    · intro c hc
      rcases List.mem_append.1 hc with hc | hc
      · exact hall c hc
      · obtain rfl := List.mem_singleton.1 hc
        decide
    · intro c hc
      exact Bool.eq_false_iff.2 fun h => notTag_iff.1 h (hnext c hc)
  rw [List.append_assoc, List.singleton_append] at hrun
  have hmatch := head?_rests_of_last hu (fun c => dot_of_mem_before hsplit) hq hlast hrun
  have hlt : next.length < (u ++ q ++ z ++ '\n' :: next).length := by
    simp only [List.length_append, List.length_cons]
    omega
  rw [line_append_eq hsplit, removeAll_of_match hmatch hlt, List.nil_append]

include hsplit hu hq hlast in
/-- Otherwise the run stops at the first letter of the tag, and what follows is kept. -/
theorem leaves_part (hz : ∀ c ∈ z.head?, c ∉ TAG) {c : Char} {y' : Text}
    (hy : z.dropWhile notTag = c :: y') :
    b.Leaves (c :: y' ++ ['\n']) ∧ ¬ Occurs (c :: y') ∧ '\n' ∉ c :: y' ∧ c ∈ z ∧ c ∈ TAG := by
  have hsplitz : z.takeWhile notTag ++ c :: y' = z := by
    rw [← hy]
    exact List.takeWhile_append_dropWhile
  have hc : notTag c = false := by
    have hnot := List.head?_dropWhile_not notTag z
    rw [hy] at hnot
    simpa using hnot
  have hctag : c ∈ TAG := by
    by_contra h
    rw [notTag_iff.2 h] at hc
    exact Bool.noConfusion hc
  have hno : ¬ Occurs (c :: y') := by
    intro h
    obtain ⟨a, rfl⟩ := spells_cons hq
    refine hlast ?_
    rw [← hsplitz]
    simpa using h.append (a ++ z.takeWhile notTag)
  have htake : z.takeWhile notTag ≠ [] := by
    intro hnil
    rw [hnil, List.nil_append] at hsplitz
    exact hz c (by rw [← hsplitz]; rfl) hctag
  refine ⟨fun next _ => ?_, hno, fun h => ?_, by rw [← hsplitz]; simp, hctag⟩
  · have hrun : (rests [.plus notTag] (z.takeWhile notTag ++ (c :: y' ++ '\n' :: next))).head? =
        some (c :: y' ++ '\n' :: next) := by
      refine head?_rests_plus htake (fun d hd => List.mem_takeWhile_imp hd) ?_
      intro d hd
      obtain rfl : c = d := by simpa using hd
      exact hc
    rw [← List.append_assoc, hsplitz] at hrun
    have hmatch := head?_rests_of_last hu (fun c => dot_of_mem_before hsplit) hq hlast hrun
    have hlt : (c :: y' ++ '\n' :: next).length < (u ++ q ++ z ++ '\n' :: next).length := by
      have hupos := List.length_pos_iff.2 hu
      rw [← hsplitz]
      simp only [List.length_append, List.length_cons]
      omega
    rw [line_append_eq hsplit, removeAll_of_match hmatch hlt, removeAll_of_not_occurs next hno]
    simp
  · refine newline_not_mem_line (b := b) ?_
    rw [hsplit]
    refine List.mem_append_right _ ?_
    rw [← hsplitz]
    exact List.mem_append_right _ h

end Last

theorem exists_left (b : FrameBody) : ∃ out, Left b out ∧ b.Leaves out := by
  by_cases hocc : Occurs b.text
  · obtain ⟨u, q, z, hsplit, hq, hz, hlast⟩ := (occurs_body.2 hocc).exists_last
    obtain ⟨u', hu', hb⟩ := occurrence_in_body hq hsplit
    have hu : u ≠ [] := by
      rw [hu']
      exact List.append_ne_nil_of_left_ne_nil (by decide) _
    cases hy : z.dropWhile notTag with
    | nil =>
      have hall := List.dropWhile_eq_nil_iff.1 hy
      exact ⟨[], .nothing hocc ⟨u', q, z, hb, hq, fun c hc => notTag_iff.1 (hall c hc)⟩,
        leaves_nothing hsplit hu hq hlast hall⟩
    | cons c y' =>
      obtain ⟨hleaves, hno, hline, hcz, hctag⟩ := leaves_part hsplit hu hq hlast hz hy
      exact ⟨_, .part hocc (not_cleared_of_last hsplit hq hlast hcz hctag) hno hline, hleaves⟩
  · exact ⟨b.line, .all hocc, leaves_of_not_occurs hocc⟩

end Left

/-- What the filter leaves of a line by itself. -/
def FrameBody.filtered (b : FrameBody) : Text := removeAll (filterPattern TAG) b.line

theorem filtered_spec (b : FrameBody) : Left b b.filtered ∧ b.Leaves b.filtered := by
  obtain ⟨out, hleft, hleaves⟩ := exists_left b
  have hout : b.filtered = out := by
    have h := hleaves [] (by simp)
    simpa [FrameBody.filtered] using h
  exact ⟨hout ▸ hleft, hout ▸ hleaves⟩

theorem head?_nativeText (bodies : List FrameBody) :
    ∀ c ∈ (nativeText bodies).head?, c ∈ TAG := by
  cases bodies with
  | nil => simp [nativeText]
  | cons b bodies =>
    intro c hc
    obtain rfl : 'T' = c := by simpa [nativeText, FrameBody.line, TAG] using hc
    decide

/-- The filter works line by line. -/
theorem removeAll_nativeText (bodies : List FrameBody) :
    removeAll (filterPattern TAG) (nativeText bodies) = bodies.flatMap FrameBody.filtered := by
  induction bodies with
  | nil => rfl
  | cons b bodies ih =>
    have hline := (filtered_spec b).2 _ (head?_nativeText bodies)
    rw [ih] at hline
    exact hline

/-! ### Exactness -/

theorem terminated_line (b : FrameBody) : Terminated '\n' b.line :=
  ⟨TAG ++ b.text, rfl, newline_not_mem_line⟩

theorem terminated_filtered {b : FrameBody} (h : b.filtered ≠ []) : Terminated '\n' b.filtered := by
  have hleft := (filtered_spec b).1
  generalize b.filtered = out at h hleft
  cases hleft with
  | all _ => exact terminated_line b
  | nothing _ _ => exact absurd rfl h
  | part _ _ _ hline => exact ⟨_, rfl, hline⟩

/-- What is left of a line has no occurrence in it. -/
theorem not_occurs_filtered {b : FrameBody} {x : Text} (h : b.filtered = x ++ ['\n']) :
    ¬ Occurs x := by
  have hleft := (filtered_spec b).1
  rw [h] at hleft
  generalize hout : x ++ ['\n'] = out at hleft
  cases hleft with
  | all hno =>
    rw [List.append_cancel_right hout]
    exact fun hocc => hno (occurs_body.1 hocc)
  | nothing _ _ => simp at hout
  | part _ _ hno _ => rwa [List.append_cancel_right hout]

theorem filtered_of_exact {b : FrameBody} (h : b.Exact) :
    b.filtered = if b.NamesYhook then [] else b.line := by
  have hleft := (filtered_spec b).1
  generalize b.filtered = out at hleft
  by_cases hname : b.NamesYhook
  · rw [if_pos hname]
    obtain ⟨u, q, v, hb, hq, hv⟩ := h.1 hname
    cases hleft with
    | all hno => exact absurd ⟨u, q, v, hb, hq, fun c hc => hv c (List.mem_of_head? hc)⟩ hno
    | nothing _ _ => rfl
    | part _ hcleared _ _ => exact absurd ⟨u, q, v, hb, hq, hv⟩ hcleared
  · rw [if_neg hname]
    have hno : ¬ Occurs b.text := by
      rintro ⟨u, q, z, hb, hq, hz⟩
      obtain ⟨c, hc, htag⟩ := h.2 hname u q z hb hq
      exact hz c hc htag
    cases hleft with
    | all _ => rfl
    | nothing hocc _ => exact absurd hocc hno
    | part hocc _ _ _ => exact absurd hocc hno

theorem flatMap_filtered_of_exact {bodies : List FrameBody} (h : ∀ b ∈ bodies, b.Exact) :
    bodies.flatMap FrameBody.filtered = foreignText bodies := by
  induction bodies with
  | nil => rfl
  | cons b bodies ih =>
    have hrest := ih fun c hc => h c (List.mem_cons_of_mem _ hc)
    rw [List.flatMap_cons, hrest, filtered_of_exact (h b List.mem_cons_self), foreignText,
      foreignText, List.filter_cons]
    by_cases hname : b.NamesYhook
    · simp [hname]
    · simp [hname, nativeText]

/-- The lines left, as lines, are the foreign ones when the texts agree. -/
theorem filtered_lines_eq {bodies : List FrameBody}
    (h : bodies.flatMap FrameBody.filtered = foreignText bodies) :
    (bodies.filter fun b => b.filtered ≠ []).map FrameBody.filtered =
      (bodies.filter fun b => ¬ b.NamesYhook).map FrameBody.line := by
  refine eq_of_flatten_eq (e := '\n') ?_ ?_ ?_
  · intro x hx
    obtain ⟨b, hb, rfl⟩ := List.mem_map.1 hx
    exact terminated_filtered (by simpa using (List.mem_filter.1 hb).2)
  · intro x hx
    obtain ⟨b, -, rfl⟩ := List.mem_map.1 hx
    exact terminated_line b
  · have hdrop : ∀ bodies : List FrameBody,
        ((bodies.filter fun b => b.filtered ≠ []).map FrameBody.filtered).flatten =
          bodies.flatMap FrameBody.filtered := by
      intro bodies
      induction bodies with
      | nil => rfl
      | cons b bodies ih =>
        rw [List.filter_cons, List.flatMap_cons]
        by_cases hb : b.filtered = []
        · simpa [hb] using ih
        · simpa [hb] using ih
    rw [hdrop, h, foreignText, nativeText, List.flatMap_def]

theorem exact_of_flatMap_filtered {bodies : List FrameBody}
    (h : bodies.flatMap FrameBody.filtered = foreignText bodies) : ∀ b ∈ bodies, b.Exact := by
  have hlines := filtered_lines_eq h
  -- a foreign line is left as it is, so it has no occurrence
  have hforeign : ∀ b ∈ bodies, ¬ b.NamesYhook → ¬ Occurs b.text := by
    intro b hb hname hocc
    have hmem : b.line ∈ (bodies.filter fun b => ¬ b.NamesYhook).map FrameBody.line :=
      List.mem_map_of_mem (List.mem_filter.2 ⟨hb, by simpa using hname⟩)
    rw [← hlines] at hmem
    obtain ⟨b', -, hb'⟩ := List.mem_map.1 hmem
    exact not_occurs_filtered hb' (occurs_body.2 hocc)
  have hkept : ∀ b ∈ bodies, ¬ b.NamesYhook → b.filtered = b.line := by
    intro b hb hname
    have hleft := (filtered_spec b).1
    generalize b.filtered = out at hleft
    cases hleft with
    | all _ => rfl
    | nothing hocc _ => exact absurd hocc (hforeign b hb hname)
    | part hocc _ _ _ => exact absurd hocc (hforeign b hb hname)
  -- as many lines are left as are foreign, so no other line leaves anything
  have hforeignLines : (bodies.filter fun b => ¬ b.NamesYhook) =
      (bodies.filter fun b => b.filtered ≠ []).filter fun b => ¬ b.NamesYhook := by
    rw [List.filter_filter]
    refine List.filter_congr fun b hb => ?_
    by_cases hname : b.NamesYhook
    · simp [hname]
    · simp [hname, hkept b hb hname, (terminated_line b).ne_nil]
  have hlen := congrArg List.length hlines
  rw [List.length_map, List.length_map, hforeignLines, eq_comm,
    List.length_filter_eq_length_iff] at hlen
  intro b hb
  refine ⟨fun hname => ?_, fun hname u q v hsplit hq => ?_⟩
  · have hnil : b.filtered = [] := by
      by_contra hne
      exact absurd hname (by simpa using hlen b (List.mem_filter.2 ⟨hb, by simpa using hne⟩))
    have hleft := (filtered_spec b).1
    generalize b.filtered = out at hnil hleft
    cases hleft with
    | all _ => exact absurd hnil (terminated_line b).ne_nil
    | nothing _ hcleared => exact hcleared
    | part _ _ _ _ => simp at hnil
  · by_contra hv
    exact hforeign b hb hname ⟨u, q, v, hsplit, hq, fun c hc htag => hv ⟨c, hc, htag⟩⟩

/-- **The filter.** Whatever the builder, the trace and the lines, `record4Jni` appends after the
separator the text of the lines that do not name the hook library, if and only if the pattern is
exact on every line. -/
theorem record4Jni_filter_iff (sb : Text) (trace : List StackTraceElement)
    (bodies : List FrameBody) :
    record4Jni sb TAG (some trace) (some (nativeText bodies)) =
        ⟨sb ++ frameText 0 trace ++ separator ++ foreignText bodies, none⟩ ↔
      ∀ b ∈ bodies, b.Exact := by
  have hrecord : record4Jni sb TAG (some trace) (some (nativeText bodies)) =
      ⟨sb ++ frameText 0 trace ++ separator ++ bodies.flatMap FrameBody.filtered, none⟩ := by
    rw [record4Jni, removeAll_nativeText]
  rw [hrecord, RecordResult.mk.injEq, List.append_cancel_left_eq]
  constructor
  · exact fun h => exact_of_flatMap_filtered h.1
  · exact fun h => ⟨flatMap_filtered_of_exact h, rfl⟩

/-- The frame of a symbol with capital letters. -/
def testFrame : FrameBody where
  text := "#00 pc 1a2b  /lib/arm/libyhook.so (_ZN4Test4testEv+8)".toList
  oneLine := by
    have hall : ("#00 pc 1a2b  /lib/arm/libyhook.so (_ZN4Test4testEv+8)".toList.all
      fun c => !isLineTerminator c) = true := by decide
    intro c hc
    simpa only [Bool.not_eq_true'] using List.all_eq_true.1 hall c hc

/-- From the first `T` of the symbol on, the line is still in the text. -/
theorem not_record4Jni_filter : ¬ ∀ bodies : List FrameBody,
    record4Jni [] TAG (some []) (some (nativeText bodies)) =
      ⟨separator ++ foreignText bodies, none⟩ := by
  intro h
  have hline := h [testFrame]
  revert hline
  decide

end ElfHook.Thread
