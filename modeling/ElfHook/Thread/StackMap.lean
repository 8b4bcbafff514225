import ElfHook.Thread.Record

/-!
# `Thread4StartStack.STACK_MAP`

The weak map from threads to their recorded stacks, and the text that `getAllStacks` makes of it.
-/

namespace ElfHook.Thread

/-- A `java.lang.Thread` object. -/
abbrev ThreadObj := Nat

/-- The entries, at most one for a thread. -/
abbrev StackMap := List (ThreadObj × Text)

def StackMap.put (m : StackMap) (thread : ThreadObj) (sb : Text) : StackMap :=
  (thread, sb) :: m.filter fun entry => entry.1 ≠ thread

/-- The collector takes the entry of a thread. -/
def StackMap.drop (m : StackMap) (thread : ThreadObj) : StackMap :=
  m.filter fun entry => entry.1 ≠ thread

/-- What `getAllStacks` appends for an entry, `toString` printing the thread. -/
def sectionOf (toString : ThreadObj → Text) (entry : ThreadObj × Text) : Text :=
  toString entry.1 ++ '\n' :: entry.2 ++ ['\n']

/-- `getAllStacks` when nothing else happens meanwhile. -/
def getAllStacks (toString : ThreadObj → Text) (m : StackMap) : Text :=
  m.flatMap (sectionOf toString)

section StackMap

variable {m : StackMap} {thread : ThreadObj} {sb : Text} {entry : ThreadObj × Text}

theorem mem_put : entry ∈ m.put thread sb ↔
    entry = (thread, sb) ∨ entry ∈ m ∧ entry.1 ≠ thread := by
  simp [StackMap.put]

theorem mem_drop : entry ∈ m.drop thread ↔ entry ∈ m ∧ entry.1 ≠ thread := by
  simp [StackMap.drop]

theorem section_infix_getAllStacks {toString : ThreadObj → Text} (h : entry ∈ m) :
    sectionOf toString entry <:+: getAllStacks toString m := by
  obtain ⟨before, after, rfl⟩ := List.append_of_mem h
  exact ⟨getAllStacks toString before, getAllStacks toString after, by simp [getAllStacks]⟩

end StackMap

end ElfHook.Thread
