import ElfHook.Lib.BitField
import Mathlib.Data.List.GetD

/-!
# Little-endian memory

Bytes at 32-bit addresses, which wrap around.

* `read_store`, `store_frame`: what a copy leaves, inside and outside of its area.
* `store_read`: a copy of what was saved undoes every change inside of the area.
* `holds_congr`: a code sequence stays where its bytes are not written.
-/

namespace ElfHook.Lib

abbrev Byte := BitVec 8
abbrev Half := BitVec 16
abbrev Mem := Word → Byte

/-- `c` is one of the `n` addresses from `a` on. -/
def InArea (a : Word) (n : Nat) (c : Word) : Prop := (c - a).toNat < n

instance (a : Word) (n : Nat) (c : Word) : Decidable (InArea a n c) := by
  unfold InArea
  infer_instance

namespace Mem

/-- `memcpy` of `bs` to `a`. -/
def store (m : Mem) (a : Word) (bs : List Byte) : Mem := fun c => bs.getD (c - a).toNat (m c)

/-- The `n` bytes at `a`. -/
def read (m : Mem) (a : Word) (n : Nat) : List Byte :=
  (List.range n).map fun i => m (a + BitVec.ofNat 32 i)

def half (m : Mem) (a : Word) : Half := m (a + 1) ++ m a

def word (m : Mem) (a : Word) : Word := m.half (a + 2) ++ m.half a

/-- The bytes `bs` are at `a`. -/
def Holds (m : Mem) (a : Word) (bs : List Byte) : Prop := m.read a bs.length = bs

end Mem

def halfBytes (h : Half) : List Byte := [h.extractLsb' 0 8, h.extractLsb' 8 8]

/-- The halfwords of a word, the low one first. -/
def wordHalves (w : Word) : List Half := [w.extractLsb' 0 16, w.extractLsb' 16 16]

variable {m m' : Mem} {a b c : Word} {n k : Nat} {bs cs : List Byte} {h : Half}

/-! ### Copies -/

theorem inArea_add (hk : k < 4294967296) : InArea a n (a + BitVec.ofNat 32 k) ↔ k < n := by
  have hoff : (a + BitVec.ofNat 32 k - a).toNat = k := by
    rw [BitVec.add_comm, BitVec.add_sub_cancel, BitVec.toNat_ofNat, Nat.mod_eq_of_lt hk]
  rw [InArea, hoff]

theorem add_sub_self (a c : Word) : a + BitVec.ofNat 32 (c - a).toNat = c := by
  rw [BitVec.ofNat_toNat, BitVec.setWidth_eq, BitVec.add_comm, BitVec.sub_add_cancel]

theorem store_inside (hc : InArea a bs.length c) : m.store a bs c = bs.get ⟨(c - a).toNat, hc⟩ :=
  List.getD_eq_getElem _ _ hc

theorem store_frame (hc : ¬ InArea a bs.length c) : m.store a bs c = m c :=
  List.getD_eq_default _ _ (Nat.le_of_not_lt hc)

@[simp] theorem length_read (m : Mem) (a : Word) (n : Nat) : (m.read a n).length = n := by
  rw [Mem.read, List.length_map, List.length_range]

theorem getElem_read {i : Nat} (hi : i < (m.read a n).length) :
    (m.read a n)[i] = m (a + BitVec.ofNat 32 i) := by
  simp only [Mem.read, List.getElem_map, List.getElem_range]

theorem read_congr (hn : n ≤ 4294967296) (heq : ∀ c, InArea a n c → m c = m' c) :
    m.read a n = m'.read a n := by
  apply List.map_congr_left
  intro i hi
  have hlt : i < n := List.mem_range.1 hi
  exact heq _ ((inArea_add (by omega)).2 hlt)

theorem read_store (hlen : bs.length ≤ 4294967296) : (m.store a bs).Holds a bs := by
  apply List.ext_getElem (length_read _ _ _)
  intro i hi hi'
  have hin : InArea a bs.length (a + BitVec.ofNat 32 i) := (inArea_add (by omega)).2 hi'
  have hoff : (a + BitVec.ofNat 32 i - a).toNat = i := by
    rw [BitVec.add_comm, BitVec.add_sub_cancel, BitVec.toNat_ofNat, Nat.mod_eq_of_lt (by omega)]
  rw [getElem_read, store_inside hin]
  simp only [hoff, List.get_eq_getElem]

/-- What was saved of `m'` brings `m'` back, wherever `m` differs inside of the area only. -/
theorem store_read (h : ¬ InArea a n c → m c = m' c) : m.store a (m'.read a n) c = m' c := by
  by_cases hc : InArea a n c
  · have hc' : InArea a (m'.read a n).length c := by rwa [length_read]
    rw [store_inside hc', List.get_eq_getElem, getElem_read, add_sub_self]
  · rw [store_frame (by rwa [length_read]), h hc]

/-! ### Code sequences -/

theorem holds_congr (hlen : bs.length ≤ 4294967296)
    (heq : ∀ c, InArea a bs.length c → m c = m' c) : m.Holds a bs ↔ m'.Holds a bs := by
  rw [Mem.Holds, Mem.Holds, read_congr hlen heq]

theorem length_flatMap_halfBytes (hs : List Half) : (hs.flatMap halfBytes).length = 2 * hs.length := by
  induction hs with
  | nil => rfl
  | cons h hs ih =>
    rw [List.flatMap_cons, List.length_append, ih, List.length_cons]
    simp only [halfBytes, List.length_cons, List.length_nil]
    omega

end ElfHook.Lib
