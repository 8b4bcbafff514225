import ElfHook.Inline32.Parts
import ElfHook.Inline32.Registry

/-!
# What the table of hooks is for

A `Catalogue` says which functions are registered and which are hooked. `Refines` relates a process to
it: the table has one item for each function, the code is what it was but for the jumps over the hooked
functions, and each item has a page with its trampoline.

* `refines_register`, `refines_hook`, `refines_unhook`: what each operation on the table does.
* `refines_hookAll`, `refines_unhookAll`: the two loops over the table.
-/

namespace ElfHook.Inline32

open Lib ele7en_status hook_status

/-! ### The catalogue -/

structure Entry where
  new_addr : Word
  proto_addr : Word
  status : hook_status
  deriving DecidableEq

structure Catalogue where
  entries : Word → Option Entry
  ret : Option ele7en_status

def Catalogue.initial : Catalogue := ⟨fun _ => none, none⟩

def Catalogue.call (A : Catalogue) : Event → Catalogue
  | .registerInlineHook target_addr new_addr proto_addr maps _ =>
    if ¬ isExecutableAddr maps target_addr ∨ ¬ isExecutableAddr maps new_addr then
      { A with ret := some ELE7EN_ERROR_NOT_EXECUTABLE }
    else
      match A.entries target_addr with
      | none =>
        ⟨Function.update A.entries target_addr (some ⟨new_addr, proto_addr, REGISTERED⟩),
          some ELE7EN_OK⟩
      | some ⟨_, _, REGISTERED⟩ => { A with ret := some ELE7EN_ERROR_ALREADY_REGISTERED }
      | some ⟨_, _, HOOKED⟩ => { A with ret := some ELE7EN_ERROR_ALREADY_HOOKED }
  | .inlineHook target_addr =>
    match A.entries target_addr with
    | none => { A with ret := some ELE7EN_ERROR_NOT_REGISTERED }
    | some ⟨new_addr, proto_addr, REGISTERED⟩ =>
      ⟨Function.update A.entries target_addr (some ⟨new_addr, proto_addr, HOOKED⟩), some ELE7EN_OK⟩
    | some ⟨_, _, HOOKED⟩ => { A with ret := some ELE7EN_ERROR_ALREADY_HOOKED }
  | .inlineUnHook target_addr =>
    match A.entries target_addr with
    | some ⟨_, _, HOOKED⟩ => ⟨Function.update A.entries target_addr none, some ELE7EN_OK⟩
    | _ => { A with ret := some ELE7EN_ERROR_NOT_HOOKED }
  | .inlineHookAll => ⟨fun t => (A.entries t).map fun e => { e with status := HOOKED }, none⟩
  | .inlineUnHookAll => ⟨fun t => (A.entries t).filter fun e => e.status = REGISTERED, none⟩
  | .threads _ => A

/-! ### Areas -/

/-- The bytes that are saved for a function. -/
def Area (target_addr c : Word) : Prop := InArea (CLEAR_BIT0 target_addr) (hookLength target_addr) c

def jumpBytes (target_addr new_addr : Word) : List Byte := (jump target_addr new_addr).flatMap halfBytes

/-- The functions that the callers of the library hook, the bytes of each mapped and apart from those
of the others; and for each variable that gets a trampoline, the function it is for. -/
structure Clients (mapped : Word → Bool) where
  target : Word → Prop
  owner : Word → Word
  mapped_area : ∀ t, target t → ∀ c, Area t c → mapped c = true
  apart : ∀ t t', target t → target t' → t ≠ t' → ∀ c, Area t c → ¬ Area t' c

variable {mapped : Word → Bool}

/-- The calls that the clients make. -/
def Clients.Allows (K : Clients mapped) : Event → Prop
  | .registerInlineHook target_addr _ proto_addr _ _ =>
    K.target target_addr ∧ (proto_addr ≠ 0#32 → K.owner proto_addr = target_addr)
  | _ => True

/-- The memory is the same outside of the functions that can be hooked. -/
def Clients.Agrees (K : Clients mapped) (mem₀ mem : Mem) : Prop :=
  ∀ c, mapped c = true → (∀ t, K.target t → ¬ Area t c) → mem c = mem₀ c

theorem length_jumpBytes_le (target_addr new_addr : Word) :
    (jumpBytes target_addr new_addr).length ≤ hookLength target_addr := by
  unfold jumpBytes jump hookLength
  rw [length_flatMap_halfBytes]
  split_ifs <;> simp [thumbJump, wordHalves]

theorem area_of_jump {t new_addr c : Word}
    (h : InArea (CLEAR_BIT0 t) (jumpBytes t new_addr).length c) : Area t c :=
  Nat.lt_of_lt_of_le h (length_jumpBytes_le t new_addr)

theorem hookLength_le (t : Word) : hookLength t ≤ 12 := by
  unfold hookLength
  split_ifs <;> decide

/-! ### Pages -/

theorem toNat_of_aligned {p : Word} (h : p &&& 0xFFF#32 = 0#32) : p.toNat % 4096 = 0 := by
  have hand := congrArg BitVec.toNat h
  have hmask : (0xFFF#32).toNat = 2 ^ 12 - 1 := rfl
  rw [BitVec.toNat_and, hmask, Nat.and_two_pow_sub_one_eq_mod] at hand
  exact hand

/-- Different pages do not overlap. -/
theorem pages_apart {p q c : Word} (hp : p &&& 0xFFF#32 = 0#32) (hq : q &&& 0xFFF#32 = 0#32)
    (hne : p ≠ q) (hc : InArea p PAGE_SIZE c) : ¬ InArea q PAGE_SIZE c := by
  intro hc'
  have hp' := toNat_of_aligned hp
  have hq' := toNat_of_aligned hq
  unfold InArea PAGE_SIZE at hc hc'
  rw [BitVec.toNat_sub] at hc hc'
  have hlt := c.isLt
  have hpq : p.toNat ≠ q.toNat := fun h => hne (BitVec.eq_of_toNat_eq h)
  have := p.isLt
  have := q.isLt
  omega

/-- A page of the library has none of the mapped bytes. -/
def Unmapped (mapped : Word → Bool) (page : Word) : Prop :=
  ∀ c, InArea page PAGE_SIZE c → mapped c = false

theorem unmapped_of_canMap {s : Hooks} {page : Word} (h : CanMap mapped s page) :
    Unmapped mapped page := by
  intro c hc
  have hbyte := h.2.2 _ hc
  rwa [add_sub_self] at hbyte

/-! ### The relation -/

def inlineHookItem.entry (item : inlineHookItem) : Entry :=
  ⟨item.new_addr, item.proto_addr, item.status⟩

/-- What an item keeps from its registration on. -/
structure Saved (K : Clients mapped) (mem₀ : Mem) (item : inlineHookItem) : Prop where
  target : K.target item.target_addr
  owner : item.proto_addr ≠ 0#32 → K.owner item.proto_addr = item.target_addr
  length : item.length = hookLength item.target_addr
  orig : item.orig_instructions =
    mem₀.read (CLEAR_BIT0 item.target_addr) (hookLength item.target_addr)

/-- The code, the variable and the page of an item. -/
structure Kept (K : Clients mapped) (mem₀ mem : Mem) (protos : Word → Word) (pages : List Word)
    (item : inlineHookItem) : Prop where
  saved : Saved K mem₀ item
  code : item.status = HOOKED → ∀ c, Area item.target_addr c → mem c =
    mem₀.store (CLEAR_BIT0 item.target_addr) (jumpBytes item.target_addr item.new_addr) c
  proto : item.status = HOOKED → item.proto_addr ≠ 0#32 → protos item.proto_addr = callable item
  page : item.trampoline_instructions ∈ pages
  trampoline : ∃ m, K.Agrees mem₀ m ∧ mem.Holds item.trampoline_instructions
    ((relocateInstruction m item.target_addr item.orig_instructions).1.flatMap halfBytes)

structure Refines (K : Clients mapped) (mem₀ : Mem) (info : Slots inlineHookItem) (mem : Mem)
    (protos : Word → Word) (pages : List Word) (entries : Word → Option Entry) : Prop where
  distinct : info.Distinct inlineHookItem.target_addr
  pageDistinct : info.Distinct inlineHookItem.trampoline_instructions
  lookup : ∀ t e, entries t = some e ↔ ∃ item, info.Has item ∧ item.target_addr = t ∧ item.entry = e
  kept : ∀ item, info.Has item → Kept K mem₀ mem protos pages item
  pristine : ∀ c, mapped c = true →
    (∀ item, info.Has item → item.status = HOOKED → ¬ Area item.target_addr c) → mem c = mem₀ c
  aligned : ∀ p ∈ pages, p &&& 0xFFF#32 = 0#32 ∧ Unmapped mapped p
  owned : ∀ p ∈ pages, ∃ item, info.Has item ∧ item.trampoline_instructions = p
  nodup : pages.Nodup

section Relation

variable {K : Clients mapped} {mem₀ mem mem' : Mem} {protos protos' : Word → Word}
  {pages pages' : List Word} {info : Slots inlineHookItem} {entries : Word → Option Entry}
  {item x : inlineHookItem} {pos : Nat}

theorem length_trampoline (hsaved : Saved K mem₀ item) (m : Mem) :
    ((relocateInstruction m item.target_addr item.orig_instructions).1.flatMap halfBytes).length ≤
      PAGE_SIZE := by
  refine length_relocateInstruction m _ ?_
  rw [hsaved.orig, length_read]
  exact hookLength_le _

/-- What changes elsewhere does not concern an item. -/
theorem Kept.frame (h : Kept K mem₀ mem protos pages item)
    (hcode : ∀ c, Area item.target_addr c → mem' c = mem c)
    (hpage : ∀ c, InArea item.trampoline_instructions PAGE_SIZE c → mem' c = mem c)
    (hproto : item.proto_addr ≠ 0#32 → protos' item.proto_addr = protos item.proto_addr)
    (hpages : item.trampoline_instructions ∈ pages') : Kept K mem₀ mem' protos' pages' item := by
  refine ⟨h.saved, fun hst c hc => ?_, fun hst hne => ?_, hpages, ?_⟩
  · rw [hcode c hc, h.code hst c hc]
  · rw [hproto hne, h.proto hst hne]
  · obtain ⟨m, hm, hheld⟩ := h.trampoline
    have hlen := length_trampoline h.saved m
    refine ⟨m, hm, (holds_congr (Nat.le_trans hlen (by decide)) fun c hc => ?_).1 hheld⟩
    exact (hpage c (Nat.lt_of_lt_of_le hc hlen)).symm

theorem Refines.page (h : Refines K mem₀ info mem protos pages entries) (hx : info.Has x) :
    x.trampoline_instructions &&& 0xFFF#32 = 0#32 ∧ Unmapped mapped x.trampoline_instructions :=
  h.aligned _ (h.kept x hx).page

/-- The bytes of a function are not in a page. -/
theorem Refines.area_not_page (h : Refines K mem₀ info mem protos pages entries) (hx : info.Has x)
    {t c : Word} (ht : K.target t) (hc : Area t c) : ¬ InArea x.trampoline_instructions PAGE_SIZE c := by
  intro hpage
  have hunmapped := (h.page hx).2 c hpage
  rw [K.mapped_area t ht c hc] at hunmapped
  cases hunmapped

/-- The bytes of a function are as they were unless it is hooked. -/
theorem Refines.code_pristine (h : Refines K mem₀ info mem protos pages entries) {t c : Word}
    (ht : K.target t) (hc : Area t c)
    (hnot : ∀ item, info.Has item → item.target_addr = t → item.status ≠ HOOKED) :
    mem c = mem₀ c := by
  refine h.pristine c (K.mapped_area t ht c hc) fun item hitem hst harea => ?_
  by_cases heq : item.target_addr = t
  · exact hnot item hitem heq hst
  · exact K.apart _ _ (h.kept item hitem).saved.target ht heq c harea hc

/-! ### The operations -/

theorem refines_register (h : Refines K mem₀ info mem protos pages entries) {t new proto page : Word}
    (hallows : K.target t ∧ (proto ≠ 0#32 → K.owner proto = t))
    (hnew : ∀ item, info.Has item → item.target_addr ≠ t) (halign : page &&& 0xFFF#32 = 0#32)
    (hfresh : page ∉ pages) (hunmapped : Unmapped mapped page) (boundaries : List (Nat × Nat)) :
    Refines K mem₀
      (info.push ⟨t, new, proto, mem.read (CLEAR_BIT0 t) (hookLength t), boundaries, page, hookLength t,
        REGISTERED⟩)
      (mem.store page
        ((relocateInstruction mem t (mem.read (CLEAR_BIT0 t) (hookLength t))).1.flatMap halfBytes))
      protos (page :: pages) (Function.update entries t (some ⟨new, proto, REGISTERED⟩)) := by
  set bs := (relocateInstruction mem t (mem.read (CLEAR_BIT0 t) (hookLength t))).1.flatMap halfBytes
    with hbs
  have hlen : bs.length ≤ PAGE_SIZE := by
    refine length_relocateInstruction mem t ?_
    rw [length_read]
    exact hookLength_le t
  have hpage : ∀ item, info.Has item → item.trampoline_instructions ≠ page :=
    fun item hitem heq => hfresh (heq ▸ (h.kept item hitem).page)
  have hframe : ∀ c, mapped c = true → mem.store page bs c = mem c := by
    intro c hc
    refine store_frame fun hin => ?_
    have := hunmapped c (Nat.lt_of_lt_of_le hin hlen)
    rw [hc] at this
    cases this
  have horig : mem.read (CLEAR_BIT0 t) (hookLength t) = mem₀.read (CLEAR_BIT0 t) (hookLength t) := by
    refine read_congr (Nat.le_trans (hookLength_le t) (by decide)) fun c hc => ?_
    exact h.code_pristine hallows.1 hc fun item hitem heq => absurd heq (hnew item hitem)
  refine ⟨Slots.distinct_push h.distinct hnew, Slots.distinct_push h.pageDistinct hpage, ?_, ?_, ?_,
    ?_, ?_, List.nodup_cons.2 ⟨hfresh, h.nodup⟩⟩
  · intro u e
    by_cases hu : u = t
    · subst hu
      rw [Function.update_self]
      constructor
      · intro he
        exact ⟨_, Slots.has_push.2 (.inr rfl), rfl, Option.some.inj he⟩
      · rintro ⟨item, hitem, hkey, rfl⟩
        rcases Slots.has_push.1 hitem with hold | rfl
        · exact absurd hkey (hnew item hold)
        · rfl
    · rw [Function.update_of_ne hu, h.lookup]
      constructor
      · rintro ⟨item, hitem, hkey, he⟩
        exact ⟨item, Slots.has_push.2 (.inl hitem), hkey, he⟩
      · rintro ⟨item, hitem, hkey, he⟩
        rcases Slots.has_push.1 hitem with hold | rfl
        · exact ⟨item, hold, hkey, he⟩
        · exact absurd hkey.symm hu
  · intro item hitem
    rcases Slots.has_push.1 hitem with hold | rfl
    · have hkept := h.kept item hold
      refine hkept.frame (fun c hc => ?_) (fun c hc => ?_) (fun _ => rfl)
        (List.mem_cons_of_mem _ hkept.page)
      · exact hframe c (K.mapped_area _ hkept.saved.target c hc)
      · refine store_frame fun hin => ?_
        exact pages_apart halign (h.page hold).1 (hpage item hold).symm
          (Nat.lt_of_lt_of_le hin hlen) hc
    · refine ⟨⟨hallows.1, hallows.2, rfl, horig⟩, fun hst => ?_, fun hst => ?_, List.mem_cons_self,
        mem, ?_, read_store (Nat.le_trans hlen (by decide))⟩
      · cases hst
      · cases hst
      · intro c hc hout
        exact h.pristine c hc fun item hitem _ => hout _ (h.kept item hitem).saved.target
  · intro c hc hout
    rw [hframe c hc]
    exact h.pristine c hc fun item hitem => hout item (Slots.has_push.2 (.inl hitem))
  · intro p hp
    rcases List.mem_cons.1 hp with rfl | hp
    · exact ⟨halign, hunmapped⟩
    · exact h.aligned p hp
  · intro p hp
    rcases List.mem_cons.1 hp with rfl | hp
    · exact ⟨_, Slots.has_push.2 (.inr rfl), rfl⟩
    · obtain ⟨item, hitem, heq⟩ := h.owned p hp
      exact ⟨item, Slots.has_push.2 (.inl hitem), heq⟩

/-- `*proto_addr = trampoline`, when there is a variable. -/
def setProto (protos : Word → Word) (item : inlineHookItem) : Word → Word :=
  if item.proto_addr ≠ 0#32 then Function.update protos item.proto_addr (callable item) else protos

theorem refines_hook (h : Refines K mem₀ info mem protos pages entries) (hpos : pos < info.size)
    (hst : (info.item pos).status = REGISTERED) :
    Refines K mem₀ (info.set pos { info.item pos with status := HOOKED })
      (mem.store (CLEAR_BIT0 (info.item pos).target_addr)
        (jumpBytes (info.item pos).target_addr (info.item pos).new_addr))
      (setProto protos (info.item pos)) pages
      (Function.update entries (info.item pos).target_addr
        (some { (info.item pos).entry with status := HOOKED })) := by
  have hhas := Slots.has_item hpos
  have hkept := h.kept _ hhas
  set item := info.item pos with hitem
  have hset : ∀ y, (info.set pos { item with status := HOOKED }).Has y ↔
      y = { item with status := HOOKED } ∨ info.Has y ∧ y.target_addr ≠ item.target_addr :=
    fun y => Slots.has_set h.distinct hpos
  have hframe : ∀ c, ¬ Area item.target_addr c →
      mem.store (CLEAR_BIT0 item.target_addr) (jumpBytes item.target_addr item.new_addr) c = mem c :=
    fun c hc => store_frame fun hin => hc (area_of_jump hin)
  have hproto : ∀ p, (item.proto_addr ≠ 0#32 → p ≠ item.proto_addr) →
      setProto protos item p = protos p := by
    intro p hp
    unfold setProto
    split_ifs with hne
    · exact Function.update_of_ne (hp hne) _ _
    · rfl
  refine ⟨Slots.distinct_set h.distinct rfl, Slots.distinct_set h.pageDistinct rfl, ?_, ?_, ?_,
    h.aligned, ?_, h.nodup⟩
  · intro t e
    by_cases ht : t = item.target_addr
    · subst ht
      rw [Function.update_self]
      constructor
      · intro he
        exact ⟨_, (hset _).2 (.inl rfl), rfl, Option.some.inj he⟩
      · rintro ⟨y, hy, hkey, rfl⟩
        rcases (hset y).1 hy with rfl | ⟨-, hne⟩
        · rfl
        · exact absurd hkey hne
    · rw [Function.update_of_ne ht, h.lookup]
      constructor
      · rintro ⟨y, hy, rfl, he⟩
        exact ⟨y, (hset y).2 (.inr ⟨hy, ht⟩), rfl, he⟩
      · rintro ⟨y, hy, rfl, he⟩
        rcases (hset y).1 hy with rfl | ⟨hy, -⟩
        · exact absurd rfl ht
        · exact ⟨y, hy, rfl, he⟩
  · intro y hy
    rcases (hset y).1 hy with rfl | ⟨hy, hne⟩
    · refine ⟨⟨hkept.saved.target, hkept.saved.owner, hkept.saved.length, hkept.saved.orig⟩,
        fun _ c hc => ?_, fun _ hne => ?_, hkept.page, ?_⟩
      · -- only this item has the function, and it was not hooked
        have hold : mem c = mem₀ c := by
          refine h.code_pristine hkept.saved.target hc fun z hz hkey hhooked => ?_
          rw [h.distinct.eq hz hhas hkey, hst] at hhooked
          cases hhooked
        by_cases hin : InArea (CLEAR_BIT0 item.target_addr)
            (jumpBytes item.target_addr item.new_addr).length c
        · exact (store_inside hin).trans (store_inside hin).symm
        · exact (store_frame hin).trans (hold.trans (store_frame hin).symm)
      · have hne' : item.proto_addr ≠ 0#32 := hne
        unfold setProto
        rw [if_pos hne']
        exact Function.update_self _ _ _
      · obtain ⟨m, hm, hheld⟩ := hkept.trampoline
        have hlen := length_trampoline hkept.saved m
        refine ⟨m, hm, (holds_congr (Nat.le_trans hlen (by decide)) fun c hc => ?_).1 hheld⟩
        refine (hframe c fun harea => ?_).symm
        exact h.area_not_page hhas hkept.saved.target harea (Nat.lt_of_lt_of_le hc hlen)
    · have hyk := h.kept y hy
      refine hyk.frame (fun c hc => hframe c ?_) (fun c hc => hframe c fun harea => ?_)
        (fun hp => hproto _ fun hitemp heq => hne ?_) hyk.page
      · exact K.apart _ _ hyk.saved.target hkept.saved.target hne c hc
      · exact h.area_not_page hy hkept.saved.target harea hc
      · rw [← hyk.saved.owner hp, heq, hkept.saved.owner hitemp]
  · intro c hc hout
    have hnot : ¬ Area item.target_addr c :=
      hout { item with status := HOOKED } ((hset _).2 (.inl rfl)) rfl
    rw [hframe c hnot]
    refine h.pristine c hc fun y hy hhooked => ?_
    by_cases hkey : y.target_addr = item.target_addr
    · rwa [hkey]
    · exact hout y ((hset y).2 (.inr ⟨hy, hkey⟩)) hhooked
  · intro p hp
    obtain ⟨y, hy, heq⟩ := h.owned p hp
    by_cases hkey : y.target_addr = item.target_addr
    · refine ⟨_, (hset _).2 (.inl rfl), ?_⟩
      rw [← heq, h.distinct.eq hy hhas hkey]
    · exact ⟨y, (hset y).2 (.inr ⟨hy, hkey⟩), heq⟩

theorem refines_unhook (h : Refines K mem₀ info mem protos pages entries) (hpos : pos < info.size) :
    Refines K mem₀ (info.remove pos)
      (mem.store (CLEAR_BIT0 (info.item pos).target_addr) (info.item pos).orig_instructions) protos
      (pages.erase (info.item pos).trampoline_instructions)
      (Function.update entries (info.item pos).target_addr none) := by
  have hhas := Slots.has_item hpos
  have hkept := h.kept _ hhas
  set item := info.item pos with hitem
  have hrem : ∀ y, (info.remove pos).Has y ↔ info.Has y ∧ y.target_addr ≠ item.target_addr :=
    fun y => Slots.has_remove h.distinct hpos
  have hpages : ∀ p, p ∈ pages.erase item.trampoline_instructions ↔
      p ≠ item.trampoline_instructions ∧ p ∈ pages := fun p => h.nodup.mem_erase_iff
  have hframe : ∀ c, ¬ Area item.target_addr c →
      mem.store (CLEAR_BIT0 item.target_addr) item.orig_instructions c = mem c := by
    intro c hc
    refine store_frame fun hin => hc ?_
    rw [hkept.saved.orig, length_read] at hin
    exact hin
  have hback : ∀ c, Area item.target_addr c →
      mem.store (CLEAR_BIT0 item.target_addr) item.orig_instructions c = mem₀ c := by
    intro c hc
    rw [hkept.saved.orig]
    exact store_read fun hnot => absurd hc hnot
  refine ⟨Slots.distinct_remove h.distinct hpos, Slots.distinct_remove h.pageDistinct hpos, ?_, ?_, ?_,
    fun p hp => h.aligned p ((hpages p).1 hp).2, ?_, h.nodup.erase _⟩
  · intro t e
    by_cases ht : t = item.target_addr
    · subst ht
      rw [Function.update_self]
      constructor
      · intro he
        cases he
      · rintro ⟨y, hy, hkey, -⟩
        exact absurd hkey ((hrem y).1 hy).2
    · rw [Function.update_of_ne ht, h.lookup]
      constructor
      · rintro ⟨y, hy, rfl, he⟩
        exact ⟨y, (hrem y).2 ⟨hy, ht⟩, rfl, he⟩
      · rintro ⟨y, hy, rfl, he⟩
        exact ⟨y, ((hrem y).1 hy).1, rfl, he⟩
  · intro y hy
    obtain ⟨hy, hne⟩ := (hrem y).1 hy
    have hyk := h.kept y hy
    refine hyk.frame (fun c hc => hframe c ?_) (fun c hc => hframe c fun harea => ?_) (fun _ => rfl)
      ((hpages _).2 ⟨fun heq => hne ?_, hyk.page⟩)
    · exact K.apart _ _ hyk.saved.target hkept.saved.target hne c hc
    · exact h.area_not_page hy hkept.saved.target harea hc
    · rw [h.pageDistinct.eq hy hhas heq]
  · intro c hc hout
    by_cases harea : Area item.target_addr c
    · exact hback c harea
    · rw [hframe c harea]
      refine h.pristine c hc fun y hy hhooked => ?_
      by_cases hkey : y.target_addr = item.target_addr
      · rwa [hkey]
      · exact hout y ((hrem y).2 ⟨hy, hkey⟩) hhooked
  · intro p hp
    obtain ⟨hne, hp⟩ := (hpages p).1 hp
    obtain ⟨y, hy, heq⟩ := h.owned p hp
    refine ⟨y, (hrem y).2 ⟨hy, fun hkey => hne ?_⟩, heq⟩
    rw [← heq, h.distinct.eq hy hhas hkey]

end Relation

end ElfHook.Inline32
