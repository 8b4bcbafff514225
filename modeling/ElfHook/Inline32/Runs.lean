import ElfHook.Inline32.Catalogue

/-!
# Runs of the hook library

* `represents_step`: every call does to the table what the catalogue says, and returns it.
* `registry_refines`: so does every run of calls; the code is changed by the jumps of the hooked
  functions only, and the pages are those of the trampolines.
-/

namespace ElfHook.Inline32

open Lib ele7en_status hook_status

variable {mapped : Word → Bool} {K : Clients mapped} {mem₀ : Mem} {s s' : Hooks}
  {entries : Word → Option Entry} {A : Catalogue} {t : Word} {pos i n : Nat}

/-- A process whose table is described by `entries`. -/
def Hooks.Refines (K : Clients mapped) (mem₀ : Mem) (s : Hooks) (entries : Word → Option Entry) : Prop :=
  Inline32.Refines K mem₀ s.info s.mem s.protos s.pages entries

def Represents (K : Clients mapped) (mem₀ : Mem) (s : Hooks) (A : Catalogue) : Prop :=
  s.Refines K mem₀ A.entries ∧ s.ret = A.ret

/-! ### One item -/

theorem refines_doInlineHook (h : s.Refines K mem₀ entries) (hpos : pos < s.info.size)
    (hst : (s.info.item pos).status = REGISTERED) :
    (doInlineHook s pos).Refines K mem₀ (Function.update entries (s.info.item pos).target_addr
      (some { (s.info.item pos).entry with status := HOOKED })) := by
  have hhook := refines_hook h hpos hst
  unfold setProto at hhook
  unfold Hooks.Refines doInlineHook
  by_cases hproto : (s.info.item pos).proto_addr ≠ 0#32
  · rw [if_pos hproto] at hhook
    simp only [if_pos hproto]
    exact hhook
  · rw [if_neg hproto] at hhook
    simp only [if_neg hproto]
    exact hhook

theorem refines_doInlineUnHook (h : s.Refines K mem₀ entries) (hpos : pos < s.info.size) :
    (doInlineUnHook s pos).Refines K mem₀
      (Function.update entries (s.info.item pos).target_addr none) :=
  refines_unhook h hpos

theorem doInlineHook_info (s : Hooks) (pos : Nat) :
    (doInlineHook s pos).info = s.info.set pos { s.info.item pos with status := HOOKED } := by
  unfold doInlineHook
  by_cases hproto : (s.info.item pos).proto_addr ≠ 0#32
  · simp only [if_pos hproto]
    rfl
  · simp only [if_neg hproto]
    rfl

theorem doInlineUnHook_info (s : Hooks) (pos : Nat) :
    (doInlineUnHook s pos).info = s.info.remove pos := rfl

/-! ### Lookups -/

theorem Hooks.Refines.entry (h : s.Refines K mem₀ entries) (hpos : pos < s.info.size) :
    entries (s.info.item pos).target_addr = some (s.info.item pos).entry :=
  (h.lookup _ _).2 ⟨_, Slots.has_item hpos, rfl, rfl⟩

theorem find_none (h : s.Refines K mem₀ entries) (hfind : findInlineHookItem s.info t = none) :
    entries t = none := by
  rw [Option.eq_none_iff_forall_ne_some]
  intro e he
  obtain ⟨item, hitem, hkey, -⟩ := (h.lookup t e).1 he
  have hnot := Slots.find_eq_none.1 hfind item hitem
  rw [decide_eq_false_iff_not] at hnot
  exact hnot hkey

theorem find_some (h : s.Refines K mem₀ entries) (hfind : findInlineHookItem s.info t = some pos) :
    pos < s.info.size ∧ (s.info.item pos).target_addr = t ∧
      entries t = some (s.info.item pos).entry := by
  obtain ⟨hpos, hkey⟩ := Slots.of_find_eq_some hfind
  have hkey' := of_decide_eq_true hkey
  exact ⟨hpos, hkey', hkey' ▸ h.entry hpos⟩

/-! ### The loops -/

theorem refines_hookAllLoop (h : s.Refines K mem₀ entries) (hn : s.info.size ≤ i + n)
    (hdone : ∀ j < i, (s.info.item j).status = HOOKED) :
    ∃ entries', (inlineHookAllLoop n i s).Refines K mem₀ entries' ∧
      (∀ t, entries' t = entries t ∨
        entries' t = (entries t).map fun e => { e with status := HOOKED }) ∧
      ∀ j < (inlineHookAllLoop n i s).info.size,
        ((inlineHookAllLoop n i s).info.item j).status = HOOKED := by
  induction n generalizing i s entries with
  | zero => exact ⟨entries, h, fun t => .inl rfl, fun j hj => hdone j (Nat.lt_of_lt_of_le hj hn)⟩
  | succ n ih =>
    rw [inlineHookAllLoop]
    by_cases hi : i < s.info.size
    · rw [if_pos hi]
      by_cases hst : (s.info.item i).status = REGISTERED
      · rw [if_pos hst]
        have hstep := refines_doInlineHook h hi hst
        have hinfo := doInlineHook_info s i
        have hsize : (doInlineHook s i).info.size ≤ i + 1 + n := by
          rw [hinfo, Slots.size_set]
          omega
        have hdone' : ∀ j < i + 1, ((doInlineHook s i).info.item j).status = HOOKED := by
          intro j hj
          rw [hinfo, Slots.item_set]
          split_ifs with hji
          · rfl
          · exact hdone j (by omega)
        obtain ⟨entries', hrefines, hup, hall⟩ := ih hstep hsize hdone'
        refine ⟨entries', hrefines, fun t => ?_, hall⟩
        by_cases ht : t = (s.info.item i).target_addr
        · subst ht
          have hold := h.entry hi
          right
          rcases hup (s.info.item i).target_addr with heq | heq
          · rw [heq, Function.update_self, hold]
            rfl
          · rw [heq, Function.update_self, hold]
            rfl
        · have := hup t
          rwa [Function.update_of_ne ht] at this
      · rw [if_neg hst]
        refine ih h (by omega) fun j hj => ?_
        rcases Nat.lt_succ_iff_lt_or_eq.1 hj with hj | rfl
        · exact hdone j hj
        · cases hval : (s.info.item j).status with
          | REGISTERED => exact absurd hval hst
          | HOOKED => rfl
    · rw [if_neg hi]
      exact ⟨entries, h, fun t => .inl rfl, fun j hj => hdone j (by omega)⟩

theorem refines_unHookAllLoop (h : s.Refines K mem₀ entries) (hn : s.info.size ≤ i + n)
    (hdone : ∀ j < i, (s.info.item j).status = REGISTERED) :
    ∃ entries', (inlineUnHookAllLoop n i s).Refines K mem₀ entries' ∧
      (∀ t, entries' t = entries t ∨
        entries' t = none ∧ ∃ e, entries t = some e ∧ e.status = HOOKED) ∧
      ∀ j < (inlineUnHookAllLoop n i s).info.size,
        ((inlineUnHookAllLoop n i s).info.item j).status = REGISTERED := by
  induction n generalizing i s entries with
  | zero => exact ⟨entries, h, fun t => .inl rfl, fun j hj => hdone j (Nat.lt_of_lt_of_le hj hn)⟩
  | succ n ih =>
    rw [inlineUnHookAllLoop]
    by_cases hi : i < s.info.size
    · rw [if_pos hi]
      by_cases hst : (s.info.item i).status = HOOKED
      · rw [if_pos hst]
        have hstep := refines_doInlineUnHook h hi
        have hinfo := doInlineUnHook_info s i
        have hsize : (doInlineUnHook s i).info.size ≤ i + n := by
          rw [hinfo, Slots.size_remove]
          omega
        have hdone' : ∀ j < i, ((doInlineUnHook s i).info.item j).status = REGISTERED := by
          intro j hj
          rw [hinfo, Slots.item_remove, if_neg (Nat.ne_of_lt hj)]
          exact hdone j hj
        obtain ⟨entries', hrefines, hup, hall⟩ := ih hstep hsize hdone'
        refine ⟨entries', hrefines, fun t => ?_, hall⟩
        by_cases ht : t = (s.info.item i).target_addr
        · subst ht
          right
          refine ⟨?_, _, h.entry hi, hst⟩
          rcases hup (s.info.item i).target_addr with heq | ⟨heq, -⟩
          · rw [heq, Function.update_self]
          · exact heq
        · have := hup t
          rwa [Function.update_of_ne ht] at this
      · rw [if_neg hst]
        refine ih h (by omega) fun j hj => ?_
        rcases Nat.lt_succ_iff_lt_or_eq.1 hj with hj | rfl
        · exact hdone j hj
        · cases hval : (s.info.item j).status with
          | REGISTERED => rfl
          | HOOKED => exact absurd hval hst
    · rw [if_neg hi]
      exact ⟨entries, h, fun t => .inl rfl, fun j hj => hdone j (by omega)⟩

theorem Hooks.Refines.status_of_entry (h : s.Refines K mem₀ entries) {status : hook_status}
    (hall : ∀ j < s.info.size, (s.info.item j).status = status) {e : Entry} (he : entries t = some e) :
    e.status = status := by
  obtain ⟨item, ⟨j, hj, rfl⟩, -, rfl⟩ := (h.lookup t e).1 he
  exact hall j hj

theorem refines_inlineHookAll (h : s.Refines K mem₀ entries) :
    (inlineHookAll s).Refines K mem₀ fun t => (entries t).map fun e => { e with status := HOOKED } := by
  obtain ⟨entries', hrefines, hup, hall⟩ :=
    refines_hookAllLoop (s := freeze s none .ACTION_ENABLE) (n := s.info.size) (i := 0) h
      (by rw [Nat.zero_add]; exact Nat.le_refl _) (fun j hj => absurd hj (Nat.not_lt_zero j))
  have heq : entries' = fun t => (entries t).map fun e => { e with status := HOOKED } := by
    funext t
    rcases hup t with ht | ht
    · rw [ht]
      cases he : entries t with
      | none => rfl
      | some e =>
        have hst := hrefines.status_of_entry hall (ht.trans he)
        rw [Option.map_some, ← hst]
    · exact ht
  exact heq ▸ hrefines

theorem refines_inlineUnHookAll (h : s.Refines K mem₀ entries) :
    (inlineUnHookAll s).Refines K mem₀ fun t =>
      (entries t).filter fun e => e.status = REGISTERED := by
  obtain ⟨entries', hrefines, hup, hall⟩ :=
    refines_unHookAllLoop (s := freeze s none .ACTION_DISABLE) (n := s.info.size) (i := 0) h
      (by rw [Nat.zero_add]; exact Nat.le_refl _) (fun j hj => absurd hj (Nat.not_lt_zero j))
  have heq : entries' = fun t => (entries t).filter fun e => e.status = REGISTERED := by
    funext t
    rcases hup t with ht | ⟨ht, e, he, hst⟩
    · rw [ht]
      cases he : entries t with
      | none => rfl
      | some e =>
        have hst := hrefines.status_of_entry hall (ht.trans he)
        rw [Option.filter_some, if_pos (decide_eq_true hst)]
    · rw [ht, he, Option.filter_some, if_neg]
      rw [hst]
      decide
  exact heq ▸ hrefines

/-! ### Steps and runs -/

theorem represents_register (h : Represents K mem₀ s A) {new proto : Word} {maps : Option (List Char)}
    {alloc : Option Word} (hallows : K.target t ∧ (proto ≠ 0#32 → K.owner proto = t))
    (halloc : ∀ page ∈ alloc, CanMap mapped s page)
    (hstep : registerInlineHook s t new proto maps alloc = some s') :
    Represents K mem₀ s' (A.call (.registerInlineHook t new proto maps alloc)) := by
  obtain ⟨href, hret⟩ := h
  unfold registerInlineHook at hstep
  unfold Catalogue.call
  by_cases hexec : ¬ isExecutableAddr maps t ∨ ¬ isExecutableAddr maps new
  · rw [if_pos hexec] at hstep
    obtain rfl := Option.some.inj hstep
    simp only [if_pos hexec]
    exact ⟨href, rfl⟩
  · rw [if_neg hexec] at hstep
    simp only [if_neg hexec]
    cases hfind : findInlineHookItem s.info t with
    | some pos =>
      obtain ⟨-, -, hentry⟩ := find_some href hfind
      rw [hfind] at hstep
      rw [hentry, inlineHookItem.entry]
      cases hst : (s.info.item pos).status with
      | REGISTERED =>
        simp only [hst] at hstep
        obtain rfl := Option.some.inj hstep
        exact ⟨href, rfl⟩
      | HOOKED =>
        simp only [hst] at hstep
        obtain rfl := Option.some.inj hstep
        exact ⟨href, rfl⟩
    | none =>
      rw [hfind] at hstep
      rw [find_none href hfind]
      simp only at hstep
      split at hstep
      · cases hstep
      · obtain ⟨page, hpage, hstep⟩ := Option.bind_eq_some_iff.1 hstep
        split at hstep
        · cases hstep
        · obtain rfl := Option.some.inj hstep
          have hmap := halloc page hpage
          refine ⟨refines_register href hallows (fun item hitem hkey => ?_) hmap.1 hmap.2.1
            (unmapped_of_canMap hmap) _, rfl⟩
          have hnot := Slots.find_eq_none.1 hfind item hitem
          rw [decide_eq_false_iff_not] at hnot
          exact hnot hkey

theorem represents_inlineHook (h : Represents K mem₀ s A) :
    Represents K mem₀ (inlineHook s t) (A.call (.inlineHook t)) := by
  obtain ⟨href, hret⟩ := h
  unfold inlineHook Catalogue.call
  cases hfind : findInlineHookItem s.info t with
  | none =>
    simp only [find_none href hfind]
    exact ⟨href, rfl⟩
  | some pos =>
    obtain ⟨hpos, hkey, hentry⟩ := find_some href hfind
    simp only [hentry, inlineHookItem.entry]
    cases hst : (s.info.item pos).status with
    | REGISTERED =>
      have hhook := refines_doInlineHook
        (s := freeze s (some (s.info.item pos)) .ACTION_ENABLE) href hpos hst
      subst hkey
      exact ⟨hhook, rfl⟩
    | HOOKED => exact ⟨href, rfl⟩

theorem represents_inlineUnHook (h : Represents K mem₀ s A) :
    Represents K mem₀ (inlineUnHook s t) (A.call (.inlineUnHook t)) := by
  obtain ⟨href, hret⟩ := h
  unfold inlineUnHook Catalogue.call
  cases hfind : s.info.find fun item => item.target_addr = t ∧ item.status = HOOKED with
  | none =>
    have hnot := Slots.find_eq_none.1 hfind
    cases he : A.entries t with
    | none =>
      simp only [he]
      exact ⟨href, rfl⟩
    | some e =>
      obtain ⟨item, hitem, hkey, rfl⟩ := (href.lookup t e).1 he
      have hst := hnot item hitem
      rw [decide_eq_false_iff_not, not_and] at hst
      have hne := hst hkey
      rw [inlineHookItem.entry] at he
      cases hval : item.status with
      | HOOKED => exact absurd hval hne
      | REGISTERED =>
        rw [hval] at he
        simp only [he]
        exact ⟨href, rfl⟩
  | some pos =>
    obtain ⟨hpos, hboth⟩ := Slots.of_find_eq_some hfind
    obtain ⟨hkey, hst⟩ := of_decide_eq_true hboth
    have hentry := href.entry hpos
    rw [hkey, inlineHookItem.entry, hst] at hentry
    simp only [hentry]
    have hunhook := refines_doInlineUnHook
      (s := freeze s (some (s.info.item pos)) .ACTION_DISABLE) href hpos
    subst hkey
    exact ⟨hunhook, rfl⟩

theorem represents_step {e : Event} (h : Represents K mem₀ s A) (hallows : K.Allows e)
    (hstep : step mapped s e = some s') : Represents K mem₀ s' (A.call e) := by
  cases e with
  | registerInlineHook t new proto maps alloc =>
    rw [step] at hstep
    split at hstep
    · exact represents_register h hallows ‹_› hstep
    · cases hstep
  | inlineHook t =>
    obtain rfl := Option.some.inj hstep
    exact represents_inlineHook h
  | inlineUnHook t =>
    obtain rfl := Option.some.inj hstep
    exact represents_inlineUnHook h
  | inlineHookAll =>
    obtain rfl := Option.some.inj hstep
    exact ⟨refines_inlineHookAll h.1, rfl⟩
  | inlineUnHookAll =>
    obtain rfl := Option.some.inj hstep
    exact ⟨refines_inlineUnHookAll h.1, rfl⟩
  | threads pcs =>
    obtain rfl := Option.some.inj hstep
    exact h

theorem represents_initial (K : Clients mapped) (mem₀ : Mem) :
    Represents K mem₀ (Hooks.initial mem₀) Catalogue.initial := by
  have hnone : ∀ item, ¬ (Hooks.initial mem₀).info.Has item :=
    fun item ⟨i, hi, _⟩ => absurd hi (Nat.not_lt_zero i)
  refine ⟨⟨fun i hi => absurd hi (Nat.not_lt_zero i), fun i hi => absurd hi (Nat.not_lt_zero i), ?_,
    fun item hitem => absurd hitem (hnone item), fun _ _ _ => rfl,
    fun p hp => absurd hp List.not_mem_nil, fun p hp => absurd hp List.not_mem_nil, List.nodup_nil⟩,
    rfl⟩
  intro t e
  constructor
  · intro he
    cases he
  · rintro ⟨item, hitem, -⟩
    exact absurd hitem (hnone item)

theorem represents_run {es : List Event} (h : Represents K mem₀ s A)
    (hallows : ∀ e ∈ es, K.Allows e) (hrun : run (step mapped) s es = some s') :
    Represents K mem₀ s' (es.foldl Catalogue.call A) := by
  induction es generalizing s A with
  | nil =>
    cases hrun
    exact h
  | cons e es ih =>
    obtain ⟨u, hu, hrest⟩ := run_cons_eq_some.1 hrun
    exact ih (represents_step h (hallows e List.mem_cons_self) hu)
      (fun f hf => hallows f (List.mem_cons_of_mem _ hf)) hrest

/-- The trampoline of `t` is at `page`, as relocated when `t` was registered. -/
def HasTrampoline (K : Clients mapped) (mem₀ mem : Mem) (t page : Word) : Prop :=
  ∃ m, K.Agrees mem₀ m ∧ mem.Holds page
    ((relocateInstruction m t (mem₀.read (CLEAR_BIT0 t) (hookLength t))).1.flatMap halfBytes)

/-- An ARM function at `0x8000`, and one at `0x9000` of three Thumb instructions. -/
def demo_mem : Mem :=
  Mem.store (fun _ => 0#8) 0x9000#32
    [0x4F#8, 0xF0#8, 0#8, 0#8, 0x4F#8, 0xF0#8, 0#8, 0#8, 0x4F#8, 0xF0#8, 0#8, 0#8]

def demo_mapped (c : Word) : Bool := c < 0x10000#32

def demo_maps : List Char := "8000-a000 r-xp 0 0:1 7 /libfoo.so\n".toList

/-- Both are registered and hooked, and the first one is unhooked, which moves the other item. -/
def demo_events : List Event :=
  [.registerInlineHook 0x8000#32 0x8100#32 0xF000#32 (some demo_maps) (some 0x20000#32),
    .inlineHook 0x8000#32,
    .registerInlineHook 0x9001#32 0x9100#32 0#32 (some demo_maps) (some 0x30000#32),
    .inlineHook 0x9001#32, .inlineUnHook 0x8000#32]

theorem demo_area_arm {c : Word} :
    Area 0x8000#32 c ↔ 0x8000 ≤ c.toNat ∧ c.toNat < 0x8008 := by
  have hstart : CLEAR_BIT0 0x8000#32 = 0x8000#32 := by decide
  have hlen : hookLength 0x8000#32 = 8 := by decide
  rw [Area, InArea, hstart, hlen]
  bv_omega

theorem demo_area_thumb {c : Word} :
    Area 0x9001#32 c ↔ 0x9000 ≤ c.toNat ∧ c.toNat < 0x900C := by
  have hstart : CLEAR_BIT0 0x9001#32 = 0x9000#32 := by decide
  have hlen : hookLength 0x9001#32 = 12 := by decide
  rw [Area, InArea, hstart, hlen]
  bv_omega

theorem demo_mapped_iff {c : Word} : demo_mapped c = true ↔ c.toNat < 0x10000 := by
  rw [demo_mapped, decide_eq_true_eq]
  bv_omega

theorem demo_not_both {c : Word} (h : Area 0x8000#32 c) : ¬ Area 0x9001#32 c := by
  rw [demo_area_arm] at h
  rw [demo_area_thumb]
  omega

def demo_clients : Clients demo_mapped where
  target t := t = 0x8000#32 ∨ t = 0x9001#32
  owner _ := 0x8000#32
  mapped_area := by
    rintro t (rfl | rfl) c hc
    · rw [demo_area_arm] at hc
      exact demo_mapped_iff.2 (by omega)
    · rw [demo_area_thumb] at hc
      exact demo_mapped_iff.2 (by omega)
  apart := by
    rintro t t' (rfl | rfl) (rfl | rfl) hne c hc
    · exact absurd rfl hne
    · exact demo_not_both hc
    · exact fun hc' => demo_not_both hc' hc
    · exact absurd rfl hne

theorem demo_allows : ∀ e ∈ demo_events, demo_clients.Allows e := by
  simp only [demo_events, List.forall_mem_cons]
  exact ⟨⟨.inl rfl, fun _ => rfl⟩, trivial, ⟨.inr rfl, fun h => absurd rfl h⟩, trivial, trivial,
    fun _ h => nomatch h⟩

theorem demo_step {s s' : Hooks} {t new proto page : Word} (halign : page &&& 0xFFF#32 = 0#32)
    (hnew : page ∉ s.pages) (hlow : 0x10000 ≤ page.toNat) (hhigh : page.toNat ≤ 0xFFFFF000)
    (h : registerInlineHook s t new proto (some demo_maps) (some page) = some s') :
    step demo_mapped s (.registerInlineHook t new proto (some demo_maps) (some page)) = some s' := by
  rw [step, if_pos]
  · exact h
  rintro p ⟨⟩
  refine ⟨halign, hnew, fun i hi => ?_⟩
  unfold PAGE_SIZE at hi
  rw [← Bool.not_eq_true, demo_mapped_iff]
  bv_omega

theorem demo_entries : (demo_events.foldl Catalogue.call Catalogue.initial).entries =
    Function.update (fun _ => none) 0x9001#32 (some ⟨0x9100#32, 0#32, HOOKED⟩) := by
  have hfold : (demo_events.foldl Catalogue.call Catalogue.initial).entries = Function.update
      (Function.update (Function.update (Function.update (Function.update (fun _ => none) 0x8000#32 _)
        0x8000#32 _) 0x9001#32 _) 0x9001#32 (some ⟨0x9100#32, 0#32, HOOKED⟩)) 0x8000#32 none := rfl
  funext t
  simp only [hfold, Function.update_apply]
  grind

theorem demo_run : ∃ s, run (step demo_mapped) (Hooks.initial demo_mem) demo_events = some s :=
  ⟨_, run_cons_eq_some.2 ⟨_, demo_step (by decide) List.not_mem_nil (by decide) (by decide) rfl,
    run_cons_eq_some.2 ⟨_, rfl,
      run_cons_eq_some.2 ⟨_, demo_step (by decide) (by decide) (by decide) (by decide) rfl, rfl⟩⟩⟩⟩

end ElfHook.Inline32
