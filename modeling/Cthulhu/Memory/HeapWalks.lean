import Cthulhu.Memory.CountedLoops
import Cthulhu.Memory.ExtendRange
import Cthulhu.Memory.HeapTables

/-!
# Walks and the tables of the kernel heap

What `allocate` and `deallocate` do to the tables of the heap when they are called with pages of the heap
slot. The frames that are kept stay as they are, and as long as some other page of the slot is
mapped, so does the entry of the slot.
-/

namespace Cthulhu

open Lib

/-- The tables below the heap slot of the root are trees, apart from the frames that are kept. -/
def HeapKept (R : ℕ) (kept : ℕ → Prop) (m : Machine) : Prop := ∃ tag, HeapTables R kept tag m

/-- A change that keeps the trees, and what it leaves alone. -/
def HeapChange (R : ℕ) (kept : ℕ → Prop) (pages : ℕ → Prop) (m m' : Machine) : Prop :=
  HeapKept R kept m' ∧ HeapEffect R kept pages m m'

section Walk

variable {R : ℕ} {kept : ℕ → Prop} {tag : HeapTag} {m m' : Machine} {va cr3 : ℕ}

/-- A change of neither the pool nor the memory keeps the trees. -/
theorem HeapKept.same (h : HeapKept R kept m) (hpool : m'.framePool = m.framePool) (hmem : m'.memory = m.memory) :
    HeapKept R kept m' := by
  obtain ⟨tag, htables⟩ := h
  exact ⟨tag, htables.same hpool hmem⟩

/-- The entry of the root that a page of the slot is walked through. -/
theorem heapPlace_root (R : ℕ) (tag : HeapTag) (va : ℕ) : HeapPlace R tag 0 ⟨R, pmlIndex va⟩ :=
  .root (by decide) (indices_mem va _ List.mem_cons_self)

/-- The entry of a tagged table. -/
theorem heapPlace_table (R : ℕ) {l T i : ℕ} (hT : tag T = some (l + 1, ())) (hl : l < 3) (hi : i < 512) :
    HeapPlace R tag (l + 1) ⟨T, i⟩ :=
  .below hT (show l + 2 < 5 by omega) (Finset.mem_range.mpr hi)

/-- The indices of an address are indices of tables. -/
theorem indices_lt (va : ℕ) : pmlIndex va < 512 ∧ directoryPtrIndex va < 512 ∧ directoryIndex va < 512 :=
  ⟨Nat.mod_lt _ (by decide), Nat.mod_lt _ (by decide), Nat.mod_lt _ (by decide)⟩

/-- One level of an allocating walk. -/
theorem HeapTables.descend (h : HeapTables R kept tag m) {l : ℕ} {e : Slot} (hplace : HeapPlace R tag l e)
    (hslot : l = 0 → e.index = reservedHeapMappings) (user : Bool) :
    ∃ tag', HeapTables R kept tag' (m.descend e true user).2 ∧
      HeapEffect R kept (fun _ => False) m (m.descend e true user).2 ∧
      ∀ C, (m.descend e true user).1 = some C → tag' C = some (l + 1, ()) := by
  cases hpresent : present (m.load e) with
  | true =>
    unfold Machine.descend
    simp only [hpresent, if_true]
    refine ⟨tag, h, .same rfl rfl, ?_⟩
    intro C hC
    have hchild := heapLinks_present hpresent hslot
    rw [Option.some.inj hC] at hchild
    exact (h.sided.link hplace hchild).1
  | false =>
    by_cases hzero : (getFreeFrame m.framePool).1 = 0
    · unfold Machine.descend
      simp only [hpresent, Bool.false_eq_true, if_false, if_true, Machine.getFreeFrame_eq h.nonempty, hzero]
      exact ⟨tag, h.same rfl rfl, .same rfl rfl, fun C hC => absurd hC (by simp)⟩
    · obtain ⟨hkept, htag⟩ := h.fresh hzero
      obtain ⟨hframe, -, -, -, -, -⟩ := h.pool.taken rfl hzero
      have hroot : (getFreeFrame m.framePool).1 ≠ R := fun heq => hkept (heq ▸ h.root)
      obtain ⟨m', hdescend, hpool, hmem, hactive, -⟩ :=
        descend_fresh h.pool h.nonempty hpresent hzero (hplace.tag_ne hroot htag) user
      have hw := heapLinks_present (present_tableEntry (getFreeFrame m.framePool).1 user) hslot
      rw [align_tableEntry user (h.pool.frame_aligned hframe).1] at hw
      obtain ⟨htables, heffect⟩ := h.graft hplace rfl hzero (heapLinks_absent hpresent) hw
        (fun n hn => cleared_off m.memory _ n hn) (fun _ i => by rw [Function.update_self]) hpool hactive hmem
      rw [hdescend]
      refine ⟨_, htables, heffect, ?_⟩
      intro C hC
      rw [← Option.some.inj hC]
      exact Function.update_self _ _ _

/-- An allocating walk to a page of the slot finds an entry of a last table. -/
theorem HeapTables.getPage (h : HeapTables R kept tag m) (hcr3 : align cr3 = R)
    (hva : pmlIndex va = reservedHeapMappings) (user : Bool) :
    ∃ tag', HeapTables R kept tag' (m.getPage va cr3 true user).2 ∧
      HeapEffect R kept (fun _ => False) m (m.getPage va cr3 true user).2 ∧
      ∀ p, (m.getPage va cr3 true user).1 = some p → tag' p.table = some (3, ()) ∧ p.index < 512 := by
  obtain ⟨-, hptr, hdir⟩ := indices_lt va
  unfold Machine.getPage
  rw [hcr3]
  dsimp only
  obtain ⟨tag₁, h₁, heffect₁, hfound₁⟩ := h.descend (heapPlace_root R tag va) (fun _ => hva) user
  cases hpdpt : (m.descend ⟨R, pmlIndex va⟩ true user).1 with
  | none => exact ⟨tag₁, h₁, heffect₁, fun p hp => absurd hp (by simp)⟩
  | some pdpt =>
  have hplace₁ := heapPlace_table R (hfound₁ pdpt hpdpt) (by decide) hptr
  dsimp only
  generalize (m.descend ⟨R, pmlIndex va⟩ true user).2 = m₁ at h₁ heffect₁
  obtain ⟨tag₂, h₂, heffect₂, hfound₂⟩ := h₁.descend hplace₁ (fun habsurd => absurd habsurd (by simp)) user
  cases hpdir : (m₁.descend ⟨pdpt, directoryPtrIndex va⟩ true user).1 with
  | none => exact ⟨tag₂, h₂, heffect₁.trans heffect₂, fun p hp => absurd hp (by simp)⟩
  | some pdir =>
  have hplace₂ := heapPlace_table R (hfound₂ pdir hpdir) (by decide) hdir
  dsimp only
  generalize (m₁.descend ⟨pdpt, directoryPtrIndex va⟩ true user).2 = m₂ at h₂ heffect₂
  obtain ⟨tag₃, h₃, heffect₃, hfound₃⟩ := h₂.descend hplace₂ (fun habsurd => absurd habsurd (by simp)) user
  have heffect := (heffect₁.trans heffect₂).trans heffect₃
  cases hpt : (m₂.descend ⟨pdir, directoryIndex va⟩ true user).1 with
  | none => exact ⟨tag₃, h₃, heffect, fun p hp => absurd hp (by simp)⟩
  | some pt =>
    refine ⟨tag₃, h₃, heffect, ?_⟩
    intro p hp
    rw [← Option.some.inj hp]
    exact ⟨hfound₃ pt hpt, tableIndex_lt va⟩

/-- A frame of the pool is an address of a page. -/
theorem HeapTables.frame_lt (h : HeapTables R kept tag m) {f : ℕ} (hf : IsFrame m.framePool f) :
    align f = f ∧ f < 2 ^ 62 :=
  ⟨align_of_mod (h.pool.frame_aligned hf).1, h.pool.frame_lt h.below hf⟩

/-- The flags of `allocate_frame` without execute-disable do not change the frame. -/
theorem align_pageFlags_kept {x : ℕ} (kernel readonly : Bool) (haligned : align x = x) (hlt : x < 2 ^ 62) :
    align (Machine.pageFlags x kernel readonly false) = x := by
  rw [← frameOf_of_lt (pageFlags_lt kernel readonly hlt), frameOf_pageFlags, frameOf_of_lt hlt, haligned]

/-- Other flags on an entry lead to the same frame. -/
theorem HeapTables.rewrite (h : HeapTables R kept tag m) {p : Slot} (hp : tag p.table = some (3, ())) {w : ℕ}
    (hpresent : present (m.load p) = true) (hw : present w = true) (halign : align w = align (m.load p)) :
    HeapTables R kept tag (m.store p w) ∧ HeapEffect R kept (fun _ => False) m (m.store p w) := by
  have hlinks (l T i : ℕ) : heapLinks.child l i ((m.store p w).memory T i) = heapLinks.child l i (m.memory T i) := by
    by_cases hhere : T = p.table ∧ i = p.index
    · obtain ⟨rfl, rfl⟩ := hhere
      change heapLinks.child l p.index (Links.store m.memory p.table p.index w p.table p.index) = _
      rw [Links.store_self]
      unfold Machine.load at hpresent halign
      simp only [heapLinks, hpresent, hw, halign]
    · exact congrArg _ (Links.store_of_ne m.memory w hhere)
  have htable : ¬ kept p.table := fun hkept => absurd ((h.apart _ hkept).symm.trans hp) (by simp)
  have hoff (T : ℕ) (hT : kept T) (i : ℕ) : (m.store p w).memory T i = m.memory T i :=
    Links.store_of_ne m.memory w fun hhere => htable (hhere.1 ▸ hT)
  refine ⟨⟨h.pool, h.nonempty, h.below, h.sided.congr_links (fun _ _ => True.intro) hlinks, h.managed, h.held,
    h.apart, h.root, ?_⟩, fun T hT i _ => hoff T hT i, fun va _ _ D hD => ⟨?_, hoff R h.root _⟩, rfl⟩
  · intro T s hT i hi habsent
    by_cases hhere : T = p.table ∧ i = p.index
    · obtain ⟨rfl, rfl⟩ := hhere
      rw [show (m.store p w).memory p.table p.index = w from Links.store_self _ _ _ _, hw] at habsent
      exact absurd habsent (by simp)
    · have hword : (m.store p w).memory T i = m.memory T i := Links.store_of_ne m.memory w hhere
      rw [hword] at habsent ⊢
      exact h.clean T s hT i hi habsent
  · unfold HeapPage at hD ⊢
    rw [Links.walk_congr_links hlinks]
    exact hD

/-- `allocate_frame` gives a page of the slot its frame, or new flags, or fails. -/
theorem HeapTables.allocateFrame (h : HeapTables R kept tag m) {p : Slot} (hp : tag p.table = some (3, ()))
    (hi : p.index < 512) (kernel readonly : Bool) :
    HeapChange R kept (fun _ => False) m (m.allocateFrame p kernel readonly false).2 := by
  have hplace : HeapPlace R tag 3 p := heapPlace_table R hp (by decide) hi
  have hgiven : FrameGiven p kernel readonly false m (m.allocateFrame p kernel readonly false) := by
    refine frameGiven_of_apart h.pool h.nonempty h.below (fun hne heq => ?_) kernel readonly false
    rw [heq, (h.fresh hne).2] at hp
    exact absurd hp (by simp)
  cases hgiven with
  | rewritten hpresent hentry hm =>
    have hchild := heapLinks_present (l := 3) (i := p.index) hpresent (fun habsurd => absurd habsurd (by decide))
    have hframe := (h.managed _ (by rw [(h.sided.link hplace hchild).1]; simp)).1
    obtain ⟨haligned, hlt⟩ := h.frame_lt hframe
    obtain ⟨htables, heffect⟩ := h.rewrite hp hpresent (present_pageFlags _ kernel readonly false)
      (align_pageFlags_kept kernel readonly haligned hlt)
    rw [hm]
    exact ⟨⟨tag, htables⟩, heffect⟩
  | exhausted habsent hnone hentry hm =>
    rw [hm]
    exact ⟨⟨tag, h.same rfl rfl⟩, .same rfl rfl⟩
  | fresh f filled habsent hf hne hoff hentry hmem hpool hactive =>
    have hzero : m.load p = 0 := h.clean _ () hp _ hi habsent
    obtain ⟨haligned, hlt⟩ := h.frame_lt (h.pool.taken hf hne).1
    rw [hzero] at hmem
    have hw := heapLinks_present (l := 3) (i := p.index) (present_pageFlags f kernel readonly false)
      (fun habsurd => absurd habsurd (by decide))
    rw [align_pageFlags_kept kernel readonly haligned hlt] at hw
    obtain ⟨htables, heffect⟩ := h.graft hplace hf hne (heapLinks_absent habsent) hw hoff
      (fun habsurd => absurd habsurd (by decide)) hpool hactive hmem
    exact ⟨⟨_, htables⟩, heffect⟩

end Walk

section Release

variable {R : ℕ} {kept : ℕ → Prop} {tag : HeapTag} {m m' : Machine} {va cr3 : ℕ} {pages : ℕ → Prop}

/-- One stage of `free_page_structure` keeps the entries of the levels above it. -/
theorem HeapTables.stage (h : HeapTables R kept tag m) {l C : ℕ} {e : Slot} (hplace : HeapPlace R tag l e)
    (hl : l < 3) (hchild : heapLinks.child l e.index (m.load e) = some C) (hclear : m.tableClear C = true)
    (pages : ℕ → Prop) :
    ∃ tag', HeapTables R kept tag' ((m.freeFrame C).store e 0) ∧
      HeapEffect R kept pages m ((m.freeFrame C).store e 0) ∧
      ∀ k < l, ∀ e' : Slot, HeapPlace R tag k e' →
        HeapPlace R tag' k e' ∧ ((m.freeFrame C).store e 0).load e' = m.load e' := by
  obtain ⟨tag', h', heffect, hother, hchange⟩ := h.release hplace hchild
    (fun _ => (m.tableClear_iff C).mp hclear) pages fun hthree => absurd hthree (Nat.ne_of_lt hl)
  refine ⟨tag', h', heffect, ?_⟩
  intro k hk e' hplace'
  have hC : e'.table ≠ C := hplace'.ne_of_tag h.sided.root (h.sided.link hplace hchild).1 (by omega)
  refine ⟨hplace'.congr (hother _ hC), hchange.off _ _ hC ?_⟩
  rintro ⟨htable, hindex⟩
  obtain rfl : e' = e := by
    cases e'
    cases e
    simp_all
  exact absurd (hplace'.inj h.sided.root hplace).1 (Nat.ne_of_lt hk)

/-- `free_page_structure` after the leaf entry was cleared. -/
theorem HeapTables.freePageStructure (h : HeapTables R kept tag m) (hcr3 : align cr3 = R)
    (hva : pmlIndex va = reservedHeapMappings)
    (hleaf : ∀ pt, heapLinks.walk m.memory 0 R (indices va) = some pt → m.load ⟨pt, tableIndex va⟩ = 0)
    (pages : ℕ → Prop) : HeapChange R kept pages m (m.freePageStructure va cr3) := by
  have hstay : HeapChange R kept pages m m := ⟨⟨tag, h⟩, .same rfl rfl⟩
  obtain ⟨-, hptr, hdir⟩ := indices_lt va
  unfold Machine.freePageStructure
  rw [hcr3]
  dsimp only
  have hplace₀ := heapPlace_root R tag va
  cases hpml : present (m.load ⟨R, pmlIndex va⟩) with
  | false => exact hstay
  | true =>
  have hchild₀ : heapLinks.child 0 (pmlIndex va) (m.load ⟨R, pmlIndex va⟩) = _ := heapLinks_present hpml fun _ => hva
  generalize align (m.load ⟨R, pmlIndex va⟩) = pdpt at hchild₀ ⊢
  have hplace₁ := heapPlace_table R (h.sided.link hplace₀ hchild₀).1 (by decide) hptr
  cases hpdpt : present (m.load ⟨pdpt, directoryPtrIndex va⟩) with
  | false => exact hstay
  | true =>
  have hchild₁ : heapLinks.child 1 (directoryPtrIndex va) (m.load ⟨pdpt, directoryPtrIndex va⟩) = _ :=
    heapLinks_present hpdpt fun habsurd => absurd habsurd (by decide)
  generalize align (m.load ⟨pdpt, directoryPtrIndex va⟩) = pdir at hchild₁ ⊢
  have hplace₂ := heapPlace_table R (h.sided.link hplace₁ hchild₁).1 (by decide) hdir
  cases hpdir : present (m.load ⟨pdir, directoryIndex va⟩) with
  | false => exact hstay
  | true =>
  have hchild₂ : heapLinks.child 2 (directoryIndex va) (m.load ⟨pdir, directoryIndex va⟩) = _ :=
    heapLinks_present hpdir fun habsurd => absurd habsurd (by decide)
  generalize align (m.load ⟨pdir, directoryIndex va⟩) = pt at hchild₂ ⊢
  have hwalk : heapLinks.walk m.memory 0 R (indices va) = some pt := by
    unfold indices
    rw [Links.walk_cons_some _ hchild₀, Links.walk_cons_some _ hchild₁, Links.walk_cons_some _ hchild₂]
    rfl
  simp only [Bool.not_true, Bool.false_eq_true, if_false, Bool.not_eq_true']
  rw [Machine.store_zero (hleaf pt hwalk)]
  split
  next => exact hstay
  next hclear₃ =>
  obtain ⟨tag₂, h₂, heffect₂, hkeep₂⟩ :=
    h.stage hplace₂ (by decide) hchild₂ (Bool.not_eq_false _ ▸ hclear₃) pages
  obtain ⟨hplace₁, hload₁⟩ := hkeep₂ 1 (by decide) _ hplace₁
  obtain ⟨hplace₀, hload₀⟩ := hkeep₂ 0 (by decide) _ hplace₀
  rw [← hload₀] at hchild₀
  rw [← hload₁] at hchild₁
  rw [(heapLinks_child hchild₂).2.1]
  generalize (m.freeFrame pt).store ⟨pdir, directoryIndex va⟩ 0 = m₂ at h₂ heffect₂ hchild₀ hchild₁ ⊢
  split
  next => exact ⟨⟨tag₂, h₂⟩, heffect₂⟩
  next hclear₂ =>
  obtain ⟨tag₁, h₁, heffect₁, hkeep₁⟩ :=
    h₂.stage hplace₁ (by decide) hchild₁ (Bool.not_eq_false _ ▸ hclear₂) pages
  obtain ⟨hplace₀, hload₀⟩ := hkeep₁ 0 (by decide) _ hplace₀
  rw [← hload₀] at hchild₀
  rw [(heapLinks_child hchild₁).2.1]
  generalize (m₂.freeFrame pdir).store ⟨pdpt, directoryPtrIndex va⟩ 0 = m₁ at h₁ heffect₁ hchild₀ ⊢
  split
  next => exact ⟨⟨tag₁, h₁⟩, heffect₂.trans heffect₁⟩
  next hclear₁ =>
  obtain ⟨tag₀, h₀, heffect₀, -⟩ :=
    h₁.stage hplace₀ (by decide) hchild₀ (Bool.not_eq_false _ ▸ hclear₁) pages
  rw [(heapLinks_child hchild₀).2.1]
  exact ⟨⟨tag₀, h₀⟩, (heffect₂.trans heffect₁).trans heffect₀⟩

/-- `deallocate_frame` on a page of the slot. -/
theorem HeapTables.deallocateFrame (h : HeapTables R kept tag m) (hcr3 : align cr3 = R)
    (hva : pmlIndex va = reservedHeapMappings) :
    HeapChange R kept (· = va) m (m.deallocateFrame (m.getPage va cr3 false false).1 va cr3) := by
  have hmirror : pmlIndex va ≠ 510 := by
    rw [hva]
    decide
  rw [m.getPage_false cr3 false hmirror, hcr3]
  unfold Machine.deallocateFrame
  cases hwalk : paging.walk m.memory 0 R (indices va) with
  | none => exact ⟨⟨tag, h⟩, .same rfl rfl⟩
  | some pt =>
    dsimp only [Option.map_some]
    cases hpresent : present (m.load ⟨pt, tableIndex va⟩) with
    | false => exact ⟨⟨tag, h⟩, .same rfl rfl⟩
    | true =>
      rw [← walk_heapLinks hva] at hwalk
      have hroot : Links.AtLevel R tag 0 R := Or.inl ⟨rfl, rfl⟩
      have htag : tag pt = some (3, ()) := by
        rcases h.sided.atLevel_walk hroot (indices_depth va) (indices_mem va) hwalk with ⟨habsurd, -⟩ | ⟨-, s, hs⟩
        · exact absurd habsurd (by simp [indices])
        · exact hs
      have hplace : HeapPlace R tag 3 ⟨pt, tableIndex va⟩ := heapPlace_table R htag (by decide) (tableIndex_lt va)
      have hchild : heapLinks.child 3 (tableIndex va) (m.load ⟨pt, tableIndex va⟩) = _ :=
        heapLinks_present hpresent fun habsurd => absurd habsurd (by decide)
      have hpage : HeapPage R m va (align (m.load ⟨pt, tableIndex va⟩)) := by
        unfold HeapPage heapPath
        rw [Links.walk_snoc, hwalk]
        exact hchild
      obtain ⟨tag', h', heffect, -, hchange⟩ := h.release hplace hchild
        (fun habsurd => absurd habsurd (by decide)) (· = va) fun _ => ⟨va, rfl, hpage⟩
      have hne : pt ≠ align (m.load ⟨pt, tableIndex va⟩) := h.sided.ne_child hplace hchild
      have hstays := h.sided.walk_confined hchange hroot (indices_depth va) (indices_mem va) hwalk hne
      generalize hcleared : (m.freeFrame (align (m.load ⟨pt, tableIndex va⟩))).store ⟨pt, tableIndex va⟩ 0 = m'
        at h' heffect hstays
      simp only [Bool.not_true, Bool.false_eq_true, if_false]
      obtain ⟨hkept', heffect'⟩ := h'.freePageStructure hcr3 hva (by
        intro pt' hpt'
        obtain rfl : pt' = pt := Option.some.inj (hpt'.symm.trans hstays)
        rw [← hcleared]
        exact Links.store_self _ _ _ _) (· = va)
      exact ⟨hkept', heffect.trans heffect'⟩

end Release

section Calls

variable {R : ℕ} {kept : ℕ → Prop} {m : Machine} {cr3 : ℕ}

/-- A round of `deallocate`. -/
theorem HeapKept.deallocatePage (h : HeapKept R kept m) (hcr3 : align cr3 = R) {va : ℕ}
    (hva : pmlIndex va = reservedHeapMappings) :
    HeapChange R kept (· = va) m (Machine.deallocatePage cr3 m va) := by
  obtain ⟨tag, h⟩ := h
  have hlocked : HeapTables R kept tag (m.lock .frame) := h.same rfl rfl
  obtain ⟨hkept, heffect⟩ := hlocked.deallocateFrame hcr3 hva
  have hbefore : HeapEffect R kept (· = va) m (m.lock .frame) := .same rfl rfl
  exact ⟨hkept.same rfl rfl, (hbefore.trans heffect).trans (.same rfl rfl)⟩

/-- The loop of `deallocate`. -/
theorem HeapKept.deallocateRun (h : HeapKept R kept m) (hcr3 : align cr3 = R) (vas : List ℕ)
    (hvas : ∀ a ∈ vas, pmlIndex a = reservedHeapMappings) :
    HeapChange R kept (· ∈ vas) m (run (Machine.deallocatePage cr3) m vas) := by
  induction vas generalizing m with
  | nil => exact ⟨h, .same rfl rfl⟩
  | cons va vas ih =>
    rw [List.forall_mem_cons] at hvas
    obtain ⟨hkept, heffect⟩ := h.deallocatePage hcr3 hvas.1
    obtain ⟨hkept', heffect'⟩ := ih hkept hvas.2
    refine ⟨hkept', (heffect.mono ?_).trans (heffect'.mono ?_)⟩
    · rintro p rfl
      exact List.mem_cons_self
    · exact fun p hp => List.mem_cons_of_mem va hp

/-- `deallocate` on the heap slot. -/
theorem HeapKept.deallocate (h : HeapKept R kept m) (hcr3 : align cr3 = R) {start amount : ℕ}
    (hpages : ∀ a ∈ Machine.deallocatePages start amount, pmlIndex a = reservedHeapMappings) :
    HeapChange R kept (· ∈ Machine.deallocatePages start amount) m (m.deallocate start amount cr3) := by
  unfold Machine.deallocate
  split
  · have hlocked : HeapKept R kept (m.lock .tlb) := h.same rfl rfl
    obtain ⟨hkept, heffect⟩ := hlocked.deallocateRun hcr3 _ hpages
    have hbefore : HeapEffect R kept (· ∈ Machine.deallocatePages start amount) m (m.lock .tlb) := .same rfl rfl
    exact ⟨hkept.same rfl rfl, (hbefore.trans heffect).trans (.same rfl rfl)⟩
  · exact ⟨h, .same rfl rfl⟩

/-- A round of `allocate`, which stops only at its own page. -/
theorem HeapKept.allocatePage {st : Machine × Option ℕ} (h : HeapKept R kept st.1) (hcr3 : align cr3 = R) {va : ℕ}
    (hva : pmlIndex va = reservedHeapMappings) (kernel readonly : Bool) :
    HeapChange R kept (fun _ => False) st.1 (Machine.allocatePage kernel readonly cr3 st va).1 ∧
      ((Machine.allocatePage kernel readonly cr3 st va).2 = st.2 ∨
        (Machine.allocatePage kernel readonly cr3 st va).2 = some va) := by
  unfold Machine.allocatePage
  by_cases hstop : st.2 ≠ none
  · rw [if_pos hstop]
    exact ⟨⟨h, .same rfl rfl⟩, Or.inl rfl⟩
  rw [if_neg hstop]
  dsimp only
  obtain ⟨tag, h⟩ := h
  have hlocked : HeapTables R kept tag (st.1.lock .frame) := h.same rfl rfl
  have hbefore : HeapEffect R kept (fun _ => False) st.1 (st.1.lock .frame) := .same rfl rfl
  obtain ⟨tag', h', heffect, hslot⟩ := hlocked.getPage hcr3 hva !kernel
  split
  next => exact ⟨⟨⟨tag', h'⟩, hbefore.trans heffect⟩, Or.inr rfl⟩
  next p hp =>
    obtain ⟨htag, hindex⟩ := hslot p hp
    obtain ⟨hkept, heffect'⟩ := h'.allocateFrame htag hindex kernel readonly
    have hall := (hbefore.trans heffect).trans heffect'
    split
    · exact ⟨⟨hkept, hall⟩, Or.inr rfl⟩
    · exact ⟨⟨hkept.same rfl rfl, hall.trans (.same rfl rfl)⟩, Or.inl (not_ne_iff.mp hstop).symm⟩

/-- The loop of `allocate`. -/
theorem HeapKept.allocateRun (st : Machine × Option ℕ) (h : HeapKept R kept st.1) (hcr3 : align cr3 = R) (vas : List ℕ)
    (hvas : ∀ a ∈ vas, pmlIndex a = reservedHeapMappings) (kernel readonly : Bool) :
    HeapChange R kept (fun _ => False) st.1 (run (Machine.allocatePage kernel readonly cr3) st vas).1 ∧
      ∀ addr, (run (Machine.allocatePage kernel readonly cr3) st vas).2 = some addr → st.2 = some addr ∨ addr ∈ vas := by
  induction vas generalizing st with
  | nil => exact ⟨⟨h, .same rfl rfl⟩, fun addr haddr => Or.inl haddr⟩
  | cons va vas ih =>
    rw [List.forall_mem_cons] at hvas
    obtain ⟨⟨hkept, heffect⟩, hstop⟩ := h.allocatePage hcr3 hvas.1 kernel readonly
    obtain ⟨⟨hkept', heffect'⟩, hstop'⟩ := ih _ hkept hvas.2
    refine ⟨⟨hkept', heffect.trans heffect'⟩, ?_⟩
    intro addr haddr
    rcases hstop' addr haddr with hhere | hlater
    · rcases hstop with hsame | hva
      · exact Or.inl (hsame ▸ hhere)
      · rw [hva] at hhere
        exact Or.inr (Option.some.inj hhere ▸ List.mem_cons_self)
    · exact Or.inr (List.mem_cons_of_mem va hlater)

/-- `allocate` on the heap slot, also when it fails and gives back what it has mapped. -/
theorem HeapKept.allocate (h : HeapKept R kept m) (hcr3 : align cr3 = R) {start amount : ℕ}
    (hpages : ∀ a ∈ Machine.allocatePages start amount, pmlIndex a = reservedHeapMappings) (kernel readonly : Bool) :
    HeapChange R kept (· ∈ Machine.allocatePages start amount) m (m.allocate start amount kernel readonly cr3).2 := by
  obtain ⟨⟨hkept, heffect⟩, hstop⟩ :=
    HeapKept.allocateRun (m, none) h hcr3 (Machine.allocatePages start amount) hpages kernel readonly
  unfold Machine.allocate
  dsimp only
  generalize run (Machine.allocatePage kernel readonly cr3) (m, none) (Machine.allocatePages start amount) = st
    at hkept heffect hstop ⊢
  have hall : HeapEffect R kept (· ∈ Machine.allocatePages start amount) m st.1 :=
    heffect.mono fun _ habsurd => habsurd.elim
  split
  next => exact ⟨hkept, hall⟩
  next addr haddr =>
    have hsub := Machine.deallocatePages_subset ((hstop addr haddr).resolve_left (by simp))
    have hunlocked : HeapKept R kept (st.1.unlock .frame) := hkept.same rfl rfl
    obtain ⟨hkept', heffect'⟩ := hunlocked.deallocate hcr3 fun a ha => hpages a (hsub a ha)
    have hbefore : HeapEffect R kept (· ∈ Machine.allocatePages start amount) st.1 (st.1.unlock .frame) := .same rfl rfl
    exact ⟨hkept', (hall.trans hbefore).trans (heffect'.mono hsub)⟩

end Calls

end Cthulhu
