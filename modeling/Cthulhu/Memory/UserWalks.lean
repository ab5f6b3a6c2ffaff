import Cthulhu.Memory.UserTables

/-!
# Walks and the tables of the user half

What `__get_page`, `allocate_frame`, `free_page_structure` and `deallocate_frame` do to the tables of an
address space. A walk with the user variant opens every table it creates. A walk with the
kernel variant does so only in the kernel half, or where it finds every table.
-/

namespace Cthulhu

open Lib

/-- The walk opens the tables it creates for user mode, or it is in the kernel half, or it creates none. -/
def Machine.WalkReady (m : Machine) (va cr3 : ℕ) (user : Bool) : Prop :=
  pmlIndex va < 256 → user = true ∨ (m.getPage va cr3 false false).1 ≠ none

/-- The page is not present, or clearing it gives back no table: it maps memory outside the pool, or a
frame in use that is none of the tables. -/
def Machine.ReleaseReady (cr3 : ℕ) (m : Machine) (va : ℕ) : Prop :=
  present (m.pageEntry va cr3) = true →
    Unmanaged m.framePool (align (m.pageEntry va cr3)) ∨
      IsFrame m.framePool (align (m.pageEntry va cr3)) ∧ 1 ≤ usageCount m.framePool (align (m.pageEntry va cr3)) ∧
        ¬ paging.IsTable m.memory {align cr3} (align (m.pageEntry va cr3))

section Walk

variable {R : ℕ} {tag : ℕ → Option (ℕ × Bool)} {m : Machine} {va cr3 : ℕ}

/-- What a walk finds depends on the memory only. -/
theorem Machine.WalkReady.same {m' : Machine} {user : Bool} (h : m.WalkReady va cr3 user) (hmem : m'.memory = m.memory)
    (hva : pmlIndex va ≠ 510) : m'.WalkReady va cr3 user := by
  unfold Machine.WalkReady at h ⊢
  rw [m.getPage_false cr3 false hva] at h
  rw [m'.getPage_false cr3 false hva, hmem]
  exact h

/-- The entry of the root that an address is walked through. -/
theorem above_root (R : ℕ) (tag : ℕ → Option (ℕ × Bool)) (va : ℕ) :
    Above R tag 0 (userHalf (pmlIndex va)) ⟨R, pmlIndex va⟩ :=
  .root (by decide) (indices_mem va _ List.mem_cons_self)

/-- The entry of a pointer table that an address is walked through. -/
theorem above_directoryPtr (R : ℕ) {pdpt : ℕ} {u : Bool} (hpdpt : tag pdpt = some (1, u)) (va : ℕ) :
    Above R tag 1 u ⟨pdpt, directoryPtrIndex va⟩ :=
  .below hpdpt (by decide) (indices_mem va _ (by simp [indices]))

/-- The entry of a directory that an address is walked through. -/
theorem above_directory (R : ℕ) {pdir : ℕ} {u : Bool} (hpdir : tag pdir = some (2, u)) (va : ℕ) :
    Above R tag 2 u ⟨pdir, directoryIndex va⟩ :=
  .below hpdir (by decide) (indices_mem va _ (by simp [indices]))

/-- One level of an allocating walk keeps the tables, and the table it returns is of the half walked
through. Either the level changed nothing, or that table is new and clear. -/
theorem UserTables.descend (h : UserTables R tag m) {l : ℕ} {u user : Bool} {e : Slot} (hplace : Above R tag l u e)
    (hmirror : ¬ (l = 0 ∧ e.index = 510)) (huser : u = true → user = true) :
    ∃ tag', UserTables R tag' (m.descend e true user).2 ∧ (∀ T, tag T ≠ none → tag' T = tag T) ∧
      ∀ C, (m.descend e true user).1 = some C → tag' C = some (l + 1, u) ∧
        ((m.descend e true user).2 = m ∧ paging.child l e.index (m.load e) = some C ∨
          ∀ i, (m.descend e true user).2.memory C i = 0) := by
  have hl : l < 3 := Nat.lt_of_succ_lt_succ hplace.lt_depth
  cases hpresent : present (m.load e) with
  | true =>
    unfold Machine.descend
    simp only [hpresent, if_true]
    refine ⟨tag, h, fun _ _ => rfl, fun C hC => ?_⟩
    have hchild := child_upper hl hmirror hpresent
    rw [Option.some.inj hC] at hchild
    exact ⟨(h.sided.link hplace hchild).1, Or.inl ⟨trivial, hchild⟩⟩
  | false =>
    by_cases hzero : (getFreeFrame m.framePool).1 = 0
    · unfold Machine.descend
      simp only [hpresent, Bool.false_eq_true, if_false, if_true, Machine.getFreeFrame_eq h.nonempty, hzero]
      exact ⟨tag, h.same rfl rfl, fun _ _ => rfl, fun C hC => absurd hC (by simp)⟩
    · obtain ⟨hroot, htag⟩ := h.fresh hzero
      obtain ⟨hframe, -, -, -, -, -⟩ := h.pool.taken rfl hzero
      obtain ⟨m', hdescend, hpool, hmem, -, -⟩ :=
        descend_fresh h.pool h.nonempty hpresent hzero (ne_of_untagged hroot htag hplace) user
      have hw := child_upper hl hmirror (present_tableEntry (getFreeFrame m.framePool).1 user)
      rw [align_tableEntry user (h.pool.frame_aligned hframe).1] at hw
      have hopen : Opens u (tableEntry (getFreeFrame m.framePool).1 user) := by
        intro hu
        unfold tableEntry
        rw [bit_setBit_of_ne _ _ (by decide), bit_setBit_self, huser hu]
      rw [hdescend]
      refine ⟨_, h.link hplace (child_of_not_present hpresent) hzero hw hopen hpool hmem, fun T hT => ?_, fun C hC => ?_⟩
      · refine Function.update_of_ne (fun heq => hT ?_) _ _
        rw [heq, htag]
      · rw [← Option.some.inj hC]
        refine ⟨Function.update_self _ _ _, Or.inr fun i => ?_⟩
        rw [hmem, Links.store_of_ne _ _ fun hhere => ne_of_untagged hroot htag hplace hhere.1.symm,
          Function.update_self]

/-- An allocating walk that opens what it creates keeps the tables, and finds a leaf table of the half;
where a table was missing, the entry it finds is zero. -/
theorem UserTables.getPage_open (h : UserTables R tag m) (hcr3 : align cr3 = R) (hva : pmlIndex va ≠ 510) {user : Bool}
    (huser : userHalf (pmlIndex va) = true → user = true) :
    ∃ tag', UserTables R tag' (m.getPage va cr3 true user).2 ∧ (∀ T, tag T ≠ none → tag' T = tag T) ∧
      ∀ p, (m.getPage va cr3 true user).1 = some p → tag' p.table = some (3, userHalf (pmlIndex va)) ∧
        (paging.walk m.memory 0 R (indices va) = none → (m.getPage va cr3 true user).2.load p = 0) := by
  unfold Machine.getPage
  rw [hcr3]
  dsimp only
  obtain ⟨tag₁, h₁, hkeep₁, hfound₁⟩ := h.descend (above_root R tag va) (fun hmirror => hva hmirror.2) huser
  cases hpdpt : (m.descend ⟨R, pmlIndex va⟩ true user).1 with
  | none => exact ⟨tag₁, h₁, hkeep₁, fun p hp => absurd hp (by simp)⟩
  | some pdpt =>
  obtain ⟨htag₁, hcase₁⟩ := hfound₁ pdpt hpdpt
  dsimp only
  generalize (m.descend ⟨R, pmlIndex va⟩ true user).2 = m₁ at h₁ hcase₁
  obtain ⟨tag₂, h₂, hkeep₂, hfound₂⟩ := h₁.descend (above_directoryPtr R htag₁ va)
    (fun hmirror => absurd hmirror.1 (by decide)) huser
  cases hpdir : (m₁.descend ⟨pdpt, directoryPtrIndex va⟩ true user).1 with
  | none =>
    exact ⟨tag₂, h₂, fun T hT => (hkeep₂ T (by rwa [hkeep₁ T hT])).trans (hkeep₁ T hT), fun p hp => absurd hp (by simp)⟩
  | some pdir =>
  obtain ⟨htag₂, hcase₂⟩ := hfound₂ pdir hpdir
  dsimp only
  generalize (m₁.descend ⟨pdpt, directoryPtrIndex va⟩ true user).2 = m₂ at h₂ hcase₂
  obtain ⟨tag₃, h₃, hkeep₃, hfound₃⟩ := h₂.descend (above_directory R htag₂ va)
    (fun hmirror => absurd hmirror.1 (by decide)) huser
  have hkeep (T : ℕ) (hT : tag T ≠ none) : tag₃ T = tag T := by
    have hone := hkeep₁ T hT
    have htwo := hkeep₂ T (by rwa [hone])
    rw [hkeep₃ T (by rwa [htwo, hone]), htwo, hone]
  cases hpt : (m₂.descend ⟨pdir, directoryIndex va⟩ true user).1 with
  | none => exact ⟨tag₃, h₃, hkeep, fun p hp => absurd hp (by simp)⟩
  | some pt =>
    obtain ⟨htag₃, hcase₃⟩ := hfound₃ pt hpt
    refine ⟨tag₃, h₃, hkeep, fun p hp => ?_⟩
    rw [← Option.some.inj hp]
    refine ⟨htag₃, fun hmissing => ?_⟩
    -- a level that changed nothing had its table from an older one
    rcases hcase₃ with ⟨-, hchild₂⟩ | hclear
    · rcases hcase₂ with ⟨rfl, hchild₁⟩ | hclear
      · rcases hcase₁ with ⟨rfl, hchild₀⟩ | hclear
        · rw [indices, Links.walk_cons_some _ hchild₀, Links.walk_cons_some _ hchild₁,
            Links.walk_cons_some _ hchild₂] at hmissing
          exact absurd hmissing (by simp [Links.walk])
        · rw [Machine.load, hclear, child_zero] at hchild₁
          exact absurd hchild₁ (by simp)
      · rw [Machine.load, hclear, child_zero] at hchild₂
        exact absurd hchild₂ (by simp)
    · exact hclear _

/-- The tables on the way of a walk have the half of its address, and their entries open it. -/
theorem UserTables.path (h : UserTables R tag m) {pt : ℕ} (hwalk : paging.walk m.memory 0 R (indices va) = some pt) :
    ∃ pdpt pdir, paging.child 0 (pmlIndex va) (m.memory R (pmlIndex va)) = some pdpt ∧
      paging.child 1 (directoryPtrIndex va) (m.memory pdpt (directoryPtrIndex va)) = some pdir ∧
      paging.child 2 (directoryIndex va) (m.memory pdir (directoryIndex va)) = some pt ∧
      Above R tag 1 (userHalf (pmlIndex va)) ⟨pdpt, directoryPtrIndex va⟩ ∧
      Above R tag 2 (userHalf (pmlIndex va)) ⟨pdir, directoryIndex va⟩ ∧ tag pt = some (3, userHalf (pmlIndex va)) := by
  unfold indices at hwalk
  cases hpdpt : paging.child 0 (pmlIndex va) (m.memory R (pmlIndex va)) with
  | none =>
    rw [Links.walk_cons_none _ hpdpt] at hwalk
    cases hwalk
  | some pdpt =>
    rw [Links.walk_cons_some _ hpdpt] at hwalk
    cases hpdir : paging.child 1 (directoryPtrIndex va) (m.memory pdpt (directoryPtrIndex va)) with
    | none =>
      rw [Links.walk_cons_none _ hpdir] at hwalk
      cases hwalk
    | some pdir =>
      rw [Links.walk_cons_some _ hpdir] at hwalk
      cases hpt : paging.child 2 (directoryIndex va) (m.memory pdir (directoryIndex va)) with
      | none =>
        rw [Links.walk_cons_none _ hpt] at hwalk
        cases hwalk
      | some pt' =>
        rw [Links.walk_cons_some _ hpt] at hwalk
        obtain rfl : pt' = pt := Option.some.inj hwalk
        have htag₁ := (h.sided.link (above_root R tag va) hpdpt).1
        have hplace₁ := above_directoryPtr R htag₁ va
        have htag₂ := (h.sided.link hplace₁ hpdir).1
        have hplace₂ := above_directory R htag₂ va
        exact ⟨pdpt, pdir, rfl, hpdir, hpt, hplace₁, hplace₂, (h.sided.link hplace₂ hpt).1⟩

/-- An allocating walk that is ready keeps the tables, and finds the entry of its page in a leaf table of
the half. -/
theorem UserTables.getPage (h : UserTables R tag m) (hcr3 : align cr3 = R) (hva : pmlIndex va ≠ 510) {user : Bool}
    (hready : m.WalkReady va cr3 user) :
    ∃ tag', UserTables R tag' (m.getPage va cr3 true user).2 ∧ (∀ T, tag T ≠ none → tag' T = tag T) ∧
      ∀ p, (m.getPage va cr3 true user).1 = some p → tag' p.table = some (3, userHalf (pmlIndex va)) ∧
        (m.getPage va cr3 true user).2.load p = m.pageEntry va cr3 := by
  unfold Machine.WalkReady at hready
  unfold Machine.pageEntry
  rw [m.getPage_false cr3 false hva, hcr3] at hready ⊢
  cases hwalk : paging.walk m.memory 0 R (indices va) with
  | none =>
    have hopen : userHalf (pmlIndex va) = true → user = true := by
      intro hhalf
      refine (hready (of_decide_eq_true hhalf)).resolve_right fun hfound => hfound ?_
      rw [hwalk]
      rfl
    obtain ⟨tag', h', hkeep, hfound⟩ := h.getPage_open hcr3 hva hopen
    exact ⟨tag', h', hkeep, fun p hp => ⟨(hfound p hp).1, (hfound p hp).2 hwalk⟩⟩
  | some pt =>
    rw [Machine.getPage_of_walk (hcr3.symm ▸ hwalk)]
    obtain ⟨-, -, -, -, -, -, -, htag⟩ := h.path hwalk
    refine ⟨tag, h, fun _ _ => rfl, fun p hp => ?_⟩
    rw [← Option.some.inj hp]
    exact ⟨htag, rfl⟩

/-- `allocate_frame` keeps the tables. -/
theorem UserTables.allocateFrame (h : UserTables R tag m) {p : Slot} {u : Bool} (hp : tag p.table = some (3, u))
    (kernel readonly exec : Bool) : UserTables R tag (m.allocateFrame p kernel readonly exec).2 := by
  have hgiven : FrameGiven p kernel readonly exec m (m.allocateFrame p kernel readonly exec) := by
    refine frameGiven_of_apart h.pool h.nonempty h.below (fun hne heq => ?_) kernel readonly exec
    rw [heq, (h.fresh hne).2] at hp
    exact absurd hp (by simp)
  cases hgiven with
  | rewritten hpresent hentry hm =>
    rw [hm]
    exact h.storeLeaf hp _
  | exhausted habsent hnone hentry hm =>
    rw [hm]
    exact h.same rfl rfl
  | fresh f filled habsent hf hne hoff hentry hmem hpool hactive =>
    subst hf
    refine h.takeFrame hne hpool fun hplace hT => ?_
    rw [hmem, Links.store_of_ne _ _ fun hhere => h.leaf_ne hp hplace hhere.1, hoff _ hT]

end Walk

section Release

variable {R : ℕ} {tag : ℕ → Option (ℕ × Bool)} {m : Machine} {va cr3 : ℕ}

/-- One stage of `free_page_structure` keeps the entries of the levels above it. -/
theorem UserTables.stage (h : UserTables R tag m) {l C : ℕ} {u : Bool} {e : Slot} (hplace : Above R tag l u e)
    (hchild : paging.child l e.index (m.load e) = some C) (hclear : m.tableClear C = true) :
    ∃ tag', UserTables R tag' ((m.freeFrame (align (m.load e))).store e 0) ∧
      ∀ k < l, ∀ e' : Slot, Above R tag k u e' →
        Above R tag' k u e' ∧ ((m.freeFrame (align (m.load e))).store e 0).load e' = m.load e' := by
  rw [(present_align_of_child (Nat.lt_of_succ_lt_succ hplace.lt_depth) hchild).2]
  obtain ⟨tag', h', hother, hwords⟩ := h.releaseTable hplace hchild hclear
  refine ⟨tag', h', fun k hk e' hplace' => ?_⟩
  have hC : e'.table ≠ C := hplace'.ne_of_tag h.sided.root (h.sided.link hplace hchild).1 (by omega)
  have he : e'.table ≠ e.table := by
    intro heq
    cases hplace with
    | root _ _ => exact absurd hk (by simp)
    | below hT _ _ => exact hplace'.ne_of_tag h.sided.root hT hk heq
  exact ⟨hplace'.congr (hother _ hC), congrFun (hwords _ hC he) e'.index⟩

/-- `free_page_structure` keeps the tables it does not give back. -/
theorem UserTables.freePageStructure (h : UserTables R tag m) (hcr3 : align cr3 = R) (hva : pmlIndex va ≠ 510) :
    ∃ tag', UserTables R tag' (m.freePageStructure va cr3) := by
  unfold Machine.freePageStructure
  rw [hcr3]
  dsimp only
  have hplace₀ := above_root R tag va
  cases hpml : present (m.load ⟨R, pmlIndex va⟩) with
  | false => exact ⟨tag, h⟩
  | true =>
  have hchild₀ : paging.child 0 (pmlIndex va) (m.load ⟨R, pmlIndex va⟩) = _ :=
    child_upper (by decide) (fun hmirror => hva hmirror.2) hpml
  have htag₁ := (h.sided.link hplace₀ hchild₀).1
  generalize align (m.load ⟨R, pmlIndex va⟩) = pdpt at hchild₀ htag₁ ⊢
  have hplace₁ := above_directoryPtr R htag₁ va
  cases hptr : present (m.load ⟨pdpt, directoryPtrIndex va⟩) with
  | false => exact ⟨tag, h⟩
  | true =>
  have hchild₁ : paging.child 1 (directoryPtrIndex va) (m.load ⟨pdpt, directoryPtrIndex va⟩) = _ :=
    child_upper (by decide) (fun hmirror => absurd hmirror.1 (by decide)) hptr
  have htag₂ := (h.sided.link hplace₁ hchild₁).1
  generalize align (m.load ⟨pdpt, directoryPtrIndex va⟩) = pdir at hchild₁ htag₂ ⊢
  have hplace₂ := above_directory R htag₂ va
  cases hdir : present (m.load ⟨pdir, directoryIndex va⟩) with
  | false => exact ⟨tag, h⟩
  | true =>
  have hchild₂ : paging.child 2 (directoryIndex va) (m.load ⟨pdir, directoryIndex va⟩) = _ :=
    child_upper (by decide) (fun hmirror => absurd hmirror.1 (by decide)) hdir
  have htag₃ := (h.sided.link hplace₂ hchild₂).1
  generalize align (m.load ⟨pdir, directoryIndex va⟩) = pt at hchild₂ htag₃ ⊢
  simp only [Bool.not_true, Bool.false_eq_true, if_false, Bool.not_eq_true']
  -- the leaf entry is cleared, and no entry above it is written
  have h₃ := h.storeLeaf (p := ⟨pt, tableIndex va⟩) htag₃ 0
  have hload₃ {l : ℕ} {e : Slot} (hplace : Above R tag l (userHalf (pmlIndex va)) e) :
      (m.store ⟨pt, tableIndex va⟩ 0).load e = m.load e :=
    Links.store_of_ne m.memory 0 fun hhere => h.leaf_ne htag₃ hplace hhere.1
  rw [← hload₃ hplace₀] at hchild₀
  rw [← hload₃ hplace₁] at hchild₁
  rw [← hload₃ hplace₂] at hchild₂
  generalize m.store ⟨pt, tableIndex va⟩ 0 = m₃ at h₃ hchild₀ hchild₁ hchild₂ ⊢
  split
  next => exact ⟨tag, h₃⟩
  next hclear₃ =>
  obtain ⟨tag₂, h₂, hkeep₂⟩ := h₃.stage hplace₂ hchild₂ (Bool.not_eq_false _ ▸ hclear₃)
  obtain ⟨hplace₁, hload₁⟩ := hkeep₂ 1 (by decide) _ hplace₁
  obtain ⟨hplace₀, hload₀⟩ := hkeep₂ 0 (by decide) _ hplace₀
  rw [← hload₀] at hchild₀
  rw [← hload₁] at hchild₁
  generalize (m₃.freeFrame (align (m₃.load ⟨pdir, directoryIndex va⟩))).store ⟨pdir, directoryIndex va⟩ 0 = m₂
    at h₂ hchild₀ hchild₁ ⊢
  split
  next => exact ⟨tag₂, h₂⟩
  next hclear₂ =>
  obtain ⟨tag₁, h₁, hkeep₁⟩ := h₂.stage hplace₁ hchild₁ (Bool.not_eq_false _ ▸ hclear₂)
  obtain ⟨hplace₀, hload₀⟩ := hkeep₁ 0 (by decide) _ hplace₀
  rw [← hload₀] at hchild₀
  generalize (m₂.freeFrame (align (m₂.load ⟨pdpt, directoryPtrIndex va⟩))).store ⟨pdpt, directoryPtrIndex va⟩ 0 = m₁
    at h₁ hchild₀ ⊢
  split
  next => exact ⟨tag₁, h₁⟩
  next hclear₁ =>
  obtain ⟨tag₀, h₀, -⟩ := h₁.stage hplace₀ hchild₀ (Bool.not_eq_false _ ▸ hclear₁)
  exact ⟨tag₀, h₀⟩

/-- `deallocate_frame` keeps the tables when the page it clears maps none of them. -/
theorem UserTables.deallocateFrame (h : UserTables R tag m) (hcr3 : align cr3 = R) (hva : pmlIndex va ≠ 510)
    (hready : Machine.ReleaseReady cr3 m va) :
    ∃ tag', UserTables R tag' (m.deallocateFrame (m.getPage va cr3 false false).1 va cr3) := by
  unfold Machine.ReleaseReady Machine.pageEntry at hready
  rw [m.getPage_false cr3 false hva, hcr3] at hready ⊢
  unfold Machine.deallocateFrame
  cases hwalk : paging.walk m.memory 0 R (indices va) with
  | none => exact ⟨tag, h⟩
  | some pt =>
    rw [hwalk] at hready
    obtain ⟨-, -, -, -, -, -, -, htag⟩ := h.path hwalk
    simp only [Option.map_some] at hready ⊢
    cases hpresent : present (m.load ⟨pt, tableIndex va⟩) with
    | false => exact ⟨tag, h⟩
    | true =>
      simp only [Bool.not_true, Bool.false_eq_true, if_false]
      have hfreed : UserTables R tag (m.freeFrame (align (m.load ⟨pt, tableIndex va⟩))) := by
        rcases hready hpresent with hout | ⟨hframe, hused, hdata⟩
        · rw [Machine.freeFrame_unmanaged (by rwa [align_align])]
          exact h
        · refine h.releaseData hframe hused (fun hroot => hdata ⟨0, by decide, ?_⟩) ?_
          · rw [hroot]
            exact Finset.mem_singleton_self R
          · by_contra htagged
            obtain ⟨⟨l, u⟩, hl⟩ := Option.ne_none_iff_exists'.mp htagged
            obtain ⟨k, T, i, rfl, hplace, -⟩ := h.sided.linked hl
            exact hdata ⟨k + 1, hplace.lt_depth, h.sided.mem_tables hl⟩
      exact (hfreed.storeLeaf (p := ⟨pt, tableIndex va⟩) htag 0).freePageStructure hcr3 hva

end Release

end Cthulhu
