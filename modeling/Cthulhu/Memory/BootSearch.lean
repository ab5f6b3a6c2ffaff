import Cthulhu.Memory.BootPool

/-!
# Where the boot pool is sound

An entry is searched well in two cases. Either none of its test points is used, and it
becomes one section, or its last test point lies below its length and is used, so that every
scan meets a used page before the entry ends. In any other entry the last scan finds nothing,
and the section it makes runs past the end of the entry or over pages that were not tested.
-/

namespace Cthulhu

/-- No address of the entry wraps, nor does a counter that goes through it by pages. -/
def MemEntry.InRange (e : MemEntry) : Prop := e.address + e.size + 0x1000 ≤ 2 ^ 64

/-- The entries have no address in common. -/
def MemEntry.Apart (e q : MemEntry) : Prop := e.address + e.size ≤ q.address ∨ q.address + q.size ≤ e.address

/-- The last address the search would have to test in the entry. -/
def MemEntry.lastTest (e : MemEntry) : ℕ := e.address + 0x1000 * ((e.size - 1) / 0x1000)

/-- No test point is used, or the last one is, and lies below the length. -/
def MemEntry.Searchable (used : ℕ → Bool) (e : MemEntry) : Prop :=
  (∀ i, 0x1000 * i < e.size → used (e.address + 0x1000 * i) = false) ∨
    e.lastTest < e.size ∧ used e.lastTest = true

/-- A pool inside its entry, large enough and over no used test point. -/
structure MemEntry.SoundPool (used : ℕ → Bool) (e : MemEntry) (p : ℕ × ℕ) : Prop where
  large : 0x10000 ≤ p.2
  inside : e.address ≤ p.1 ∧ p.1 + p.2 ≤ e.address + e.size
  unused : ∀ i, 0x1000 * i < p.2 → used (p.1 + 0x1000 * i) = false

/-- What the boot pool is to be: every free frame in one RAM entry and off every used page, the
sections apart with their metadata, and every search at its end. -/
structure BootSound (info : MultibootInfo) (kernelTmpHeapStart : ℕ) (stale : ℕ → StaleMetadata) : Prop where
  ram : ∀ f ∈ freeFrames (createFramePool info kernelTmpHeapStart stale),
    ∃ e ∈ info.mmap, e.type = 1 ∧ e.address ≤ f ∧ f + 0x1000 ≤ e.address + e.size
  unused : ∀ f ∈ freeFrames (createFramePool info kernelTmpHeapStart stale), ∀ test,
    checkIfUsed info kernelTmpHeapStart test = true → f + 0x1000 ≤ align test ∨ align test + 0x1000 ≤ f
  apart : (framePools info kernelTmpHeapStart).Pairwise fun p q => p.1 + p.2 ≤ q.1 ∨ q.1 + q.2 ≤ p.1
  ended : ∀ e ∈ info.mmap, e.type = 1 → 0x10000 ≤ e.size → ∀ more,
    search (checkIfUsed info kernelTmpHeapStart) e.address e.size (e.rounds + more) e.address =
      search (checkIfUsed info kernelTmpHeapStart) e.address e.size e.rounds e.address

section Search

variable {used : ℕ → Bool} {e : MemEntry}

/-- A scan of an entry whose last test point is used: the search ends there, or goes on at a later
test point, with a sound pool in between if it makes one. -/
theorem searchStep_cases (hrange : e.InRange) (hsize : 0 < e.size) (hbelow : e.lastTest < e.size)
    (hlast : used e.lastTest = true) {k : ℕ} (hk : k ≤ (e.size - 1) / 0x1000) :
    (searchStep used e.address e.size (e.address + 0x1000 * k) = .finish) ∨
      ∃ k', k < k' ∧ k' ≤ (e.size - 1) / 0x1000 ∧
        (searchStep used e.address e.size (e.address + 0x1000 * k) = .skip (e.address + 0x1000 * k') ∨
          (0x10000 ≤ 0x1000 * (k' - k) ∧ (∀ i, i < k' - k → used (e.address + 0x1000 * k + 0x1000 * i) = false) ∧
            searchStep used e.address e.size (e.address + 0x1000 * k) =
              .pool (0x1000 * (k' - k)) (e.address + 0x1000 * k'))) := by
  unfold MemEntry.InRange at hrange
  have hlastTest : e.lastTest = e.address + 0x1000 * ((e.size - 1) / 0x1000) := rfl
  have hend : add64 e.address e.size = e.address + e.size := add64_of_lt (by omega)
  have hend' : add64 e.size e.address = e.address + e.size := by
    rw [Nat.add_comm e.address]
    exact add64_of_lt (by omega)
  unfold searchStep
  rw [hend, hend', if_neg (by omega)]
  cases hscan : (pageRange (e.address + 0x1000 * k) e.size).find? used with
  | none =>
    -- the last test point is ahead and used
    have hfree := find_pageRange_none.mp hscan ((e.size - 1) / 0x1000 - k) (by omega)
    have hpoint : e.address + 0x1000 * k + 0x1000 * ((e.size - 1) / 0x1000 - k) = e.lastTest := by omega
    rw [hpoint, hlast] at hfree
    exact absurd hfree (by simp)
  | some test =>
    obtain ⟨i, rfl, htest, hused, hbefore⟩ := find_pageRange_some hscan
    have hi : k + i ≤ (e.size - 1) / 0x1000 := by omega
    have hlength : e.address + 0x1000 * k + 0x1000 * i - (e.address + 0x1000 * k) = 0x1000 * i := by omega
    dsimp only
    rw [hlength]
    by_cases hzero : 0x1000 * i = 0
    · rw [if_pos hzero, add64_of_lt (by omega)]
      by_cases hmore : e.address + 0x1000 * k + 0x1000 < e.address + e.size
      · refine Or.inr ⟨k + 1, by omega, by omega, Or.inl ?_⟩
        rw [if_pos hmore]
        exact congrArg SearchStep.skip (by omega)
      · exact Or.inl (if_neg hmore)
    · have hnext : add64 (e.address + 0x1000 * k) (0x1000 * i) = e.address + 0x1000 * (k + i) := by
        rw [add64_of_lt (by omega)]
        omega
      rw [if_neg hzero, hnext]
      refine Or.inr ⟨k + i, by omega, hi, ?_⟩
      rw [show k + i - k = i by omega]
      by_cases hsmall : 0x1000 * i < 0x10000
      · left
        rw [if_pos hsmall, if_pos (by omega)]
      · right
        exact ⟨by omega, hbefore, if_neg hsmall⟩

/-- A round that ends the search. -/
theorem search_finish {ba len base : ℕ} (h : searchStep used ba len base = .finish) (rounds : ℕ) :
    search used ba len (rounds + 1) base = [] := by
  rw [search, h]

/-- A round that leaves memory out. -/
theorem search_skip {ba len base next : ℕ} (h : searchStep used ba len base = .skip next) (rounds : ℕ) :
    search used ba len (rounds + 1) base = search used ba len rounds next := by
  rw [search, h]

/-- A round that makes a pool. -/
theorem search_pool {ba len base length next : ℕ} (h : searchStep used ba len base = .pool length next) (rounds : ℕ) :
    search used ba len (rounds + 1) base = (base, length) :: search used ba len rounds next := by
  rw [search, h]

/-- The pools of an entry whose last test point is used are sound and in order, and enough rounds
are enough. -/
theorem search_sound (hrange : e.InRange) (hsize : 0 < e.size) (hbelow : e.lastTest < e.size)
    (hlast : used e.lastTest = true) (rounds : ℕ) {k : ℕ} (hk : k ≤ (e.size - 1) / 0x1000) :
    (∀ p ∈ search used e.address e.size rounds (e.address + 0x1000 * k),
        e.SoundPool used p ∧ e.address + 0x1000 * k ≤ p.1) ∧
      (search used e.address e.size rounds (e.address + 0x1000 * k)).Pairwise (fun p q => p.1 + p.2 ≤ q.1) ∧
      ((e.size - 1) / 0x1000 - k < rounds → ∀ more,
        search used e.address e.size (rounds + more) (e.address + 0x1000 * k) =
          search used e.address e.size rounds (e.address + 0x1000 * k)) := by
  induction rounds generalizing k with
  | zero => exact ⟨by simp [search], by simp [search], fun h => absurd h (by omega)⟩
  | succ rounds ih =>
    have hmore (more : ℕ) : rounds + 1 + more = rounds + more + 1 := Nat.add_right_comm rounds 1 more
    simp only [hmore]
    rcases searchStep_cases hrange hsize hbelow hlast hk with hfinish | ⟨k', hlt, hk', hskip | ⟨hlarge, hfree, hpool⟩⟩
    · rw [search_finish hfinish]
      exact ⟨by simp, List.Pairwise.nil, fun _ more => search_finish hfinish (rounds + more)⟩
    · obtain ⟨hsound, hordered, henough⟩ := ih hk'
      rw [search_skip hskip]
      refine ⟨fun p hp => ?_, hordered, fun hrounds more => ?_⟩
      · obtain ⟨hp, hle⟩ := hsound p hp
        exact ⟨hp, by omega⟩
      · rw [search_skip hskip]
        exact henough (by omega) more
    · obtain ⟨hsound, hordered, henough⟩ := ih hk'
      rw [search_pool hpool]
      refine ⟨List.forall_mem_cons.mpr ⟨⟨⟨hlarge, ?_, fun i hi => hfree i (by omega)⟩, Nat.le_refl _⟩, fun p hp => ?_⟩,
        List.pairwise_cons.mpr ⟨fun p hp => ?_, hordered⟩, fun hrounds more => ?_⟩
      · dsimp only
        omega
      · obtain ⟨hp, hle⟩ := hsound p hp
        exact ⟨hp, by omega⟩
      · have hle := (hsound p hp).2
        dsimp only
        omega
      · rw [search_pool hpool, henough (by omega) more]

/-- An entry without a used test point becomes one pool. -/
theorem search_unused (hrange : e.InRange) (hsize : 0 < e.size)
    (hfree : ∀ i, 0x1000 * i < e.size → used (e.address + 0x1000 * i) = false) (more : ℕ) :
    search used e.address e.size (2 + more) e.address = [(e.address, e.size)] := by
  unfold MemEntry.InRange at hrange
  have hend : add64 e.size e.address = e.address + e.size := by
    rw [Nat.add_comm e.address]
    exact add64_of_lt (by omega)
  have hnext : add64 e.address e.size = e.address + e.size := add64_of_lt (by omega)
  have hscan : (pageRange e.address e.size).find? used = none :=
    find_pageRange_none.mpr fun i hi => hfree i (by omega)
  have hfirst : searchStep used e.address e.size e.address = .pool e.size (e.address + e.size) := by
    unfold searchStep
    rw [hend, if_neg (by omega), hscan]
    dsimp only
    rw [hnext]
  have hsecond : searchStep used e.address e.size (e.address + e.size) = .finish := by
    unfold searchStep
    rw [hend, if_pos (Nat.le_refl _)]
  rw [Nat.add_comm]
  unfold search
  simp only [hfirst]
  unfold search
  simp only [hsecond]

/-- The pools of a searchable entry are sound and apart. -/
theorem MemEntry.Searchable.pools (h : e.Searchable used) (hrange : e.InRange) :
    (∀ p ∈ e.pools used, e.type = 1 ∧ e.SoundPool used p) ∧
      (e.pools used).Pairwise fun p q => p.1 + p.2 ≤ q.1 ∨ q.1 + q.2 ≤ p.1 := by
  unfold MemEntry.pools
  by_cases htype : e.type = 1
  · rw [if_neg (not_not.mpr htype)]
    by_cases hsmall : e.size < 0x10000
    · rw [if_pos hsmall]
      exact ⟨by simp, List.Pairwise.nil⟩
    · rw [if_neg hsmall]
      rcases h with hfree | ⟨hbelow, hlast⟩
      · have hrounds : e.rounds = 2 + e.size / 0x1000 := Nat.add_comm ..
        rw [hrounds, search_unused hrange (by omega) hfree]
        refine ⟨fun p hp => ?_, List.pairwise_singleton _ _⟩
        rw [List.mem_singleton] at hp
        rw [hp]
        exact ⟨htype, by omega, ⟨Nat.le_refl _, Nat.le_refl _⟩, hfree⟩
      · obtain ⟨hsound, hordered, -⟩ := search_sound hrange (by omega) hbelow hlast e.rounds (Nat.zero_le _)
        exact ⟨fun p hp => ⟨htype, (hsound p hp).1⟩, hordered.imp Or.inl⟩
  · rw [if_pos htype]
    exact ⟨by simp, List.Pairwise.nil⟩

/-- The search of a searchable entry is at its end after the rounds it is given. -/
theorem MemEntry.Searchable.ended (h : e.Searchable used) (hrange : e.InRange) (hsize : 0 < e.size) (more : ℕ) :
    search used e.address e.size (e.rounds + more) e.address = search used e.address e.size e.rounds e.address := by
  have hrounds : e.rounds = 2 + e.size / 0x1000 := Nat.add_comm ..
  rcases h with hfree | ⟨hbelow, hlast⟩
  · rw [hrounds, search_unused hrange hsize hfree, Nat.add_assoc, search_unused hrange hsize hfree]
  · exact (search_sound hrange hsize hbelow hlast e.rounds (Nat.zero_le _)).2.2 (by omega) more

/-- A frame of a sound pool is inside the entry, and its page is not used. -/
theorem MemEntry.SoundPool.frame {p : ℕ × ℕ} (h : e.SoundPool used p) (hrange : e.InRange)
    (halign : ∀ test, used (align test) = used test) (stale : StaleMetadata) {f : ℕ}
    (hf : f ∈ (makePool p.2 p.1 stale).freeStack.map fun i => ((makePool p.2 p.1 stale).elements i).frameAddress) :
    (e.address ≤ f ∧ f + 0x1000 ≤ e.address + e.size) ∧ f % 0x1000 = 0 ∧ used f = false := by
  have hinside := h.inside
  unfold MemEntry.InRange at hrange
  obtain ⟨hmod, hmeta, hend⟩ := poolStart_bounds h.large (show p.1 + p.2 < 2 ^ 64 by omega)
  obtain ⟨i, hi, rfl⟩ := mem_freeStack_makePool h.large (by omega) stale hf
  refine ⟨by omega, by omega, ?_⟩
  -- the test point of the frame's page lies in the pool
  have htest := h.unused ((poolStart p.2 p.1 + 0x1000 * i + p.1 % 0x1000 - p.1) / 0x1000) (by omega)
  rw [← halign] at htest
  have hpage : align (p.1 + 0x1000 * ((poolStart p.2 p.1 + 0x1000 * i + p.1 % 0x1000 - p.1) / 0x1000)) =
      poolStart p.2 p.1 + 0x1000 * i := by
    unfold align
    omega
  rw [hpage] at htest
  exact htest

end Search

/-- For every memory map of disjoint entries, all searchable, the boot pool is sound: every free frame
lies in one RAM entry and off every used page, and the sections are apart with their metadata. -/
theorem createFramePool_sound (info : MultibootInfo) (kernelTmpHeapStart : ℕ) (stale : ℕ → StaleMetadata)
    (hrange : ∀ e ∈ info.mmap, e.InRange) (hapart : info.mmap.Pairwise MemEntry.Apart)
    (hsearch : ∀ e ∈ info.mmap, e.type = 1 → 0x10000 ≤ e.size → e.Searchable (checkIfUsed info kernelTmpHeapStart)) :
    BootSound info kernelTmpHeapStart stale := by
  have hpools (e : MemEntry) (he : e ∈ info.mmap) :
      (∀ p ∈ e.pools (checkIfUsed info kernelTmpHeapStart),
        e.type = 1 ∧ e.SoundPool (checkIfUsed info kernelTmpHeapStart) p) ∧
      (e.pools (checkIfUsed info kernelTmpHeapStart)).Pairwise fun p q => p.1 + p.2 ≤ q.1 ∨ q.1 + q.2 ≤ p.1 := by
    by_cases hram : e.type = 1 ∧ 0x10000 ≤ e.size
    · exact (hsearch e he hram.1 hram.2).pools (hrange e he)
    · have hnone : e.pools (checkIfUsed info kernelTmpHeapStart) = [] := by
        unfold MemEntry.pools
        by_cases htype : e.type = 1
        · rw [if_neg (not_not.mpr htype), if_pos (by omega)]
        · rw [if_pos htype]
      rw [hnone]
      exact ⟨by simp, List.Pairwise.nil⟩
  have hframes (f : ℕ) (hf : f ∈ freeFrames (createFramePool info kernelTmpHeapStart stale)) :
      ∃ e ∈ info.mmap, e.type = 1 ∧ (e.address ≤ f ∧ f + 0x1000 ≤ e.address + e.size) ∧ f % 0x1000 = 0 ∧
        checkIfUsed info kernelTmpHeapStart f = false := by
    unfold freeFrames createFramePool framePools at hf
    split at hf
    next =>
      rw [List.flatMap_map, List.mem_flatMap] at hf
      obtain ⟨p, hp, hf⟩ := hf
      obtain ⟨e, he, hp⟩ := List.mem_flatMap.mp hp
      obtain ⟨htype, hsound⟩ := (hpools e he).1 p hp
      exact ⟨e, he, htype, hsound.frame (hrange e he) (checkIfUsed_align info kernelTmpHeapStart) (stale p.1) hf⟩
    next => exact absurd hf (by simp)
  refine ⟨fun f hf => ?_, fun f hf test htest => ?_, ?_, fun e he htype hsize more => ?_⟩
  · obtain ⟨e, he, htype, hinside, -⟩ := hframes f hf
    exact ⟨e, he, htype, hinside⟩
  · obtain ⟨-, -, -, -, hmod, hunused⟩ := hframes f hf
    rw [← checkIfUsed_align] at htest
    have hne : align test ≠ f := fun heq => by
      rw [heq, hunused] at htest
      exact absurd htest (by simp)
    have htestmod := align_mod test
    omega
  · unfold framePools
    split
    next =>
      rw [List.pairwise_flatMap]
      refine ⟨fun e he => (hpools e he).2, hapart.imp_of_mem fun {e q} he hq heq p hp p' hp' => ?_⟩
      have hin := ((hpools e he).1 p hp).2.inside
      have hin' := ((hpools q hq).1 p' hp').2.inside
      unfold MemEntry.Apart at heq
      omega
    next => exact List.Pairwise.nil
  · exact (hsearch e he htype hsize).ended (hrange e he) (by omega) more

/-- A boot loader that left everything below 64 KiB. -/
def lowInfo (mmap : List MemEntry) : MultibootInfo where
  flags := 0x20
  header := 0x9000
  cmdline := 0x9100
  cmdlineLength := 4
  modsAddr := 0x9200
  modules := []
  framebufferAddr := 0
  framebufferBpp := 0
  framebufferWidth := 0
  framebufferHeight := 0
  framebufferType := 1
  framebufferPaletteAddr := 0
  framebufferPaletteNumColors := 0
  mmapAddr := 0x9300
  mmapLength := 24 * mmap.length
  mmap := mmap

/-- A kernel whose temporary heap ends at `0x240000`. -/
def lowHeap : ℕ := 0xFFFFFFFF80200000

/-- A RAM entry behind the kernel becomes a sound pool. -/
theorem createFramePool_sound_low :
    BootSound (lowInfo [⟨0, 0x9F000, 2⟩, ⟨0x400000, 0x20000, 1⟩]) lowHeap fun _ => zeroMetadata := by
  refine createFramePool_sound _ lowHeap _ ?_ ?_ ?_
  · unfold MemEntry.InRange
    decide
  · unfold MemEntry.Apart
    decide
  · intro e he htype _
    have hram : e = ⟨0x400000, 0x20000, 1⟩ := by
      rcases List.mem_pair.mp he with rfl | rfl
      · exact absurd htype (by decide)
      · rfl
    rw [hram]
    have hunused : ∀ i < 32, checkIfUsed (lowInfo [⟨0, 0x9F000, 2⟩, ⟨0x400000, 0x20000, 1⟩]) lowHeap
        (0x400000 + 0x1000 * i) = false := by decide
    exact Or.inl fun i hi => hunused i (by dsimp only at hi; omega)

/-- A RAM entry that starts above its own length is never tested: the kernel's pages in it go on the
free stack. -/
theorem createFramePool_fails :
    (∀ e ∈ (lowInfo [⟨0x200000, 0x20000, 1⟩]).mmap, e.InRange) ∧
      (lowInfo [⟨0x200000, 0x20000, 1⟩]).mmap.Pairwise MemEntry.Apart ∧
      ¬ BootSound (lowInfo [⟨0x200000, 0x20000, 1⟩]) lowHeap fun _ => zeroMetadata := by
  refine ⟨?_, List.pairwise_singleton _ _, fun hsound => ?_⟩
  · unfold MemEntry.InRange
    decide
  · have hfree : 0x202000 ∈ freeFrames (createFramePool (lowInfo [⟨0x200000, 0x20000, 1⟩]) lowHeap fun _ => zeroMetadata) := by
      decide +kernel
    have hused : checkIfUsed (lowInfo [⟨0x200000, 0x20000, 1⟩]) lowHeap 0x202000 = true := by decide
    exact absurd (hsound.unused _ hfree _ hused) (by decide)

end Cthulhu
