import Cthulhu.Lib.Run
import Cthulhu.Memory.PoolOps

/-!
# Runs of the frame pool

What the pool operations give over whole runs: the free stacks hold exactly the unused
frames, and no frame is lost or handed out twice. The runs carry the frames currently held,
which the pool itself does not record.

The use count is a 32-bit field that nothing guards. A run that shares one frame
`2 ^ 32 - 1` times brings the count of a held frame to zero.
-/

namespace Cthulhu

open Lib


/-- A pool with the frames handed out and not yet returned. -/
structure PoolState where
  pool : List SectionInfo
  held : List ℕ

/-- The calls a run consists of. -/
inductive PoolOp
  | get
  | share (f : ℕ)
  | free (f : ℕ)

/-- One call, with the bookkeeping of held frames. -/
def PoolState.step (st : PoolState) : PoolOp → PoolState
  | .get =>
    let r := Cthulhu.getFreeFrame st.pool
    ⟨r.2, if r.1 = 0 then st.held else r.1 :: st.held⟩
  | .share f => ⟨incrementUsage st.pool f, st.held⟩
  | .free f =>
    let pool := (freeFrame st.pool f).1
    ⟨pool, if usageCount pool f = 0 then st.held.erase f else st.held⟩

/-- Only held frames are shared, and only held frames with a use left are freed. -/
def PoolState.Allowed (st : PoolState) : PoolOp → Prop
  | .get => True
  | .share f => f ∈ st.held
  | .free f => f ∈ st.held ∧ 1 ≤ usageCount st.pool f

/-- The shared frame's count fits its 32-bit field after the increment. -/
def PoolState.CountFits (st : PoolState) : PoolOp → Prop
  | .share f => usageCount st.pool f + 1 < 2 ^ 32
  | _ => True

instance (st : PoolState) (op : PoolOp) : Decidable (st.Allowed op) := by
  cases op <;> unfold PoolState.Allowed <;> infer_instance

instance (st : PoolState) (op : PoolOp) : Decidable (st.CountFits op) := by
  cases op <;> unfold PoolState.CountFits <;> infer_instance

/-- A freshly built pool with nothing handed out. -/
def PoolState.fresh (regions : List Region) : PoolState := ⟨regions.map Region.build, []⟩

/-- The pool's contract, relative to the frames that were free at the start. -/
structure PoolState.Contract (initial : List ℕ) (st : PoolState) : Prop where
  acyclic : ∀ s ∈ st.pool, Linked (fun i => (s.elements i).next) s.head s.freeStack
  nodup : ∀ s ∈ st.pool, s.freeStack.Nodup
  exactlyUnused : ∀ s ∈ st.pool, ∀ i, i ∈ s.freeStack ↔
    i < s.totalFrames ∧ 0x200000 ≤ (s.elements i).frameAddress ∧ (s.frameArray i).usageCount = 0
  exhausted : (getFreeFrame st.pool).1 = 0 → ∀ s ∈ st.pool, s.freeStack = []
  unheld : (getFreeFrame st.pool).1 ≠ 0 →
    (getFreeFrame st.pool).1 % 0x1000 = 0 ∧ (getFreeFrame st.pool).1 ∉ st.held
  conserved : (freeFrames st.pool ++ st.held).Perm initial

/-- What every step keeps: a sound pool, held frames in use, and no frame lost. -/
structure PoolState.Inv (initial : List ℕ) (st : PoolState) : Prop where
  pool : PoolInv st.pool
  held : ∀ f ∈ st.held, IsFrame st.pool f ∧ 0x200000 ≤ f ∧ 1 ≤ usageCount st.pool f
  nodup : initial.Nodup
  conserved : (freeFrames st.pool ++ st.held).Perm initial

/-- A held frame is on no free stack, and no frame is held twice. -/
theorem PoolState.Inv.separate {initial : List ℕ} {st : PoolState} (h : st.Inv initial) :
    (freeFrames st.pool ++ st.held).Nodup := h.conserved.nodup_iff.mpr h.nodup

/-- Taking a frame keeps the invariant. -/
theorem PoolState.Inv.get {initial : List ℕ} {st : PoolState} (h : st.Inv initial) :
    (st.step .get).Inv initial := by
  rcases h.pool.getFreeFrame with ⟨hzero, hsame, -⟩ | ⟨hframe, hhigh, hpool, hlayout, hfree, husage⟩
  · have hstep : st.step .get = st := by
      unfold PoolState.step
      simp only [hzero, hsame, if_true]
    rw [hstep]
    exact h
  · have hne : (Cthulhu.getFreeFrame st.pool).1 ≠ 0 := by omega
    refine ⟨hpool, ?_, h.nodup, ?_⟩
    · intro f hf
      simp only [PoolState.step, if_neg hne, List.mem_cons] at hf
      refine ⟨(isFrame_congr hlayout f).mpr ?_, ?_, ?_⟩
      · rcases hf with rfl | hf
        · exact hframe
        · exact (h.held f hf).1
      · rcases hf with rfl | hf
        · exact hhigh
        · exact (h.held f hf).2.1
      · rcases hf with rfl | hf
        · change 1 ≤ usageCount (Cthulhu.getFreeFrame st.pool).2 _
          rw [husage _ hframe, if_pos rfl]
        · change 1 ≤ usageCount (Cthulhu.getFreeFrame st.pool).2 _
          rw [husage _ (h.held f hf).1]
          split
          · exact Nat.le_refl 1
          · exact (h.held f hf).2.2
    · have hconserved := h.conserved
      rw [hfree] at hconserved
      simp only [PoolState.step, if_neg hne]
      exact List.perm_middle.trans hconserved

/-- Sharing a held frame keeps the invariant while its count fits. -/
theorem PoolState.Inv.share {initial : List ℕ} {st : PoolState} (h : st.Inv initial) {f : ℕ}
    (hheld : f ∈ st.held) (hroom : usageCount st.pool f + 1 < 2 ^ 32) :
    (st.step (.share f)).Inv initial := by
  obtain ⟨hframe, -, hused⟩ := h.held f hheld
  obtain ⟨hpool, hlayout, husage, hfree⟩ := h.pool.incrementUsage hframe hused hroom
  refine ⟨hpool, ?_, h.nodup, ?_⟩
  · intro g hg
    obtain ⟨hgframe, hghigh, hgused⟩ := h.held g hg
    refine ⟨(isFrame_congr hlayout g).mpr hgframe, hghigh, ?_⟩
    change 1 ≤ usageCount (Cthulhu.incrementUsage st.pool f) g
    rw [husage g hgframe]
    split <;> omega
  · change (freeFrames (Cthulhu.incrementUsage st.pool f) ++ st.held).Perm initial
    rw [hfree]
    exact h.conserved

/-- Freeing a held frame keeps the invariant. -/
theorem PoolState.Inv.free {initial : List ℕ} {st : PoolState} (h : st.Inv initial) {f : ℕ}
    (hheld : f ∈ st.held) : (st.step (.free f)).Inv initial := by
  obtain ⟨hframe, hhigh, hused⟩ := h.held f hheld
  have halign : align f = f := align_of_mod (h.pool.frame_aligned hframe).1
  have hfree : freeFrame st.pool f = releaseFrame st.pool f := by rw [freeFrame, halign]
  obtain ⟨hpool, hlayout, husage, hcases⟩ := h.pool.releaseFrame hframe hhigh hused
  have hcount := husage f hframe
  rw [if_pos rfl] at hcount
  rcases hcases with ⟨hone, -, hperm⟩ | ⟨hmany, -, hsame⟩
  · have hstep : st.step (.free f) = ⟨(Cthulhu.releaseFrame st.pool f).1, st.held.erase f⟩ := by
      simp only [PoolState.step, hfree, hcount, hone, Nat.sub_self, if_true]
    rw [hstep]
    have hdup := h.separate
    rw [List.nodup_append] at hdup
    refine ⟨hpool, ?_, h.nodup, ?_⟩
    · intro g hg
      have hgf : g ≠ f := fun heq => hdup.2.1.not_mem_erase (heq ▸ hg)
      obtain ⟨hgframe, hghigh, hgused⟩ := h.held g (List.mem_of_mem_erase hg)
      refine ⟨(isFrame_congr hlayout g).mpr hgframe, hghigh, ?_⟩
      change 1 ≤ usageCount (Cthulhu.releaseFrame st.pool f).1 g
      rw [husage g hgframe, if_neg hgf]
      exact hgused
    · refine ((hperm.append_right _).trans ?_).trans h.conserved
      rw [List.cons_append]
      exact List.perm_middle.symm.trans ((List.perm_cons_erase hheld).symm.append_left _)
  · have hstep : st.step (.free f) = ⟨(Cthulhu.releaseFrame st.pool f).1, st.held⟩ := by
      simp only [PoolState.step, hfree, hcount]
      rw [if_neg (by omega)]
    rw [hstep]
    refine ⟨hpool, ?_, h.nodup, ?_⟩
    · intro g hg
      obtain ⟨hgframe, hghigh, hgused⟩ := h.held g hg
      refine ⟨(isFrame_congr hlayout g).mpr hgframe, hghigh, ?_⟩
      change 1 ≤ usageCount (Cthulhu.releaseFrame st.pool f).1 g
      rw [husage g hgframe]
      split <;> omega
    · change (freeFrames (Cthulhu.releaseFrame st.pool f).1 ++ st.held).Perm initial
      rw [hsame]
      exact h.conserved

/-- Every allowed step whose count fits keeps the invariant. -/
theorem PoolState.Inv.step {initial : List ℕ} (st : PoolState) (op : PoolOp) (h : st.Inv initial)
    (hop : st.Allowed op ∧ st.CountFits op) : (st.step op).Inv initial := by
  cases op with
  | get => exact h.get
  | share f => exact h.share hop.1 hop.2
  | free f => exact h.free hop.1.1

/-- The invariant gives the pool's contract. -/
theorem PoolState.Inv.contract {initial : List ℕ} {st : PoolState} (h : st.Inv initial) :
    st.Contract initial := by
  have hsection (s : SectionInfo) (hs : s ∈ st.pool) : SectionInv s s.freeStack := by
    obtain ⟨stack, hinv⟩ := h.pool.sections s hs
    rwa [hinv.freeStack_eq]
  refine ⟨fun s hs => (hsection s hs).linked, fun s hs => (hsection s hs).nodup, ?_, ?_, ?_, h.conserved⟩
  · intro s hs i
    have hinv := hsection s hs
    rw [hinv.free]
    constructor
    · rintro ⟨hi, hhigh, hzero⟩
      exact ⟨hi, by rwa [hinv.address i hi], hzero⟩
    · rintro ⟨hi, hhigh, hzero⟩
      exact ⟨hi, by rwa [hinv.address i hi] at hhigh, hzero⟩
  · intro hzero s hs
    rcases h.pool.getFreeFrame with ⟨-, -, hnone⟩ | ⟨-, hhigh, -⟩
    · have hlinked := (hsection s hs).linked
      rw [hnone s hs] at hlinked
      exact hlinked.eq_nil
    · omega
  · intro hne
    rcases h.pool.getFreeFrame with ⟨hzero, -⟩ | ⟨hframe, -, -, -, hfree, -⟩
    · exact absurd hzero hne
    · refine ⟨(h.pool.frame_aligned hframe).1, fun hheld => ?_⟩
      have hdup := h.separate
      rw [hfree, List.cons_append, List.nodup_cons] at hdup
      exact hdup.1 (List.mem_append_right _ hheld)

/-- A fresh pool satisfies the invariant. -/
theorem PoolState.fresh_inv (regions : List Region) (hapart : regions.Pairwise Region.Apart)
    (hindexed : ∀ r ∈ regions, poolFrames r.length ≤ 2 ^ 32) :
    (PoolState.fresh regions).Inv (freeFrames (PoolState.fresh regions).pool) := by
  have hpool := build_poolInv regions hapart hindexed
  exact ⟨hpool, by simp [PoolState.fresh], hpool.freeFrames_nodup, by simp [PoolState.fresh]⟩

/-- In every run that shares no frame beyond its 32-bit count, over sections a 32-bit index
reaches, every state meets the pool's contract. -/
theorem framePool_run_contract (regions : List Region)
    (hapart : regions.Pairwise Region.Apart) (hindexed : ∀ r ∈ regions, poolFrames r.length ≤ 2 ^ 32)
    (ops : List PoolOp)
    (hops : Guarded PoolState.step (fun st op => st.Allowed op ∧ st.CountFits op)
      (PoolState.fresh regions) ops) :
    (run PoolState.step (PoolState.fresh regions) ops).Contract
      (freeFrames (PoolState.fresh regions).pool) :=
  (hops.invariant (PoolState.Inv _) (fun st op h hop => h.step st op hop) (PoolState.fresh_inv regions hapart hindexed)).contract

/-- The smallest region `make_pool` is given, right above the boot mapping. -/
def smallRegion : Region where
  base := 0x200000
  length := 0x10000
  stale := ⟨fun _ => ⟨0, 0, 0⟩, fun _ => ⟨0, 0, none⟩⟩
  positive := by decide
  large := by decide
  fits := by decide

/-- Taking, sharing and freeing a frame of one small section is such a run. -/
theorem framePool_run_contract_small :
    (run PoolState.step (PoolState.fresh [smallRegion])
      [.get, .share 0x201000, .free 0x201000, .free 0x201000, .get]).Contract
      (freeFrames (PoolState.fresh [smallRegion]).pool) :=
  framePool_run_contract [smallRegion] (List.pairwise_singleton _ _)
    (by simp only [List.mem_singleton, forall_eq]; decide)
    _ (by simp only [Guarded]; decide)

/-- The section holding a frame after sharing keeps its free stack, whatever the count does. -/
theorem SectionInfo.write_freeStack (s : SectionInfo) (i : ℕ) (f : FrameInfo → FrameInfo) :
    (s.write i f).freeStack = s.freeStack := rfl

/-- Sharing one held frame repeatedly raises only its count, up to the end of the field. -/
theorem PoolState.Inv.share_replicate {initial : List ℕ} {st : PoolState} (h : st.Inv initial) {f : ℕ}
    (hheld : f ∈ st.held) (k : ℕ) (hroom : usageCount st.pool f + k < 2 ^ 32) :
    (run PoolState.step st (List.replicate k (.share f))).Inv initial ∧
      f ∈ (run PoolState.step st (List.replicate k (.share f))).held ∧
      usageCount (run PoolState.step st (List.replicate k (.share f))).pool f = usageCount st.pool f + k ∧
      Guarded PoolState.step PoolState.Allowed st (List.replicate k (.share f)) := by
  induction k generalizing st with
  | zero => exact ⟨h, hheld, rfl, trivial⟩
  | succ k ih =>
    have hnext := h.share hheld (by omega)
    obtain ⟨hframe, -, hused⟩ := h.held f hheld
    obtain ⟨-, -, husage, -⟩ := h.pool.incrementUsage hframe hused (by omega)
    have hcount : usageCount (st.step (.share f)).pool f = usageCount st.pool f + 1 := by
      change usageCount (Cthulhu.incrementUsage st.pool f) f = _
      rw [husage f hframe, if_pos rfl]
    obtain ⟨hinv, hmem, hfinal, hguard⟩ := ih hnext hheld (by rw [hcount]; omega)
    refine ⟨hinv, hmem, ?_, hheld, hguard⟩
    change usageCount (run PoolState.step (st.step (.share f)) _).pool f = _
    rw [hfinal, hcount]
    omega

/-- Sharing a frame whose count is at its maximum breaks the contract: the frame is held,
counted as unused, and on no stack. -/
theorem PoolState.Inv.share_overflow {initial : List ℕ} {st : PoolState} (h : st.Inv initial) {f : ℕ}
    (hheld : f ∈ st.held) (hfull : usageCount st.pool f = 2 ^ 32 - 1) :
    ¬ (st.step (.share f)).Contract initial := by
  intro hcontract
  obtain ⟨⟨s, hs, i, hi, hfi⟩, hhigh, -⟩ := h.held f hheld
  obtain rfl : f = s.frame i := hfi
  obtain ⟨before, after, hpool⟩ := List.append_of_mem hs
  have hinv := h.pool
  obtain ⟨stack, hsinv⟩ := hinv.sections s hs
  have hcount := hinv.usageCount_eq hs hi
  rw [hfull] at hcount
  obtain ⟨hcover, hindex⟩ := hsinv.covers_frame hi
  rw [hpool] at hinv
  have hwrite := setFrameInfo_append before after s (s.frame i) FrameInfo.incrementUsage
    (fun t ht => hinv.covers_other (Or.inl ht) hi) hcover
  rw [hindex, ← hpool] at hwrite
  have hmem : s.write i FrameInfo.incrementUsage ∈ (st.step (.share (s.frame i))).pool := by
    change _ ∈ setFrameInfo st.pool (s.frame i) FrameInfo.incrementUsage
    rw [hwrite]
    simp
  have hzero : ((s.write i FrameInfo.incrementUsage).frameArray i).usageCount = 0 := by
    have hwritten : ((s.write i FrameInfo.incrementUsage).frameArray i).usageCount =
        ((s.frameArray i).usageCount + 1) % 2 ^ 32 := by
      simp only [SectionInfo.write, Function.update_self, FrameInfo.incrementUsage]
    omega
  have hon := (hcontract.exactlyUnused _ hmem i).mpr ⟨hi, by
    rw [show (s.write i FrameInfo.incrementUsage).elements i = s.elements i from rfl, hsinv.address i hi]
    exact hhigh, hzero⟩
  rw [SectionInfo.write_freeStack, hsinv.freeStack_eq, hsinv.free, ← hcount] at hon
  exact absurd hon.2.2 (by decide)

/-- One frame, taken and then shared `2 ^ 32 - 1` times. -/
theorem framePool_contract_fails :
    ¬ ∀ (regions : List Region) (ops : List PoolOp), regions.Pairwise Region.Apart →
      Guarded PoolState.step PoolState.Allowed (PoolState.fresh regions) ops →
      (run PoolState.step (PoolState.fresh regions) ops).Contract
        (freeFrames (PoolState.fresh regions).pool) := by
  intro hall
  have hfresh : (PoolState.fresh [smallRegion]).Inv (freeFrames (PoolState.fresh [smallRegion]).pool) :=
    PoolState.fresh_inv [smallRegion] (List.pairwise_singleton _ _)
      (by simp only [List.mem_singleton, forall_eq]; decide)
  have htaken := hfresh.get
  have hheld : 0x201000 ∈ ((PoolState.fresh [smallRegion]).step .get).held := by decide
  have hone : usageCount ((PoolState.fresh [smallRegion]).step .get).pool 0x201000 = 1 := by decide
  obtain ⟨hinv, hmem, hcount, hguard⟩ := htaken.share_replicate hheld (2 ^ 32 - 2) (by rw [hone]; decide)
  rw [hone] at hcount
  refine hinv.share_overflow hmem hcount ?_
  have hrun := hall [smallRegion] (.get :: (List.replicate (2 ^ 32 - 2) (.share 0x201000) ++ [.share 0x201000]))
    (List.pairwise_singleton _ _) ⟨trivial, ?_⟩
  · rw [run, List.foldl_cons, List.foldl_append] at hrun
    exact hrun
  · exact hguard.append ⟨hmem, trivial⟩

end Cthulhu
