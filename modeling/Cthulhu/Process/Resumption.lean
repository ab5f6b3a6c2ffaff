import Cthulhu.Process.Grants

/-!
# Resuming an allocation

`allocate_mem` stops where the pool is exhausted and leaves the rest of its request in the
`alloc_info_t` it was given; its callers free memory and call it again with what it left. This
module follows such a sequence of calls, between which anything may happen to the pool and to
other address spaces: the request left is always the unprocessed rest of the original one, and
when the last call has finished, every page has what one uninterrupted call would have given it.

The range must not come to the end of the address space, where the source's counter wraps, nor
to the slot of the memory mirror, whose pages are not mapped by four levels of tables.
-/

namespace Cthulhu

open Lib

section Range

/-- The pages from an aligned address on. -/
def pagesFrom (first n : ℕ) : List ℕ := (List.range n).map fun i => first + 0x1000 * i

/-- The number of pages of a request. -/
def AllocInfo.pageCount (ainfo : AllocInfo) : ℕ :=
  (ainfo.amount + (ainfo.start - align ainfo.start) + 0xFFF) / 0x1000

/-- The request as the loop starts with it, and its pages, where nothing wraps. -/
theorem AllocInfo.aligned_eq {ainfo : AllocInfo} (hend : ainfo.start + ainfo.amount + 0x1000 ≤ 2 ^ 64) :
    Machine.allocatePages ainfo.start ainfo.amount = pagesFrom (align ainfo.start) ainfo.pageCount ∧
      ainfo.aligned.amount = 0x1000 * ainfo.pageCount ∧ align ainfo.start + 0x1000 * ainfo.pageCount < 2 ^ 64 := by
  have hdown := align_le ainfo.start
  have hmod := align_mod ainfo.start
  have hsum : add64 ainfo.amount (ainfo.start - align ainfo.start) =
      ainfo.amount + (ainfo.start - align ainfo.start) := add64_of_lt (by omega)
  have hup : pageAlignUp (add64 ainfo.amount (ainfo.start - align ainfo.start)) = 0x1000 * ainfo.pageCount := by
    rw [hsum]
    exact pageAlignUp_of_le (by omega)
  have hbound : align ainfo.start + 0x1000 * ainfo.pageCount < 2 ^ 64 := by
    unfold AllocInfo.pageCount
    omega
  refine ⟨?_, hup, hbound⟩
  unfold Machine.allocatePages
  rw [hup, add64_of_lt hbound]
  unfold pageRange pagesFrom
  congr 2
  omega

/-- Pages that do not come to the mirror are pages of one round through the address space. -/
theorem pagesFrom_distinct {first n : ℕ} (hfirst : first % 0x1000 = 0)
    (hout : ∀ a ∈ pagesFrom first n, pmlIndex a ≠ 510) : (pagesFrom first n).Pairwise fun a b => ¬ SamePage a b := by
  unfold pagesFrom at hout ⊢
  rw [List.pairwise_map, List.pairwise_iff_getElem]
  intro i j hi hj hij hsame
  rw [List.getElem_range, List.getElem_range] at hsame
  rw [List.length_range] at hj
  -- the next page of the slot of the mirror comes before the second page
  have hmirror := hout (first + 0x1000 * (i + (510 * 2 ^ 27 + 2 ^ 36 - (first / 0x1000 + i) % 2 ^ 36) % 2 ^ 36))
    (List.mem_map.mpr ⟨_, List.mem_range.mpr (by unfold SamePage at hsame; omega), rfl⟩)
  unfold pmlIndex at hmirror
  omega

/-- The rest of a list of pages starts after the others. -/
theorem pagesFrom_suffix {first n : ℕ} {made rest : List ℕ} (h : pagesFrom first n = made ++ rest) :
    rest = pagesFrom (first + 0x1000 * made.length) rest.length := by
  refine List.ext_getElem (by simp [pagesFrom]) fun i hi _ => ?_
  have hget : (made ++ rest)[made.length + i]? = some rest[i] := by
    rw [List.getElem?_append_right (Nat.le_add_right _ _), Nat.add_sub_cancel_left, List.getElem?_eq_getElem hi]
  rw [← h] at hget
  simp only [pagesFrom, List.getElem?_map, Option.map_eq_some_iff, List.getElem?_eq_some_iff, List.getElem_range,
    List.length_range] at hget
  obtain ⟨j, ⟨_, rfl⟩, hvalue⟩ := hget
  simp only [pagesFrom, List.getElem_map, List.getElem_range]
  omega

end Range

/-- How far a request has come: the pages granted, the pages left, and the request for them. -/
structure Progress (cr3 : ℕ) (kernel readonly : Bool) (ainfo : AllocInfo) (m : Machine) (info : AllocInfo)
    (m' : Machine) (made rest : List ℕ) : Prop where
  pages : Machine.allocatePages ainfo.start ainfo.amount = made ++ rest
  start : info.start = align ainfo.start + 0x1000 * made.length
  amount : info.amount = 0x1000 * rest.length
  exec : info.exec = ainfo.exec
  aod : info.aod = ainfo.aod
  finished : info.finished = true ↔ rest = []
  grants : Grants cr3 kernel readonly ainfo m m' made rest

/-- A sequence of calls: the first one makes the request, and each later one the request that the
call before it left unfinished. Between two calls the entries of the address space stay. -/
inductive Resumed (cr3 : ℕ) (kernel readonly : Bool) (ainfo : AllocInfo) (m : Machine) : AllocInfo → Machine → Prop
  | first (stale : ℕ → ℕ) : Resumed cr3 kernel readonly ainfo m
      (m.allocateMem ainfo kernel readonly cr3 stale).1 (m.allocateMem ainfo kernel readonly cr3 stale).2
  | again {info : AllocInfo} {m' m'' : Machine} (stale : ℕ → ℕ) (h : Resumed cr3 kernel readonly ainfo m info m')
    (hopen : info.finished = false) (hready : Allocatable cr3 m'')
    (hentries : ∀ page, leafEntry m''.memory cr3 page = leafEntry m'.memory cr3 page) :
    Resumed cr3 kernel readonly ainfo m (m''.allocateMem info kernel readonly cr3 stale).1
      (m''.allocateMem info kernel readonly cr3 stale).2

section Calls

variable {cr3 : ℕ} {m : Machine} {kernel readonly : Bool} {ainfo : AllocInfo}

/-- One call makes progress. -/
theorem Allocatable.allocateMem (h : Allocatable cr3 m) (hend : ainfo.start + ainfo.amount + 0x1000 ≤ 2 ^ 64)
    (hout : ∀ a ∈ Machine.allocatePages ainfo.start ainfo.amount, pmlIndex a ≠ 510) (stale : ℕ → ℕ) :
    ∃ made rest, Progress cr3 kernel readonly ainfo m (m.allocateMem ainfo kernel readonly cr3 stale).1
      (m.allocateMem ainfo kernel readonly cr3 stale).2 made rest := by
  obtain ⟨hpages, hamount, hbound⟩ := AllocInfo.aligned_eq hend
  rw [hpages] at hout
  have hlength : (pagesFrom (align ainfo.start) ainfo.pageCount).length = ainfo.pageCount := by simp [pagesFrom]
  have hstart : ainfo.aligned.start = align ainfo.start := by simp only [AllocInfo.aligned]
  have hkind : ainfo.aligned.exec = ainfo.exec ∧ ainfo.aligned.aod = ainfo.aod := by simp only [AllocInfo.aligned, and_self]
  obtain ⟨info, m', made, rest, hsplit, hgrants, hrun, hinfo, hleft, hexec, haod, hopen⟩ :=
    h.rounds ainfo.aligned kernel readonly stale hout (pagesFrom_distinct (align_mod _) hout)
      (by rw [hlength, hamount]) (by rw [hlength, hstart]; exact hbound)
  have hcall : m.allocateMem ainfo kernel readonly cr3 stale =
      if (!rest.isEmpty) = true then (info, m') else ({ info with finished := true }, m') := by
    have hunfold : m.allocateMem ainfo kernel readonly cr3 stale =
        let st := run (Machine.allocateMemPage kernel readonly cr3 stale) ((ainfo.aligned, m), false)
          (Machine.allocatePages ainfo.start ainfo.amount)
        if st.2 then st.1 else ({ st.1.1 with finished := true }, st.1.2) := rfl
    rw [hunfold, hpages, hrun]
  have hgranted : Grants cr3 kernel readonly ainfo m m' made rest :=
    { hgrants with granted := fun page hpage =>
        (hgrants.granted page hpage).trans (grantedStatus_congr hkind.1 hkind.2 _ _ _) }
  refine ⟨made, rest, ?_⟩
  cases rest with
  | nil =>
    rw [hcall, if_neg (by simp)]
    exact ⟨by rw [hpages, hsplit], by rw [← hstart]; exact hinfo, hleft, hexec.trans hkind.1, haod.trans hkind.2, by simp, hgranted⟩
  | cons va rest =>
    rw [hcall, if_pos (by simp)]
    exact ⟨by rw [hpages, hsplit], by rw [← hstart]; exact hinfo, hleft, hexec.trans hkind.1, haod.trans hkind.2,
      by simp [hopen], hgranted⟩

/-- The request left is for exactly the pages left, and wraps no more than the original. -/
theorem Progress.left {info : AllocInfo} {m' : Machine} {made rest : List ℕ}
    (h : Progress cr3 kernel readonly ainfo m info m' made rest)
    (hend : ainfo.start + ainfo.amount + 0x1000 ≤ 2 ^ 64) :
    info.start + info.amount + 0x1000 ≤ 2 ^ 64 ∧ Machine.allocatePages info.start info.amount = rest := by
  obtain ⟨hpages, -, hbound⟩ := AllocInfo.aligned_eq hend
  have hsplit := hpages.symm.trans h.pages
  have hlength : ainfo.pageCount = made.length + rest.length := by
    rw [← List.length_append, ← hsplit]
    simp [pagesFrom]
  have hmod := align_mod ainfo.start
  have hstart := h.start
  have hamount := h.amount
  have hleft : info.start + info.amount + 0x1000 ≤ 2 ^ 64 := by omega
  have haligned : align info.start = info.start := align_of_mod (by omega)
  have hcount : info.pageCount = rest.length := by
    unfold AllocInfo.pageCount
    omega
  refine ⟨hleft, ?_⟩
  rw [(AllocInfo.aligned_eq hleft).1, hcount, haligned, hstart]
  exact (pagesFrom_suffix hsplit).symm

/-- The pages of a request are on different pages of the address space. -/
theorem Progress.distinct {info : AllocInfo} {m' : Machine} {made rest : List ℕ}
    (h : Progress cr3 kernel readonly ainfo m info m' made rest)
    (hend : ainfo.start + ainfo.amount + 0x1000 ≤ 2 ^ 64)
    (hout : ∀ a ∈ Machine.allocatePages ainfo.start ainfo.amount, pmlIndex a ≠ 510) :
    ∀ page ∈ made, ∀ a ∈ rest, ¬ SamePage page a := by
  have hpages := (AllocInfo.aligned_eq hend).1
  rw [hpages] at hout
  have hdistinct := pagesFrom_distinct (align_mod _) hout
  rw [← hpages, h.pages, List.pairwise_append] at hdistinct
  exact hdistinct.2.2

/-- Progress on the request left is progress on the original request. -/
theorem Progress.again {info info' : AllocInfo} {m₁ m₂ m₃ : Machine} {made rest made' rest' : List ℕ}
    (h : Progress cr3 kernel readonly ainfo m info m₁ made rest)
    (hentries : ∀ page, leafEntry m₂.memory cr3 page = leafEntry m₁.memory cr3 page)
    (h' : Progress cr3 kernel readonly info m₂ info' m₃ made' rest')
    (hend : ainfo.start + ainfo.amount + 0x1000 ≤ 2 ^ 64)
    (hout : ∀ a ∈ Machine.allocatePages ainfo.start ainfo.amount, pmlIndex a ≠ 510) :
    Progress cr3 kernel readonly ainfo m info' m₃ (made ++ made') rest' ∧
      ∀ page ∈ made, leafEntry m₃.memory cr3 page = leafEntry m₁.memory cr3 page := by
  have hrest : rest = made' ++ rest' := (h.left hend).2.symm.trans h'.pages
  have hdistinct := h.distinct hend hout
  have hstart : align info.start = info.start := by
    have hmod := align_mod ainfo.start
    have hat := h.start
    exact align_of_mod (by omega)
  have hkeep (page : ℕ) (hpage : ∀ a ∈ rest, ¬ SamePage page a) :
      leafEntry m₃.memory cr3 page = leafEntry m₁.memory cr3 page := by
    rw [h'.grants.outside page (hrest ▸ hpage), hentries page]
  refine ⟨⟨by rw [h.pages, hrest, List.append_assoc], ?_, h'.amount, h'.exec.trans h.exec, h'.aod.trans h.aod,
    h'.finished, ⟨h'.grants.ready, fun page hpage => ?_, fun page hpage => ?_, fun page houtside => ?_⟩⟩,
    fun page hpage => hkeep page (hdistinct page hpage)⟩
  · rw [h'.start, hstart, h.start, List.length_append]
    omega
  · rcases List.mem_append.mp hpage with hold | hnew
    · rw [hkeep page (hdistinct page hold)]
      exact h.grants.granted page hold
    · have hkept := h.grants.kept page (hrest ▸ List.mem_append_left _ hnew)
      rw [h'.grants.granted page hnew, hentries page, grantedStatus_congr h.exec h.aod]
      exact hkept.grantedStatus_eq ainfo kernel readonly
  · have hkept := h.grants.kept page (hrest ▸ List.mem_append_right _ hpage)
    exact hkept.trans (hentries page ▸ h'.grants.kept page hpage)
  · rw [List.append_assoc, ← hrest] at houtside
    rw [hkeep page fun a ha => houtside a (List.mem_append_right _ ha), h.grants.outside page houtside]

/-- A sequence of calls makes progress on the original request. -/
theorem Resumed.progress {info : AllocInfo} {m' : Machine} (h : Resumed cr3 kernel readonly ainfo m info m')
    (hm : Allocatable cr3 m) (hend : ainfo.start + ainfo.amount + 0x1000 ≤ 2 ^ 64)
    (hout : ∀ a ∈ Machine.allocatePages ainfo.start ainfo.amount, pmlIndex a ≠ 510) :
    ∃ made rest, Progress cr3 kernel readonly ainfo m info m' made rest := by
  induction h with
  | first stale => exact hm.allocateMem hend hout stale
  | again stale hresumed hopen hready hentries ih =>
    obtain ⟨made, rest, hprogress⟩ := ih
    obtain ⟨hend', hpages⟩ := hprogress.left hend
    obtain ⟨made', rest', hnext⟩ := hready.allocateMem hend'
      (fun a ha => hout a (hprogress.pages ▸ List.mem_append_right _ (hpages ▸ ha))) stale
    exact ⟨made ++ made', rest', (hprogress.again hentries hnext hend hout).1⟩

end Calls

end Cthulhu
