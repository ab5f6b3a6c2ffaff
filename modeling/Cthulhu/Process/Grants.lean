import Cthulhu.Process.RoundTrip

/-!
# What a call of `allocate_mem` grants

One round of `allocate_mem` stops with the entries kept, or gives its page the status that the
request asks for: reserved on demand, or mapped with the flags of the call. The rounds of a call
grant the pages of the request one after the other until one of them stops, and change the entry
of no other page. The page tables of the address space are assumed to form a tree.

A page that maps the frame at address zero stops the loop like an exhausted pool does, since the
source takes the address of the frame for the success of the allocation.
-/

namespace Cthulhu

open Lib

/-- What an entry says of its page: nothing, that it is reserved, or how it is mapped. -/
inductive PageStatus
  | absent
  | reserved (exec : Bool)
  | mapped (rw us xd : Bool)
  deriving DecidableEq, Repr

/-- The status of a page by its entry. -/
def pageStatus (entry : ℕ) : PageStatus :=
  if present entry then .mapped (bit entry 1) (bit entry 2) (bit entry 63)
  else if bit entry 1 && bit entry 3 then .reserved (bit entry 4)
  else .absent

/-- The status `allocate_mem` gives a page with the entry `old`: a page that was reserved on demand
keeps the execute flag of its marker. -/
def grantedStatus (ainfo : AllocInfo) (kernel readonly : Bool) (old : ℕ) : PageStatus :=
  if ainfo.aod then .reserved ainfo.exec
  else .mapped (!readonly) (!kernel)
    (if !present old && (bit old 1 && bit old 3) then bit old 4 else ainfo.exec)

/-- An address space that can be allocated in: its tables form a tree, no free frame belongs to it,
and the pool lies below `2 ^ 62`. -/
structure Allocatable (cr3 : ℕ) (m : Machine) : Prop where
  tree : OneReference {align cr3} m
  nonempty : m.framePool ≠ []
  below : ∀ s ∈ m.framePool, s.endWord ≤ 2 ^ 62

/-- The entry maps the frame at address zero, which `allocate_frame` cannot tell from a failure. -/
def ZeroFrame (entry : ℕ) : Prop := present entry = true ∧ align entry % 2 ^ 63 = 0

/-- The entry is as it was; an entry for the frame at zero may have other flags. -/
def Kept (old new : ℕ) : Prop := new = old ∨ ZeroFrame old ∧ ZeroFrame new

section Round

variable {cr3 : ℕ} {m : Machine}

/-- The address space by itself is mappable. -/
theorem Allocatable.mappable (h : Allocatable cr3 m) : Mappable {align cr3} m := ⟨h.tree, h.nonempty, h.below⟩

/-- A mappable address space by itself can be allocated in. -/
theorem Mappable.allocatable (h : Mappable {align cr3} m) : Allocatable cr3 m := ⟨h.tree, h.nonempty, h.below⟩

/-- The free frames are not referenced from the address space. -/
theorem Allocatable.growable (h : Allocatable cr3 m) : Growable {align cr3} m := h.mappable.growable

/-- The same memory and pool can be allocated in. -/
theorem Allocatable.same {m' : Machine} (h : Allocatable cr3 m) (hpool : m'.framePool = m.framePool)
    (hmem : m'.memory = m.memory) : Allocatable cr3 m' := (h.mappable.same hpool hmem).allocatable

/-- An entry rewritten to a zero address had a zero address. -/
theorem zeroFrame_of_rewritten {entry : ℕ} (hpresent : present entry = true) {kernel readonly exec : Bool}
    (hzero : align (Machine.pageFlags (align entry) kernel readonly exec) = 0) :
    ZeroFrame entry ∧ ZeroFrame (Machine.pageFlags (align entry) kernel readonly exec) := by
  refine ⟨⟨hpresent, ?_⟩, present_pageFlags _ _ _ _, by rw [hzero]; rfl⟩
  have hflags : align (setBit (setBit (setBit (align entry) 0 true) 1 !readonly) 2 !kernel) = align entry := by
    rw [align_setBit _ _ (by decide), align_setBit _ _ (by decide), align_setBit _ _ (by decide), align_align]
  unfold Machine.pageFlags at hzero
  generalize setBit (setBit (setBit (align entry) 0 true) 1 (!readonly)) 2 (!kernel) = b at hflags hzero
  have hmod := setBit_mod b 63 exec
  have hlow := align_le (setBit b 63 exec)
  rw [← hflags]
  unfold align
  omega

/-- An entry kept twice is kept. -/
theorem Kept.trans {a b c : ℕ} (h : Kept a b) (h' : Kept b c) : Kept a c := by
  rcases h' with rfl | ⟨hb, hc⟩
  · exact h
  · rcases h with rfl | ⟨ha, -⟩
    · exact Or.inr ⟨hb, hc⟩
    · exact Or.inr ⟨ha, hc⟩

/-- A page whose entry was kept is given what it would have been given before. -/
theorem Kept.grantedStatus_eq {old new : ℕ} (h : Kept old new) (ainfo : AllocInfo) (kernel readonly : Bool) :
    grantedStatus ainfo kernel readonly new = grantedStatus ainfo kernel readonly old := by
  rcases h with rfl | ⟨hold, hnew⟩
  · rfl
  · unfold grantedStatus
    rw [hold.1, hnew.1]
    rfl

/-- A marker reserves its page. -/
theorem pageStatus_aodMarker (stale : ℕ) (exec : Bool) : pageStatus (aodMarker stale exec) = .reserved exec := by
  obtain ⟨hvalid, hdemand⟩ := aodMarker_bits stale exec
  have hexec : bit (aodMarker stale exec) 4 = exec := by
    unfold aodMarker
    rw [bit_setBit_self]
  simp [pageStatus, present_aodMarker, hvalid, hdemand, hexec]

/-- The flags of `allocate_frame` map the page. -/
theorem pageStatus_pageFlags (a : ℕ) (kernel readonly exec : Bool) :
    pageStatus (Machine.pageFlags a kernel readonly exec) = .mapped (!readonly) (!kernel) exec := by
  unfold pageStatus
  rw [if_pos (present_pageFlags _ _ _ _)]
  unfold Machine.pageFlags
  rw [bit_setBit_self, bit_setBit_of_ne _ _ (by decide), bit_setBit_of_ne _ _ (by decide), bit_setBit_self,
    bit_setBit_of_ne _ _ (by decide), bit_setBit_self]

/-- Walks that allocate keep the address space fit for allocation. -/
theorem Allocatable.grown {m' : Machine} (h : Allocatable cr3 m) (hgrown : Grown {align cr3} m m') :
    Allocatable cr3 m' := (h.mappable.grown hgrown).allocatable

/-- Writing a leaf entry that leads nowhere keeps the address space fit for allocation. -/
theorem Allocatable.storeLeaf (h : Allocatable cr3 m) {p : Slot} (hp : LeafSlot {align cr3} m p) {w : ℕ}
    (hw : present w = false) : Allocatable cr3 (m.store p w) :=
  ⟨h.tree.storeLeaf h.growable hp hw, h.nonempty, h.below⟩

/-- `allocate_frame` keeps the address space fit for allocation. -/
theorem Allocatable.allocateFrame (h : Allocatable cr3 m) {p : Slot} (hp : LeafSlot {align cr3} m p)
    (kernel readonly exec : Bool) : Allocatable cr3 (m.allocateFrame p kernel readonly exec).2 :=
  (h.mappable.allocateFrame hp kernel readonly exec).allocatable

/-- A write to the slot of a page changes its entry, and the entry of no other page. -/
theorem Allocatable.leafEntry_store (h : Allocatable cr3 m) {va pt : ℕ}
    (hwalk : paging.walk m.memory 0 (align cr3) (indices va) = some pt) {filled : Memory}
    (hagree : ∀ l < 4, ∀ T ∈ paging.tables m.memory {align cr3} l, filled T = m.memory T) {w : ℕ} {mem : Memory}
    (hmem : mem = Links.store filled pt (tableIndex va) w) :
    (∀ page, SamePage page va → leafEntry mem cr3 page = w) ∧
      ∀ page, ¬ SamePage page va → leafEntry mem cr3 page = leafEntry m.memory cr3 page :=
  h.mappable.leafEntry_store (Finset.mem_singleton_self _) hwalk hagree hmem

/-- What one round can do to an address space: stop with the entries kept, or give its page the
status the request asks for. -/
inductive Granted (cr3 : ℕ) (kernel readonly : Bool) (stale : ℕ → ℕ) (ainfo : AllocInfo) (va : ℕ)
    (m m' : Machine) : Prop
  | stopped (hround : Machine.allocateMemPage kernel readonly cr3 stale ((ainfo, m), false) va =
      (({ ainfo with finished := false }, m'), true))
    (hkept : ∀ page, Kept (leafEntry m.memory cr3 page) (leafEntry m'.memory cr3 page))
  | granted (hround : Machine.allocateMemPage kernel readonly cr3 stale ((ainfo, m), false) va =
      ((ainfo.next, m'), false))
    (hstatus : pageStatus (leafEntry m'.memory cr3 va) =
      grantedStatus ainfo kernel readonly (leafEntry m.memory cr3 va))

/-- A round that finds no table stops. -/
theorem Machine.allocateMemPage_none (m : Machine) (cr3 : ℕ) (ainfo : AllocInfo) (kernel readonly : Bool) (stale : ℕ → ℕ)
    (va : ℕ) (hnone : ((m.lock .frame).getPage va cr3 true (!kernel)).1 = none) :
    Machine.allocateMemPage kernel readonly cr3 stale ((ainfo, m), false) va =
      (({ ainfo with finished := false }, ((m.lock .frame).getPage va cr3 true (!kernel)).2.unlock .frame), true) := by
  unfold Machine.allocateMemPage
  dsimp only
  rw [if_neg Bool.false_ne_true, hnone]

/-- A round that finds the entry of its page marks it, or gives it a frame. -/
theorem Machine.allocateMemPage_some (m : Machine) (cr3 : ℕ) (ainfo : AllocInfo) (kernel readonly : Bool) (stale : ℕ → ℕ)
    (va : ℕ) (p : Slot) (hslot : ((m.lock .frame).getPage va cr3 true (!kernel)).1 = some p) :
    Machine.allocateMemPage kernel readonly cr3 stale ((ainfo, m), false) va =
      if ainfo.aod then
        ((ainfo.next, (((m.lock .frame).getPage va cr3 true (!kernel)).2.store p
          (aodMarker (stale va) ainfo.exec)).unlock .frame), false)
      else
        let r := ((m.lock .frame).getPage va cr3 true (!kernel)).2.allocateFrame p kernel readonly ainfo.exec
        if r.1 = 0 then (({ ainfo with finished := false }, r.2.unlock .frame), true)
        else ((ainfo.next, r.2.unlock .frame), false) := by
  unfold Machine.allocateMemPage
  dsimp only
  rw [if_neg Bool.false_ne_true, hslot]
  rfl

/-- One round does one of these, and changes the entry of no other page. -/
theorem Allocatable.round (h : Allocatable cr3 m) {va : ℕ} (hva : pmlIndex va ≠ 510) (ainfo : AllocInfo)
    (kernel readonly : Bool) (stale : ℕ → ℕ) :
    ∃ m', Allocatable cr3 m' ∧ Granted cr3 kernel readonly stale ainfo va m m' ∧
      ∀ page, ¬ SamePage page va → leafEntry m'.memory cr3 page = leafEntry m.memory cr3 page := by
  have hroot : align cr3 ∈ ({align cr3} : Finset ℕ) := Finset.mem_singleton_self _
  have hlocked : Allocatable cr3 (m.lock .frame) := h.same rfl rfl
  obtain ⟨hgrown, hresult⟩ := hlocked.growable.getPage hroot hva !kernel
  have hwalked := hlocked.grown hgrown
  have hentries (page : ℕ) := Grown.leafEntry hgrown hlocked.growable hroot page
  have hstops := m.allocateMemPage_none cr3 ainfo kernel readonly stale va
  have hfinds (p : Slot) := m.allocateMemPage_some cr3 ainfo kernel readonly stale va p
  generalize (m.lock .frame).getPage va cr3 true (!kernel) = r at hresult hwalked hentries hstops hfinds
  rcases hresult with ⟨hnone, -⟩ | ⟨pt, hslot, hwalk⟩
  · exact ⟨r.2.unlock .frame, hwalked.same rfl rfl, .stopped (hstops hnone) fun page => Or.inl (hentries page),
      fun page _ => hentries page⟩
  · have hround := hfinds _ hslot
    dsimp only at hround
    have hleaf := leafSlot_of_walk hroot hwalk
    have hold : r.2.load ⟨pt, tableIndex va⟩ = leafEntry m.memory cr3 va :=
      (leafEntry_of_some hwalk).symm.trans (hentries va)
    cases haod : ainfo.aod with
    | true =>
      rw [if_pos haod] at hround
      obtain ⟨hsame, hothers⟩ := hwalked.leafEntry_store hwalk (fun _ _ _ _ => rfl) rfl
      refine ⟨(r.2.store ⟨pt, tableIndex va⟩ (aodMarker (stale va) ainfo.exec)).unlock .frame,
        (hwalked.storeLeaf hleaf (present_aodMarker _ _)).same rfl rfl, .granted hround ?_,
        fun page hother => (hothers page hother).trans (hentries page)⟩
      unfold grantedStatus
      rw [if_pos haod, ← pageStatus_aodMarker (stale va) ainfo.exec]
      exact congrArg pageStatus (hsame va rfl)
    | false =>
      rw [if_neg (by rw [haod]; decide)] at hround
      have hnext := hwalked.allocateFrame hleaf kernel readonly ainfo.exec
      have hgiven := hwalked.growable.frameGiven hwalked.below hleaf kernel readonly ainfo.exec
      generalize r.2.allocateFrame ⟨pt, tableIndex va⟩ kernel readonly ainfo.exec = given at hnext hgiven hround
      refine ⟨given.2.unlock .frame, hnext.same rfl rfl, ?_⟩
      rw [show (given.2.unlock .frame).memory = given.2.memory from rfl]
      cases hgiven with
      | rewritten hpresent hentry hm =>
        obtain ⟨hsame, hothers⟩ := hwalked.leafEntry_store hwalk (fun _ _ _ _ => rfl) (congrArg Machine.memory hm)
        rw [hold] at hpresent hsame hentry
        refine ⟨?_, fun page hother => (hothers page hother).trans (hentries page)⟩
        by_cases hzero : given.1 = 0
        · rw [if_pos hzero] at hround
          rw [hentry] at hzero
          refine .stopped hround fun page => ?_
          by_cases hpage : SamePage page va
          · rw [hpage.leafEntry_eq m.memory cr3]
            exact Or.inr (hsame page hpage ▸ zeroFrame_of_rewritten hpresent hzero)
          · exact Or.inl ((hothers page hpage).trans (hentries page))
        · rw [if_neg hzero] at hround
          refine .granted hround ((congrArg pageStatus (hsame va rfl)).trans ?_)
          rw [pageStatus_pageFlags, grantedStatus, haod, hpresent]
          rfl
      | exhausted habsent hnone hentry hm =>
        rw [if_pos hentry] at hround
        have hmem : given.2.memory = r.2.memory := by rw [hm]; rfl
        rw [hmem]
        exact ⟨.stopped hround fun page => Or.inl ((congrArg (leafEntry · cr3 page) hmem).trans (hentries page)),
          fun page _ => hentries page⟩
      | fresh f filled habsent hf hne hoff hentry hmem hpool hactive =>
        rw [if_neg hentry] at hround
        have hnot := (hwalked.growable.fresh hf hne).2
        obtain ⟨hsame, hothers⟩ := hwalked.leafEntry_store hwalk
          (fun l hl T hT => hoff T fun heq => hnot ⟨l, hl, heq ▸ hT⟩) hmem
        rw [hold] at habsent hsame
        refine ⟨.granted hround ((congrArg pageStatus (hsame va rfl)).trans ?_),
          fun page hother => (hothers page hother).trans (hentries page)⟩
        rw [pageStatus_pageFlags, grantedStatus, haod, habsent]
        rfl

end Round

section Loop

variable {cr3 : ℕ} {m : Machine}

/-- What a call does to the pages it goes through: it gives the first ones their status, keeps the
entries of the others, and changes nothing else. -/
structure Grants (cr3 : ℕ) (kernel readonly : Bool) (ainfo : AllocInfo) (m m' : Machine) (made rest : List ℕ) :
    Prop where
  ready : Allocatable cr3 m'
  granted : ∀ page ∈ made, pageStatus (leafEntry m'.memory cr3 page) =
    grantedStatus ainfo kernel readonly (leafEntry m.memory cr3 page)
  kept : ∀ page ∈ rest, Kept (leafEntry m.memory cr3 page) (leafEntry m'.memory cr3 page)
  outside : ∀ page, (∀ a ∈ made ++ rest, ¬ SamePage page a) →
    leafEntry m'.memory cr3 page = leafEntry m.memory cr3 page

/-- The status given depends on the kind of the request only. -/
theorem grantedStatus_congr {ainfo info : AllocInfo} (hexec : info.exec = ainfo.exec) (haod : info.aod = ainfo.aod)
    (kernel readonly : Bool) (old : ℕ) :
    grantedStatus info kernel readonly old = grantedStatus ainfo kernel readonly old := by
  unfold grantedStatus
  rw [hexec, haod]

/-- The rounds of `allocate_mem` grant the pages one after the other until one of them stops. -/
theorem Allocatable.rounds (h : Allocatable cr3 m) (ainfo : AllocInfo) (kernel readonly : Bool) (stale : ℕ → ℕ)
    {pages : List ℕ} (hout : ∀ a ∈ pages, pmlIndex a ≠ 510) (hdistinct : pages.Pairwise fun a b => ¬ SamePage a b)
    (hamount : ainfo.amount = 0x1000 * pages.length) (hend : ainfo.start + 0x1000 * pages.length < 2 ^ 64) :
    ∃ info m' made rest, pages = made ++ rest ∧ Grants cr3 kernel readonly ainfo m m' made rest ∧
      run (Machine.allocateMemPage kernel readonly cr3 stale) ((ainfo, m), false) pages =
        ((info, m'), !rest.isEmpty) ∧
      info.start = ainfo.start + 0x1000 * made.length ∧ info.amount = 0x1000 * rest.length ∧
      info.exec = ainfo.exec ∧ info.aod = ainfo.aod ∧ (rest ≠ [] → info.finished = false) := by
  induction pages generalizing m ainfo with
  | nil =>
    refine ⟨ainfo, m, [], [], rfl, ⟨h, by simp, by simp, fun _ _ => rfl⟩, rfl, rfl, hamount, rfl, rfl, ?_⟩
    exact fun hne => absurd rfl hne
  | cons va pages ih =>
    rw [List.forall_mem_cons] at hout
    rw [List.pairwise_cons] at hdistinct
    have hrun : run (Machine.allocateMemPage kernel readonly cr3 stale) ((ainfo, m), false) (va :: pages) =
        run (Machine.allocateMemPage kernel readonly cr3 stale)
          (Machine.allocateMemPage kernel readonly cr3 stale ((ainfo, m), false) va) pages := rfl
    rw [hrun]
    obtain ⟨m₁, hready, hgranted, hothers⟩ := h.round hout.1 ainfo kernel readonly stale
    cases hgranted with
    | stopped hround hkept =>
      refine ⟨{ ainfo with finished := false }, m₁, [], va :: pages, rfl,
        ⟨hready, by simp, fun page _ => hkept page, fun page houtside => ?_⟩, ?_, rfl, hamount, rfl, rfl, fun _ => rfl⟩
      · exact hothers page (houtside va List.mem_cons_self)
      · rw [hround, Machine.allocateMem_stopped _ _ _ _ _ rfl]
        rfl
    | granted hround hstatus =>
      rw [List.length_cons, Nat.mul_add, Nat.mul_one] at hamount hend
      rw [← Nat.add_assoc] at hend
      have hnextExec : ainfo.next.exec = ainfo.exec := by simp only [AllocInfo.next]
      have hstart : ainfo.next.start = ainfo.start + 0x1000 := by
        simp only [AllocInfo.next]
        exact add64_of_lt (by omega)
      have hrest : ainfo.next.amount = 0x1000 * pages.length := by
        simp only [AllocInfo.next]
        rw [sub64_of_le (by omega)]
        omega
      obtain ⟨info, m', made, rest, hpages, hgrants, hrounds, hinfo, hleft, hexec, haod, hfinished⟩ :=
        ih hready ainfo.next hout.2 hdistinct.2 hrest (by rw [hstart]; omega)
      have hva : ∀ a ∈ made ++ rest, ¬ SamePage va a := fun a ha => hdistinct.1 a (hpages ▸ ha)
      have hback (page : ℕ) (hpage : page ∈ made ++ rest) :
          leafEntry m₁.memory cr3 page = leafEntry m.memory cr3 page :=
        hothers page fun hsame => hva page hpage hsame.symm
      refine ⟨info, m', va :: made, rest, by rw [hpages, List.cons_append], ⟨hgrants.ready, fun page hpage => ?_,
        fun page hpage => ?_, fun page houtside => ?_⟩, by rw [hround]; exact hrounds, ?_, hleft, hexec.trans hnextExec,
        haod.trans ainfo.next_aod, hfinished⟩
      · rcases List.mem_cons.mp hpage with rfl | hmade
        · rw [hgrants.outside page hva, hstatus]
        · rw [hgrants.granted page hmade, hback page (List.mem_append_left _ hmade),
            grantedStatus_congr hnextExec ainfo.next_aod]
      · rw [← hback page (List.mem_append_right _ hpage)]
        exact hgrants.kept page hpage
      · rw [List.cons_append, List.forall_mem_cons] at houtside
        rw [hgrants.outside page houtside.2, hothers page houtside.1]
      · rw [hinfo, hstart, List.length_cons]
        omega

end Loop

end Cthulhu
