import Cthulhu.Lib.LinkWalk

/-!
# Tables with one owner

Some of the root words lead to one side of the tables. Where every table of that side is linked once,
and only from that side, a walk through the side is determined by the node it ends in: the tables
of one root are never met by the walks of another, and no two walks share their data.

Nothing is said about the other side, which may be shared between the roots.
-/

namespace Cthulhu.Lib.Links

variable {N I W : Type*} [DecidableEq N]

/-- The links of the side lead to owned nodes, and an owned node is a root or linked, once. -/
structure SideOwned (L : Links N I W) (side : I → Prop) (owned : N → Prop) (M : N → I → W) (roots : Finset N) :
    Prop where
  single : ∀ n, owned n → (if n ∈ roots then 1 else 0) + L.linkCount M roots n ≤ 1
  below : ∀ l, l + 1 < L.depth → ∀ T ∈ L.tables M roots l, ∀ i ∈ L.slots, (l = 0 → side i) → (0 < l → owned T) →
    ∀ C, L.child l i (M T i) = some C → owned C

/-- A path that starts on the side. -/
structure SidePath (L : Links N I W) (side : I → Prop) (path : List I) : Prop where
  slots : ∀ i ∈ path, i ∈ L.slots
  head : ∀ i ∈ path.head?, side i

variable {L : Links N I W} {side : I → Prop} {owned : N → Prop} {M M' : N → I → W} {roots roots' : Finset N}
  {R R' T D : N} {path path' : List I} {i : I}

omit [DecidableEq N] in
/-- The empty path. -/
theorem SidePath.nil : L.SidePath side [] :=
  ⟨fun _ hi => absurd hi (by simp), fun _ hi => absurd hi (by simp)⟩

omit [DecidableEq N] in
/-- A path goes on with any index, unless it is only starting. -/
theorem sidePath_snoc :
    L.SidePath side (path ++ [i]) ↔ L.SidePath side path ∧ i ∈ L.slots ∧ (path.length = 0 → side i) := by
  constructor
  · intro h
    have hslots := List.forall_mem_append.mp h.slots
    refine ⟨⟨hslots.1, fun j hj => h.head j ?_⟩, hslots.2 i (List.mem_singleton_self i), fun hnil => ?_⟩
    · rw [List.head?_append, Option.mem_def.mp hj]
      rfl
    · rw [List.length_eq_zero_iff] at hnil
      exact h.head i (by simp [hnil])
  · rintro ⟨h, hi, hside⟩
    refine ⟨List.forall_mem_append.mpr ⟨h.slots, fun j hj => List.mem_singleton.mp hj ▸ hi⟩, fun j hj => ?_⟩
    cases path with
    | nil =>
      obtain rfl : i = j := by simpa using hj
      exact hside rfl
    | cons k path => exact h.head j (by simpa using hj)

/-- The owners after a change: every link on the side was there before, or it leads to an owned node. -/
theorem SideOwned.next (h : L.SideOwned side owned M roots)
    (hchild : ∀ l, l + 1 < L.depth → ∀ T ∈ L.tables M' roots' l, ∀ i ∈ L.slots, (l = 0 → side i) → ∀ C,
      L.child l i (M' T i) = some C → owned C ∨ T ∈ L.tables M roots l ∧ L.child l i (M T i) = some C)
    (hsingle : ∀ n, owned n → (if n ∈ roots' then 1 else 0) + L.linkCount M' roots' n ≤ 1) :
    L.SideOwned side owned M' roots' where
  single := hsingle
  below := by
    intro l hl T hT i hi hside howned C hC
    rcases hchild l hl T hT i hi hside C hC with hnew | ⟨hold, hsame⟩
    · exact hnew
    · exact h.below l hl T hold i hi hside howned C hsame

/-- A walk on the side ends in an owned table. -/
theorem SideOwned.walk_owned (h : L.SideOwned side owned M roots) (hR : R ∈ roots) (hpath : L.SidePath side path)
    (hlen : path.length < L.depth) (hwalk : L.walk M 0 R path = some D) (hpos : 0 < path.length) : owned D := by
  induction path using List.reverseRecOn generalizing D with
  | nil => exact absurd hpos (by simp)
  | append_singleton path i ih =>
    obtain ⟨hpath, hi, hside⟩ := sidePath_snoc.mp hpath
    rw [List.length_append, List.length_singleton] at hlen
    rw [walk_snoc, Nat.zero_add] at hwalk
    obtain ⟨T, hwalkT, hchild⟩ := Option.bind_eq_some_iff.mp hwalk
    have hT := walk_mem (show R ∈ L.tables M roots 0 from hR) hpath.slots hwalkT
    rw [Nat.zero_add] at hT
    exact h.below path.length hlen T hT i hi hside (fun hlong => ih hpath (by omega) hwalkT hlong) D hchild

/-- Of two walks of one length to the same owned node, one of them on the side, the roots and the paths are
the same. -/
theorem SideOwned.walk_inj (h : L.SideOwned side owned M roots) (hR : R ∈ roots) (hR' : R' ∈ roots)
    (hlen : path.length = path'.length) (hdepth : path.length ≤ L.depth) (hpath : ∀ i ∈ path, i ∈ L.slots)
    (hpath' : L.SidePath side path') (hwalk : L.walk M 0 R path = some D) (hwalk' : L.walk M 0 R' path' = some D)
    (howned : 0 < path.length → owned D) : R = R' ∧ path = path' := by
  induction path using List.reverseRecOn generalizing path' D with
  | nil =>
    obtain rfl := List.eq_nil_of_length_eq_zero hlen.symm
    exact ⟨(Option.some.inj hwalk).trans (Option.some.inj hwalk').symm, rfl⟩
  | append_singleton path i ih =>
    rw [List.length_append, List.length_singleton] at hlen hdepth
    obtain rfl | ⟨path', i', rfl⟩ := List.eq_nil_or_concat' path'
    · exact absurd hlen (by simp)
    rw [List.length_append, List.length_singleton, Nat.add_right_cancel_iff] at hlen
    have hslots := List.forall_mem_append.mp hpath
    obtain ⟨hinit, hi', -⟩ := sidePath_snoc.mp hpath'
    rw [walk_snoc, Nat.zero_add] at hwalk hwalk'
    obtain ⟨T, hwalkT, hchild⟩ := Option.bind_eq_some_iff.mp hwalk
    obtain ⟨T', hwalkT', hchild'⟩ := Option.bind_eq_some_iff.mp hwalk'
    have hT := walk_mem (show R ∈ L.tables M roots 0 from hR) hslots.1 hwalkT
    have hT' := walk_mem (show R' ∈ L.tables M roots 0 from hR') hinit.slots hwalkT'
    rw [Nat.zero_add] at hT hT'
    -- the node has one link, so that both walks end with the same word
    have hone := h.single D (howned (by simp))
    obtain ⟨-, rfl, rfl⟩ := place_unique (by omega) hdepth hT (hslots.2 i (List.mem_singleton_self i)) hchild
      (by omega) hT' hi' hchild'
    have hup := ih hlen (by omega) hslots.1 hinit hwalkT hwalkT' fun hpos =>
      h.walk_owned hR' hinit (by omega) hwalkT' (by omega)
    exact ⟨hup.1, by rw [hup.2]⟩

omit [DecidableEq N] in
/-- Walks on the side stay the same when the words they read lead where they led before. -/
theorem walk_side_congr
    (hsame : ∀ q T i, L.walk M 0 R q = some T → L.SidePath side (q ++ [i]) → q.length < path.length →
      L.child q.length i (M' T i) = L.child q.length i (M T i))
    (hpath : L.SidePath side path) : L.walk M' 0 R path = L.walk M 0 R path := by
  induction path using List.reverseRecOn with
  | nil => rfl
  | append_singleton path i ih =>
    have hprefix := (sidePath_snoc.mp hpath).1
    rw [List.length_append, List.length_singleton] at hsame
    have ih := ih (fun q T j hq hside hlt => hsame q T j hq hside (by omega)) hprefix
    rw [walk_snoc, walk_snoc, ih, Nat.zero_add]
    cases hwalk : L.walk M 0 R path with
    | none => rfl
    | some T =>
      rw [Option.bind_some, Option.bind_some]
      exact hsame path T i hwalk hpath (by omega)

end Cthulhu.Lib.Links
