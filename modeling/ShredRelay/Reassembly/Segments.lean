import ShredRelay.Shred

/-!
# Canonical segments of a slot

What a reassembler is for, stated from the shreds a slot has received and from nothing
the code keeps.  The received data shred at an index is the first one that arrived (a
re-sent shred is a copy of it).  The segment ends `e₁ < e₂ < …` are the indices whose data
shred is `DATA_COMPLETE` or last in its slot.  Segment `k` holds the data shreds of the
indices `e_{k-1} + 1 ..= e_k`, with `e₀ = -1`, and the complete segments are the first
`K` of them, `K` the largest `k` such that every index of `[0, e_k]` has its data shred.
`Canonical.segments` lists them.

## Peeling segments

A reassembler emits segments one at a time from the front.  `Peels h lo segs hi` says
that `segs` are the complete segments from index `lo` up to `hi`, each one the next
segment end with every index present.  `Peels.prefix` is what makes it the abstract
state of a reassembler: a run that has peeled `segs` from `0` has emitted a prefix of
`Canonical.segments`.  `Peels.congr` says that the peeled segments depend only on the
data shreds below `hi`, so later arrivals above `hi` leave them alone.

## Arrival order

`Canonical.segments_perm`: when the data shreds of one index are copies of each other
(`Consistent`), the segments do not depend on the order in which the shreds arrived.
-/

namespace ShredRelay

/-- The shreds of slot `s`, in arrival order. -/
def slotHistory (s : Nat) (xs : List Shred) : List Shred :=
  xs.filter (·.slot == s)

/-- The payloads of a reassembler's outputs `(slot, entries, payload)` tagged with slot `s`,
in order. -/
def payloadsOf {E : Type} (s : Nat) (outs : List (Nat × E × List UInt8)) :
    List (List UInt8) :=
  (outs.filter (·.1 == s)).map (·.2.2)

theorem slotHistory_append_self (xs : List Shred) (x : Shred) :
    slotHistory x.slot (xs ++ [x]) = slotHistory x.slot xs ++ [x] := by
  simp [slotHistory]

theorem slotHistory_append_of_ne {xs : List Shred} {x : Shred} {s : Nat} (h : x.slot ≠ s) :
    slotHistory s (xs ++ [x]) = slotHistory s xs := by
  simp [slotHistory, h]

theorem payloadsOf_append_of_ne {E : Type} {outs new : List (Nat × E × List UInt8)} {s : Nat}
    (h : ∀ o ∈ new, o.1 ≠ s) : payloadsOf s (outs ++ new) = payloadsOf s outs := by
  have hnil : new.filter (·.1 == s) = [] := List.filter_eq_nil_iff.2 (by simpa using h)
  rw [payloadsOf, List.filter_append, hnil, List.append_nil]
  rfl

theorem payloadsOf_append {E : Type} (s : Nat) (outs new : List (Nat × E × List UInt8)) :
    payloadsOf s (outs ++ new) = payloadsOf s outs ++ payloadsOf s new := by
  simp [payloadsOf]

theorem payloadsOf_append_self {E : Type} (outs : List (Nat × E × List UInt8)) (s : Nat) (e : E)
    (p : List UInt8) : payloadsOf s (outs ++ [(s, e, p)]) = payloadsOf s outs ++ [p] := by
  simp [payloadsOf]

/-- Data shreds of one index are copies of each other, as re-sent shreds are. -/
def Consistent (xs : List Shred) : Prop :=
  ∀ x ∈ xs, ∀ y ∈ xs, x.shredType = .data → y.shredType = .data → x.slot = y.slot →
    x.index = y.index → x = y

theorem Consistent.of_subset {xs ys : List Shred} (h : Consistent xs)
    (hsub : ∀ x ∈ ys, x ∈ xs) : Consistent ys :=
  fun x hx y hy => h x (hsub x hx) y (hsub y hy)

namespace Canonical

/-- The received data shred at index `i`: the first to arrive. -/
def dataAt (h : List Shred) (i : Nat) : Option Shred :=
  h.find? fun x => x.shredType == .data && x.index == i

/-- Index `i` ends a segment: its data shred is `DATA_COMPLETE` or last in its slot. -/
def endsSegment (h : List Shred) (i : Nat) : Bool :=
  (dataAt h i).any fun x => x.dataComplete || x.lastInSlot

/-- One past the largest index received. -/
def indexBound (h : List Shred) : Nat :=
  h.foldr (fun x b => max (x.index + 1) b) 0

/-- The segment ends `e₁ < e₂ < …`. -/
def ends (h : List Shred) : List Nat :=
  (List.range (indexBound h)).filter (endsSegment h)

/-- The data shreds of the indices `lo ..= e`, when all of them have arrived. -/
def segmentAt (h : List Shred) (lo e : Nat) : Option (List Shred) :=
  (List.range' lo (e + 1 - lo)).mapM (dataAt h)

/-- The complete segments from `lo` on, given the ends at or above `lo`: each runs from
one past the previous end to the next end, and the list stops at the first segment with
a missing index. -/
def completeFrom (h : List Shred) : Nat → List Nat → List (List Shred)
  | _, [] => []
  | lo, e :: es =>
      match segmentAt h lo e with
      | some seg => seg :: completeFrom h (e + 1) es
      | none => []

/-- `seg₁, …, seg_K`. -/
def segments (h : List Shred) : List (List Shred) :=
  completeFrom h 0 (ends h)

/-! ## The ends, as a sorted list -/

theorem lt_indexBound_of_mem {h : List Shred} {x : Shred} (hx : x ∈ h) :
    x.index < indexBound h := by
  induction h with
  | nil => cases hx
  | cons y ys ih =>
      simp only [indexBound, List.foldr_cons] at ih ⊢
      rcases List.mem_cons.1 hx with rfl | hx
      · omega
      · have := ih hx; omega

theorem dataAt_index {h : List Shred} {i : Nat} {x : Shred} (hx : dataAt h i = some x) :
    x ∈ h ∧ x.shredType = .data ∧ x.index = i := by
  have hp := List.find?_some hx
  simp only [Bool.and_eq_true, beq_iff_eq] at hp
  exact ⟨List.mem_of_find?_eq_some hx, hp⟩

theorem mem_ends {h : List Shred} {i : Nat} : i ∈ ends h ↔ endsSegment h i = true := by
  simp only [ends, List.mem_filter, List.mem_range, and_iff_right_iff_imp]
  intro hend
  unfold endsSegment at hend
  cases hx : dataAt h i with
  | none => simp [hx] at hend
  | some x =>
      obtain ⟨hmem, -, rfl⟩ := dataAt_index hx
      exact lt_indexBound_of_mem hmem

theorem ends_sorted (h : List Shred) : (ends h).Pairwise (· < ·) :=
  (List.pairwise_lt_range _).filter _

/-- In a strictly increasing list, the elements from `lo` on are `e` and then those past
`e`, when `e` is the first of them. -/
theorem filter_le_eq_cons {l : List Nat} (hl : l.Pairwise (· < ·)) {lo e : Nat}
    (he : e ∈ l) (hlo : lo ≤ e) (hfirst : ∀ j ∈ l, lo ≤ j → e ≤ j) :
    l.filter (lo ≤ ·) = e :: l.filter (e + 1 ≤ ·) := by
  induction l with
  | nil => cases he
  | cons a t ih =>
      obtain ⟨hat, ht⟩ := List.pairwise_cons.1 hl
      by_cases hla : lo ≤ a
      · have hea : e ≤ a := hfirst a (by simp) hla
        have hae : a = e := by
          rcases List.mem_cons.1 he with rfl | het
          · rfl
          · have := hat e het; omega
        subst hae
        have hall : ∀ p : Nat → Bool, (∀ j ∈ t, p j = true) → t.filter p = t :=
          fun p hp => List.filter_eq_self.2 hp
        rw [List.filter_cons_of_pos (by simpa using hla),
          List.filter_cons_of_neg (by simp),
          hall _ (fun j hj => by have := hat j hj; simp; omega),
          hall _ (fun j hj => by have := hat j hj; simp; omega)]
      · have het : e ∈ t := by
          rcases List.mem_cons.1 he with rfl | het
          · exact absurd hlo hla
          · exact het
        rw [List.filter_cons_of_neg (by simpa using hla),
          List.filter_cons_of_neg (by simp; omega),
          ih ht het (fun j hj => hfirst j (by simp [hj]))]

/-! ## Peeling -/

/-- `e` is the first segment end at or above `lo`. -/
def NextEnd (h : List Shred) (lo e : Nat) : Prop :=
  lo ≤ e ∧ endsSegment h e = true ∧ ∀ j, lo ≤ j → j < e → endsSegment h j = false

/-- `segs` are the complete segments from index `lo` up to index `hi`. -/
inductive Peels (h : List Shred) : Nat → List (List Shred) → Nat → Prop
  | nil (lo : Nat) : Peels h lo [] lo
  | cons {lo e : Nat} {seg : List Shred} {segs : List (List Shred)} {hi : Nat} :
      NextEnd h lo e → segmentAt h lo e = some seg → Peels h (e + 1) segs hi →
        Peels h lo (seg :: segs) hi

theorem filter_ends_of_nextEnd {h : List Shred} {lo e : Nat} (hn : NextEnd h lo e) :
    (ends h).filter (lo ≤ ·) = e :: (ends h).filter (e + 1 ≤ ·) := by
  obtain ⟨hlo, hend, hfirst⟩ := hn
  refine filter_le_eq_cons (ends_sorted h) (mem_ends.2 hend) hlo fun j hj hloj => ?_
  by_contra hlt
  have := hfirst j hloj (by omega)
  rw [mem_ends.1 hj] at this
  cases this

/-- **Peeled segments are the front of the canonical ones.** -/
theorem Peels.completeFrom_eq {h : List Shred} {lo hi : Nat} {segs : List (List Shred)}
    (hp : Peels h lo segs hi) :
    completeFrom h lo ((ends h).filter (lo ≤ ·)) =
      segs ++ completeFrom h hi ((ends h).filter (hi ≤ ·)) := by
  induction hp with
  | nil => rfl
  | cons hn hseg _ ih =>
      rw [filter_ends_of_nextEnd hn, completeFrom, hseg, ih]
      rfl

theorem Peels.prefix {h : List Shred} {hi : Nat} {segs : List (List Shred)}
    (hp : Peels h 0 segs hi) : segs <+: segments h := by
  have hall : (ends h).filter (0 ≤ ·) = ends h := List.filter_eq_self.2 (by simp)
  have := hp.completeFrom_eq
  rw [hall] at this
  exact ⟨_, this.symm⟩

theorem Peels.snoc {h : List Shred} {lo hi e : Nat} {segs : List (List Shred)}
    {seg : List Shred} (hp : Peels h lo segs hi) (hn : NextEnd h hi e)
    (hseg : segmentAt h hi e = some seg) : Peels h lo (segs ++ [seg]) (e + 1) := by
  induction hp with
  | nil => exact .cons hn hseg (.nil _)
  | cons hn' hseg' _ ih => exact .cons hn' hseg' (ih hn hseg)

theorem Peels.le {h : List Shred} {lo hi : Nat} {segs : List (List Shred)}
    (hp : Peels h lo segs hi) : lo ≤ hi := by
  induction hp with
  | nil => exact le_rfl
  | cons hn _ _ ih => have := hn.1; omega

theorem segmentAt_isSome {h : List Shred} {lo e : Nat} {seg : List Shred}
    (hseg : segmentAt h lo e = some seg) {j : Nat} (hlo : lo ≤ j) (hj : j ≤ e) :
    (dataAt h j).isSome := by
  unfold segmentAt at hseg
  have hmem : j ∈ List.range' lo (e + 1 - lo) := List.mem_range'_1.2 ⟨hlo, by omega⟩
  generalize List.range' lo (e + 1 - lo) = l at hseg hmem
  induction l generalizing seg with
  | nil => cases hmem
  | cons a t ih =>
      simp only [List.mapM_cons, Option.pure_def, Option.bind_eq_bind,
        Option.bind_eq_some, Option.some.injEq] at hseg
      obtain ⟨x, hx, r, hr, -⟩ := hseg
      rcases List.mem_cons.1 hmem with rfl | ht
      · simp [hx]
      · exact ih hr ht

/-- Every index below the peeled boundary has its data shred. -/
theorem Peels.dataAt_isSome {h : List Shred} {lo hi : Nat} {segs : List (List Shred)}
    (hp : Peels h lo segs hi) {j : Nat} (hlo : lo ≤ j) (hj : j < hi) : (dataAt h j).isSome := by
  induction hp with
  | nil => omega
  | @cons lo e seg segs hi _ hseg _ ih =>
      by_cases hje : j ≤ e
      · exact segmentAt_isSome hseg hlo hje
      · exact ih (by omega) hj

theorem mapM_congr_mem {f g : Nat → Option Shred} {l : List Nat}
    (heq : ∀ j ∈ l, f j = g j) : l.mapM f = l.mapM g := by
  induction l with
  | nil => rfl
  | cons a t ih =>
      simp only [List.mapM_cons, heq a (by simp), ih fun j hj => heq j (by simp [hj])]

theorem mapM_eq_some_filterMap {f : Nat → Option Shred} {l : List Nat}
    (hsome : ∀ j ∈ l, (f j).isSome) : l.mapM f = some (l.filterMap f) := by
  induction l with
  | nil => rfl
  | cons a t ih =>
      obtain ⟨z, hz⟩ := Option.isSome_iff_exists.1 (hsome a (by simp))
      rw [List.mapM_cons, hz, ih fun j hj => hsome j (by simp [hj]), List.filterMap_cons_some hz]
      rfl

theorem segmentAt_congr {h h' : List Shred} {lo e : Nat}
    (heq : ∀ j, lo ≤ j → j ≤ e → dataAt h' j = dataAt h j) :
    segmentAt h' lo e = segmentAt h lo e :=
  mapM_congr_mem fun j hj => by
    rw [List.mem_range'_1] at hj
    exact heq j hj.1 (by omega)

/-- **The peeled segments depend only on the data shreds below the boundary.** -/
theorem Peels.congr {h h' : List Shred} {lo hi : Nat} {segs : List (List Shred)}
    (hp : Peels h lo segs hi) (heq : ∀ j < hi, dataAt h' j = dataAt h j) :
    Peels h' lo segs hi := by
  induction hp with
  | nil => exact .nil _
  | @cons lo e seg segs hi hn hseg hrest ih =>
      have hle := hrest.le
      have hends : ∀ j, j < hi → endsSegment h' j = endsSegment h j := fun j hj => by
        simp only [endsSegment, heq j hj]
      obtain ⟨hlo, hend, hfirst⟩ := hn
      refine .cons ⟨hlo, by rw [hends _ (by omega)]; exact hend, fun j h1 h2 => by
        rw [hends j (by omega)]; exact hfirst j h1 h2⟩ ?_ (ih heq)
      rw [segmentAt_congr fun j _ hj => heq j (by omega)]
      exact hseg

/-- **Later arrivals leave the peeled segments alone**: the first data shred of an index
below the boundary has already arrived. -/
theorem Peels.append {h : List Shred} {hi : Nat} {segs : List (List Shred)}
    (hp : Peels h 0 segs hi) (ys : List Shred) : Peels (h ++ ys) 0 segs hi :=
  hp.congr fun j hj => by
    obtain ⟨y, hy⟩ := Option.isSome_iff_exists.1 (hp.dataAt_isSome (Nat.zero_le _) hj)
    rw [dataAt, List.find?_append, ← dataAt, hy]
    rfl

/-! ## Arrival order -/

theorem completeFrom_congr {h h' : List Shred} (hd : dataAt h' = dataAt h) (lo : Nat)
    (es : List Nat) : completeFrom h' lo es = completeFrom h lo es := by
  induction es generalizing lo with
  | nil => rfl
  | cons e es ih => simp only [completeFrom, segmentAt, hd, ih]

theorem indexBound_perm {h h' : List Shred} (hp : h.Perm h') : indexBound h' = indexBound h :=
  (hp.foldr_eq' (fun _ _ _ _ _ => by omega) 0).symm

/-- When the data shreds of one index are copies of each other, the received data shred of
an index does not depend on the arrival order. -/
theorem dataAt_perm {h h' : List Shred} (hp : h.Perm h') (hcons : Consistent h)
    (hslot : ∀ x ∈ h, ∀ y ∈ h, x.slot = y.slot) (i : Nat) : dataAt h' i = dataAt h i := by
  cases hx : dataAt h i with
  | none => exact List.find?_eq_none.2 fun y hy => List.find?_eq_none.1 hx y (hp.symm.subset hy)
  | some x =>
      obtain ⟨hxm, hxd, hxi⟩ := dataAt_index hx
      have hsome : (dataAt h' i).isSome := List.find?_isSome.2 ⟨x, hp.subset hxm, by simp [hxd, hxi]⟩
      obtain ⟨y, hy⟩ := Option.isSome_iff_exists.1 hsome
      obtain ⟨hym, hyd, hyi⟩ := dataAt_index hy
      have hym : y ∈ h := hp.symm.subset hym
      rw [hy, hcons y hym x hxm hyd hxd (hslot y hym x hxm) (hyi.trans hxi.symm)]

/-- **The canonical segments do not depend on the arrival order** of a slot's shreds, when
its data shreds of one index are copies of each other. -/
theorem segments_perm {h h' : List Shred} (hp : h.Perm h') (hcons : Consistent h)
    (hslot : ∀ x ∈ h, ∀ y ∈ h, x.slot = y.slot) : segments h' = segments h := by
  have hd : dataAt h' = dataAt h := funext (dataAt_perm hp hcons hslot)
  have he : endsSegment h' = endsSegment h := by unfold endsSegment; rw [hd]
  rw [segments, segments, ends, ends, indexBound_perm hp, he, completeFrom_congr hd]

end Canonical

/-- `deshred` of the segments, read off a relation that pairs each with its payload. -/
theorem forall₂_eq_filterMap {deshred : List Shred → Option (List UInt8)}
    {segs : List (List Shred)} {ps : List (List UInt8)}
    (h : List.Forall₂ (fun seg p => deshred seg = some p) segs ps) :
    ps = segs.filterMap deshred := by
  induction h with
  | nil => rfl
  | cons hd _ ih => rw [List.filterMap_cons, hd, ih]

end ShredRelay
