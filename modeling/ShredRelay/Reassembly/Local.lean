import ShredRelay.Reassembly.CompactHistory
import Mathlib.Data.List.Forall2

/-!
# The per-thread reassembler

`DeshredManagerLocal` (`examples/deshred_sharded.rs`) keeps one `SlotShrdsCompact` per
slot in a window of 128 entries indexed by `slot % 128`.  `add_shred` takes the slot's
entry, replacing whatever other slot held it, feeds it the shred and, when the shred was
new, makes one `try_deshred_fast` call, whose result it returns tagged with the slot.

## Design notes

**The window.**  `slots` is a function on `Fin 128`, and `putEntry` is where the `&mut`
borrow of the entry writes back.  A panic of `try_deshred_fast` ends the run: `run`
returns it and no manager.

**The abstract state.**  `LocalInv xs m outs` ties the manager to the shreds `xs` fed so
far and the outputs `outs` returned so far: each resident entry is related by
`HistoryInv` to its own slot's history, and its emitted segments `deshred` to the
payloads tagged with that slot.

## Main results

* `LocalInv.addShred`, `LocalInv.run`: while no two slots of the run share a window entry,
  one call, and then a whole run, keeps the relation and never panics.
* `local_emits_canonical_prefix`: for every slot, the payloads returned so far are
  `deshred` of a prefix of the slot's canonical segments, in order and each once.
* `local_misses_second_segment`: the prefix can be proper when the run ends.  One arrival
  can complete two segments, and one `try_deshred_fast` call emits only the first.
* `addShred_repeat`: a shred fed twice in a row changes nothing the second time, since
  `try_deshred_fast` clears the stored shreds but keeps their bits.
* `local_order_insensitive`: two orders of the same shreds return, for each slot, payloads
  one of which is a prefix of the other.
-/

namespace ShredRelay

/-- `SLOT_WINDOW_SIZE`. -/
def slotWindowSize : Nat := 128

/-- `DeshredManagerLocal`.  `current_slot` is stored by `add_shred` and read by nothing in
the repository. -/
structure DeshredManagerLocal where
  slots : Fin slotWindowSize → Option SlotShrdsCompact
  currentSlot : Nat

namespace DeshredManagerLocal

/-- `DeshredManagerLocal::new`. -/
def new : DeshredManagerLocal where
  slots := fun _ => none
  currentSlot := 0

/-- `slot as usize % SLOT_WINDOW_SIZE`. -/
def slotIdx (slot : Nat) : Fin slotWindowSize :=
  ⟨slot % slotWindowSize, Nat.mod_lt _ (by decide)⟩

/-- The get-or-create `match` of `add_shred`: the resident state of `slot`, or a fresh one
that replaces whatever the entry held. -/
def slotEntry (m : DeshredManagerLocal) (slot : Nat) : SlotShrdsCompact :=
  match m.slots (slotIdx slot) with
  | some s => if s.slot = slot then s else SlotShrdsCompact.new slot
  | none => SlotShrdsCompact.new slot

/-- The manager after `add_shred` for `slot` has stored `current_slot` and left `st` in the
slot's entry. -/
def putEntry (m : DeshredManagerLocal) (slot : Nat) (st : SlotShrdsCompact) :
    DeshredManagerLocal where
  slots := Function.update m.slots (slotIdx slot) (some st)
  currentSlot := slot

/-- `DeshredManagerLocal::cleanup_old_slots`: drops every entry of a slot more than 128
below `current_slot`. -/
def cleanupOldSlots (m : DeshredManagerLocal) (currentSlot : Nat) : DeshredManagerLocal :=
  let threshold := currentSlot - slotWindowSize
  { m with
    slots := fun i =>
      match m.slots i with
      | some st => if st.slot < threshold then none else some st
      | none => none }

section Calls

variable {E : Type} (deshred : List Shred → Option (List UInt8))
  (deserialize : List UInt8 → Option E)

/-- `DeshredManagerLocal::add_shred`: the slot with the entries and payload emitted, if
any. -/
def addShred (m : DeshredManagerLocal) (shred : Shred) :
    Except Panic (Option (Nat × E × List UInt8) × DeshredManagerLocal) :=
  let slot := shred.slot
  let added := (m.slotEntry slot).addShred shred
  if !added.1 then .ok (none, m.putEntry slot added.2)
  else
    match added.2.tryDeshredFast deshred deserialize with
    | .error e => .error e
    | .ok (r, st) => .ok (r.map fun out => (slot, out.1, out.2), m.putEntry slot st)

/-- Shreds fed one at a time to `add_shred`, with every output in order; a panic ends the
run. -/
def run (m : DeshredManagerLocal) : List Shred →
    Except Panic (List (Nat × E × List UInt8) × DeshredManagerLocal)
  | [] => .ok ([], m)
  | x :: xs =>
      match m.addShred deshred deserialize x with
      | .error e => .error e
      | .ok (r, m') =>
          match run m' xs with
          | .error e => .error e
          | .ok (outs, m'') => .ok (r.toList ++ outs, m'')

end Calls

theorem slotIdx_eq_iff {a b : Nat} : slotIdx a = slotIdx b ↔
    a % slotWindowSize = b % slotWindowSize := Fin.ext_iff

/-! ## A repeated shred -/

theorem slotEntry_slot (m : DeshredManagerLocal) (slot : Nat) : (m.slotEntry slot).slot = slot := by
  unfold slotEntry
  split
  · split
    · assumption
    · rfl
  · rfl

theorem slotEntry_putEntry {m : DeshredManagerLocal} {slot : Nat} {st : SlotShrdsCompact}
    (h : st.slot = slot) : (m.putEntry slot st).slotEntry slot = st := by
  simp [slotEntry, putEntry, h]

@[simp] theorem putEntry_putEntry (m : DeshredManagerLocal) (slot : Nat)
    (st st' : SlotShrdsCompact) : (m.putEntry slot st).putEntry slot st' = m.putEntry slot st' := by
  simp [putEntry]

section Repeat

variable {E : Type} {deshred : List Shred → Option (List UInt8)}
  {deserialize : List UInt8 → Option E}

/-- **Feeding a shred again changes nothing**: right after `add_shred(x)`, a second
`add_shred(x)` returns `None` and leaves the manager as it was, whether the first call
stored `x`, emitted a segment, or turned `x` away. -/
theorem addShred_repeat {m m₁ : DeshredManagerLocal} {x : Shred}
    {r : Option (Nat × E × List UInt8)}
    (h : m.addShred deshred deserialize x = .ok (r, m₁)) :
    m₁.addShred deshred deserialize x = .ok (none, m₁) := by
  have hslot := slotEntry_slot m x.slot
  unfold DeshredManagerLocal.addShred at h ⊢
  dsimp only at h ⊢
  cases hacc : ((m.slotEntry x.slot).addShred x).1
  · rw [hacc] at h
    cases h
    rw [SlotShrdsCompact.addShred_snd_of_rejected hacc, slotEntry_putEntry hslot, hacc]
    simp [SlotShrdsCompact.addShred_snd_of_rejected hacc]
  · rw [hacc] at h
    simp only [Bool.not_true, Bool.false_eq_true, if_false] at h
    split at h
    · cases h
    · rename_i r' st hfast
      cases h
      have hst : st.slot = x.slot := by
        rw [SlotShrdsCompact.tryDeshredFast_slot hfast, SlotShrdsCompact.addShred_slot, hslot]
      have hrej : (st.addShred x).1 = false := by
        rw [SlotShrdsCompact.addShred_fst, SlotShrdsCompact.tryDeshredFast_receivedMask hfast,
          ← SlotShrdsCompact.addShred_fst]
        exact SlotShrdsCompact.addShred_blocks_index hacc rfl
      rw [slotEntry_putEntry hst, hrej, SlotShrdsCompact.addShred_snd_of_rejected hrej]
      simp

end Repeat

/-- The first call emits the one-shred segment of slot 0; the repeat returns `None`,
unlike the reference manager's `resent_shred_emitted_again`. -/
theorem addShred_repeat_after_emission :
    ∃ m₁, new.addShred Shredder.deshred (some : List UInt8 → Option (List UInt8))
        ⟨0, 0, .data, .dataComplete, [0]⟩ = .ok (some (0, [0], [0]), m₁) ∧
      m₁.addShred Shredder.deshred (some : List UInt8 → Option (List UInt8))
        ⟨0, 0, .data, .dataComplete, [0]⟩ = .ok (none, m₁) :=
  ⟨_, rfl, addShred_repeat (show new.addShred Shredder.deshred
    (some : List UInt8 → Option (List UInt8)) ⟨0, 0, .data, .dataComplete, [0]⟩ =
      .ok (some (0, [0], [0]), _) from rfl)⟩

variable {E : Type}

/-! ## The relation to the canonical segments -/

variable (deshred : List Shred → Option (List UInt8))

/-- **The manager as a function of the run so far.**  `xs` is every shred fed to
`add_shred` and `outs` every output.  A resident entry sits at its own slot's window
index and belongs to a slot that has received shreds; it is tied by `HistoryInv` to that
slot's history, with the emitted segments `deshred` to the payloads tagged with the slot.
A slot with no resident entry has received nothing and returned nothing. -/
structure LocalInv (xs : List Shred) (m : DeshredManagerLocal)
    (outs : List (Nat × E × List UInt8)) : Prop where
  resident : ∀ i st, m.slots i = some st → slotIdx st.slot = i ∧ ∃ x ∈ xs, x.slot = st.slot
  history : ∀ i st, m.slots i = some st → ∃ emitted,
    SlotShrdsCompact.HistoryInv (slotHistory st.slot xs) st emitted ∧
      List.Forall₂ (fun seg p => deshred seg = some p) emitted (payloadsOf st.slot outs)
  absent : ∀ s, (∀ st, m.slots (slotIdx s) = some st → st.slot ≠ s) →
    slotHistory s xs = [] ∧ payloadsOf s outs = []

theorem localInv_new : LocalInv deshred [] new ([] : List (Nat × E × List UInt8)) where
  resident _ _ h := by cases h
  history _ _ h := by cases h
  absent _ _ := ⟨rfl, rfl⟩

variable {deshred} {xs : List Shred} {m : DeshredManagerLocal}
  {outs : List (Nat × E × List UInt8)}

/-- The entry `add_shred` takes for `s` is related to the history of `s`: it is the
resident one, or a fresh one when `s` has received nothing. -/
theorem LocalInv.slotEntry (hinv : LocalInv deshred xs m outs) (s : Nat) :
    (m.slotEntry s).slot = s ∧ ∃ emitted,
      SlotShrdsCompact.HistoryInv (slotHistory s xs) (m.slotEntry s) emitted ∧
        List.Forall₂ (fun seg p => deshred seg = some p) emitted (payloadsOf s outs) := by
  have hfresh : (∀ st, m.slots (slotIdx s) = some st → st.slot ≠ s) →
      (SlotShrdsCompact.new s).slot = s ∧ ∃ emitted,
        SlotShrdsCompact.HistoryInv (slotHistory s xs) (SlotShrdsCompact.new s) emitted ∧
          List.Forall₂ (fun seg p => deshred seg = some p) emitted (payloadsOf s outs) := by
    intro habsent
    obtain ⟨hh, hp⟩ := hinv.absent s habsent
    exact ⟨rfl, [], hh ▸ SlotShrdsCompact.historyInv_new s, hp ▸ .nil⟩
  unfold DeshredManagerLocal.slotEntry
  split
  · rename_i st hst
    split
    · rename_i hs
      subst hs
      exact ⟨rfl, hinv.history _ st hst⟩
    · refine hfresh fun st' hst' => ?_
      rw [hst] at hst'
      cases hst'
      assumption
  · exact hfresh fun st' hst' => by simp_all

/-- Installing a related entry for the slot of `x` keeps the relation, when the new
outputs are all tagged with that slot. -/
theorem LocalInv.putEntry (hinv : LocalInv deshred xs m outs) {x : Shred}
    (hfree : ∀ y ∈ xs, y.slot % slotWindowSize = x.slot % slotWindowSize → y.slot = x.slot)
    {st : SlotShrdsCompact} {new : List (Nat × E × List UInt8)}
    (hnew : ∀ o ∈ new, o.1 = x.slot) (hslot : st.slot = x.slot)
    (hst : ∃ emitted, SlotShrdsCompact.HistoryInv (slotHistory x.slot (xs ++ [x])) st emitted ∧
      List.Forall₂ (fun seg p => deshred seg = some p) emitted (payloadsOf x.slot (outs ++ new))) :
    LocalInv deshred (xs ++ [x]) (m.putEntry x.slot st) (outs ++ new) := by
  have hother : ∀ {s}, s ≠ x.slot →
      slotHistory s (xs ++ [x]) = slotHistory s xs ∧ payloadsOf s (outs ++ new) = payloadsOf s outs :=
    fun hs => ⟨slotHistory_append_of_ne (Ne.symm hs),
      payloadsOf_append_of_ne fun o ho => by rw [hnew o ho]; exact Ne.symm hs⟩
  refine ⟨fun i st' h => ?_, fun i st' h => ?_, fun s habsent => ?_⟩
  · by_cases hi : i = slotIdx x.slot
    · subst hi
      simp only [DeshredManagerLocal.putEntry, Function.update_same, Option.some.injEq] at h
      subst h
      exact ⟨by rw [hslot], x, by simp, hslot.symm⟩
    · simp only [DeshredManagerLocal.putEntry, Function.update_noteq hi] at h
      obtain ⟨hidx, y, hy, hys⟩ := hinv.resident i st' h
      exact ⟨hidx, y, by simp [hy], hys⟩
  · by_cases hi : i = slotIdx x.slot
    · subst hi
      simp only [DeshredManagerLocal.putEntry, Function.update_same, Option.some.injEq] at h
      subst h
      rw [hslot]
      exact hst
    · simp only [DeshredManagerLocal.putEntry, Function.update_noteq hi] at h
      have hne : st'.slot ≠ x.slot := fun hs => hi ((hinv.resident i st' h).1.symm.trans (hs ▸ rfl))
      rw [(hother hne).1, (hother hne).2]
      exact hinv.history i st' h
  · have hne : s ≠ x.slot := by
      rintro rfl
      exact habsent st (by simp [DeshredManagerLocal.putEntry]) hslot
    rw [(hother hne).1, (hother hne).2]
    refine hinv.absent s fun st' hst' hs' => ?_
    by_cases hi : slotIdx s = slotIdx x.slot
    · obtain ⟨-, y, hy, hys⟩ := hinv.resident _ st' hst'
      exact hne (hs' ▸ hys ▸ hfree y hy (by rw [hys, hs']; exact slotIdx_eq_iff.1 hi))
    · exact habsent st' (by simpa [DeshredManagerLocal.putEntry, Function.update_noteq hi]) hs'

variable {deserialize : List UInt8 → Option E}

/-- **One call keeps the relation and does not panic**, when no earlier shred's slot
shares the window entry of the new shred's slot. -/
theorem LocalInv.addShred (hd : DeshredContract deshred) (hinv : LocalInv deshred xs m outs)
    (x : Shred)
    (hfree : ∀ y ∈ xs, y.slot % slotWindowSize = x.slot % slotWindowSize → y.slot = x.slot) :
    ∃ r m', m.addShred deshred deserialize x = .ok (r, m') ∧
      LocalInv deshred (xs ++ [x]) m' (outs ++ r.toList) := by
  obtain ⟨hslot, emitted, hh, hf⟩ := hinv.slotEntry x.slot
  have hh' := hh.addShred x
  rw [← slotHistory_append_self] at hh'
  have hslot' : ((m.slotEntry x.slot).addShred x).2.slot = x.slot := by simp [hslot]
  unfold DeshredManagerLocal.addShred
  dsimp only
  cases hacc : ((m.slotEntry x.slot).addShred x).1
  · exact ⟨none, _, rfl, hinv.putEntry hfree (by simp) hslot' ⟨emitted, hh', by simpa using hf⟩⟩
  · obtain ⟨r, st', hok⟩ : ∃ r st', ((m.slotEntry x.slot).addShred x).2.tryDeshredFast
        deshred deserialize = .ok (r, st') := hh'.tryDeshredFast_ok
    simp only [hok, Bool.not_true, Bool.false_eq_true, if_false]
    have hst' : st'.slot = x.slot := by rw [SlotShrdsCompact.tryDeshredFast_slot hok, hslot']
    cases r with
    | none =>
        rw [SlotShrdsCompact.tryDeshredFast_none hok] at hst' ⊢
        exact ⟨none, _, rfl, hinv.putEntry hfree (by simp) hst' ⟨emitted, hh', by simpa using hf⟩⟩
    | some r =>
        obtain ⟨seg, hseg, hh''⟩ := hh'.tryDeshred hd hok
        refine ⟨_, _, rfl, hinv.putEntry hfree (by simp) hst' ⟨emitted ++ [seg], hh'', ?_⟩⟩
        rw [Option.map_some', Option.toList_some, payloadsOf_append_self]
        exact List.rel_append hf (.cons hseg .nil)

/-- **A whole run keeps the relation and does not panic**, when no two slots of the run
share a window entry. -/
theorem LocalInv.run (hd : DeshredContract deshred) (hinv : LocalInv deshred xs m outs)
    (ys : List Shred)
    (hfree : ∀ x ∈ xs ++ ys, ∀ y ∈ xs ++ ys,
      x.slot % slotWindowSize = y.slot % slotWindowSize → x.slot = y.slot) :
    ∃ outs' m', run deshred deserialize m ys = .ok (outs', m') ∧
      LocalInv deshred (xs ++ ys) m' (outs ++ outs') := by
  induction ys generalizing xs m outs with
  | nil => exact ⟨[], m, rfl, by simpa using hinv⟩
  | cons y ys ih =>
      obtain ⟨r, m₁, h₁, hinv₁⟩ : ∃ r m₁, m.addShred deshred deserialize y = .ok (r, m₁) ∧
          LocalInv deshred (xs ++ [y]) m₁ (outs ++ r.toList) := hinv.addShred hd y fun z hz hzy =>
        hfree z (by simp [hz]) y (by simp) hzy
      obtain ⟨outs', m', h₂, hinv₂⟩ := ih hinv₁ (by simpa using hfree)
      exact ⟨r.toList ++ outs', m', by simp [DeshredManagerLocal.run, h₁, h₂],
        by simpa using hinv₂⟩

/-- Under the relation, the payloads of every slot are `deshred` of a prefix of its
canonical segments. -/
theorem LocalInv.payloads_prefix (hinv : LocalInv deshred xs m outs) (s : Nat) :
    ∃ segs, segs <+: Canonical.segments (slotHistory s xs) ∧
      List.Forall₂ (fun seg p => deshred seg = some p) segs (payloadsOf s outs) := by
  by_cases hres : ∃ st, m.slots (slotIdx s) = some st ∧ st.slot = s
  · obtain ⟨st, hst, rfl⟩ := hres
    obtain ⟨emitted, hh, hf⟩ := hinv.history _ st hst
    exact ⟨emitted, hh.peels.prefix, hf⟩
  · obtain ⟨hh, hp⟩ := hinv.absent s fun st hst hs => hres ⟨st, hst, hs⟩
    exact ⟨[], List.nil_prefix, by rw [hp]; exact .nil⟩

/-- **The per-thread reassembler emits canonical segments, in order, each once.**  Under
the deshredder contract, for any deserializer and any run in which no two slots share a
window entry, the run does not panic, and for every slot the payloads returned are
`deshred` of the first canonical segments of that slot. -/
theorem local_emits_canonical_prefix (hd : DeshredContract deshred) (xs : List Shred)
    (hfree : ∀ x ∈ xs, ∀ y ∈ xs,
      x.slot % slotWindowSize = y.slot % slotWindowSize → x.slot = y.slot) :
    ∃ outs m, run deshred deserialize new xs = .ok (outs, m) ∧
      ∀ s, ∃ segs, segs <+: Canonical.segments (slotHistory s xs) ∧
        List.Forall₂ (fun seg p => deshred seg = some p) segs (payloadsOf s outs) := by
  obtain ⟨outs, m, hrun, hinv⟩ := (localInv_new deshred).run hd xs (by simpa using hfree)
  exact ⟨outs, m, hrun, fun s => by simpa using hinv.payloads_prefix s⟩

/-- Shreds of slots 0 and 128 would share an entry; slots 0 and 1 do not. -/
def twoSlotRun : List Shred :=
  [⟨1, 0, .data, .dataComplete, [7]⟩, ⟨0, 1, .data, .dataComplete, [1]⟩,
    ⟨0, 0, .data, .none, [0]⟩, ⟨1, 0, .code, .none, []⟩]

theorem local_emits_canonical_prefix_two_slots :
    DeshredContract Shredder.deshred ∧
      (∀ x ∈ twoSlotRun, ∀ y ∈ twoSlotRun,
        x.slot % slotWindowSize = y.slot % slotWindowSize → x.slot = y.slot) ∧
      ∃ outs m, run Shredder.deshred (some : List UInt8 → Option (List UInt8)) new twoSlotRun =
          .ok (outs, m) ∧
        ∀ s, ∃ segs, segs <+: Canonical.segments (slotHistory s twoSlotRun) ∧
          List.Forall₂ (fun seg p => Shredder.deshred seg = some p) segs (payloadsOf s outs) :=
  ⟨Shredder.deshred_contract, by decide,
    local_emits_canonical_prefix Shredder.deshred_contract twoSlotRun (by decide)⟩

/-- Slot 0 receives the terminators of two segments, `1` and `3`, before index `0`. -/
def twoSegmentRun : List Shred :=
  [⟨0, 1, .data, .dataComplete, [1]⟩, ⟨0, 2, .data, .none, [2]⟩,
    ⟨0, 3, .data, .dataComplete, [3]⟩, ⟨0, 0, .data, .none, [0]⟩]

theorem local_misses_second_segment :
    (Canonical.segments (slotHistory 0 twoSegmentRun)).map Shredder.deshred =
        [some [0, 1], some [2, 3]] ∧
      (run Shredder.deshred (some : List UInt8 → Option (List UInt8)) new twoSegmentRun).map
        (fun r => payloadsOf 0 r.1) = .ok [[0, 1]] :=
  ⟨rfl, rfl⟩

/-! ## Arrival order -/

/-- The payloads `deshred` gives for a prefix of a list of segments are a prefix of those it
gives for the list. -/
theorem prefix_of_forall₂ {segs₁ segs₂ : List (List Shred)} {ps₁ ps₂ : List (List UInt8)}
    (h₁ : List.Forall₂ (fun seg p => deshred seg = some p) segs₁ ps₁)
    (h₂ : List.Forall₂ (fun seg p => deshred seg = some p) segs₂ ps₂) (hpre : segs₁ <+: segs₂) :
    ps₁ <+: ps₂ := by
  induction h₁ generalizing segs₂ ps₂ with
  | nil => exact List.nil_prefix
  | @cons seg p segs ps hsp _ ih =>
      obtain ⟨rest, rfl⟩ := hpre
      cases h₂ with
      | cons hsp' hrest =>
          rw [hsp, Option.some.injEq] at hsp'
          subst hsp'
          exact (List.prefix_cons_inj _).2 (ih hrest ⟨rest, rfl⟩)

/-- **Arrival order does not change what is emitted.**  Under the deshredder contract, take
the same shreds in two orders, with data shreds of one slot and index copies of each other
and no two slots sharing a window entry.  Both runs complete, and for every slot the
payloads one run returns are a prefix of those the other returns: the `k`-th payload of a
slot is the same in both. -/
theorem local_order_insensitive (hd : DeshredContract deshred) {xs ys : List Shred}
    (hp : xs.Perm ys) (hcons : Consistent xs)
    (hfree : ∀ x ∈ xs, ∀ y ∈ xs,
      x.slot % slotWindowSize = y.slot % slotWindowSize → x.slot = y.slot) :
    ∃ outs m outs' m', run deshred deserialize new xs = .ok (outs, m) ∧
      run deshred deserialize new ys = .ok (outs', m') ∧
      ∀ s, payloadsOf s outs <+: payloadsOf s outs' ∨ payloadsOf s outs' <+: payloadsOf s outs := by
  obtain ⟨outs, m, hrun, hinv⟩ := (localInv_new deshred).run hd xs (by simpa using hfree)
  obtain ⟨outs', m', hrun', hinv'⟩ := (localInv_new deshred).run hd ys (by
    simpa using fun x hx y hy => hfree x (hp.symm.subset hx) y (hp.symm.subset hy))
  refine ⟨outs, m, outs', m', hrun, hrun', fun s => ?_⟩
  obtain ⟨segs, hpre, hf⟩ := hinv.payloads_prefix s
  obtain ⟨segs', hpre', hf'⟩ := hinv'.payloads_prefix s
  simp only [List.nil_append] at hpre hf hpre' hf'
  have hseg : Canonical.segments (slotHistory s ys) = Canonical.segments (slotHistory s xs) :=
    Canonical.segments_perm (hp.filter _) (hcons.of_subset fun x hx => (List.mem_filter.1 hx).1)
      fun x hx y hy => by simp only [slotHistory, List.mem_filter, beq_iff_eq] at hx hy; rw [hx.2, hy.2]
  rw [hseg] at hpre'
  rcases List.prefix_or_prefix_of_prefix hpre hpre' with h | h
  exacts [.inl (prefix_of_forall₂ hf hf' h), .inr (prefix_of_forall₂ hf' hf h)]

theorem local_order_insensitive_reversed :
    DeshredContract Shredder.deshred ∧ twoSegmentRun.Perm twoSegmentRun.reverse ∧
      Consistent twoSegmentRun ∧
      (∀ x ∈ twoSegmentRun, ∀ y ∈ twoSegmentRun,
        x.slot % slotWindowSize = y.slot % slotWindowSize → x.slot = y.slot) ∧
      ∃ outs m outs' m',
        run Shredder.deshred (some : List UInt8 → Option (List UInt8)) new twoSegmentRun =
          .ok (outs, m) ∧
        run Shredder.deshred (some : List UInt8 → Option (List UInt8)) new twoSegmentRun.reverse =
          .ok (outs', m') ∧
        ∀ s, payloadsOf s outs <+: payloadsOf s outs' ∨ payloadsOf s outs' <+: payloadsOf s outs :=
  have hcons : Consistent twoSegmentRun := by unfold Consistent; decide
  ⟨Shredder.deshred_contract, (List.reverse_perm _).symm, hcons, by decide,
    local_order_insensitive Shredder.deshred_contract (List.reverse_perm _).symm hcons (by decide)⟩

end DeshredManagerLocal

end ShredRelay
