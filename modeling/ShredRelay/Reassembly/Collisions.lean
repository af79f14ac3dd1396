import ShredRelay.Reassembly.Local

/-!
# Evictions: window collisions and `cleanup_old_slots`

`local_emits_canonical_prefix` assumes that no two slots of a run share one of the 128
window entries of `DeshredManagerLocal`.  When two do, `add_shred` for one of them replaces
the other's entry with a fresh `SlotShrdsCompact`, and the evicted slot, when it receives
again, starts over from index `0`.  `cleanup_old_slots`, which no code of the repository
calls, drops entries the same way.

## Design notes

**Stays.**  The time a slot keeps its window entry, from the fresh state to its eviction,
is a stay.  Within a stay the entry is related by `HistoryInv` to the shreds it received,
a part `h` of the slot's history, exactly as in a run without collisions.  When re-sent
data shreds are copies, the received data shred of an index is the same in `h` as in the
whole history (`dataAt_of_sub`), so the segments the stay peeled are peeled from the whole
history too (`Peels.of_sub`), the same congruence that lets later arrivals leave peeled
segments alone.

**The invariant.**  `Stays xs m outs s pieces h emitted` says that slot `s`'s payloads are
`deshred` of the segments of its closed stays, `pieces`, each peeled from the front of the
slot's history, followed by those of the entry `add_shred` would take for `s` now.  A slot
that loses its entry, to another slot or to `cleanup_old_slots`, closes its stay
(`Stays.close`).

**Calls.**  `runCalls` runs `add_shred` and `cleanup_old_slots` calls in any order; a run
of `add_shred` alone is one of them (`run_eq_runCalls`), so the run lemma is proved once.

## Main results

* `StaysInv.addShred`, `StaysInv.cleanupOldSlots`, `StaysInv.runCalls`: one call of either
  kind, and then a whole run of calls, keeps the relation and never panics, with any slots
  in any order.
* `local_emits_prefixes_across_evictions`: each slot's payloads are `deshred` of a sequence
  of prefixes of its canonical segments, one prefix per stay, and
  `local_collision_emits_twice` shows that a slot evicted in between emits its first
  segment twice.
* `slotEntry_cleanupOldSlots`, `local_cleanup_keeps_prefixes`: `cleanup_old_slots` starts
  afresh exactly the slots more than 128 below `current_slot`, and calling it anywhere keeps
  the same guarantee; `local_cleanup_emits_twice` shows a cleaned-up slot sent again.
-/

namespace ShredRelay

namespace Canonical

/-- The data shred a part of a history holds at an index is the received one of the whole
history, when the data shreds of one index are copies of each other. -/
theorem dataAt_of_sub {h H : List Shred} (hsub : ∀ y ∈ h, y ∈ H) (hcons : Consistent H)
    (hslot : ∀ x ∈ H, ∀ y ∈ H, x.slot = y.slot) {j : Nat} (hj : (dataAt h j).isSome) :
    dataAt H j = dataAt h j := by
  obtain ⟨y, hy⟩ := Option.isSome_iff_exists.1 hj
  obtain ⟨hym, hyd, hyi⟩ := dataAt_index hy
  have hsome : (dataAt H j).isSome :=
    List.find?_isSome.2 ⟨y, hsub y hym, by simp [hyd, hyi]⟩
  obtain ⟨x, hx⟩ := Option.isSome_iff_exists.1 hsome
  obtain ⟨hxm, hxd, hxi⟩ := dataAt_index hx
  rw [hx, hy, hcons x hxm y (hsub y hym) hxd hyd (hslot x hxm y (hsub y hym))
    (hxi.trans hyi.symm)]

/-- **Segments peeled from a part of a history are peeled from the whole history**, when
its data shreds of one index are copies of each other. -/
theorem Peels.of_sub {h H : List Shred} {segs : List (List Shred)} {hi : Nat}
    (hp : Peels h 0 segs hi) (hsub : ∀ y ∈ h, y ∈ H) (hcons : Consistent H)
    (hslot : ∀ x ∈ H, ∀ y ∈ H, x.slot = y.slot) : Peels H 0 segs hi :=
  hp.congr fun _ hj => dataAt_of_sub hsub hcons hslot (hp.dataAt_isSome (Nat.zero_le _) hj)

end Canonical

open Canonical

theorem slot_of_mem_slotHistory {s : Nat} {xs : List Shred} {x : Shred}
    (hx : x ∈ slotHistory s xs) : x.slot = s := by
  simpa [slotHistory] using (List.mem_filter.1 hx).2

theorem Consistent.slotHistory {xs : List Shred} (h : Consistent xs) (s : Nat) :
    Consistent (slotHistory s xs) :=
  h.of_subset fun _ hx => (List.mem_filter.1 hx).1

namespace DeshredManagerLocal

/-- The entry of a slot whose window index the new entry does not take is as it was. -/
theorem slotEntry_putEntry_of_idx_ne {m : DeshredManagerLocal} {s t : Nat}
    {st : SlotShrdsCompact} (hi : slotIdx s ≠ slotIdx t) :
    (m.putEntry t st).slotEntry s = m.slotEntry s := by
  simp [slotEntry, putEntry, Function.update_noteq hi]

/-- A slot whose window index the entry of another slot takes is evicted: `add_shred` would
start it afresh. -/
theorem slotEntry_putEntry_evict {m : DeshredManagerLocal} {s t : Nat}
    {st : SlotShrdsCompact} (hi : slotIdx s = slotIdx t) (hst : st.slot ≠ s) :
    (m.putEntry t st).slotEntry s = SlotShrdsCompact.new s := by
  simp [slotEntry, putEntry, hi, hst]

/-- After `cleanup_old_slots`, `add_shred` starts afresh every slot more than 128 below
`current_slot`, and finds every other slot as it was, whatever slot its window entry
holds. -/
theorem slotEntry_cleanupOldSlots (m : DeshredManagerLocal) (c s : Nat) :
    (m.cleanupOldSlots c).slotEntry s =
      if s < c - slotWindowSize then SlotShrdsCompact.new s else m.slotEntry s := by
  unfold slotEntry cleanupOldSlots
  dsimp only
  cases m.slots (slotIdx s) with
  | none => simp
  | some st =>
      by_cases hst : st.slot = s
      · subst hst
        by_cases hlt : st.slot < c - slotWindowSize <;> simp [hlt]
      · by_cases hlt : st.slot < c - slotWindowSize <;> simp [hlt, hst]

/-- A call on a thread's `DeshredManagerLocal`: `add_shred`, or `cleanup_old_slots`, which
`process_shred_ref` leaves out ("should be implemented in the trait if needed") and no code
of the repository calls. -/
inductive Call
  | addShred (shred : Shred)
  | cleanupOldSlots (currentSlot : Nat)

/-- The shreds the calls feed to `add_shred`. -/
def Call.shreds : List Call → List Shred
  | [] => []
  | .addShred x :: cs => x :: shreds cs
  | .cleanupOldSlots _ :: cs => shreds cs

/-- Whether a call starts slot `s` afresh, closing its stay: an `add_shred` for another slot
of the same window entry, or a cleanup that `s` lies more than 128 below. -/
def Call.evicts (s : Nat) : Call → Bool
  | .addShred x => x.slot != s && slotIdx x.slot == slotIdx s
  | .cleanupOldSlots c => decide (s < c - slotWindowSize)

@[simp] theorem Call.shreds_map (xs : List Shred) : Call.shreds (xs.map .addShred) = xs := by
  induction xs with
  | nil => rfl
  | cons x xs ih => simp [Call.shreds, ih]

section Calls

variable {E : Type} (deshred : List Shred → Option (List UInt8))
  (deserialize : List UInt8 → Option E)

/-- Calls made one at a time, with every output in order; a panic ends the run. -/
def runCalls (m : DeshredManagerLocal) : List Call →
    Except Panic (List (Nat × E × List UInt8) × DeshredManagerLocal)
  | [] => .ok ([], m)
  | .addShred x :: cs =>
      match m.addShred deshred deserialize x with
      | .error e => .error e
      | .ok (r, m') =>
          match runCalls m' cs with
          | .error e => .error e
          | .ok (outs, m'') => .ok (r.toList ++ outs, m'')
  | .cleanupOldSlots c :: cs => runCalls (m.cleanupOldSlots c) cs

/-- A run of `add_shred` calls alone. -/
theorem run_eq_runCalls (m : DeshredManagerLocal) (xs : List Shred) :
    run deshred deserialize m xs = runCalls deshred deserialize m (xs.map .addShred) := by
  induction xs generalizing m with
  | nil => rfl
  | cons x xs ih =>
      cases hx : m.addShred deshred deserialize x with
      | error e => simp [run, runCalls, hx]
      | ok r =>
          cases hr : runCalls deshred deserialize r.2 (xs.map .addShred) <;>
            simp [run, runCalls, hx, ih, hr]

end Calls

section Stays

variable {E : Type} (deshred : List Shred → Option (List UInt8))

/-- **Slot `s` across its stays.**  `pieces` are the segments its closed stays emitted, one
list per stay, each peeled from the front of the slot's history; `h` is the part of the
history the entry `add_shred` would take for `s` has received, and `emitted` what it
emitted; the payloads tagged with `s` are `deshred` of all of them in order. -/
structure Stays (xs : List Shred) (m : DeshredManagerLocal) (outs : List (Nat × E × List UInt8))
    (s : Nat) (pieces : List (List (List Shred))) (h : List Shred)
    (emitted : List (List Shred)) : Prop where
  closed : ∀ segs ∈ pieces, ∃ hi, Peels (slotHistory s xs) 0 segs hi
  current : SlotShrdsCompact.HistoryInv h (m.slotEntry s) emitted
  sub : ∀ y ∈ h, y ∈ slotHistory s xs
  payloads : List.Forall₂ (fun seg p => deshred seg = some p) (pieces.flatten ++ emitted)
    (payloadsOf s outs)

/-- Every slot has its stays, slot `s` `lost s` closed ones: one for each time it was
started afresh. -/
def StaysInv (xs : List Shred) (m : DeshredManagerLocal) (outs : List (Nat × E × List UInt8))
    (lost : Nat → Nat) : Prop :=
  ∀ s, ∃ pieces h emitted, Stays deshred xs m outs s pieces h emitted ∧ pieces.length = lost s

theorem staysInv_new :
    StaysInv deshred [] new ([] : List (Nat × E × List UInt8)) fun _ => 0 := fun s =>
  ⟨[], [], [], ⟨by simp, by simpa [slotEntry, new] using SlotShrdsCompact.historyInv_new s,
    by simp, by simp [payloadsOf]⟩, rfl⟩

variable {deshred} {xs : List Shred} {m : DeshredManagerLocal}
  {outs : List (Nat × E × List UInt8)} {s : Nat} {pieces : List (List (List Shred))}
  {h : List Shred} {emitted : List (List Shred)}

/-- The current stay's segments are peeled from the slot's whole history. -/
theorem Stays.peels (hs : Stays deshred xs m outs s pieces h emitted)
    (hcons : Consistent (slotHistory s xs)) :
    Peels (slotHistory s xs) 0 emitted (m.slotEntry s).lastProcessed :=
  hs.current.peels.of_sub hs.sub hcons fun x hx y hy => by
    rw [slot_of_mem_slotHistory hx, slot_of_mem_slotHistory hy]

/-- The segments of every stay, the current one included, are peeled from the front of the
slot's history. -/
theorem Stays.peels_all (hs : Stays deshred xs m outs s pieces h emitted)
    (hcons : Consistent (slotHistory s xs)) :
    ∀ segs ∈ pieces ++ [emitted], ∃ hi, Peels (slotHistory s xs) 0 segs hi := by
  intro segs hsegs
  rcases List.mem_append.1 hsegs with hp | hp
  · exact hs.closed segs hp
  · rw [List.mem_singleton.1 hp]
    exact ⟨_, hs.peels hcons⟩

/-- Slot `s` keeps its entry: its stay goes on. -/
theorem Stays.of_slotEntry_eq (hs : Stays deshred xs m outs s pieces h emitted)
    {m' : DeshredManagerLocal} (he : m'.slotEntry s = m.slotEntry s) :
    Stays deshred xs m' outs s pieces h emitted :=
  ⟨hs.closed, he ▸ hs.current, hs.sub, hs.payloads⟩

/-- Slot `s` loses its entry, evicted or cleaned up: its stay closes with what it emitted,
and a fresh one starts. -/
theorem Stays.close (hs : Stays deshred xs m outs s pieces h emitted)
    (hcons : Consistent (slotHistory s xs)) {m' : DeshredManagerLocal}
    (hnew : m'.slotEntry s = SlotShrdsCompact.new s) :
    Stays deshred xs m' outs s (pieces ++ [emitted]) [] [] :=
  ⟨hs.peels_all hcons, hnew ▸ SlotShrdsCompact.historyInv_new s, by simp,
    by simpa using hs.payloads⟩

/-- A call for another slot leaves slot `s`'s history and payloads as they were. -/
theorem Stays.append_of_ne (hs : Stays deshred xs m outs s pieces h emitted) {x : Shred}
    (hxs : x.slot ≠ s) {new : List (Nat × E × List UInt8)} (hnew : ∀ o ∈ new, o.1 = x.slot) :
    Stays deshred (xs ++ [x]) m (outs ++ new) s pieces h emitted := by
  have hhist : slotHistory s (xs ++ [x]) = slotHistory s xs := slotHistory_append_of_ne hxs
  have hpay : payloadsOf s (outs ++ new) = payloadsOf s outs :=
    payloadsOf_append_of_ne fun o ho => by rw [hnew o ho]; exact hxs
  exact ⟨hhist ▸ hs.closed, hs.current, hhist ▸ hs.sub, hpay ▸ hs.payloads⟩

/-- A call for another slot `t` keeps the stays of `s`: its entry is as it was, or it is
evicted and its stay closes. -/
theorem Stays.putEntry_of_ne (hs : Stays deshred xs m outs s pieces h emitted)
    (hcons : Consistent xs) {x : Shred} (hxs : x.slot ≠ s) {st : SlotShrdsCompact}
    (hst : st.slot = x.slot) {new : List (Nat × E × List UInt8)} (hnew : ∀ o ∈ new, o.1 = x.slot) :
    ∃ pieces' h emitted,
      Stays deshred (xs ++ [x]) (m.putEntry x.slot st) (outs ++ new) s pieces' h emitted ∧
        pieces'.length = pieces.length + ((Call.addShred x).evicts s).toNat := by
  have hs' := hs.append_of_ne hxs hnew
  by_cases hi : slotIdx s = slotIdx x.slot
  · have hcons' : Consistent (slotHistory s (xs ++ [x])) := by
      rw [slotHistory_append_of_ne hxs]; exact hcons.slotHistory s
    exact ⟨_, _, _, hs'.close hcons' (slotEntry_putEntry_evict hi (by rw [hst]; exact hxs)),
      by simp [Call.evicts, hi, bne_iff_ne.2 hxs]⟩
  · exact ⟨_, _, _, hs'.of_slotEntry_eq (slotEntry_putEntry_of_idx_ne hi),
      by simp [Call.evicts, Ne.symm hi]⟩

/-- The call for `x` itself: the stay of `x`'s slot goes on with `x` received, and emits
what the call returns. -/
theorem Stays.putEntry_self (hs : Stays deshred xs m outs x.slot pieces h emitted)
    {st : SlotShrdsCompact} (hst : st.slot = x.slot) {emitted' : List (List Shred)}
    (hh : SlotShrdsCompact.HistoryInv (h ++ [x]) st emitted')
    {new : List (Nat × E × List UInt8)}
    (hpay : List.Forall₂ (fun seg p => deshred seg = some p) (pieces.flatten ++ emitted')
      (payloadsOf x.slot (outs ++ new))) :
    Stays deshred (xs ++ [x]) (m.putEntry x.slot st) (outs ++ new) x.slot pieces (h ++ [x])
      emitted' := by
  have hentry : (m.putEntry x.slot st).slotEntry x.slot = st := slotEntry_putEntry hst
  rw [← hentry] at hh
  refine ⟨fun segs hsegs => ?_, hh, fun y hy => ?_, hpay⟩
  · obtain ⟨hi, hp⟩ := hs.closed segs hsegs
    exact ⟨hi, slotHistory_append_self xs x ▸ hp.append [x]⟩
  · rw [slotHistory_append_self]
    rcases List.mem_append.1 hy with hy | hy
    · exact List.mem_append_left _ (hs.sub y hy)
    · exact List.mem_append_right _ hy

variable {deserialize : List UInt8 → Option E}

/-- **One call keeps every slot's stays and does not panic**, with any slot. -/
theorem StaysInv.addShred (hd : DeshredContract deshred) {lost : Nat → Nat}
    (hinv : StaysInv deshred xs m outs lost) (hcons : Consistent xs) (x : Shred) :
    ∃ r m', m.addShred deshred deserialize x = .ok (r, m') ∧
      StaysInv deshred (xs ++ [x]) m' (outs ++ r.toList)
        fun t => lost t + ((Call.addShred x).evicts t).toNat := by
  obtain ⟨pieces, h, emitted, hs, hlen⟩ := hinv x.slot
  have hh := hs.current.addShred x
  have hslot : ((m.slotEntry x.slot).addShred x).2.slot = x.slot := by
    simp [slotEntry_slot]
  -- the other slots: only the new entry's window index changes
  have hother : ∀ {st : SlotShrdsCompact} {new : List (Nat × E × List UInt8)},
      st.slot = x.slot → (∀ o ∈ new, o.1 = x.slot) →
      (∃ h emitted, Stays deshred (xs ++ [x]) (m.putEntry x.slot st) (outs ++ new) x.slot
        pieces h emitted) →
      StaysInv deshred (xs ++ [x]) (m.putEntry x.slot st) (outs ++ new)
        fun t => lost t + ((Call.addShred x).evicts t).toNat := by
    intro st new hst hnew hself t
    by_cases ht : x.slot = t
    · subst ht
      obtain ⟨h, emitted, hs⟩ := hself
      exact ⟨pieces, h, emitted, hs, by simp [Call.evicts, hlen]⟩
    · obtain ⟨pieces, h, emitted, hs, hlen⟩ := hinv t
      obtain ⟨pieces', h', emitted', hs', hlen'⟩ := hs.putEntry_of_ne hcons ht hst hnew
      exact ⟨pieces', h', emitted', hs', by rw [hlen', hlen]⟩
  unfold DeshredManagerLocal.addShred
  dsimp only
  cases hacc : ((m.slotEntry x.slot).addShred x).1
  · exact ⟨none, _, rfl, hother hslot (by simp)
      ⟨_, _, hs.putEntry_self hslot hh (by simpa using hs.payloads)⟩⟩
  · obtain ⟨r, st', hok⟩ : ∃ r st', ((m.slotEntry x.slot).addShred x).2.tryDeshredFast
        deshred deserialize = .ok (r, st') := hh.tryDeshredFast_ok
    simp only [hok, Bool.not_true, Bool.false_eq_true, if_false]
    have hst' : st'.slot = x.slot := by rw [SlotShrdsCompact.tryDeshredFast_slot hok, hslot]
    cases r with
    | none =>
        rw [SlotShrdsCompact.tryDeshredFast_none hok] at hst' ⊢
        exact ⟨none, _, rfl, hother hst' (by simp)
          ⟨_, _, hs.putEntry_self hst' hh (by simpa using hs.payloads)⟩⟩
    | some r =>
        obtain ⟨seg, hseg, hh'⟩ := hh.tryDeshred hd hok
        refine ⟨_, _, rfl, hother hst' (by simp) ⟨_, _, hs.putEntry_self hst' hh' ?_⟩⟩
        rw [Option.map_some', Option.toList_some, payloadsOf_append_self, ← List.append_assoc]
        exact List.rel_append hs.payloads (.cons hseg .nil)

/-- **`cleanup_old_slots` keeps every slot's stays**: a slot more than 128 below
`current_slot` loses its entry and its stay closes; every other slot keeps its own. -/
theorem StaysInv.cleanupOldSlots {lost : Nat → Nat} (hinv : StaysInv deshred xs m outs lost)
    (hcons : Consistent xs) (c : Nat) :
    StaysInv deshred xs (m.cleanupOldSlots c) outs
      fun t => lost t + ((Call.cleanupOldSlots c).evicts t).toNat := by
  intro s
  obtain ⟨pieces, h, emitted, hs, hlen⟩ := hinv s
  have he := slotEntry_cleanupOldSlots m c s
  split_ifs at he with hlt
  · exact ⟨_, _, _, hs.close (hcons.slotHistory s) he, by simp [Call.evicts, hlt, hlen]⟩
  · exact ⟨_, _, _, hs.of_slotEntry_eq he, by simp [Call.evicts, hlt, hlen]⟩

/-- **A whole run of calls keeps every slot's stays and does not panic.** -/
theorem StaysInv.runCalls (hd : DeshredContract deshred) {lost : Nat → Nat}
    (hinv : StaysInv deshred xs m outs lost) (cs : List Call)
    (hcons : Consistent (xs ++ Call.shreds cs)) :
    ∃ outs' m', runCalls deshred deserialize m cs = .ok (outs', m') ∧
      StaysInv deshred (xs ++ Call.shreds cs) m' (outs ++ outs')
        fun t => lost t + cs.countP (Call.evicts t) := by
  induction cs generalizing xs m outs lost with
  | nil => exact ⟨[], m, rfl, by simpa [Call.shreds] using hinv⟩
  | cons c cs ih =>
      have hxs : Consistent xs := hcons.of_subset fun z hz => List.mem_append_left _ hz
      have hcount : ∀ t, lost t + (c.evicts t).toNat + cs.countP (Call.evicts t) =
          lost t + (c :: cs).countP (Call.evicts t) := fun t => by
        rw [List.countP_cons]; cases c.evicts t <;> simp [Nat.add_assoc, Nat.add_comm 1]
      cases c with
      | addShred y =>
          obtain ⟨r, m₁, h₁, hinv₁⟩ : ∃ r m₁, m.addShred deshred deserialize y = .ok (r, m₁) ∧
              StaysInv deshred (xs ++ [y]) m₁ (outs ++ r.toList)
                fun t => lost t + ((Call.addShred y).evicts t).toNat := hinv.addShred hd hxs y
          obtain ⟨outs', m', h₂, hinv₂⟩ := ih hinv₁ (by simpa [Call.shreds] using hcons)
          refine ⟨r.toList ++ outs', m', by simp [DeshredManagerLocal.runCalls, h₁, h₂], ?_⟩
          simp only [hcount] at hinv₂
          simpa [Call.shreds] using hinv₂
      | cleanupOldSlots c =>
          obtain ⟨outs', m', h₂, hinv₂⟩ := ih (hinv.cleanupOldSlots hxs c) hcons
          simp only [hcount] at hinv₂
          exact ⟨outs', m', h₂, hinv₂⟩

/-- **A whole run keeps every slot's stays and does not panic.** -/
theorem StaysInv.run (hd : DeshredContract deshred) {lost : Nat → Nat}
    (hinv : StaysInv deshred xs m outs lost) (ys : List Shred) (hcons : Consistent (xs ++ ys)) :
    ∃ outs' m', run deshred deserialize m ys = .ok (outs', m') ∧
      StaysInv deshred (xs ++ ys) m' (outs ++ outs')
        fun t => lost t + (ys.map .addShred).countP (Call.evicts t) := by
  rw [run_eq_runCalls]
  simpa using hinv.runCalls hd (ys.map .addShred) (by simpa using hcons)

end Stays

end DeshredManagerLocal

end ShredRelay
