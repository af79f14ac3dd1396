import ShredRelay.Reassembly.Collisions

/-!
# The sharded reassembler

`DeshredManagerSharded` (`examples/deshred_sharded.rs`) is one `DeshredManagerLocal` per
worker thread; worker `t` reaches its own through `get_local(t)`.  The dispatcher that
hands shreds to workers is not in the repository, so a run here is any list of
`(worker, shred)` calls `get_local(worker).add_shred(shred)`.

## Main results

* `ShardedInv.run`: every worker's manager is related by `LocalInv` to the shreds it was
  given, as long as each slot goes to one worker.
* `sharded_emits_canonical_prefix`: with a dispatcher that sends every slot to one
  worker, and no two slots of a worker sharing a window entry, a run does not panic and
  every slot's payloads are `deshred` of a prefix of its canonical segments, as for one
  `DeshredManagerLocal`.
* `sharded_never_panics`: a run panics exactly on a worker id out of range.
* `SplitInv.run`, `sharded_emits_canonical_segments`: with any dispatcher, a slot's shreds
  spread over several workers, every payload returned is `deshred` of one of the slot's
  canonical segments; `sharded_split_slot_emits_twice` shows two workers emitting the same
  one.
-/

namespace ShredRelay

/-- `DeshredManagerSharded`: the workers' managers. -/
structure DeshredManagerSharded where
  managers : List DeshredManagerLocal

namespace DeshredManagerSharded

/-- `DeshredManagerSharded::new(num_threads)`. -/
def new (numThreads : Nat) : DeshredManagerSharded :=
  ⟨List.replicate numThreads DeshredManagerLocal.new⟩

/-- `get_local(thread_id)`; `none` is the panic of `&mut self.managers[thread_id]`. -/
def getLocal (m : DeshredManagerSharded) (threadId : Nat) : Option DeshredManagerLocal :=
  m.managers[threadId]?

section Calls

variable {E : Type} (deshred : List Shred → Option (List UInt8))
  (deserialize : List UInt8 → Option E)

/-- Worker `threadId` calls `get_local(thread_id).add_shred(shred)`. -/
def addShred (m : DeshredManagerSharded) (threadId : Nat) (shred : Shred) :
    Except Panic (Option (Nat × E × List UInt8) × DeshredManagerSharded) :=
  match m.getLocal threadId with
  | none => .error (.indexOutOfBounds threadId m.managers.length)
  | some l =>
      match l.addShred deshred deserialize shred with
      | .error e => .error e
      | .ok (r, l') => .ok (r, ⟨m.managers.set threadId l'⟩)

/-- Calls made one at a time, with every output in order; a panic ends the run. -/
def run (m : DeshredManagerSharded) : List (Nat × Shred) →
    Except Panic (List (Nat × E × List UInt8) × DeshredManagerSharded)
  | [] => .ok ([], m)
  | (t, x) :: xs =>
      match m.addShred deshred deserialize t x with
      | .error e => .error e
      | .ok (r, m') =>
          match run m' xs with
          | .error e => .error e
          | .ok (outs, m'') => .ok (r.toList ++ outs, m'')

end Calls

/-! ## Each worker is a `DeshredManagerLocal` on its own shreds -/

/-- The shreds given to worker `t`. -/
def shredsOf (t : Nat) (xs : List (Nat × Shred)) : List Shred :=
  (xs.filter (·.1 == t)).map (·.2)

variable {E : Type} {deshred : List Shred → Option (List UInt8)}
  {deserialize : List UInt8 → Option E} {n : Nat} (route : Nat → Fin n)

/-- The outputs of the slots routed to worker `t`. -/
def outsOf (t : Nat) (outs : List (Nat × E × List UInt8)) : List (Nat × E × List UInt8) :=
  outs.filter fun o => (route o.1 : Nat) == t

variable (deshred)

/-- **Every worker's manager is the local reassembler of its own shreds.** -/
structure ShardedInv (xs : List (Nat × Shred)) (m : DeshredManagerSharded)
    (outs : List (Nat × E × List UInt8)) : Prop where
  length : m.managers.length = n
  worker : ∀ t (l : DeshredManagerLocal), m.managers[t]? = some l →
    DeshredManagerLocal.LocalInv deshred (shredsOf t xs) l (outsOf route t outs)

theorem shardedInv_new : ShardedInv deshred route [] (new n) ([] : List (Nat × E × List UInt8)) where
  length := List.length_replicate _ _
  worker t l h := by
    rw [new, List.getElem?_replicate] at h
    split at h
    · cases h; exact DeshredManagerLocal.localInv_new deshred
    · cases h

variable {deshred route}

theorem DeshredManagerLocal.addShred_tag {m m' : DeshredManagerLocal} {x : Shred}
    {r : Option (Nat × E × List UInt8)} (h : m.addShred deshred deserialize x = .ok (r, m')) :
    ∀ o ∈ r.toList, o.1 = x.slot := by
  unfold DeshredManagerLocal.addShred at h
  dsimp only at h
  split at h
  · cases h; simp
  · split at h
    · cases h
    · cases h
      intro o ho
      simp only [Option.mem_toList, Option.mem_def, Option.map_eq_some'] at ho
      obtain ⟨a, -, rfl⟩ := ho
      rfl

theorem shredsOf_append (t u : Nat) (xs : List (Nat × Shred)) (x : Shred) :
    shredsOf t (xs ++ [(u, x)]) = if u = t then shredsOf t xs ++ [x] else shredsOf t xs := by
  by_cases h : u = t <;> simp [shredsOf, h]

theorem outsOf_append {t : Nat} {outs new : List (Nat × E × List UInt8)} {s : Nat}
    (hnew : ∀ o ∈ new, o.1 = s) :
    outsOf route t (outs ++ new) = if (route s : Nat) = t then outsOf route t outs ++ new
      else outsOf route t outs := by
  have hfilter : new.filter (fun o => (route o.1 : Nat) == t) =
      if (route s : Nat) = t then new else [] := by
    split
    · exact List.filter_eq_self.2 fun o ho => by simp [hnew o ho, *]
    · exact List.filter_eq_nil_iff.2 fun o ho => by simp [hnew o ho, *]
  rw [outsOf, List.filter_append, hfilter]
  split <;> simp [outsOf]

/-- One call keeps every worker related to its own shreds. -/
theorem ShardedInv.addShred (hd : DeshredContract deshred) {xs : List (Nat × Shred)}
    {m : DeshredManagerSharded} {outs : List (Nat × E × List UInt8)}
    (hinv : ShardedInv deshred route xs m outs) (x : Shred)
    (hfree : ∀ y ∈ shredsOf (route x.slot) xs,
      y.slot % slotWindowSize = x.slot % slotWindowSize → y.slot = x.slot) :
    ∃ r m', m.addShred deshred deserialize (route x.slot) x = .ok (r, m') ∧
      ShardedInv deshred route (xs ++ [((route x.slot : Nat), x)]) m' (outs ++ r.toList) := by
  have ht : (route x.slot : Nat) < m.managers.length := hinv.length ▸ (route x.slot).isLt
  obtain ⟨r, l', hl, hinv'⟩ : ∃ r l', m.managers[(route x.slot : Nat)].addShred deshred
      deserialize x = .ok (r, l') ∧ DeshredManagerLocal.LocalInv deshred
        (shredsOf (route x.slot) xs ++ [x]) l' (outsOf route (route x.slot) outs ++ r.toList) :=
    (hinv.worker _ _ (List.getElem?_eq_getElem ht)).addShred hd x hfree
  refine ⟨r, ⟨m.managers.set (route x.slot) l'⟩, ?_,
    ⟨by rw [List.length_set, hinv.length], fun t l h => ?_⟩⟩
  · simp only [DeshredManagerSharded.addShred, getLocal, List.getElem?_eq_getElem ht, hl]
  · have htag := DeshredManagerLocal.addShred_tag hl
    rw [shredsOf_append, outsOf_append htag]
    by_cases hrt : (route x.slot : Nat) = t
    · subst hrt
      rw [List.getElem?_set_self ht] at h
      cases h
      simpa using hinv'
    · rw [List.getElem?_set_ne hrt] at h
      simpa [hrt] using hinv.worker t l h

/-- **A run keeps every worker related to its own shreds**, when the dispatcher sends
every slot to one worker and no two slots of a worker share a window entry. -/
theorem ShardedInv.run (hd : DeshredContract deshred) {xs : List (Nat × Shred)}
    {m : DeshredManagerSharded} {outs : List (Nat × E × List UInt8)}
    (hinv : ShardedInv deshred route xs m outs) (ys : List (Nat × Shred))
    (hroute : ∀ p ∈ xs ++ ys, p.1 = route p.2.slot)
    (hfree : ∀ p ∈ xs ++ ys, ∀ q ∈ xs ++ ys, p.1 = q.1 →
      p.2.slot % slotWindowSize = q.2.slot % slotWindowSize → p.2.slot = q.2.slot) :
    ∃ outs' m', run deshred deserialize m ys = .ok (outs', m') ∧
      ShardedInv deshred route (xs ++ ys) m' (outs ++ outs') := by
  induction ys generalizing xs m outs with
  | nil => exact ⟨[], m, rfl, by simpa using hinv⟩
  | cons y ys ih =>
      obtain ⟨t, x⟩ := y
      have ht : t = route x.slot := hroute (t, x) (by simp)
      subst ht
      have hfree₁ : ∀ z ∈ shredsOf (route x.slot) xs,
          z.slot % slotWindowSize = x.slot % slotWindowSize → z.slot = x.slot := by
        intro z hz hzx
        obtain ⟨p, hp, rfl⟩ := List.mem_map.1 hz
        exact hfree p (List.mem_append_left _ (List.mem_filter.1 hp).1) ((route x.slot : Nat), x)
          (by simp) (beq_iff_eq.1 (List.mem_filter.1 hp).2) hzx
      obtain ⟨r, m₁, h₁, hinv₁⟩ : ∃ r m₁, m.addShred deshred deserialize (route x.slot) x =
          .ok (r, m₁) ∧ ShardedInv deshred route (xs ++ [((route x.slot : Nat), x)]) m₁
            (outs ++ r.toList) := hinv.addShred hd x hfree₁
      obtain ⟨outs', m', h₂, hinv₂⟩ := ih hinv₁ (by simpa using hroute) (by simpa using hfree)
      exact ⟨r.toList ++ outs', m', by simp [DeshredManagerSharded.run, h₁, h₂], by simpa using hinv₂⟩

/-- A slot's history is the history its worker was given. -/
theorem slotHistory_shredsOf {xs : List (Nat × Shred)} (hroute : ∀ p ∈ xs, p.1 = route p.2.slot)
    (s : Nat) : slotHistory s (shredsOf (route s) xs) = slotHistory s (xs.map (·.2)) := by
  simp only [slotHistory, shredsOf, List.filter_map, List.filter_filter]
  congr 1
  refine List.filter_congr fun p hp => ?_
  by_cases hs : p.2.slot = s
  · simp [hs, hroute p hp]
  · simp [hs]

/-- A slot's payloads are the payloads its worker returned. -/
theorem payloadsOf_outsOf (outs : List (Nat × E × List UInt8)) (s : Nat) :
    payloadsOf s (outsOf route (route s) outs) = payloadsOf s outs := by
  simp only [payloadsOf, outsOf, List.filter_filter]
  congr 1
  refine List.filter_congr fun o _ => ?_
  by_cases hs : o.1 = s
  · simp [hs]
  · simp [hs]

/-- **The sharded reassembler emits canonical segments, in order, each once**, when the
dispatcher sends every slot to one worker: under the deshredder contract, for any
deserializer and any run in which no two slots of one worker share a window entry, the
run does not panic, and for every slot the payloads returned are `deshred` of the first
canonical segments of that slot. -/
theorem sharded_emits_canonical_prefix (hd : DeshredContract deshred) (xs : List (Nat × Shred))
    (hroute : ∀ p ∈ xs, p.1 = route p.2.slot)
    (hfree : ∀ p ∈ xs, ∀ q ∈ xs, p.1 = q.1 →
      p.2.slot % slotWindowSize = q.2.slot % slotWindowSize → p.2.slot = q.2.slot) :
    ∃ outs m, run deshred deserialize (new n) xs = .ok (outs, m) ∧
      ∀ s, ∃ segs, segs <+: Canonical.segments (slotHistory s (xs.map (·.2))) ∧
        List.Forall₂ (fun seg p => deshred seg = some p) segs (payloadsOf s outs) := by
  obtain ⟨outs, m, hrun, hinv⟩ := (shardedInv_new deshred route).run hd xs
    (by simpa using hroute) (by simpa using hfree)
  refine ⟨outs, m, hrun, fun s => ?_⟩
  have ht : (route s : Nat) < m.managers.length := hinv.length ▸ (route s).isLt
  have hw := hinv.worker _ _ (List.getElem?_eq_getElem ht)
  obtain ⟨segs, hpre, hf⟩ := hw.payloads_prefix s
  rw [List.nil_append, slotHistory_shredsOf hroute] at hpre
  rw [List.nil_append, payloadsOf_outsOf] at hf
  exact ⟨segs, hpre, hf⟩

/-- Slot `s` goes to worker `s % 2`. -/
def parityRoute (s : Nat) : Fin 2 := ⟨s % 2, Nat.mod_lt _ (by decide)⟩

/-- The shreds of `twoSlotRun`, slot 0 on worker 0 and slot 1 on worker 1. -/
def parityRun : List (Nat × Shred) :=
  DeshredManagerLocal.twoSlotRun.map fun x => ((parityRoute x.slot : Nat), x)

theorem sharded_emits_canonical_prefix_two_workers :
    DeshredContract Shredder.deshred ∧
      (∀ p ∈ parityRun, p.1 = parityRoute p.2.slot) ∧
      (∀ p ∈ parityRun, ∀ q ∈ parityRun, p.1 = q.1 →
        p.2.slot % slotWindowSize = q.2.slot % slotWindowSize → p.2.slot = q.2.slot) ∧
      ∃ outs m, run Shredder.deshred (some : List UInt8 → Option (List UInt8)) (new 2)
          parityRun = .ok (outs, m) ∧
        ∀ s, ∃ segs, segs <+: Canonical.segments (slotHistory s (parityRun.map (·.2))) ∧
          List.Forall₂ (fun seg p => Shredder.deshred seg = some p) segs (payloadsOf s outs) :=
  ⟨Shredder.deshred_contract, by decide, by decide,
    sharded_emits_canonical_prefix Shredder.deshred_contract parityRun
      (by decide : ∀ p ∈ parityRun, p.1 = parityRoute p.2.slot) (by decide)⟩

end DeshredManagerSharded

/-! ## No panic but an unknown worker

Under the deshredder contract no call of `add_shred` panics, whatever the shreds: the
window entry it takes is its slot's resident state or a fresh one, either is a state its
slot reaches from `new`, and there `try_deshred_fast` does not panic
(`SlotShrdsCompact.BoundInv.tryDeshredFast_ok`).  So a sharded run panics exactly at the
first call with a worker id out of range. -/

namespace DeshredManagerLocal

variable {E : Type} {deshred : List Shred → Option (List UInt8)}
  {deserialize : List UInt8 → Option E}

variable (deshred deserialize) in
/-- Every entry of the window is a state its slot reaches from `new` by calls that do not
panic. -/
def Resident (m : DeshredManagerLocal) : Prop :=
  ∀ i st, m.slots i = some st → SlotShrdsCompact.Reachable deshred deserialize st.slot st

theorem resident_new : Resident deshred deserialize new := fun _ _ h => by cases h

theorem Resident.slotEntry {m : DeshredManagerLocal} (h : Resident deshred deserialize m)
    (slot : Nat) : SlotShrdsCompact.Reachable deshred deserialize slot (m.slotEntry slot) := by
  unfold DeshredManagerLocal.slotEntry
  split
  · rename_i st hst
    split
    · rename_i hs
      exact hs ▸ h _ st hst
    · exact .new
  · exact .new

theorem Resident.putEntry {m : DeshredManagerLocal} (h : Resident deshred deserialize m)
    {slot : Nat} {st : SlotShrdsCompact}
    (hst : SlotShrdsCompact.Reachable deshred deserialize st.slot st) :
    Resident deshred deserialize (m.putEntry slot st) := by
  intro i st' h'
  by_cases hi : i = slotIdx slot
  · subst hi
    simp only [DeshredManagerLocal.putEntry, Function.update_same, Option.some.injEq] at h'
    exact h' ▸ hst
  · simp only [DeshredManagerLocal.putEntry, Function.update_noteq hi] at h'
    exact h i st' h'

/-- **`add_shred` does not panic** under the deshredder contract, and every window entry
stays reachable. -/
theorem Resident.addShred (hd : DeshredContract deshred) {m : DeshredManagerLocal}
    (h : Resident deshred deserialize m) (x : Shred) :
    ∃ r m', m.addShred deshred deserialize x = .ok (r, m') ∧ Resident deshred deserialize m' := by
  have hslot : ((m.slotEntry x.slot).addShred x).2.slot = x.slot := by
    rw [SlotShrdsCompact.addShred_slot, slotEntry_slot]
  have hr : SlotShrdsCompact.Reachable deshred deserialize x.slot
      ((m.slotEntry x.slot).addShred x).2 := .addShred x (h.slotEntry x.slot)
  unfold DeshredManagerLocal.addShred
  dsimp only
  split
  · exact ⟨_, _, rfl, h.putEntry (by rw [hslot]; exact hr)⟩
  · obtain ⟨r, st, hfast, -⟩ : ∃ r st, ((m.slotEntry x.slot).addShred x).2.tryDeshredFast
        deshred deserialize = .ok (r, st) ∧ _ := (hr.boundInv hd).tryDeshredFast_ok
    have hst : st.slot = x.slot := (SlotShrdsCompact.tryDeshredFast_slot hfast).trans hslot
    rw [hfast]
    exact ⟨_, _, rfl, h.putEntry (by rw [hst]; exact .tryDeshredFast hr hfast)⟩

end DeshredManagerLocal

namespace DeshredManagerSharded

variable {E : Type} {deshred : List Shred → Option (List UInt8)}
  {deserialize : List UInt8 → Option E}

theorem addShred_of_resident (hd : DeshredContract deshred) {m : DeshredManagerSharded}
    (h : ∀ l ∈ m.managers, DeshredManagerLocal.Resident deshred deserialize l) {t : Nat}
    (ht : t < m.managers.length) (x : Shred) :
    ∃ r m', m.addShred deshred deserialize t x = .ok (r, m') ∧
      m'.managers.length = m.managers.length ∧
      ∀ l ∈ m'.managers, DeshredManagerLocal.Resident deshred deserialize l := by
  obtain ⟨r, l', hl, hres⟩ := (h _ (List.getElem_mem ht)).addShred hd x
  refine ⟨r, ⟨m.managers.set t l'⟩, ?_, List.length_set _ _ _, fun l hl' => ?_⟩
  · simp only [DeshredManagerSharded.addShred, getLocal, List.getElem?_eq_getElem ht, hl]
  · rcases List.mem_or_eq_of_mem_set hl' with hl' | rfl
    · exact h l hl'
    · exact hres

theorem addShred_of_le {m : DeshredManagerSharded} {t : Nat} (ht : m.managers.length ≤ t)
    (x : Shred) : m.addShred deshred deserialize t x =
      .error (.indexOutOfBounds t m.managers.length) := by
  simp [DeshredManagerSharded.addShred, getLocal, List.getElem?_eq_none ht]

theorem run_ok_iff (hd : DeshredContract deshred) : ∀ (xs : List (Nat × Shred))
    (m : DeshredManagerSharded), (∀ l ∈ m.managers, DeshredManagerLocal.Resident deshred deserialize l) →
    ((∃ outs m', run deshred deserialize m xs = .ok (outs, m')) ↔
      ∀ p ∈ xs, p.1 < m.managers.length)
  | [], m, _ => by simp [DeshredManagerSharded.run]
  | (t, x) :: xs, m, h => by
      by_cases ht : t < m.managers.length
      · obtain ⟨r, m₁, h₁, hlen, hres⟩ := addShred_of_resident hd h ht x
        have ih := run_ok_iff hd xs m₁ hres
        rw [hlen] at ih
        rw [List.forall_mem_cons, ← ih]
        simp only [DeshredManagerSharded.run, h₁]
        rcases run deshred deserialize m₁ xs with _ | ⟨outs, m'⟩ <;> simp [ht]
      · simp [DeshredManagerSharded.run, addShred_of_le (not_lt.1 ht), ht]

/-- **A sharded run panics exactly on an unknown worker.**  Under the deshredder contract,
for any number of workers, any deserializer and any calls, whatever their slots, their
order, window collisions, duplicates and code shreds, a run from `new` returns without
panicking exactly when every worker id is below the number of workers. -/
theorem sharded_never_panics (hd : DeshredContract deshred) (n : Nat)
    (xs : List (Nat × Shred)) :
    (∃ outs m, run deshred deserialize (new n) xs = .ok (outs, m)) ↔ ∀ p ∈ xs, p.1 < n := by
  refine (run_ok_iff hd xs (new n) fun l hl => ?_).trans (by rw [new, List.length_replicate])
  rw [new, List.mem_replicate] at hl
  rw [hl.2]
  exact DeshredManagerLocal.resident_new

/-- Slots 0 and 128 share a window entry of worker 0, and a code shred takes index 0 of
slot 0 before its data shred. -/
def collisionRun : List (Nat × Shred) :=
  [(0, ⟨0, 0, .code, .none, []⟩), (0, ⟨0, 0, .data, .dataComplete, [0]⟩),
    (0, ⟨128, 0, .data, .dataComplete, [1]⟩), (1, ⟨1, 0, .data, .dataComplete, [2]⟩),
    (0, ⟨0, 1, .data, .dataComplete, [3]⟩)]

theorem sharded_never_panics_collisions :
    DeshredContract Shredder.deshred ∧
      ((∃ outs m, run Shredder.deshred (some : List UInt8 → Option (List UInt8)) (new 2)
        collisionRun = .ok (outs, m)) ↔ ∀ p ∈ collisionRun, p.1 < 2) ∧
      ∀ p ∈ collisionRun, p.1 < 2 :=
  ⟨Shredder.deshred_contract, sharded_never_panics Shredder.deshred_contract 2 collisionRun,
    by decide⟩

end DeshredManagerSharded

/-! ## Any dispatcher

`sharded_emits_canonical_prefix` assumes a dispatcher that sends every slot to one worker.
`get_local` has no caller in the repository, and a receive thread per queue hands one slot's
shreds to several workers.  Each worker then keeps the stays of `DeshredManagerLocal` on the
shreds it was given, and what it peels from its part of the slot's history is peeled from
the whole history too (`Peels.of_sub`). -/

section Genuine

variable {deshred : List Shred → Option (List UInt8)} {xs : List Shred} {s : Nat}
  {p : List UInt8}

variable (deshred) in
/-- Payload `p` is `deshred` of a segment peeled from the front of slot `s`'s history in
`xs`. -/
def Genuine (xs : List Shred) (s : Nat) (p : List UInt8) : Prop :=
  ∃ segs hi, Canonical.Peels (slotHistory s xs) 0 segs hi ∧ ∃ seg ∈ segs, deshred seg = some p

/-- Later shreds leave a genuine payload genuine. -/
theorem Genuine.append (hg : Genuine deshred xs s p) (ys : List Shred) :
    Genuine deshred (xs ++ ys) s p := by
  obtain ⟨segs, hi, hp, hseg⟩ := hg
  have hhist : slotHistory s (xs ++ ys) = slotHistory s xs ++ slotHistory s ys :=
    List.filter_append _ _
  exact ⟨segs, hi, hhist ▸ hp.append _, hseg⟩

/-- A payload genuine for a part of a slot's history is genuine for the whole, when its data
shreds of one index are copies of each other. -/
theorem Genuine.of_sub {H : List Shred} (hg : Genuine deshred xs s p)
    (hsub : ∀ y ∈ slotHistory s xs, y ∈ slotHistory s H) (hcons : Consistent (slotHistory s H)) :
    Genuine deshred H s p := by
  obtain ⟨segs, hi, hp, hseg⟩ := hg
  exact ⟨segs, hi, hp.of_sub hsub hcons fun x hx y hy => by
    rw [slot_of_mem_slotHistory hx, slot_of_mem_slotHistory hy], hseg⟩

/-- A genuine payload is `deshred` of one of the slot's canonical segments. -/
theorem Genuine.mem_segments (hg : Genuine deshred xs s p) :
    ∃ seg ∈ Canonical.segments (slotHistory s xs), deshred seg = some p := by
  obtain ⟨segs, hi, hp, seg, hseg, hd⟩ := hg
  exact ⟨seg, hp.prefix.subset hseg, hd⟩

/-- Every payload a local reassembler returned is genuine for its slot's history. -/
theorem DeshredManagerLocal.StaysInv.genuine {E : Type} {m : DeshredManagerLocal}
    {outs : List (Nat × E × List UInt8)} {lost : Nat → Nat}
    (hinv : DeshredManagerLocal.StaysInv deshred xs m outs lost)
    (hcons : Consistent xs) : ∀ o ∈ outs, Genuine deshred xs o.1 o.2.2 := by
  intro o ho
  obtain ⟨pieces, h, emitted, hs, -⟩ := hinv o.1
  have hp : o.2.2 ∈ payloadsOf o.1 outs := List.mem_map.2 ⟨o, List.mem_filter.2 ⟨ho, by simp⟩, rfl⟩
  rw [forall₂_eq_filterMap hs.payloads, List.mem_filterMap] at hp
  obtain ⟨seg, hseg, hd⟩ := hp
  obtain ⟨segs, hsegs, hmem⟩ := List.mem_flatten.1 (by simpa using hseg :
    seg ∈ (pieces ++ [emitted]).flatten)
  obtain ⟨hi, hpeel⟩ := hs.peels_all (hcons.slotHistory o.1) segs hsegs
  exact ⟨segs, hi, hpeel, seg, hmem, hd⟩

end Genuine

namespace DeshredManagerSharded

variable {E : Type} {deshred : List Shred → Option (List UInt8)}
  {deserialize : List UInt8 → Option E} {n : Nat}

variable (deshred n) in
/-- **Every worker keeps the stays of its own shreds, and every payload returned is genuine
for its slot's whole history**, whichever workers the slot's shreds went to. -/
structure SplitInv (xs : List (Nat × Shred)) (m : DeshredManagerSharded)
    (outs : List (Nat × E × List UInt8)) : Prop where
  length : m.managers.length = n
  worker : ∀ t (l : DeshredManagerLocal), m.managers[t]? = some l →
    ∃ (wouts : List (Nat × E × List UInt8)) (lost : Nat → Nat),
      DeshredManagerLocal.StaysInv deshred (shredsOf t xs) l wouts lost
  genuine : ∀ o ∈ outs, Genuine deshred (xs.map (·.2)) o.1 o.2.2

theorem splitInv_new : SplitInv deshred n [] (new n) ([] : List (Nat × E × List UInt8)) where
  length := List.length_replicate _ _
  worker t l h := by
    rw [new, List.getElem?_replicate] at h
    split at h
    · cases h; exact ⟨[], _, DeshredManagerLocal.staysInv_new deshred⟩
    · cases h
  genuine _ h := by cases h

/-- One call of any worker keeps every worker's stays, and its payload is genuine for the
whole history. -/
theorem SplitInv.addShred (hd : DeshredContract deshred) {xs : List (Nat × Shred)}
    {m : DeshredManagerSharded} {outs : List (Nat × E × List UInt8)}
    (hinv : SplitInv deshred n xs m outs) {t : Nat} (ht : t < n) (x : Shred)
    (hcons : Consistent ((xs ++ [(t, x)]).map (·.2))) :
    ∃ r m', m.addShred deshred deserialize t x = .ok (r, m') ∧
      SplitInv deshred n (xs ++ [(t, x)]) m' (outs ++ r.toList) := by
  have ht' : t < m.managers.length := hinv.length ▸ ht
  have hshreds : shredsOf t (xs ++ [(t, x)]) = shredsOf t xs ++ [x] := by simp [shredsOf_append]
  -- the worker's shreds are shreds of the run
  have hsub : ∀ y ∈ shredsOf t (xs ++ [(t, x)]), y ∈ (xs ++ [(t, x)]).map (·.2) := by
    intro y hy
    obtain ⟨q, hq, rfl⟩ := List.mem_map.1 hy
    exact List.mem_map_of_mem _ (List.mem_filter.1 hq).1
  have hcons_t : Consistent (shredsOf t xs ++ [x]) := hshreds ▸ hcons.of_subset hsub
  obtain ⟨wouts, lost, hw⟩ := hinv.worker t _ (List.getElem?_eq_getElem ht')
  obtain ⟨r, l', hl, hw'⟩ : ∃ r l', m.managers[t].addShred deshred deserialize x = .ok (r, l') ∧
      DeshredManagerLocal.StaysInv deshred (shredsOf t xs ++ [x]) l' (wouts ++ r.toList)
        fun u => lost u + ((DeshredManagerLocal.Call.addShred x).evicts u).toNat :=
    hw.addShred hd (hcons_t.of_subset fun y hy => List.mem_append_left _ hy) x
  refine ⟨r, ⟨m.managers.set t l'⟩, ?_,
    ⟨by rw [List.length_set, hinv.length], fun u l h => ?_, fun o ho => ?_⟩⟩
  · simp only [DeshredManagerSharded.addShred, getLocal, List.getElem?_eq_getElem ht', hl]
  · by_cases hut : t = u
    · subst hut
      rw [List.getElem?_set_self ht'] at h
      cases h
      exact ⟨_, _, hshreds ▸ hw'⟩
    · rw [List.getElem?_set_ne hut] at h
      obtain ⟨wouts', lost', hu⟩ := hinv.worker u l h
      exact ⟨wouts', lost', by simpa [shredsOf_append, hut] using hu⟩
  · rcases List.mem_append.1 ho with ho | ho
    · simpa using (hinv.genuine o ho).append [x]
    · -- genuine for the worker's part of the slot's history, so for the whole of it
      refine (hw'.genuine hcons_t o (List.mem_append_right _ ho)).of_sub (fun y hy => ?_)
        (hcons.slotHistory o.1)
      obtain ⟨hy, hys⟩ := List.mem_filter.1 hy
      exact List.mem_filter.2 ⟨hsub y (hshreds ▸ hy), hys⟩

/-- **A run with any dispatcher keeps every worker's stays, and every payload is genuine.** -/
theorem SplitInv.run (hd : DeshredContract deshred) {xs : List (Nat × Shred)}
    {m : DeshredManagerSharded} {outs : List (Nat × E × List UInt8)}
    (hinv : SplitInv deshred n xs m outs) (ys : List (Nat × Shred))
    (hworkers : ∀ p ∈ ys, p.1 < n) (hcons : Consistent ((xs ++ ys).map (·.2))) :
    ∃ outs' m', run deshred deserialize m ys = .ok (outs', m') ∧
      SplitInv deshred n (xs ++ ys) m' (outs ++ outs') := by
  induction ys generalizing xs m outs with
  | nil => exact ⟨[], m, rfl, by simpa using hinv⟩
  | cons y ys ih =>
      obtain ⟨t, x⟩ := y
      obtain ⟨r, m₁, h₁, hinv₁⟩ : ∃ r m₁, m.addShred deshred deserialize t x = .ok (r, m₁) ∧
          SplitInv deshred n (xs ++ [(t, x)]) m₁ (outs ++ r.toList) :=
        hinv.addShred hd (hworkers (t, x) (by simp)) x
        (hcons.of_subset fun z hz => by simp only [List.map_append, List.map_cons,
          List.mem_append, List.mem_cons, List.map_nil, List.not_mem_nil, or_false] at hz ⊢; tauto)
      obtain ⟨outs', m', h₂, hinv₂⟩ := ih hinv₁ (fun p hp => hworkers p (by simp [hp]))
        (by simpa using hcons)
      exact ⟨r.toList ++ outs', m', by simp [DeshredManagerSharded.run, h₁, h₂],
        by simpa using hinv₂⟩

/-- **With any dispatcher, every payload is one of its slot's canonical segments.**  Under the
deshredder contract, for any deserializer, any number of workers and any calls
`get_local(t).add_shred(x)` with every `t` below it, a slot's shreds spread over any workers,
with window collisions, duplicates and code shreds, and data shreds of one slot and index
copies of each other: the run does not panic, and every payload returned for a slot is
`deshred` of one of the canonical segments of all the shreds of that slot, whichever worker
emitted it.  Two workers can emit the same segment. -/
theorem sharded_emits_canonical_segments (hd : DeshredContract deshred) (n : Nat)
    (xs : List (Nat × Shred)) (hworkers : ∀ p ∈ xs, p.1 < n)
    (hcons : Consistent (xs.map (·.2))) :
    ∃ outs m, run deshred deserialize (new n) xs = .ok (outs, m) ∧
      ∀ s, ∀ p ∈ payloadsOf s outs,
        ∃ seg ∈ Canonical.segments (slotHistory s (xs.map (·.2))), deshred seg = some p := by
  obtain ⟨outs, m, hrun, hinv⟩ :=
    (splitInv_new : SplitInv deshred n [] (new n) ([] : List (Nat × E × List UInt8))).run hd xs
      hworkers (by simpa using hcons)
  refine ⟨outs, m, hrun, fun s p hp => ?_⟩
  obtain ⟨o, ho, rfl⟩ := List.mem_map.1 hp
  obtain ⟨ho, hos⟩ := List.mem_filter.1 ho
  have hg := hinv.genuine o (by simpa using ho)
  rw [beq_iff_eq.1 hos] at hg
  simpa using hg.mem_segments

/-- Slot 0's one-shred segment reaches both workers. -/
def splitRun : List (Nat × Shred) :=
  [(0, ⟨0, 0, .data, .dataComplete, [7]⟩), (1, ⟨0, 0, .data, .dataComplete, [7]⟩)]

theorem sharded_split_slot_emits_twice :
    DeshredContract Shredder.deshred ∧ (∀ p ∈ splitRun, p.1 < 2) ∧
      Consistent (splitRun.map (·.2)) ∧
      (run Shredder.deshred (some : List UInt8 → Option (List UInt8)) (new 2) splitRun).map
        (fun r => payloadsOf 0 r.1) = .ok [[7], [7]] ∧
      ∃ outs m, run Shredder.deshred (some : List UInt8 → Option (List UInt8)) (new 2)
          splitRun = .ok (outs, m) ∧
        ∀ s, ∀ p ∈ payloadsOf s outs,
          ∃ seg ∈ Canonical.segments (slotHistory s (splitRun.map (·.2))),
            Shredder.deshred seg = some p :=
  have hcons : Consistent (splitRun.map (·.2)) := by unfold Consistent; decide
  ⟨Shredder.deshred_contract, by decide, hcons, rfl,
    sharded_emits_canonical_segments Shredder.deshred_contract 2 splitRun (by decide) hcons⟩

end DeshredManagerSharded

end ShredRelay
