import Mathlib.Data.List.Basic

/-!
# Rings and the UMEM free pool

Modelled from the spec (§4.1, §4.2).  The `socket` and `umem` modules the loops import
are not in the repository, so the rings and the UMEM arena follow the spec's interface:
`sync`, `read`, `write`, `commit`, `available`, and `reserve` / `release` on a stack of
free frame offsets.

## Design notes

**FIFO views.**  A ring keeps a producer and a consumer index shared with the kernel and
a cached copy of each on the user side.  The model keeps the entries between those
indices as lists, oldest first, and the one count each cache stands for.

* `ProdRing` is a ring the user produces into (Fill, TX).  `pending` are the entries
  written since the last `commit` or `sync`, `committed` the published ones the kernel has
  not yet taken, and `consumedUnseen` the entries the kernel has taken since the last
  `sync`.  `available` is `size - (cached_producer - cached_consumer)`.
* `ConsRing` is a ring the user consumes from (RX, Completion).  `visible` are the entries
  the last `sync` showed and the user has not read, `unseen` the ones the kernel has
  produced since, and `readUncommitted` the entries read since the last `commit` or `sync`,
  whose slots the kernel still counts as taken.

**Sync publishes.**  §4.2: `sync` publishes the ring's own index to the kernel, as
`commit` does, and loads the kernel's.  So `ProdRing.sync` publishes `pending` and reloads
the consumer index, and `ConsRing.sync` hands the read slots back and reloads the producer
index.

The kernel's side is `ProdRing.consume` and `ConsRing.produce`.  The kernel takes only
committed entries, and produces only into a slot the user has committed back.
-/

namespace ShredRelay

/-- A ring the user writes and the kernel reads: Fill or TX. -/
structure ProdRing (α : Type) where
  size : Nat
  committed : List α
  pending : List α
  consumedUnseen : Nat

namespace ProdRing

variable {α : Type}

/-- A fresh ring of `size` entries. -/
def empty (size : Nat) : ProdRing α := ⟨size, [], [], 0⟩

/-- `available()`: the free slots the user sees. -/
def available (r : ProdRing α) : Nat :=
  r.size - (r.committed.length + r.pending.length + r.consumedUnseen)

/-- `sync()`: publish the producer index and reload the consumer index. -/
def sync (r : ProdRing α) : ProdRing α :=
  { r with committed := r.committed ++ r.pending, pending := [], consumedUnseen := 0 }

/-- `write(desc)`: `none` is the `Err` of a full ring. -/
def write (r : ProdRing α) (x : α) : Option (ProdRing α) :=
  if r.available = 0 then none else some { r with pending := r.pending ++ [x] }

/-- `commit()`: publish the written entries to the kernel. -/
def commit (r : ProdRing α) : ProdRing α :=
  { r with committed := r.committed ++ r.pending, pending := [] }

/-- The kernel takes the oldest published entry. -/
def consume (r : ProdRing α) : Option (α × ProdRing α) :=
  match r.committed with
  | [] => none
  | x :: rest => some (x, { r with committed := rest, consumedUnseen := r.consumedUnseen + 1 })

@[simp] theorem sync_committed (r : ProdRing α) :
    r.sync.committed = r.committed ++ r.pending := rfl
@[simp] theorem sync_pending (r : ProdRing α) : r.sync.pending = [] := rfl
@[simp] theorem sync_size (r : ProdRing α) : r.sync.size = r.size := rfl
@[simp] theorem sync_consumedUnseen (r : ProdRing α) : r.sync.consumedUnseen = 0 := rfl
@[simp] theorem commit_committed (r : ProdRing α) :
    r.commit.committed = r.committed ++ r.pending := rfl
@[simp] theorem commit_pending (r : ProdRing α) : r.commit.pending = [] := rfl
@[simp] theorem commit_size (r : ProdRing α) : r.commit.size = r.size := rfl
@[simp] theorem commit_consumedUnseen (r : ProdRing α) :
    r.commit.consumedUnseen = r.consumedUnseen := rfl

/-- The frames in the ring, oldest first. -/
def entries (r : ProdRing α) : List α := r.committed ++ r.pending

@[simp] theorem entries_sync (r : ProdRing α) : r.sync.entries = r.entries := by
  simp [entries]
@[simp] theorem entries_commit (r : ProdRing α) : r.commit.entries = r.entries := by
  simp [entries]

theorem write_eq_some {r r' : ProdRing α} {x : α} (h : r.write x = some r') :
    0 < r.available ∧ r' = { r with pending := r.pending ++ [x] } := by
  unfold write at h
  split at h
  · cases h
  · cases h; exact ⟨Nat.pos_of_ne_zero ‹_›, rfl⟩

theorem entries_of_write {r r' : ProdRing α} {x : α} (h : r.write x = some r') :
    r'.entries = r.entries ++ [x] := by
  obtain ⟨-, rfl⟩ := write_eq_some h
  simp [entries]

theorem write_eq_none {r : ProdRing α} {x : α} (h : r.write x = none) : r.available = 0 := by
  unfold write at h
  split at h
  · assumption
  · cases h

theorem consume_eq_some {r r' : ProdRing α} {x : α} (h : r.consume = some (x, r')) :
    r.committed = x :: r'.committed ∧ r'.pending = r.pending ∧ r'.size = r.size ∧
      r'.consumedUnseen = r.consumedUnseen + 1 := by
  unfold consume at h
  split at h
  · cases h
  · cases h; exact ⟨by simp_all, rfl, rfl, rfl⟩

theorem entries_of_consume {r r' : ProdRing α} {x : α} (h : r.consume = some (x, r')) :
    r.entries = x :: r'.entries := by
  simp [entries, (consume_eq_some h).1, (consume_eq_some h).2.1]

/-- The producer index is at most `size` ahead of the consumer index: on the user's cached
count, and so on the kernel's, which has `committed` between them. -/
def Bounded (r : ProdRing α) : Prop :=
  r.committed.length + r.pending.length + r.consumedUnseen ≤ r.size

variable {r r' : ProdRing α}

theorem bounded_empty (size : Nat) : (empty size : ProdRing α).Bounded := Nat.zero_le _

theorem Bounded.sync (h : r.Bounded) : r.sync.Bounded := by
  unfold Bounded at *; simp only [sync_committed, sync_pending, sync_size, sync_consumedUnseen]
  simp; omega

theorem Bounded.commit (h : r.Bounded) : r.commit.Bounded := by
  unfold Bounded at *; simp only [commit_committed, commit_pending, commit_size]; simp; omega

theorem Bounded.write {x : α} (h : r.Bounded) (hw : r.write x = some r') : r'.Bounded := by
  obtain ⟨hav, rfl⟩ := write_eq_some hw
  unfold Bounded available at *
  simp only [List.length_append, List.length_singleton]
  omega

theorem Bounded.consume {x : α} (h : r.Bounded) (hc : r.consume = some (x, r')) : r'.Bounded := by
  obtain ⟨h1, h2, h3, h4⟩ := consume_eq_some hc
  unfold Bounded at *
  rw [h1, List.length_cons] at h
  rw [h2, h3, h4]
  omega

end ProdRing

/-- A ring the kernel writes and the user reads: RX or Completion. -/
structure ConsRing (α : Type) where
  size : Nat
  visible : List α
  unseen : List α
  readUncommitted : Nat

namespace ConsRing

variable {α : Type}

/-- A fresh ring of `size` entries. -/
def empty (size : Nat) : ConsRing α := ⟨size, [], [], 0⟩

/-- `sync()`: publish the consumer index and reload the producer index. -/
def sync (r : ConsRing α) : ConsRing α :=
  { r with visible := r.visible ++ r.unseen, unseen := [], readUncommitted := 0 }

/-- `read()`: the oldest entry the last `sync` showed. -/
def read (r : ConsRing α) : Option (α × ConsRing α) :=
  match r.visible with
  | [] => none
  | x :: rest => some (x, { r with visible := rest, readUncommitted := r.readUncommitted + 1 })

/-- `commit()`: hand the read slots back to the kernel. -/
def commit (r : ConsRing α) : ConsRing α := { r with readUncommitted := 0 }

/-- The kernel produces an entry, when `producer - consumer < size`. -/
def produce (r : ConsRing α) (x : α) : Option (ConsRing α) :=
  if r.visible.length + r.unseen.length + r.readUncommitted < r.size then
    some { r with unseen := r.unseen ++ [x] }
  else none

@[simp] theorem sync_visible (r : ConsRing α) : r.sync.visible = r.visible ++ r.unseen := rfl
@[simp] theorem sync_unseen (r : ConsRing α) : r.sync.unseen = [] := rfl
@[simp] theorem sync_readUncommitted (r : ConsRing α) : r.sync.readUncommitted = 0 := rfl
@[simp] theorem commit_visible (r : ConsRing α) : r.commit.visible = r.visible := rfl
@[simp] theorem commit_unseen (r : ConsRing α) : r.commit.unseen = r.unseen := rfl
@[simp] theorem commit_readUncommitted (r : ConsRing α) : r.commit.readUncommitted = 0 := rfl
@[simp] theorem sync_size (r : ConsRing α) : r.sync.size = r.size := rfl

/-- The frames in the ring, oldest first. -/
def entries (r : ConsRing α) : List α := r.visible ++ r.unseen

@[simp] theorem entries_sync (r : ConsRing α) : r.sync.entries = r.entries := by
  simp [entries]
@[simp] theorem entries_commit (r : ConsRing α) : r.commit.entries = r.entries := rfl

theorem read_eq_some {r r' : ConsRing α} {x : α} (h : r.read = some (x, r')) :
    r.visible = x :: r'.visible ∧ r'.unseen = r.unseen ∧
      r'.readUncommitted = r.readUncommitted + 1 ∧ r'.size = r.size := by
  unfold read at h
  split at h
  · cases h
  · cases h; exact ⟨by simp_all, rfl, rfl, rfl⟩

theorem produce_eq_some {r r' : ConsRing α} {x : α} (h : r.produce x = some r') :
    r'.visible = r.visible ∧ r'.unseen = r.unseen ++ [x] ∧
      r'.readUncommitted = r.readUncommitted ∧ r'.size = r.size := by
  unfold produce at h
  split at h
  · cases h; exact ⟨rfl, rfl, rfl, rfl⟩
  · cases h

theorem entries_of_read {r r' : ConsRing α} {x : α} (h : r.read = some (x, r')) :
    r.entries = x :: r'.entries := by
  simp [entries, (read_eq_some h).1, (read_eq_some h).2.1]

theorem entries_of_produce {r r' : ConsRing α} {x : α} (h : r.produce x = some r') :
    r'.entries = r.entries ++ [x] := by
  simp [entries, (produce_eq_some h).1, (produce_eq_some h).2.1]

/-- The kernel's producer index is at most `size` ahead of the consumer index the user has
committed back. -/
def Bounded (r : ConsRing α) : Prop :=
  r.visible.length + r.unseen.length + r.readUncommitted ≤ r.size

variable {r r' : ConsRing α}

theorem bounded_empty (size : Nat) : (empty size : ConsRing α).Bounded := Nat.zero_le _

theorem Bounded.sync (h : r.Bounded) : r.sync.Bounded := by
  unfold Bounded at *; simp only [sync_visible, sync_unseen, sync_readUncommitted, sync_size]
  simp only [List.length_append, List.length_nil]; omega

theorem Bounded.commit (h : r.Bounded) : r.commit.Bounded := by
  unfold Bounded at *; simp only [commit_visible, commit_unseen, commit_readUncommitted]
  exact le_trans (by omega) h

theorem Bounded.read {x : α} (h : r.Bounded) (hr : r.read = some (x, r')) : r'.Bounded := by
  obtain ⟨h1, h2, h3, h4⟩ := read_eq_some hr
  unfold Bounded at *
  rw [h1, List.length_cons] at h
  rw [h2, h3, h4]
  omega

theorem Bounded.produce {x : α} (hp : r.produce x = some r') : r'.Bounded := by
  have h := produce_eq_some hp
  unfold ConsRing.produce at hp
  split at hp
  · unfold Bounded
    rw [h.1, h.2.1, h.2.2.1, h.2.2.2, List.length_append, List.length_singleton]
    omega
  · cases hp

end ConsRing

/-- `umem.reserve()`: the top of the free stack. -/
def reserveFrame : List Nat → Option (Nat × List Nat)
  | [] => none
  | f :: rest => some (f, rest)

theorem reserveFrame_eq_some {free rest : List Nat} {f : Nat}
    (h : reserveFrame free = some (f, rest)) : free = f :: rest := by
  unfold reserveFrame at h
  split at h
  · cases h
  · cases h; rfl

end ShredRelay
