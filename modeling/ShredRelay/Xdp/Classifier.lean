import Mathlib.Logic.Function.Basic

/-!
# The XDP classifier

`xdp-ebpf/src/main.rs` is the in-kernel program the relay attaches to the NIC.  For each
packet it reads the index of the hardware queue that received it and calls
`XSKS_MAP.redirect(queue_id, 0)`; when that fails it returns `XDP_PASS`, so the packet
goes on to the kernel's network stack.  `insert_socket_into_xskmap` (`src/program.rs`)
fills the map from user space: the AF_XDP socket's descriptor at the bound queue's index.

## Design notes

**The map.**  `XSKS_MAP` is an `XskMap` of 64 entries.  Its two operations are library
code, modelled from the spec (§4.3) and the library's contract: `set` refuses an index past
the map's size with `MapError::OutOfBounds`, and the in-kernel `redirect` with flags `0`
answers `XDP_REDIRECT` when the entry holds a socket and the action in the flags' low bits,
`XDP_ABORTED`, when it does not.

**What is left out.**  `load_xdp_program` picks the program by name and attaches it in
driver mode or else in generic mode; neither choice changes what the program computes.

## Main results

* `xdpRedirect_eq`: the program redirects a packet exactly when the map holds a socket at
  its queue's index, and passes it to the stack otherwise; it never drops one.
* `classifier_redirects_bound_queue`: after the relay's insert into the fresh map, every
  packet of the bound queue goes to the socket and every other packet to the stack,
  whatever its bytes.  The classifier does no filtering of its own: the relay sees every
  frame of its queue, which is why the relay's `kernelRx` takes any bytes.
-/

namespace ShredRelay

/-- `xdp_action`: the verdicts of an XDP program. -/
inductive XdpAction
  | aborted
  | drop
  | pass
  | tx
  | redirect
  deriving DecidableEq, Repr

/-- The action the low two bits of `bpf_redirect_map`'s flags name. -/
def XdpAction.ofFlags (flags : Nat) : XdpAction :=
  match flags % 4 with
  | 0 => .aborted
  | 1 => .drop
  | 2 => .pass
  | _ => .tx

/-- `XdpContext`: the receiving queue's index and the packet's bytes. -/
structure XdpContext where
  rxQueueIndex : Nat
  data : List UInt8

/-- `XskMap::with_max_entries(64, 0)`. -/
def xsksMapMaxEntries : Nat := 64

/-- `XSKS_MAP`: the socket descriptor at each queue index. -/
structure XskMap where
  entries : Nat → Option Int

/-- `MapError`, as far as `XskMap::set` raises it. -/
inductive MapError
  | outOfBounds (index maxEntries : Nat)
  deriving DecidableEq, Repr

namespace XskMap

/-- The map as the program is loaded: no socket at any index. -/
def empty : XskMap := ⟨fun _ => none⟩

/-- `XskMap::set(index, socket_fd, 0)` from user space. -/
def set (m : XskMap) (index : Nat) (socketFd : Int) : Except MapError XskMap :=
  if index < xsksMapMaxEntries then .ok ⟨Function.update m.entries index (some socketFd)⟩
  else .error (.outOfBounds index xsksMapMaxEntries)

/-- `XSKS_MAP.redirect(index, flags)` in the kernel: `Ok(XDP_REDIRECT)` towards the
socket at `index`, or `Err` with the action of the flags' low bits when there is none. -/
def redirect (m : XskMap) (index flags : Nat) : Except XdpAction XdpAction :=
  if index < xsksMapMaxEntries ∧ (m.entries index).isSome then .ok .redirect
  else .error (XdpAction.ofFlags flags)

end XskMap

/-- `insert_socket_into_xskmap(ebpf, queue_id, socket_fd)`, on the loaded object's map. -/
def insertSocketIntoXskmap (m : XskMap) (queueId : Nat) (socketFd : Int) :
    Except MapError XskMap :=
  m.set queueId socketFd

/-- `try_xdp_redirect(ctx)`. -/
def tryXdpRedirect (m : XskMap) (ctx : XdpContext) : Except Unit XdpAction :=
  match m.redirect ctx.rxQueueIndex 0 with
  | .error _ => .error ()
  | .ok _ => .ok .redirect

/-- `xdp_redirect(ctx)`: the verdict, `XDP_PASS` when the redirect fails. -/
def xdpRedirect (m : XskMap) (ctx : XdpContext) : XdpAction :=
  match tryXdpRedirect m ctx with
  | .ok ret => ret
  | .error _ => .pass

/-- **What the program decides**: a packet is redirected exactly when the map holds a
socket at its queue's index, and passed to the stack otherwise. -/
theorem xdpRedirect_eq (m : XskMap) (ctx : XdpContext) :
    xdpRedirect m ctx =
      if ctx.rxQueueIndex < xsksMapMaxEntries ∧ (m.entries ctx.rxQueueIndex).isSome then .redirect
      else .pass := by
  unfold xdpRedirect tryXdpRedirect XskMap.redirect
  split_ifs <;> rfl

/-- **The classifier redirects the bound queue, and only it.**  Inserting the socket at a
queue index the map has room for succeeds, and from then on every packet received on that
queue goes to the socket and every other packet to the kernel's stack, whatever its
bytes. -/
theorem classifier_redirects_bound_queue {q : Nat} (socketFd : Int) (hq : q < xsksMapMaxEntries) :
    ∃ m, insertSocketIntoXskmap XskMap.empty q socketFd = .ok m ∧ m.entries q = some socketFd ∧
      ∀ ctx, xdpRedirect m ctx = if ctx.rxQueueIndex = q then .redirect else .pass := by
  refine ⟨_, by rw [insertSocketIntoXskmap, XskMap.set, if_pos hq], by simp, fun ctx => ?_⟩
  rw [xdpRedirect_eq]
  by_cases h : ctx.rxQueueIndex = q
  · rw [if_pos h, h, if_pos ⟨hq, by simp⟩]
  · simp [h, XskMap.empty, Function.update_noteq h]

end ShredRelay
