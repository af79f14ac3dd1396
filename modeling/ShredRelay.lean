import ShredRelay.Shred
import ShredRelay.Prescan
import ShredRelay.Bitset
import ShredRelay.Counter
import ShredRelay.Reassembly.Compact
import ShredRelay.Reassembly.Segments
import ShredRelay.Reassembly.CompactHistory
import ShredRelay.Reassembly.Local
import ShredRelay.Reassembly.Collisions
import ShredRelay.Reassembly.Liveness
import ShredRelay.Reassembly.Sharded
import ShredRelay.Reassembly.Reference
import ShredRelay.Decoder
import ShredRelay.PacketPool
import ShredRelay.PacketPool.Acquire
import ShredRelay.PacketPool.LockFree
import ShredRelay.Xdp.Classifier
import ShredRelay.Xdp.Ring
import ShredRelay.Xdp.Packet
import ShredRelay.Xdp.RelayLoop
import ShredRelay.Xdp.Forwarding
import ShredRelay.Xdp.Commits
import ShredRelay.Xdp.RxLoop
import ShredRelay.Xdp.Occupancy
import ShredRelay.Xdp.Wire
import ShredRelay.Xdp.RxStats
import ShredRelay.Xdp.RxProgress
import ShredRelay.Xdp.Wakeup
import ShredRelay.Reassembly.Agreement
