import Boreas.Bitmap
import Boreas.Buckets
import Boreas.Clock
import Boreas.Runs
import Boreas.Table
import Boreas.Wire

/-! # Fragment reassembly

`l3/reassembly.rs`: a `Fragment` read from an IP packet, one `Pending` for each datagram being put together, and the
`Reassembler` with its expiry index.  What `Fragment.parse` establishes is carried by the structure; the slicer it
calls is a library, whose answer is a parameter. -/

namespace Boreas.L3

open Slices

def maxDatagramBytes : ℕ := 65535

def bitmapWords : ℕ := 128

instance : NeZero bitmapWords := ⟨by decide⟩

def ipv6Fragment : UInt8 := 44

def ipv6FragmentBytes : ℕ := 8

def ipv6HeaderBytes : ℕ := 40

/-! ### Fragments -/

/-- What `parse` keeps of a packet's headers: an IPv4 header of the length its first byte says, or an IPv6
header with the extension headers before the Fragment header and the place of the Next Header byte that names
it. -/
def HeadersRead (headers : Bytes) : Option ℕ → Prop
  | none => 20 ≤ headers.length ∧ headers.length = (headers.headD 0 &&& 0x0f).toNat * 4
  | some nextHeaderAt =>
    ipv6HeaderBytes ≤ headers.length ∧ nextHeaderAt < headers.length ∧
      (nextHeaderAt = 6 ∨ ipv6HeaderBytes ≤ nextHeaderAt)

structure Fragment where
  source : IpAddr
  destination : IpAddr
  protocol : UInt8
  identification : BitVec 32
  offset : ℕ
  moreFragments : Bool
  payload : Bytes
  headers : Bytes
  nextHeaderAt : Option ℕ
  aligned : offset % 8 = 0
  headersRead : HeadersRead headers nextHeaderAt

structure Ipv4Slice (packet : Bytes) where
  isPayloadFragmented : Bool
  ihl : ℕ
  source : BitVec 32
  destination : BitVec 32
  protocol : UInt8
  identification : BitVec 16
  fragmentsOffset : Fin 8192
  moreFragments : Bool
  payload : Bytes
  headerRead : 5 ≤ ihl ∧ ihl * 4 ≤ packet.length ∧ ihl = (packet.headD 0 &&& 0x0f).toNat
  version : packet.headD 0 >>> 4 = 4

structure FragmentHeader where
  nextHeader : UInt8
  identification : BitVec 32
  fragmentOffset : Fin 8192
  moreFragments : Bool

/-- An IPv6 packet as the slicer hands it back, with the first Fragment header among its extensions. -/
structure Ipv6Slice (packet : Bytes) where
  isPayloadFragmented : Bool
  source : BitVec 128
  destination : BitVec 128
  fragment : Option FragmentHeader
  version : packet.headD 0 >>> 4 = 6

inductive NetSlice (packet : Bytes)
  | ipv4 (slice : Ipv4Slice packet)
  | ipv6 (slice : Ipv6Slice packet)
  | arp

def ipv6FragmentHeaderFrom (packet : Bytes) (nextHeaderAt at_ : ℕ) : Option (ℕ × ℕ) :=
  match packet[nextHeaderAt]? with
  | none => none
  | some next =>
    if next = ipv6Fragment then
      if at_ + ipv6FragmentBytes ≤ packet.length then some (nextHeaderAt, at_) else none
    else if h : at_ + 1 < packet.length then
      if next = 0 ∨ next = 43 ∨ next = 60 then
        ipv6FragmentHeaderFrom packet at_ (at_ + ((packet[at_ + 1]).toNat + 1) * 8)
      else if next = 51 then
        ipv6FragmentHeaderFrom packet at_ (at_ + ((packet[at_ + 1]).toNat + 2) * 4)
      else none
    else none
termination_by packet.length - at_

def ipv6FragmentHeader (packet : Bytes) : Option (ℕ × ℕ) := ipv6FragmentHeaderFrom packet 6 ipv6HeaderBytes

def FragmentHeaderAt (packet : Bytes) (nextHeaderAt at_ : ℕ) : Prop :=
  nextHeaderAt < at_ ∧ ipv6HeaderBytes ≤ at_ ∧ (nextHeaderAt = 6 ∨ ipv6HeaderBytes ≤ nextHeaderAt) ∧
    at_ + ipv6FragmentBytes ≤ packet.length

variable {packet : Bytes}

theorem ipv6FragmentHeaderFrom_spec (hlt : n < a) (hge : ipv6HeaderBytes ≤ a)
    (hn : n = 6 ∨ ipv6HeaderBytes ≤ n) (h : ipv6FragmentHeaderFrom packet n a = some (n', a')) :
    FragmentHeaderAt packet n' a' := by
  fun_induction ipv6FragmentHeaderFrom packet n a with
  | case1 => cases h
  | case2 n a hfits hnext =>
    cases h
    exact ⟨hlt, hge, hn, hfits⟩
  | case3 => cases h
  | case4 n a next hnext hfrag hfits hkind ih
  | case5 n a hfits hnext hfrag hkind ih => exact ih (by omega) (by omega) (.inr hge) h
  | case6 | case7 => cases h

theorem ipv6FragmentHeader_spec (h : ipv6FragmentHeader packet = some (n, a)) : FragmentHeaderAt packet n a :=
  ipv6FragmentHeaderFrom_spec (by decide) (le_refl _) (.inl rfl) h

theorem headersRead_ipv4 (s : Ipv4Slice packet) : HeadersRead (packet.take (s.ihl * 4)) none := by
  obtain ⟨hge, hle, hihl⟩ := s.headerRead
  have hlen : (packet.take (s.ihl * 4)).length = s.ihl * 4 := List.length_take_of_le hle
  have hhead : (packet.take (s.ihl * 4)).headD 0 = packet.headD 0 := by
    rcases packet with _ | ⟨b, rest⟩
    · simp
    obtain ⟨k, hk⟩ : ∃ k, s.ihl * 4 = k + 1 := ⟨s.ihl * 4 - 1, by omega⟩
    rw [hk]
    rfl
  refine ⟨by omega, ?_⟩
  rw [hlen, hhead, ← hihl]

theorem headersRead_ipv6 (h : ipv6FragmentHeader packet = some (n, a)) : HeadersRead (packet.take a) (some n) := by
  obtain ⟨hlt, hge, hn, hfits⟩ := ipv6FragmentHeader_spec h
  have hlen : (packet.take a).length = a := List.length_take_of_le (by omega)
  exact ⟨by omega, by omega, hn⟩

def Fragment.parse {packet : Bytes} : Option (NetSlice packet) → Option Fragment
  | none => none
  | some .arp => none
  | some (.ipv4 ipv4) =>
    if ipv4.isPayloadFragmented then
      some
        { source := .v4 ipv4.source
          destination := .v4 ipv4.destination
          protocol := ipv4.protocol
          identification := ipv4.identification.setWidth 32
          offset := ipv4.fragmentsOffset * 8
          moreFragments := ipv4.moreFragments
          payload := ipv4.payload
          headers := packet.take (ipv4.ihl * 4)
          nextHeaderAt := none
          aligned := by omega
          headersRead := headersRead_ipv4 ipv4 }
    else none
  | some (.ipv6 ipv6) =>
    if ipv6.isPayloadFragmented then
      match ipv6.fragment, h : ipv6FragmentHeader packet with
      | some header, some (nextHeaderAt, fragmentAt) =>
        some
          { source := .v6 ipv6.source
            destination := .v6 ipv6.destination
            protocol := header.nextHeader
            identification := header.identification
            offset := header.fragmentOffset * 8
            moreFragments := header.moreFragments
            payload := packet.drop (fragmentAt + ipv6FragmentBytes)
            headers := packet.take fragmentAt
            nextHeaderAt := some nextHeaderAt
            aligned := by omega
            headersRead := headersRead_ipv6 h }
      | _, _ => none
    else none

namespace Fragment

variable (f : Fragment)

def extent : ℕ := f.offset + f.payload.length

def firstBlock : ℕ := f.offset / 8

def lastBlock : ℕ := (f.extent - 1) / 8

def Acceptable : Prop :=
  ¬ (f.payload = [] ∨ f.extent > maxDatagramBytes ∨ (f.moreFragments = true ∧ f.payload.length % 8 ≠ 0))

instance (f : Fragment) : Decidable f.Acceptable := by unfold Acceptable; infer_instance

end Fragment

/-! ### Rebuilding a packet -/

def rebuildIpv4 (packet : Bytes) : Bytes :=
  let packet := overwrite packet 2 (toBeBytes packet.length)
  let packet := packet.set 6 (packet.getD 6 0 &&& 0xc0)
  let packet := packet.set 7 0
  let packet := overwrite packet 10 [0, 0]
  let sum := checksum [packet.take ((packet.headD 0 &&& 0x0f).toNat * 4)]
  overwrite packet 10 (toBeBytes sum)

def rebuildIpv6 (packet : Bytes) (nextHeaderAt : ℕ) (protocol : UInt8) : Bytes :=
  overwrite (packet.set nextHeaderAt protocol) 4 (toBeBytes (packet.length - ipv6HeaderBytes))

def rebuild (headers : Bytes) (nextHeaderAt : Option ℕ) (protocol : UInt8) (data : Bytes) : Option Bytes :=
  let packet := headers ++ data
  match nextHeaderAt with
  | none =>
    if packet.length < 20 ∨ packet.headD 0 >>> 4 ≠ 4 then none
    else if packet.length > 65535 then none
    else some (rebuildIpv4 packet)
  | some nextHeaderAt =>
    if packet.length < ipv6HeaderBytes ∨ packet.headD 0 >>> 4 ≠ 6 then none
    else if packet.length ≤ nextHeaderAt then none
    else if packet.length - ipv6HeaderBytes > 65535 then none
    else some (rebuildIpv6 packet nextHeaderAt protocol)

/-! ### Pending datagrams -/

inductive PushOutcome
  | pending
  | complete (packet : Bytes)
  | discarded
deriving DecidableEq, Repr

structure Key where
  source : IpAddr
  destination : IpAddr
  identification : BitVec 32
  protocol : UInt8
deriving DecidableEq, Repr

def Fragment.key (f : Fragment) : Key := ⟨f.source, f.destination, f.identification, f.protocol⟩

/-- `at_` is the deadline, `slot` the bucket of the index that holds the key. -/
structure Expiry where
  at_ : Instant
  slot : Instant

structure Pending where
  data : Bytes
  received : Bitmap bitmapWords
  receivedBlocks : ℕ
  total : Option ℕ
  expiry : Expiry
  poisoned : Bool
  headers : Bytes
  nextHeaderAt : Option ℕ

inductive Received
  | discarded
  | pending
  | complete
deriving DecidableEq

namespace Pending

def new (expiry : Expiry) : Pending := ⟨[], fun _ => 0, 0, none, expiry, false, [], none⟩

variable (p : Pending)

def blockReceived (block : ℕ) : Bool := p.received.test block

def markReceived (firstBlock lastBlock : ℕ) : Pending :=
  { p with
    received := p.received.setRange firstBlock lastBlock
    receivedBlocks := p.receivedBlocks + (lastBlock - firstBlock + 1) }

def isComplete : Bool :=
  match p.total with
  | some total => p.receivedBlocks = (total + 7) / 8
  | none => false

variable (f : Fragment)

def contradicts : Bool :=
  match p.total with
  | some total => (!f.moreFragments && f.extent != total) || decide (f.extent > total)
  | none => false

def overlaps : Bool :=
  (List.range' f.firstBlock (f.lastBlock + 1 - f.firstBlock)).any p.blockReceived

def inheritHeaders : Pending :=
  if f.offset = 0 then { p with headers := f.headers, nextHeaderAt := f.nextHeaderAt } else p

def widened : Bytes :=
  if f.extent > p.data.length then resize p.data f.extent 0 else p.data

def store : Pending :=
  { p.inheritHeaders f with
    data := overwrite (p.widened f) f.offset f.payload }.markReceived f.firstBlock f.lastBlock

def settled : Received := if p.isComplete then .complete else .pending

def settle : Pending × Received := (p, p.settled)

def receive : Pending × Received :=
  if p.poisoned then (p, .discarded)
  else if p.contradicts f then ({ p with poisoned := true }, .discarded)
  else if p.overlaps f then ({ p with poisoned := true }, .discarded)
  else if f.moreFragments then settle (p.store f)
  else if (p.store f).data.length > f.extent then ({ p.store f with poisoned := true }, .discarded)
  else settle { p.store f with total := some f.extent }

end Pending

/-! ### The expiry index -/

abbrev Expirations := List (Instant × List Key)

def Expirations.file (deadline : Instant) (key : Key) (es : Expirations) : Expirations := Buckets.file deadline key es

def Expirations.forget (slot : Instant) (key : Key) (es : Expirations) : Expirations := Buckets.forget slot key es

/-! ### The reassembler -/

structure Reassembler where
  timeout : Duration
  maxPending : ℕ+
  pending : Table Key Pending
  expirations : Expirations
  discarded : ℕ

/-- What `expire` carries through its loop: the datagrams, the number evicted, the keys to file again. -/
structure Sweep where
  pending : Table Key Pending
  evicted : ℕ
  rebucket : List (Instant × Key)

def Sweep.visit (now : Instant) (s : Sweep) (key : Key) : Sweep :=
  match s.pending.lookup key with
  | some p =>
    if p.expiry.at_ ≤ now then { s with pending := s.pending.erase key, evicted := s.evicted + 1 }
    else
      { s with
        pending := s.pending.insert key { p with expiry := { p.expiry with slot := p.expiry.at_ } }
        rebucket := s.rebucket ++ [(p.expiry.at_, key)] }
  | none => s

def Sweep.drain (now : Instant) : Expirations → Sweep → Expirations × Sweep
  | [], s => ([], s)
  | (d, keys) :: rest, s =>
    if d ≤ now then Sweep.drain now rest (keys.foldl (Sweep.visit now) s) else ((d, keys) :: rest, s)

namespace Reassembler

def new (timeout : Duration) (maxPending : ℕ+) : Reassembler := ⟨timeout, maxPending, ∅, [], 0⟩

variable (r : Reassembler)

def discard : Reassembler := { r with discarded := min (r.discarded + 1) (2 ^ 64 - 1) }

def nextDeadline : Option Instant := r.expirations.head?.map Prod.fst

def expire (now : Instant) : Reassembler × ℕ :=
  let (expirations, s) := Sweep.drain now r.expirations ⟨r.pending, 0, []⟩
  ({ r with
      pending := s.pending
      expirations := s.rebucket.foldl (fun es e => Expirations.file e.1 e.2 es) expirations }, s.evicted)

def entry (key : Key) (deadline : Instant) : Reassembler × Pending :=
  match r.pending.lookup key with
  | some p => (r, p)
  | none => ({ r with expirations := Expirations.file deadline key r.expirations }, .new ⟨deadline, deadline⟩)

def finish (key : Key) (p : Pending) : Reassembler × PushOutcome :=
  let r := { r with
    pending := r.pending.erase key
    expirations := Expirations.forget p.expiry.slot key r.expirations }
  match rebuild p.headers p.nextHeaderAt key.protocol (p.data.take (p.total.getD 0)) with
  | some packet => (r, .complete packet)
  | none => (r.discard, .discarded)

def take (f : Fragment) (now : Instant) : Reassembler × PushOutcome :=
  let deadline := (now.checkedAdd r.timeout).getD now
  let (r, p) := r.entry f.key deadline
  match { p with expiry := { p.expiry with at_ := deadline } }.receive f with
  | (p, .discarded) => ({ r with pending := r.pending.insert f.key p }.discard, .discarded)
  | (p, .pending) => ({ r with pending := r.pending.insert f.key p }, .pending)
  | (p, .complete) => { r with pending := r.pending.insert f.key p }.finish f.key p

def Full (key : Key) : Prop :=
  r.pending.lookup key = none ∧ Table.size r.pending = r.maxPending

instance (r : Reassembler) (key : Key) : Decidable (r.Full key) :=
  inferInstanceAs (Decidable (_ ∧ _))

def push (f : Fragment) (now : Instant) : Reassembler × PushOutcome :=
  if ¬ f.Acceptable then (r.discard, .discarded)
  else if r.Full f.key then
    let r := (r.expire now).1
    if Table.size r.pending = r.maxPending then (r.discard, .discarded) else r.take f now
  else r.take f now

/-! ### Runs -/

inductive Op
  | push (f : Fragment) (now : Instant)
  | expire (now : Instant)

def step : Op → Reassembler
  | .push f now => (r.push f now).1
  | .expire now => (r.expire now).1

end Reassembler
end Boreas.L3
