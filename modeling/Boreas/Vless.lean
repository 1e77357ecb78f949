import Boreas.Reader
import Boreas.Source

/-! # VLESS datagrams

The receiving half of a VLESS UDP association (egress/vless.rs): `read_datagrams` on the stream of each destination,
and the queue they share.  A stream is a response header and then frames, cut anywhere by the reads.  `drainFrames_eq`
is the loop over complete frames, and `invariant` that the queue holds whole frames of the streams. -/

namespace Boreas.Vless

open List Reader

/-! ### The response header -/

def version : UInt8 := 0

def decodeResponse (bytes : Bytes) : Except ProxyError (Decoded Unit) :=
  match u8 bytes with
  | none => .ok .incomplete
  | some (v, rest) =>
    if v ≠ version then .error (.version v)
    else
      match vectorU8 rest with
      | none => .ok .incomplete
      | some (_, rest) => .ok (.complete () (bytes.length - rest.length))

def Header (header : Bytes) : Prop :=
  ∃ length : UInt8, ∃ addons : Bytes, header = version :: length :: addons ∧ addons.length = length.toNat

theorem decodeResponse_complete (h : decodeResponse bytes = .ok (.complete () consumed)) :
    ∃ header rest, bytes = header ++ rest ∧ header.length = consumed ∧ Header header := by
  rcases bytes with _ | ⟨v, rest⟩
  · cases h
  dsimp only [decodeResponse, u8] at h
  split_ifs at h with hver
  rw [not_not] at hver
  rcases hvec : vectorU8 rest with _ | ⟨addons, after⟩
  · simp [hvec] at h
  rw [hvec] at h
  cases h
  obtain ⟨length, rfl, hlen⟩ := vectorU8_eq_some hvec
  refine ⟨v :: length :: addons, after, by simp, ?_, length, addons, by rw [hver], hlen⟩
  simp only [length_cons, length_append]
  omega

theorem decodeResponse_header (h : Header header) :
    decodeResponse (header ++ more) = .ok (.complete () header.length) := by
  obtain ⟨length, addons, rfl, hlen⟩ := h
  have hvec : vectorU8 (length :: (addons ++ more)) = some (addons, more) := take_append hlen more
  have hsize : (version :: length :: (addons ++ more)).length - more.length = (version :: length :: addons).length := by
    simp only [length_cons, length_append]
    omega
  simp only [decodeResponse, cons_append, u8, hvec, ne_eq, not_true_eq_false, if_false, hsize]

theorem decodeResponse_append (h : decodeResponse bytes ≠ .ok .incomplete) (more : Bytes) :
    decodeResponse (bytes ++ more) = decodeResponse bytes := by
  cases hdec : decodeResponse bytes with
  | ok decoded =>
    cases decoded with
    | incomplete => exact absurd hdec h
    | complete value used =>
      obtain ⟨header, rest, rfl, rfl, hhdr⟩ := decodeResponse_complete hdec
      rw [append_assoc, decodeResponse_header hhdr]
  | error e =>
    -- only the version is refused
    rcases bytes with _ | ⟨v, rest⟩
    · cases hdec
    dsimp only [decodeResponse, u8, cons_append] at hdec ⊢
    split_ifs at hdec ⊢ with hver
    · exact hdec
    · cases hvec : vectorU8 rest <;> simp [hvec] at hdec

/-! ### Frames -/

def frame (payload : Bytes) : Bytes := toBeBytes payload.length ++ payload

def drainFrames (held : Bytes) : List Bytes × Bytes :=
  match _h : u16 held with
  | none => ([], held)
  | some (length, _) =>
    if held.length < 2 + length then ([], held)
    else
      let (payloads, rest) := drainFrames (held.drop (2 + length))
      ((held.drop 2).take length :: payloads, rest)
termination_by held.length
decreasing_by
  obtain ⟨high, low, rfl, -⟩ := u16_eq_some.mp _h
  simp only [length_drop, length_cons]
  omega

theorem drainFrames_eq (held : Bytes) : held = (drainFrames held).1.flatMap frame ++ (drainFrames held).2 := by
  fun_induction drainFrames held with
  | case1 | case2 => rfl
  | case3 held length after hlen hroom payloads rest hrest ih =>
    obtain ⟨high, low, rfl, rfl⟩ := u16_eq_some.mp hlen
    rw [hrest] at ih
    have hsize : (after.take (fromBeBytes high low)).length = fromBeBytes high low := by
      rw [length_take_of_le]
      simp only [length_cons] at hroom
      omega
    have hframe : frame (after.take (fromBeBytes high low)) = high :: low :: after.take (fromBeBytes high low) := by
      unfold frame
      rw [hsize, toBeBytes_fromBeBytes]
      rfl
    have hdrop : (high :: low :: after).drop (2 + fromBeBytes high low) = after.drop (fromBeBytes high low) := by
      rw [← drop_drop]
      rfl
    rw [hdrop] at ih
    calc high :: low :: after
        = high :: low :: (after.take (fromBeBytes high low) ++ after.drop (fromBeBytes high low)) := by
          rw [take_append_drop]
      _ = frame (after.take (fromBeBytes high low)) ++ (payloads.flatMap frame ++ rest) := by
          rw [hframe, ih]
          rfl
      _ = _ := by simp

theorem drainFrames_frame (h : payload.length < 65536) :
    drainFrames (frame payload ++ rest) = (payload :: (drainFrames rest).1, (drainFrames rest).2) := by
  have hread : u16 (frame payload ++ rest) = some (payload.length, payload ++ rest) := by
    rw [frame, append_assoc, u16_toBeBytes h]
  have hlen : (frame payload).length = 2 + payload.length := by simp [frame, length_toBeBytes]
  rw [drainFrames]
  split
  · simp_all
  · rename_i length after hafter
    cases hread.symm.trans hafter
    rw [if_neg (by rw [length_append, hlen]; omega), ← hlen, drop_left]
    simp [frame, toBeBytes]

theorem drainFrames_frames (h : ∀ p ∈ payloads, p.length < 65536) :
    drainFrames (payloads.flatMap frame ++ rest) = (payloads ++ (drainFrames rest).1, (drainFrames rest).2) := by
  induction payloads with
  | nil => rfl
  | cons p payloads ih =>
    obtain ⟨hp, hrest⟩ := forall_mem_cons.mp h
    rw [flatMap_cons, append_assoc, drainFrames_frame hp, ih hrest]
    rfl

theorem length_drainFrames (held : Bytes) : ∀ p ∈ (drainFrames held).1, p.length < 65536 := by
  fun_induction drainFrames held with
  | case1 | case2 => nofun
  | case3 held length after hlen hroom payloads rest hrest ih =>
    rw [hrest] at ih
    refine forall_mem_cons.mpr ⟨?_, ih⟩
    obtain ⟨high, low, rfl, rfl⟩ := u16_eq_some.mp hlen
    have h1 := high.toNat_lt
    have h2 := low.toNat_lt
    rw [length_take]
    unfold fromBeBytes
    omega

/-- What is drained does not depend on where the bytes were cut. -/
theorem drainFrames_append (held chunk : Bytes) : drainFrames (held ++ chunk) =
    ((drainFrames held).1 ++ (drainFrames ((drainFrames held).2 ++ chunk)).1,
      (drainFrames ((drainFrames held).2 ++ chunk)).2) := by
  nth_rewrite 1 [drainFrames_eq held]
  rw [append_assoc, drainFrames_frames (length_drainFrames held)]

/-! ### The reader of a destination -/

abbrev Read := Except ErrorKind Bytes

def bytesOf (read : Read) : Bytes := read.toOption.getD []

structure Reading where
  held : Bytes
  header : Bool
  ended : Bool

def Reading.fresh : Reading := ⟨[], false, false⟩

def framesOf (held : Bytes) : Reading × List Bytes :=
  (⟨(drainFrames held).2, true, false⟩, (drainFrames held).1.filter (· ≠ []))

def Reading.extend (r : Reading) (chunk : Bytes) : Reading × List Bytes :=
  let held := r.held ++ chunk
  if r.header then framesOf held
  else
    match decodeResponse held with
    | .ok (.complete _ consumed) => framesOf (held.drop consumed)
    | .ok .incomplete => ({ r with held := held }, [])
    | .error _ => ({ r with held := held, ended := true }, [])

def Reading.next (r : Reading) (read : Read) : Reading × List Bytes :=
  if r.ended then (r, [])
  else
    match read with
    | .error _ | .ok [] => ({ r with ended := true }, [])
    | .ok chunk => r.extend chunk

/-! ### The source -/

def inboundDepth : ℕ := 64

/-- A read of the stream with a number; streams are numbered in the order the association opens them. -/
structure Arrival where
  stream : ℕ
  read : Read

structure State where
  streams : ℕ → Reading
  inbound : Channel (Bytes × Target)

def offer (inbound : Channel (Bytes × Target)) (target : Target) (payloads : List Bytes) : Channel (Bytes × Target) :=
  payloads.foldl (fun inbound payload => (inbound.trySend (payload, target)).1) inbound

variable (targets : ℕ → Target)

def State.arrive (s : State) (a : Arrival) : State :=
  let (reading, payloads) := (s.streams a.stream).next a.read
  ⟨Function.update s.streams a.stream reading, offer s.inbound (targets a.stream) payloads⟩

def recvFrom (s : State) (closed : Bool) (size : ℕ) : State × Option Received :=
  let (queue, received) := Source.recvQueued (.io .brokenPipe) s.inbound.queue closed size
  ({ s with inbound := { s.inbound with queue := queue } }, received)

def streamOf (arrived : List Arrival) (k : ℕ) : Bytes :=
  arrived.flatMap fun a => if a.stream = k then bytesOf a.read else []

def Framed (stream : Bytes) (payloads : List Bytes) : Prop :=
  ∃ header rest, Header header ∧ stream = header ++ payloads.flatMap frame ++ rest

/-- A datagram is the payload of one frame of a stream, from the stream's destination. -/
def Carries (arrived : List Arrival) (payload : Bytes) (origin : Target) : Prop :=
  ∃ k payloads, origin = targets k ∧ payload ∈ payloads ∧ Framed (streamOf arrived k) payloads

abbrev source (targets : ℕ → Target) : Source where
  State := State
  Arrival := Arrival
  Choice := Bool
  new := ⟨fun _ => .fresh, ⟨inboundDepth, []⟩⟩
  arrive := State.arrive targets
  turn := recvFrom
  Carries := Carries targets

/-! ### Whole datagrams -/

theorem Framed.mono (h : Framed stream payloads) (more : Bytes) : Framed (stream ++ more) payloads := by
  obtain ⟨header, rest, hhdr, rfl⟩ := h
  exact ⟨header, rest ++ more, hhdr, by simp⟩

/-- Reading on is reading the whole at once. -/
theorem extend_append (h : (Reading.fresh.extend stream).1.ended = false) (chunk : Bytes) :
    Reading.fresh.extend (stream ++ chunk) = (((Reading.fresh.extend stream).1.extend chunk).1,
      (Reading.fresh.extend stream).2 ++ ((Reading.fresh.extend stream).1.extend chunk).2) := by
  rcases hdec : decodeResponse stream with _ | decoded
  · simp [Reading.extend, Reading.fresh, hdec] at h
  cases decoded with
  | incomplete => simp [Reading.extend, Reading.fresh, hdec]
  | complete value used =>
    have hwhole := decodeResponse_append (by simp [hdec] : decodeResponse stream ≠ .ok .incomplete) chunk
    obtain ⟨header, rest, rfl, rfl, -⟩ := decodeResponse_complete hdec
    rw [append_assoc] at hwhole
    simp only [Reading.extend, Reading.fresh, nil_append, hwhole, hdec, Bool.false_eq_true, if_false,
      append_assoc, drop_left, framesOf, if_true, drainFrames_append rest chunk, filter_append]

theorem framed_extend (h : payload ∈ (Reading.fresh.extend stream).2) :
    ∃ payloads, payload ∈ payloads ∧ Framed stream payloads := by
  simp only [Reading.extend, Reading.fresh, nil_append, Bool.false_eq_true, if_false] at h
  split at h
  · rename_i hdec
    obtain ⟨header, rest, rfl, rfl, hhdr⟩ := decodeResponse_complete hdec
    rw [drop_left] at h
    refine ⟨_, (mem_filter.mp h).1, header, (drainFrames rest).2, hhdr, ?_⟩
    rw [append_assoc, ← drainFrames_eq]
  · cases h
  · cases h

/-- A reader stands where reading its stream at once would leave it, unless it has ended. -/
def ReadOk (stream : Bytes) (r : Reading) : Prop := r.ended = false → r = (Reading.fresh.extend stream).1

theorem next_ok (h : ReadOk stream r) (read : Read) : ReadOk (stream ++ bytesOf read) (r.next read).1 ∧
    ∀ payload ∈ (r.next read).2, ∃ payloads, payload ∈ payloads ∧ Framed (stream ++ bytesOf read) payloads := by
  unfold Reading.next
  by_cases hended : r.ended = true
  · rw [if_pos hended]
    exact ⟨fun hopen => by simp [hended] at hopen, nofun⟩
  rw [if_neg hended]
  match read with
  | .error _ | .ok [] => exact ⟨nofun, nofun⟩
  | .ok (b :: chunk) =>
    have hopen := Bool.eq_false_iff.mpr hended
    obtain rfl := h hopen
    have hwhole := extend_append hopen (b :: chunk)
    exact ⟨fun _ => (congrArg Prod.fst hwhole).symm, fun payload hpay =>
      framed_extend (congrArg Prod.snd hwhole ▸ mem_append_right _ hpay)⟩

theorem streamOf_append (a : Arrival) :
    streamOf (arrived ++ [a]) k = streamOf arrived k ++ if a.stream = k then bytesOf a.read else [] := by
  simp [streamOf]

theorem Carries.mono {targets : ℕ → Target}
    (h : Carries targets arrived payload origin) (a : Arrival) : Carries targets (arrived ++ [a]) payload origin := by
  obtain ⟨k, payloads, horig, hpay, hfr⟩ := h
  refine ⟨k, payloads, horig, hpay, ?_⟩
  rw [streamOf_append]
  exact hfr.mono _

theorem offer_queue (inbound : Channel (Bytes × Target)) (payloads : List Bytes) :
    offer inbound target payloads = { inbound with
      queue := inbound.queue ++ (payloads.map (·, target)).take (inbound.capacity - inbound.queue.length) } := by
  induction payloads generalizing inbound with
  | nil => simp [offer]
  | cons payload payloads ih =>
    have hcons : offer inbound target (payload :: payloads) = offer (inbound.trySend (payload, target)).1 target payloads :=
      rfl
    rw [hcons, ih, Channel.trySend]
    split_ifs with hroom
    · obtain ⟨k, hk⟩ : ∃ k, inbound.capacity - inbound.queue.length = k + 1 := ⟨_, (Nat.succ_pred (by omega)).symm⟩
      have hk' : inbound.capacity - (inbound.queue.length + 1) = k := by omega
      simp [hk, hk']
    · simp [show inbound.capacity - inbound.queue.length = 0 by omega]

theorem mem_offer (h : reply ∈ (offer inbound target payloads).queue) :
    reply ∈ inbound.queue ∨ ∃ payload ∈ payloads, reply = (payload, target) := by
  rw [offer_queue] at h
  refine (mem_append.mp h).imp_right fun h => ?_
  obtain ⟨payload, hpay, rfl⟩ := mem_map.mp (mem_of_mem_take h)
  exact ⟨payload, hpay, rfl⟩

structure Inv (targets : ℕ → Target) (arrived : List Arrival) (s : State) : Prop where
  streams : ∀ k, ReadOk (streamOf arrived k) (s.streams k)
  inbound : ∀ reply ∈ s.inbound.queue, Carries targets arrived reply.1 reply.2

theorem Inv.arrive {targets : ℕ → Target} (h : Inv targets arrived s)
    (a : Arrival) : Inv targets (arrived ++ [a]) (s.arrive targets a) := by
  have hnext := next_ok (h.streams a.stream) a.read
  have hstr : streamOf (arrived ++ [a]) a.stream = streamOf arrived a.stream ++ bytesOf a.read := by
    rw [streamOf_append, if_pos rfl]
  refine ⟨fun k => ?_, fun reply hreply => ?_⟩
  · by_cases hk : k = a.stream
    · subst hk
      simp only [State.arrive, Function.update_self]
      rw [hstr]
      exact hnext.1
    · simp only [State.arrive, Function.update_of_ne hk]
      rw [streamOf_append, if_neg (Ne.symm hk), append_nil]
      exact h.streams k
  · rcases mem_offer hreply with hreply | ⟨payload, hpay, rfl⟩
    · exact (h.inbound reply hreply).mono a
    · obtain ⟨payloads, hmem, hfr⟩ := hnext.2 payload hpay
      exact ⟨a.stream, payloads, rfl, hmem, by rw [hstr]; exact hfr⟩

/-- Each reader stands to its stream, and the queue holds whole frames. -/
def invariant : (source targets).Invariant .none where
  Inv := Inv targets
  new := ⟨fun _ _ => rfl, fun reply h => by cases h⟩
  arrive {_ _ a} h _ := Inv.arrive h a
  turn h := ⟨h.streams, fun reply hreply => h.inbound reply (Source.mem_recvQueued hreply)⟩
  whole h _ hr := Source.whole_recvQueued (fun _ hgone => by cases hgone) h.inbound hr

end Boreas.Vless
