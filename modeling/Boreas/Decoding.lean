import Boreas.Http

/-! # Content decoding

The decoders of intercept/rewrite.rs.  Those of flate2, brotli and ruzstd are parameters; what the code puts around
them is here: the ceiling on what one chunk may decode to, and the whole of `Zstd`.  `plainChunks` is what a decoder
hands on, chunk by chunk, and at the end. -/

namespace Boreas.Rewrite

open Http

/-! ### Codings -/

inductive Coding
  | identity
  | gzip
  | deflate
  | brotli
  | zstd
deriving DecidableEq, Repr

def Coding.fromToken (token : Bytes) : Option Coding :=
  let token := (trim token).map lower
  if token = [] ∨ token = ascii "identity" then some .identity
  else if token = ascii "gzip" ∨ token = ascii "x-gzip" then some .gzip
  else if token = ascii "deflate" then some .deflate
  else if token = ascii "br" then some .brotli
  else if token = ascii "zstd" then some .zstd
  else none

def piece (bytes : Bytes) : List Bytes := if bytes = [] then [] else [bytes]

theorem flatten_piece : (piece bytes).flatten = bytes := by
  unfold piece
  split_ifs with h
  · rw [h, List.flatten_nil]
  · exact List.flatten_singleton

/-! ### The libraries -/

/-- A streaming decoder that writes what it decodes to a vector: flate2's and brotli's. -/
structure Inflater where
  State : Type
  new : State
  /-- `write_all`: what the chunk decodes to. -/
  write : State → Bytes → Option (State × Bytes)
  /-- `try_finish` and `close`: what was held back. -/
  finish : State → Option Bytes
  /-- Nothing comes of nothing; whether the end is accepted there is the library's affair. -/
  finish_new : ∀ {tail}, finish new = some tail → tail = []

inductive Progress (State : Type)
  | read (count : ℕ) (frame : State)
  | incomplete (frame : State)
  | failed

structure FrameDecoder where
  State : Type
  new : State
  decodeFromTo : State → Bytes → Progress State
  /-- `collect_to_writer`: the bytes that leave the window. -/
  collect : State → Option (State × Bytes)
  isFinished : State → Bool

structure Libraries where
  gzip : Inflater
  deflate : Inflater
  brotli : Inflater
  zstd : FrameDecoder

def zstdStagingBytes : ℕ := 128 * 1024 + 3 + 18

def maxDecodedChunkBytes : ℕ := 8 * 1024 * 1024

/-! ### Zstd -/

structure Zstd (F : FrameDecoder) where
  frame : F.State
  /-- Compressed bytes waiting for a complete block. -/
  pending : Bytes
  plain : Bytes
  started : Bool

namespace Zstd

variable {F : FrameDecoder}

def new (F : FrameDecoder) : Zstd F := ⟨F.new, [], [], false⟩

/-- The loop of `drain` from a position on: a round that goes on has read a byte at least. -/
def drainFrom (source : Bytes) (z : Zstd F) (used : ℕ) : Option (Zstd F × ℕ) :=
  if source.length ≤ used then some (z, used)
  else
    let staged := (source.drop used).take zstdStagingBytes
    match F.decodeFromTo z.frame staged with
    -- a split frame header may complete in the next chunk
    | .incomplete frame => some ({ z with frame }, used)
    | .failed => none
    | .read count frame =>
      match F.collect frame with
      | none => none
      | some (frame, bytes) =>
        let z := { z with frame, plain := z.plain ++ bytes, started := true }
        if maxDecodedChunkBytes < z.plain.length then none
        -- the checksum can precede its final four bytes
        else if count = 0 ∨ staged.length < count then some (z, used)
        else drainFrom source z (used + count)
termination_by source.length - used

def drain (z : Zstd F) (source : Bytes) : Option (Zstd F × ℕ) :=
  match drainFrom source z 0 with
  | none => none
  | some (z, used) =>
    -- a second frame is refused instead of truncated
    if z.started ∧ F.isFinished z.frame ∧ used < source.length then none else some (z, used)

def push (z : Zstd F) (chunk : Bytes) : Option (Zstd F) :=
  if z.pending = [] then
    match z.drain chunk with
    | none => none
    | some (z, used) => some { z with pending := z.pending ++ chunk.drop used }
  else
    let held := z.pending ++ chunk
    match ({ z with pending := [] } : Zstd F).drain held with
    | none => none
    | some (z, used) => some { z with pending := held.drop used }

/-- The end of a stream is acceptable after one whole frame and nothing else. -/
def finish (z : Zstd F) : Option Bytes :=
  if z.started ∧ F.isFinished z.frame ∧ z.pending = [] then some z.plain else none

end Zstd

/-! ### Decoders -/

inductive Decoder (L : Libraries)
  | identity
  | gzip (decoder : L.gzip.State)
  | deflate (decoder : L.deflate.State)
  | brotli (decoder : L.brotli.State)
  | zstd (decoder : Zstd L.zstd)

namespace Decoder

variable {L : Libraries}

def new (L : Libraries) : Coding → Decoder L
  | .identity => .identity
  | .gzip => .gzip L.gzip.new
  | .deflate => .deflate L.deflate.new
  | .brotli => .brotli L.brotli.new
  | .zstd => .zstd (Zstd.new L.zstd)

def bounded (decoder : Decoder L) (plain : Bytes) : Option (Decoder L × Bytes) :=
  if plain.length ≤ maxDecodedChunkBytes then some (decoder, plain) else none

/-- `decode` and the `clear` that follows it: the staged bytes are handed out, and the decoder is left without them. -/
def decode (decoder : Decoder L) (chunk : Bytes) : Option (Decoder L × Bytes) :=
  match decoder with
  | .identity => some (.identity, chunk)
  | .gzip state => (L.gzip.write state chunk).bind fun (state, plain) => bounded (.gzip state) plain
  | .deflate state => (L.deflate.write state chunk).bind fun (state, plain) => bounded (.deflate state) plain
  | .brotli state => (L.brotli.write state chunk).bind fun (state, plain) => bounded (.brotli state) plain
  | .zstd z => (z.push chunk).bind fun z => bounded (.zstd { z with plain := [] }) z.plain

def finish : Decoder L → Option Bytes
  | .identity => some []
  | .gzip state => L.gzip.finish state
  | .deflate state => L.deflate.finish state
  | .brotli state => L.brotli.finish state
  | .zstd z => z.finish

def AcceptsEmpty (L : Libraries) : Coding → Prop
  | .identity => True
  | .gzip => (L.gzip.finish L.gzip.new).isSome
  | .deflate => (L.deflate.finish L.deflate.new).isSome
  | .brotli => (L.brotli.finish L.brotli.new).isSome
  | .zstd => False

theorem isSome_finish_new : (Decoder.new L coding).finish.isSome ↔ AcceptsEmpty L coding := by
  cases coding with
  | identity => exact iff_of_true rfl trivial
  | gzip | deflate | brotli => rfl
  | zstd => exact iff_of_false Bool.false_ne_true id

theorem finish_new (h : (Decoder.new L coding).finish = some tail) : tail = [] := by
  cases coding with
  | identity =>
    cases h
    rfl
  | gzip => exact L.gzip.finish_new h
  | deflate => exact L.deflate.finish_new h
  | brotli => exact L.brotli.finish_new h
  | zstd => cases h

def plainChunks (decoder : Decoder L) : List Bytes → Option (List Bytes)
  | [] => decoder.finish.map piece
  | chunk :: chunks =>
    match decoder.decode chunk with
    | none => none
    | some (decoder, plain) => (decoder.plainChunks chunks).map (plain :: ·)

end Decoder

end Boreas.Rewrite
