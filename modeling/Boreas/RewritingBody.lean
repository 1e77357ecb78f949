import Boreas.Decoding

/-! # The rewriting body

`RewritingBody` (intercept/rewrite.rs): the frames of a response body go through a decoder and lol_html.  Of lol_html,
a parameter, it is assumed that what it puts out for the chunks of a document and at its end is the rewrite of the
document (`LolHtml.rewrite_eq`).  `pollFrame` is the loop of `poll_frame`; `frames` is everything polling returns
(`polls_eq`). -/

namespace Boreas.Rewrite

/-! ### The rewriter -/

inductive RewritingError
  | memoryLimitExceeded
  | contentHandlerError
  | parsingAmbiguity
deriving DecidableEq, Repr

/-- Whether lol_html flushed what it held before it gave up. -/
def recoverable : RewritingError → Bool
  | .memoryLimitExceeded => true
  | .contentHandlerError => true
  | .parsingAmbiguity => false

/-- A rewriter: what it puts out for a chunk and at the end, and whether it goes on. -/
structure HtmlRewriter where
  State : Type
  start : State
  write : State → Bytes → Bytes × Except RewritingError State
  finish : State → Bytes × Option RewritingError
  /-- Nothing comes of an empty document. -/
  finish_start : finish start = ([], none)

def HtmlRewriter.writes (H : HtmlRewriter) : H.State → List Bytes → Option (Bytes × H.State)
  | rewriter, [] => some ([], rewriter)
  | rewriter, chunk :: chunks =>
    match H.write rewriter chunk with
    | (_, .error _) => none
    | (out, .ok rewriter) => (H.writes rewriter chunks).map fun (outs, rewriter) => (out ++ outs, rewriter)

/-- A rewriter of whole documents, whatever the chunks they come in. -/
structure LolHtml extends HtmlRewriter where
  rewrite : Bytes → Bytes
  rewrite_eq : ∀ {chunks out rewriter tail}, toHtmlRewriter.writes start chunks = some (out, rewriter) →
    finish rewriter = (tail, none) → rewrite chunks.flatten = out ++ tail

def LolHtml.Accepts (H : LolHtml) (chunks : List Bytes) : Prop :=
  ∃ out rewriter tail, H.writes H.start chunks = some (out, rewriter) ∧ H.finish rewriter = (tail, none)

/-! ### The body -/

inductive Stage (H : HtmlRewriter)
  | rewriting (rewriter : H.State)
  | raw
  | ended

inductive Truncated
  | truncated
deriving DecidableEq, Repr

structure RewritingBody (L : Libraries) (H : HtmlRewriter) where
  stage : Stage H
  decoder : Decoder L
  sink : Bytes
  /-- The failures this body has recorded. -/
  failures : ℕ

inductive Frame (T : Type)
  | data (bytes : Bytes)
  | trailers (fields : T)
deriving DecidableEq, Repr

def datas {E T : Type} (pieces : List Bytes) : List (Except E (Frame T)) :=
  pieces.map fun bytes => .ok (.data bytes)

theorem datas_append : datas (E := E) (T := T) (first ++ second) = datas first ++ datas second := List.map_append

def sequence {E T : Type} (pieces : List Bytes) (trailers : Option T) : List (Except E (Frame T)) :=
  datas pieces ++ (trailers.map fun fields => .ok (.trailers fields)).toList

inductive BodyError (E : Type)
  | truncated
  | inner (error : E)
deriving DecidableEq, Repr

namespace RewritingBody

variable {L : Libraries} {H : HtmlRewriter} {T E : Type}

def new (L : Libraries) (H : HtmlRewriter) (coding : Coding) : RewritingBody L H :=
  ⟨.rewriting H.start, .new L coding, [], 0⟩

variable (b : RewritingBody L H)

def drained : RewritingBody L H := { b with sink := [] }

def write (b : RewritingBody L H) (rewriter : H.State) (plain : Bytes) : Except Truncated Unit × RewritingBody L H :=
  match H.write rewriter plain with
  | (out, .ok rewriter) => (.ok (), { b with stage := .rewriting rewriter, sink := b.sink ++ out })
  | (out, .error error) =>
    let b := { b with sink := b.sink ++ out, failures := b.failures + 1 }
    if recoverable error then (.ok (), { b with stage := .raw })
    else (.error .truncated, { b with stage := .ended })

def handOn (plain : Bytes) : Except Truncated Unit × RewritingBody L H :=
  match b.stage with
  | .rewriting rewriter => b.write rewriter plain
  | .raw => (.ok (), { b with sink := b.sink ++ plain })
  | .ended => (.ok (), b)

def undecodable : Except Truncated Unit × RewritingBody L H :=
  (.error .truncated, { b with stage := .ended, failures := b.failures + 1 })

def feed (data : Bytes) : Except Truncated Unit × RewritingBody L H :=
  match b.stage with
  | .ended => (.ok (), b)
  | _ =>
    match b.decoder.decode data with
    | none => b.undecodable
    | some (decoder, plain) => { b with decoder }.handOn plain

def close : Except Truncated Unit × RewritingBody L H :=
  match b.stage with
  | .rewriting rewriter =>
    match H.finish rewriter with
    | (out, none) => (.ok (), { b with stage := .ended, sink := b.sink ++ out })
    | (out, some error) =>
      (if recoverable error then .ok () else .error .truncated,
        { b with stage := .ended, sink := b.sink ++ out, failures := b.failures + 1 })
  | _ => (.ok (), { b with stage := .ended })

def finish (b : RewritingBody L H) : Except Truncated Unit × RewritingBody L H :=
  match b.decoder.finish with
  | none => b.undecodable
  | some tail =>
    -- the tail of the decoder goes in before the rewriter ends
    match if tail = [] then (.ok (), b) else b.handOn tail with
    | (.error error, b) => (.error error, b)
    | (.ok _, b) => b.close

def ended (b : RewritingBody L H) : Bool :=
  match b.stage with
  | .ended => true
  | _ => false

/-- `poll_frame` on the frames the inner body has left: what is returned, and what both are left with.  A finished
document is drained once more and ends. -/
def pollFrame (b : RewritingBody L H) (inner : List (Except E (Frame T))) :
    Option (Except (BodyError E) (Frame T)) × RewritingBody L H × List (Except E (Frame T)) :=
  if b.sink ≠ [] then (some (.ok (.data b.sink)), b.drained, inner)
  else if b.ended then (none, b, inner)
  else
    match inner with
    | [] =>
      match b.finish with
      | (.error _, b) => (some (.error .truncated), b, [])
      | (.ok _, b) => if b.sink ≠ [] then (some (.ok (.data b.sink)), b.drained, []) else (none, b, [])
    | .error error :: inner => (some (.error (.inner error)), b, inner)
    | .ok (.data data) :: inner =>
      match b.feed data with
      | (.error _, b) => (some (.error .truncated), b, inner)
      | (.ok _, b) => b.pollFrame inner
    -- trailers are outside the document
    | .ok (.trailers fields) :: inner => (some (.ok (.trailers fields)), b, inner)

/-! ### Everything that is returned -/

def out : List (Except (BodyError E) (Frame T)) :=
  datas (piece b.sink)

def frames (b : RewritingBody L H) (inner : List (Except E (Frame T))) : List (Except (BodyError E) (Frame T)) :=
  b.out ++
    if b.ended then []
    else
      match inner with
      | [] =>
        match b.drained.finish with
        | (.error _, _) => [.error .truncated]
        | (.ok _, b) => b.out
      | .error error :: _ => [.error (.inner error)]
      | .ok (.data data) :: inner =>
        match b.drained.feed data with
        | (.error _, _) => [.error .truncated]
        | (.ok _, b) => b.frames inner
      | .ok (.trailers fields) :: inner => .ok (.trailers fields) :: b.drained.frames inner

def final (b : RewritingBody L H) (inner : List (Except E (Frame T))) : RewritingBody L H :=
  if b.ended then b.drained
  else
    match inner with
    | [] =>
      match b.drained.finish with
      | (.error _, b) => b
      | (.ok _, b) => b.drained
    | .error _ :: _ => b.drained
    | .ok (.data data) :: inner =>
      match b.drained.feed data with
      | (.error _, b) => b
      | (.ok _, b) => b.final inner
    | .ok (.trailers _) :: inner => b.drained.final inner

variable {b : RewritingBody L H}

theorem drained_of_nil (h : b.sink = []) : b.drained = b := by
  cases b
  cases h
  rfl

theorem out_of_nil (h : b.sink = []) : b.out (T := T) (E := E) = [] := by
  rw [out, piece, if_pos h]
  rfl

theorem out_of_ne_nil (h : b.sink ≠ []) : b.out (T := T) (E := E) = [.ok (.data b.sink)] := by
  rw [out, piece, if_neg h]
  rfl

theorem frames_drained (b : RewritingBody L H) (inner : List (Except E (Frame T))) :
    b.frames inner = b.out ++ b.drained.frames inner := by
  unfold frames
  rfl

theorem ended_close (b : RewritingBody L H) : b.close.2.ended = true := by
  unfold close
  split
  · split <;> rfl
  · rfl

theorem ended_finish (h : b.finish = (.ok (), b')) : b'.ended = true := by
  unfold finish at h
  split at h
  · cases h
  · split at h
    · cases h
    · have hclose := ended_close ‹RewritingBody L H›
      rwa [h] at hclose

theorem frames_of_ended (h : b.ended = true) (inner : List (Except E (Frame T))) : b.frames inner = b.out := by
  unfold frames
  rw [if_pos h, List.append_nil]

theorem frames_drained_of_ended (h : b.ended = true) (inner : List (Except E (Frame T))) :
    b.drained.frames inner = [] := frames_of_ended (b := b.drained) h inner

theorem frames_of_open (hsink : b.sink = []) (hended : b.ended = false) (inner : List (Except E (Frame T))) :
    b.frames inner =
      match inner with
      | [] =>
        match b.finish with
        | (.error _, _) => [.error .truncated]
        | (.ok _, b) => b.out
      | .error error :: _ => [.error (.inner error)]
      | .ok (.data data) :: inner =>
        match b.feed data with
        | (.error _, _) => [.error .truncated]
        | (.ok _, b) => b.frames inner
      | .ok (.trailers fields) :: inner => .ok (.trailers fields) :: b.frames inner := by
  rw [frames.eq_def, out_of_nil hsink, hended, drained_of_nil hsink]
  rfl

theorem final_drained (inner : List (Except E (Frame T))) : b.final inner = b.drained.final inner := by
  unfold final
  rfl

theorem final_of_ended (h : b.ended = true) (inner : List (Except E (Frame T))) : b.final inner = b.drained := by
  unfold final
  rw [if_pos h]

theorem final_of_open (hsink : b.sink = []) (hended : b.ended = false) (inner : List (Except E (Frame T))) :
    b.final inner =
      match inner with
      | [] =>
        match b.finish with
        | (.error _, b) => b
        | (.ok _, b) => b.drained
      | .error _ :: _ => b
      | .ok (.data data) :: inner =>
        match b.feed data with
        | (.error _, b) => b
        | (.ok _, b) => b.final inner
      | .ok (.trailers _) :: inner => b.final inner := by
  rw [final.eq_def, hended, drained_of_nil hsink]
  rfl

/-- What polling does to all that is returned and to the body that is left in the end. -/
def Unrolls (b : RewritingBody L H) (inner : List (Except E (Frame T))) : Prop :=
  (b.frames inner, b.final inner) =
    match b.pollFrame inner with
    | (none, b, _) => ([], b)
    | (some (.error error), b, _) => ([.error error], b)
    | (some (.ok frame), b, inner) => (.ok frame :: b.frames inner, b.final inner)

theorem unrolls_of_ready (h : b.sink = [] → b.ended = true)
    (inner : List (Except E (Frame T))) : b.Unrolls inner := by
  unfold Unrolls pollFrame
  by_cases hsink : b.sink = []
  · rw [if_neg (not_not.mpr hsink), if_pos (h hsink), frames_of_ended (h hsink), out_of_nil hsink,
      final_of_ended (h hsink), drained_of_nil hsink]
  · rw [if_pos hsink, frames_drained, out_of_ne_nil hsink, final_drained]
    rfl

theorem frames_eq (b : RewritingBody L H) (inner : List (Except E (Frame T))) : b.Unrolls inner := by
  by_cases hready : b.sink = [] → b.ended = true
  · exact unrolls_of_ready hready inner
  obtain ⟨hsink, hended⟩ := Classical.not_imp.mp hready
  have hopen := Bool.eq_false_of_not_eq_true hended
  unfold Unrolls pollFrame
  rw [if_neg (not_not.mpr hsink), if_neg hended, frames_of_open hsink hopen, final_of_open hsink hopen]
  cases inner with
  | nil =>
    rcases hfin : b.finish with ⟨_ | _, b'⟩
    · rfl
    by_cases hsink' : b'.sink = []
    · simp [hsink', out_of_nil, drained_of_nil]
    · simp [hsink', out_of_ne_nil, frames_drained_of_ended (ended_finish hfin), ← final_drained,
        final_of_ended (ended_finish hfin)]
  | cons item inner =>
    obtain _ | data | _ := item
    · rfl
    · dsimp only
      obtain ⟨_ | _, b'⟩ := b.feed data
      · rfl
      · exact frames_eq b' inner
    · rfl

/-- What `n` polls return. -/
def polls : ℕ → RewritingBody L H → List (Except E (Frame T)) → List (Except (BodyError E) (Frame T))
  | 0, _, _ => []
  | n + 1, b, inner =>
    match b.pollFrame inner with
    | (none, _) => []
    | (some (.error error), _) => [.error error]
    | (some (.ok frame), b, inner) => .ok frame :: polls n b inner

/-- **Polling returns the frames of the body as a whole**, one after the other. -/
theorem polls_eq (b : RewritingBody L H) (inner : List (Except E (Frame T))) (n : ℕ) :
    polls n b inner = (b.frames inner).take n := by
  induction n generalizing b inner with
  | zero => rfl
  | succ n ih =>
    rw [polls, show b.frames inner = _ from congrArg Prod.fst (frames_eq b inner)]
    obtain ⟨_ | _ | frame, b', inner'⟩ := b.pollFrame inner
    · rfl
    · simp
    · exact congrArg _ (ih b' inner')

end RewritingBody

end Boreas.Rewrite
