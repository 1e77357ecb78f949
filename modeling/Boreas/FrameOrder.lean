import Boreas.RewritingBody

/-! # The order of the frames of a rewritten body

No data frame should come after the trailers, and the data should be the rewrite of the decoded document
(`KeepsOrder`).  The decoder and the rewriter let go of their last bytes when the inner body ends, and that is after
the trailers: `keepsOrder_iff` says when the order is kept. -/

namespace Boreas.Rewrite

open List Option

/-! ### What decoder and rewriter hold -/

namespace Stage

variable {H : HtmlRewriter}

/-- What the stage puts out for decoded bytes, unless the body ends with an error. -/
def passes (plain : Bytes) : Stage H → Option (Bytes × Stage H)
  | .rewriting rewriter =>
    match H.write rewriter plain with
    | (out, .ok rewriter) => some (out, .rewriting rewriter)
    | (out, .error error) => if recoverable error then some (out, .raw) else none
  | .raw => some (plain, .raw)
  | .ended => some ([], .ended)

def ends : Stage H → Option Bytes
  | .rewriting rewriter =>
    match H.finish rewriter with
    | (out, none) => some out
    | (out, some error) => if recoverable error then some out else none
  | _ => some []

end Stage

variable {L : Libraries} {H : HtmlRewriter} {T E : Type}

/-- What comes out for the data, and the decoder and the stage after it. -/
def after (decoder : Decoder L) (stage : Stage H) : List Bytes → Option (Bytes × Decoder L × Stage H)
  | [] => some ([], decoder, stage)
  | data :: rest => do
    let (decoder, plain) ← decoder.decode data
    let (out, stage) ← stage.passes plain
    (after decoder stage rest).map fun (outs, left) => (out ++ outs, left)

/-- What comes out at the end of the document. -/
def remainder (decoder : Decoder L) (stage : Stage H) : Option Bytes := do
  let tail ← decoder.finish
  let (out, stage) ← if tail = [] then some ([], stage) else stage.passes tail
  stage.ends.map (out ++ ·)

theorem remainder_of_writes {decoder : Decoder L} {out tail : Bytes} (hlast : decoder.finish = some last)
    (hwr : H.writes rewriter (piece last) = some (out, rewriter')) (htail : H.finish rewriter' = (tail, none)) :
    remainder decoder (.rewriting rewriter) = some (out ++ tail) := by
  unfold remainder
  rw [hlast]
  dsimp only [bind_eq_bind, bind_some]
  by_cases hnil : last = []
  · rw [piece, if_pos hnil] at hwr
    cases hwr
    simp [hnil, Stage.ends, htail]
  rw [piece, if_neg hnil] at hwr
  unfold HtmlRewriter.writes at hwr
  split at hwr
  · cases hwr
  · rename_i hwrite
    cases hwr
    simp [hnil, Stage.passes, hwrite, Stage.ends, htail]

theorem after_of_writes : ∀ (rest : List Bytes) {decoder : Decoder L} {rewriter rewriter' : H.State}
    {chunks : List Bytes} {out tail : Bytes}, decoder.plainChunks rest = some chunks →
      H.writes rewriter chunks = some (out, rewriter') → H.finish rewriter' = (tail, none) →
      ∃ first decoder' stage last, after decoder (.rewriting rewriter) rest = some (first, decoder', stage) ∧
        remainder decoder' stage = some last ∧ first ++ last = out ++ tail
  | [], decoder, rewriter, rewriter', chunks, out, tail, hplain, hwr, htail => by
    obtain ⟨last, hlast, rfl⟩ := map_eq_some_iff.mp hplain
    exact ⟨[], decoder, _, _, rfl, remainder_of_writes hlast hwr htail, rfl⟩
  | data :: rest, decoder, rewriter, rewriter', chunks, out, tail, hplain, hwr, htail => by
    unfold Decoder.plainChunks at hplain
    split at hplain
    · cases hplain
    rename_i decoder' plain hdec
    obtain ⟨chunks, hchunks, rfl⟩ := map_eq_some_iff.mp hplain
    unfold HtmlRewriter.writes at hwr
    split at hwr
    · cases hwr
    rename_i out next hwrite
    obtain ⟨⟨others, last⟩, hoth, heq⟩ := map_eq_some_iff.mp hwr
    cases heq
    obtain ⟨first, left, stage, rest', hafter, hrem, hbytes⟩ := after_of_writes rest hchunks hoth htail
    refine ⟨out ++ first, left, stage, rest', ?_, hrem, by rw [append_assoc, hbytes, append_assoc]⟩
    simp [after, hdec, Stage.passes, hwrite, hafter]

/-- The last frames of a body, which ends with what comes out or fails. -/
def closing : Option Bytes → List (Except (BodyError E) (Frame T))
  | none => [.error .truncated]
  | some out => datas (piece out)

/-! ### The body runs them -/

namespace RewritingBody

variable (b : RewritingBody L H)

theorem handOn_eq (plain : Bytes) :
    match b.stage.passes plain with
    | none => ∃ b', b.handOn plain = (.error .truncated, b')
    | some (out, stage) => ∃ failures, b.handOn plain = (.ok (), ⟨stage, b.decoder, b.sink ++ out, failures⟩) := by
  obtain ⟨stage, decoder, sink, failures⟩ := b
  cases stage with
  | rewriting rewriter =>
    dsimp only [handOn, Stage.passes, write]
    rcases H.write rewriter plain with ⟨out, error | next⟩
    · dsimp only
      split_ifs <;> exact ⟨_, rfl⟩
    · exact ⟨_, rfl⟩
  | raw => exact ⟨_, rfl⟩
  | ended => exact ⟨failures, by rw [append_nil]; rfl⟩

theorem close_eq :
    match b.stage.ends with
    | none => ∃ b', b.close = (.error .truncated, b')
    | some out => ∃ b', b.close = (.ok (), b') ∧ b'.sink = b.sink ++ out := by
  obtain ⟨stage, decoder, sink, failures⟩ := b
  cases stage with
  | rewriting rewriter =>
    dsimp only [close, Stage.ends]
    rcases H.finish rewriter with ⟨out, _ | error⟩
    · exact ⟨_, rfl, rfl⟩
    dsimp only
    split_ifs
    · exact ⟨_, rfl, rfl⟩
    · exact ⟨_, rfl⟩
  | raw | ended => exact ⟨_, rfl, (append_nil _).symm⟩

theorem finish_eq :
    match remainder b.decoder b.stage with
    | none => ∃ b', b.finish = (.error .truncated, b')
    | some out => ∃ b', b.finish = (.ok (), b') ∧ b'.sink = b.sink ++ out := by
  unfold remainder finish
  dsimp only [bind_eq_bind]
  rcases b.decoder.finish with _ | tail
  · exact ⟨_, rfl⟩
  dsimp only [bind_some]
  split_ifs with hnil
  · have hclose := close_eq b
    cases hends : b.stage.ends <;> rw [hends] at hclose <;> simpa [hends] using hclose
  have hhand := handOn_eq b tail
  rcases hpass : b.stage.passes tail with _ | ⟨out, stage⟩ <;> rw [hpass] at hhand
  · obtain ⟨b', hhand⟩ := hhand
    exact ⟨b', by rw [hhand]⟩
  obtain ⟨failures, hhand⟩ := hhand
  rw [hhand]
  have hclose := close_eq ⟨stage, b.decoder, b.sink ++ out, failures⟩
  dsimp only [bind_some] at hclose ⊢
  cases hends : stage.ends <;> rw [hends] at hclose <;> simpa [append_assoc] using hclose

variable {b}

theorem feed_of_open (hopen : b.ended = false) : b.feed data =
    match b.decoder.decode data with
    | none => b.undecodable
    | some (decoder, plain) => { b with decoder }.handOn plain := by
  obtain ⟨stage, decoder, sink, failures⟩ := b
  cases stage with
  | ended => cases hopen
  | rewriting rewriter | raw => rfl

theorem ended_of_passes {b' : RewritingBody L H} {out : Bytes} (hopen : b.ended = false)
    (h : b.stage.passes plain = some (out, b'.stage)) : b'.ended = false := by
  obtain ⟨stage, _, _, _⟩ := b
  obtain ⟨stage', _, _, _⟩ := b'
  cases stage with
  | rewriting rewriter =>
    dsimp only [Stage.passes] at h
    split at h
    · cases h
      rfl
    · split_ifs at h
      cases h
      rfl
  | raw =>
    cases h
    rfl
  | ended => cases hopen

theorem frames_end (hsink : b.sink = []) (hopen : b.ended = false) :
    b.frames ([] : List (Except E (Frame T))) =
      closing (remainder b.decoder b.stage) := by
  rw [frames_of_open hsink hopen]
  have hfin := finish_eq b
  rcases hrem : remainder b.decoder b.stage with _ | out <;> rw [hrem] at hfin
  · obtain ⟨b', hfin⟩ := hfin
    rw [hfin]
    rfl
  · obtain ⟨b', hfin, hsink'⟩ := hfin
    rw [hfin]
    dsimp only
    rw [RewritingBody.out, hsink', hsink]
    rfl

theorem frames_data (hopen : b.ended = false) (inner : List (Except E (Frame T))) :
    b.frames (.ok (.data data) :: inner) = datas (piece b.sink) ++
      match b.drained.feed data with
      | (.error _, _) => [.error .truncated]
      | (.ok _, b) => b.frames inner := by
  rw [frames_drained, frames_of_open (b := b.drained) rfl hopen]
  rfl

/-- The frames of a body whose inner body begins with data. -/
theorem frames_datas : ∀ (rest : List Bytes) {b : RewritingBody L H} (inner : List (Except E (Frame T))),
    b.ended = false →
      match after b.decoder b.stage rest with
      | none => ∃ pieces, b.frames (datas rest ++ inner) = datas pieces ++ [.error .truncated]
      | some (out, decoder, stage) => ∃ (pieces : List Bytes) (b' : RewritingBody L H),
          b'.decoder = decoder ∧ b'.stage = stage ∧ b'.sink = [] ∧ b'.ended = false ∧ pieces.flatten = b.sink ++ out ∧
          b.frames (datas rest ++ inner) = datas pieces ++ b'.frames inner
  | [], b, inner, hopen =>
    ⟨piece b.sink, b.drained, rfl, rfl, rfl, hopen, by rw [flatten_piece, append_nil], frames_drained b inner⟩
  | data :: rest, b, inner, hopen => by
    rw [show datas (data :: rest) ++ inner = .ok (.data data) :: (datas rest ++ inner) from rfl, frames_data hopen,
      feed_of_open (b := b.drained) hopen]
    dsimp only [after, drained, bind_eq_bind]
    rcases b.decoder.decode data with _ | ⟨decoder, plain⟩
    · exact ⟨piece b.sink, rfl⟩
    have hhand := handOn_eq ⟨b.stage, decoder, [], b.failures⟩ plain
    dsimp only [bind_some] at hhand ⊢
    rcases hpass : b.stage.passes plain with _ | ⟨out, stage⟩ <;> rw [hpass] at hhand
    · obtain ⟨b', hhand⟩ := hhand
      exact ⟨piece b.sink, by rw [hhand]⟩
    obtain ⟨failures, hhand⟩ := hhand
    have hrest := frames_datas rest (b := ⟨stage, decoder, out, failures⟩) inner (ended_of_passes hopen hpass)
    rw [hhand]
    dsimp only [bind_some, nil_append] at hrest ⊢
    rcases hafter : after decoder stage rest with _ | ⟨outs, left⟩ <;> rw [hafter] at hrest
    · obtain ⟨pieces, hpieces⟩ := hrest
      exact ⟨piece b.sink ++ pieces, by rw [hpieces, datas_append, append_assoc]⟩
    · obtain ⟨pieces, b', hdec, hstage, hsink, hopen', hbytes, hframes⟩ := hrest
      refine ⟨piece b.sink ++ pieces, b', hdec, hstage, hsink, hopen', ?_, by rw [hframes, datas_append, append_assoc]⟩
      rw [flatten_append, flatten_piece, hbytes]

theorem frames_sequence (hopen : b.ended = false) (pieces : List Bytes) (trailers : Option T) :
    match after b.decoder b.stage pieces with
    | none => ∃ returned, b.frames (sequence (E := E) pieces trailers) = datas returned ++ [.error .truncated]
    | some (out, decoder, stage) => ∃ returned, returned.flatten = b.sink ++ out ∧
        b.frames (sequence (E := E) pieces trailers) =
          datas returned ++ ((trailers.map fun fields => .ok (.trailers fields)).toList ++
            closing (remainder decoder stage)) := by
  have hdata := frames_datas (E := E) pieces (trailers.map fun fields => .ok (.trailers fields)).toList hopen
  rcases hafter : after b.decoder b.stage pieces with _ | ⟨out, decoder, stage⟩ <;> rw [hafter] at hdata
  · exact hdata
  obtain ⟨returned, b', rfl, rfl, hsink, hopen', hbytes, hframes⟩ := hdata
  refine ⟨returned, hbytes, hframes.trans ?_⟩
  rw [← frames_end hsink hopen']
  cases trailers with
  | none => rfl
  | some fields =>
    congr 1
    exact frames_of_open hsink hopen' _

end RewritingBody

/-! ### Order -/

def isData : Except E (Frame T) → Bool
  | .ok (.data _) => true
  | _ => false

def isTrailers : Except E (Frame T) → Bool
  | .ok (.trailers _) => true
  | _ => false

def InOrder (frames : List (Except E (Frame T))) : Prop :=
  frames.Pairwise fun earlier later => isTrailers earlier → isData later = false

/-- The frames of a rewritten body are in order, and a document that the decoder and the rewriter accept is there as a
whole, followed by the trailers. -/
structure KeepsOrder (L : Libraries) (H : LolHtml) (coding : Coding) (pieces : List Bytes)
    (trailers : Option T) (frames : List (Except E (Frame T))) : Prop where
  inOrder : InOrder frames
  whole : ∀ {chunks}, (Decoder.new L coding).plainChunks pieces = some chunks → H.Accepts chunks →
    ∃ rewritten, frames = sequence rewritten trailers ∧ rewritten.flatten = H.rewrite chunks.flatten

theorem inOrder_datas_append : InOrder (datas pieces ++ frames) ↔ InOrder frames := by
  induction pieces with
  | nil => rfl
  | cons bytes pieces ih => exact pairwise_cons.trans ((and_iff_right (by simp [isTrailers])).trans ih)

theorem inOrder_closing (last : Option Bytes) : InOrder (E := BodyError E) (T := T) (closing last) := by
  cases last with
  | none => exact pairwise_singleton _ _
  | some out =>
    rw [closing, ← append_nil (datas _), inOrder_datas_append]
    exact List.Pairwise.nil

theorem inOrder_trailers_iff {last : Option Bytes} :
    InOrder (E := BodyError E) (.ok (.trailers fields) :: closing last) ↔ ∀ out, last = some out → out = [] := by
  refine pairwise_cons.trans ((and_iff_left (inOrder_closing last)).trans ?_)
  cases last with
  | none => simp [closing, isData]
  | some out =>
    by_cases hnil : out = []
    · simp [closing, piece, datas, hnil]
    · simp [closing, piece, datas, hnil, isTrailers, isData]

open RewritingBody

/-- **A rewritten body keeps its order** if it has no trailers, or if reading its data fails, or if the decoder and the
rewriter hold nothing back when its trailers come. -/
theorem keepsOrder_iff (L : Libraries) (H : LolHtml) (coding : Coding) (pieces : List Bytes) (trailers : Option T) :
    KeepsOrder L H coding pieces trailers
        ((new L H.toHtmlRewriter coding).frames (sequence (E := E) pieces trailers)) ↔
      trailers = none ∨ ∀ out decoder stage last,
        after (.new L coding) (.rewriting H.start) pieces = some (out, decoder, stage) →
          remainder decoder stage = some last → last = [] := by
  have hframes := frames_sequence (E := E) (b := new L H.toHtmlRewriter coding) rfl pieces trailers
  unfold new at hframes ⊢
  dsimp only at hframes
  rcases hafter : after (.new L coding) (.rewriting H.start) pieces with _ | ⟨out, decoder, stage⟩ <;>
    rw [hafter] at hframes
  · obtain ⟨returned, hframes⟩ := hframes
    refine iff_of_true ⟨?_, fun hplain ⟨out, rewriter, tail, hwr, htail⟩ => ?_⟩ (.inr nofun)
    · rw [hframes, inOrder_datas_append]
      exact pairwise_singleton _ _
    · obtain ⟨_, _, _, _, hsome, -⟩ := after_of_writes pieces hplain hwr htail
      cases hafter.symm.trans hsome
  obtain ⟨returned, hbytes, hframes⟩ := hframes
  rw [hframes]
  constructor
  · intro h
    cases trailers with
    | none => exact .inl rfl
    | some fields =>
      refine .inr fun _ _ _ last heq hlast => ?_
      cases heq
      exact inOrder_trailers_iff.mp (inOrder_datas_append.mp h.inOrder) last hlast
  · intro h
    refine ⟨?_, fun hplain ⟨written, rewriter, tail, hwr, htail⟩ => ?_⟩
    · rw [inOrder_datas_append]
      cases trailers with
      | none => exact inOrder_closing _
      | some fields => exact inOrder_trailers_iff.mpr fun last => h.resolve_left nofun _ _ _ last rfl
    · obtain ⟨first, decoder', stage', last, hsome, hlast, hwhole⟩ := after_of_writes pieces hplain hwr htail
      cases hafter.symm.trans hsome
      rw [H.rewrite_eq hwr htail, ← hwhole, hlast]
      cases trailers with
      | none =>
        refine ⟨returned ++ piece last, ?_, by rw [flatten_append, flatten_piece, hbytes]; rfl⟩
        rw [sequence, datas_append, append_assoc]
        simp [closing]
      | some fields =>
        obtain rfl := h.resolve_left nofun _ _ _ last rfl hlast
        exact ⟨returned, rfl, by rw [hbytes, append_nil]; rfl⟩

/-! ### A rewriter that waits for the end of a tag -/

/-- The tag that has begun and not ended. -/
def unfinishedTag (bytes : Bytes) : Bytes := (bytes.rtakeWhile (· != 62)).dropWhile (· != 60)

def waiting : HtmlRewriter where
  State := Bytes
  start := []
  write := fun held chunk =>
    let bytes := held ++ chunk
    let whole := bytes.length - (unfinishedTag bytes).length
    (bytes.take whole, .ok (bytes.drop whole))
  finish := fun held => (held, none)
  finish_start := rfl

theorem writes_waiting : ∀ (chunks : List Bytes) {held out rest : Bytes},
    waiting.writes held chunks = some (out, rest) → held ++ chunks.flatten = out ++ rest
  | [], held, out, rest, h => by
    cases h
    simp
  | chunk :: chunks, held, out, rest, h => by
    obtain ⟨⟨others, last⟩, hoth, heq⟩ := map_eq_some_iff.mp h
    cases heq
    rw [append_assoc, ← writes_waiting chunks hoth, ← append_assoc, take_append_drop,
      flatten_cons, append_assoc]

def identical : LolHtml where
  toHtmlRewriter := waiting
  rewrite := id
  rewrite_eq := by
    intro chunks out rewriter tail hwrites htail
    cases htail
    exact writes_waiting chunks hwrites

def noInflater : Inflater := ⟨Unit, (), fun _ _ => none, fun _ => none, nofun⟩

def noFrames : FrameDecoder := ⟨Unit, (), fun _ _ => .failed, fun _ => none, fun _ => false⟩

def noLibraries : Libraries := ⟨noInflater, noInflater, noInflater, noFrames⟩

/-- The document `a<` with trailers: its last byte could begin a tag, and comes after them. -/
theorem last_byte_after_trailers :
    (new noLibraries waiting .identity).frames (sequence (E := Empty) [[97, 60]] (some ())) =
        [.ok (.data [97]), .ok (.trailers ()), .ok (.data [60])] ∧
      ¬ KeepsOrder noLibraries identical .identity [[97, 60]] (some ())
        ((new noLibraries waiting .identity).frames (sequence (E := Empty) [[97, 60]] (some ()))) := by
  have hfrs : (new noLibraries waiting .identity).frames (sequence (E := Empty) [[97, 60]] (some ())) =
      [.ok (.data [97]), .ok (.trailers ()), .ok (.data [60])] := rfl
  refine ⟨hfrs, fun h => ?_⟩
  have horder := h.inOrder
  have hdata := rel_of_pairwise_cons (List.Pairwise.of_cons horder) mem_cons_self rfl
  cases hdata

end Boreas.Rewrite
