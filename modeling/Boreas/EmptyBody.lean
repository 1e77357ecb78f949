import Boreas.FrameOrder
import Boreas.Rewriting

/-! # Responses without a body

An answer to `HEAD` and an empty document should survive rewriting (`Survives`).  Whether a response is rewritten does
not depend on the method, and every decoder is asked whether the stream may end where it has not begun: `survives_iff`
says which responses come through. -/

namespace Boreas.Rewrite

open Http Intercept Rules

namespace RewritingBody

variable {L : Libraries} {H : HtmlRewriter} {T E : Type}

theorem finish_new (L : Libraries) (H : HtmlRewriter) (coding : Coding) : (new L H coding).finish =
      if (Decoder.new L coding).finish.isSome then (.ok (), { new L H coding with stage := .ended })
      else (new L H coding).undecodable := by
  unfold finish
  have hdecoder : (new L H coding).decoder = Decoder.new L coding := rfl
  rw [hdecoder]
  rcases hfin : (Decoder.new L coding).finish with _ | tail
  · rfl
  rw [Decoder.finish_new hfin]
  have hend := H.finish_start
  simp [close, new, hend]

theorem frames_empty (L : Libraries) (H : HtmlRewriter) (coding : Coding) (trailers : Option T) :
    (new L H coding).frames (sequence (E := E) [] trailers) =
        (sequence [] trailers ++ if (Decoder.new L coding).finish.isSome then [] else [.error .truncated]) ∧
      ((new L H coding).final (sequence (E := E) [] trailers)).failures =
        if (Decoder.new L coding).finish.isSome then 0 else 1 := by
  have hnil : (new L H coding).frames ([] : List (Except E (Frame T))) =
        (if (Decoder.new L coding).finish.isSome then [] else [.error .truncated]) ∧
      ((new L H coding).final ([] : List (Except E (Frame T)))).failures =
        if (Decoder.new L coding).finish.isSome then 0 else 1 := by
    rw [frames_of_open rfl rfl, final_of_open rfl rfl, finish_new]
    cases (Decoder.new L coding).finish.isSome with
    | false | true => exact ⟨rfl, rfl⟩
  rcases trailers with _ | fields
  · exact hnil
  show (new L H coding).frames [.ok (.trailers fields)] = _ ∧
    ((new L H coding).final [.ok (.trailers fields)]).failures = _
  rw [frames_of_open rfl rfl, final_of_open rfl rfl]
  dsimp only
  rw [hnil.1, hnil.2]
  exact ⟨rfl, rfl⟩

end RewritingBody

/-- The body of a response ends without data or an error, and no failure is recorded. -/
def ProxyBody.EndsEmpty {L : Libraries} {T : Type} (trailers : Option T) : ProxyBody L → Prop
  | .forwarded => True
  | .rewriting _ body =>
    body.frames (sequence (E := Empty) [] trailers) = sequence [] trailers ∧
      (body.final (sequence (E := Empty) [] trailers)).failures = 0

theorem endsEmpty_iff (trailers : Option T) :
    (ProxyBody.rewriting H (.new L H coding)).EndsEmpty trailers ↔ Decoder.AcceptsEmpty L coding := by
  unfold ProxyBody.EndsEmpty
  dsimp only
  obtain ⟨hfrs, hfails⟩ := RewritingBody.frames_empty (E := Empty) L H coding trailers
  rw [hfrs, hfails, ← Decoder.isSome_finish_new]
  cases (Decoder.new L coding).finish.isSome with
  | false => exact iff_of_false (fun h => Nat.one_ne_zero h.2) Bool.false_ne_true
  | true => exact iff_of_true ⟨List.append_nil _, rfl⟩ rfl

/-- A response without a body comes through: its body ends empty, and an answer to `HEAD` keeps its two fields. -/
structure Survives {L : Libraries} {T : Type} (method : Bytes) (response : Response) (trailers : Option T)
    (shaped : Response × ProxyBody L) : Prop where
  body : shaped.2.EndsEmpty trailers
  fields : method = ascii "HEAD" →
    shaped.1.headers.getAll .contentLength = response.headers.getAll .contentLength ∧
      shaped.1.headers.getAll .contentEncoding = response.headers.getAll .contentEncoding

/-- **Responses without a body survive rewriting** if their coding accepts the end of a stream that has not begun, which
zstd never does, and if an answer to `HEAD` has no length and no coding to lose. -/
theorem survives_iff {A : Adblock} {T : Type} (W : Rewriter A) (r : Rewriting A) (host method : Bytes)
    (response : Response) (trailers : Option T) {permit : Rewritable W.encodings} (hrules : (r.rules host).isSome)
    (hpermit : rewritable W.encodings response.status (received response).headers = .ok permit) :
    Survives method response trailers (r.shape W host response) ↔ Decoder.AcceptsEmpty W.libraries permit.coding ∧
        (method = ascii "HEAD" → response.headers.getAll .contentLength = [] ∧
          (response.headers.getAll .contentEncoding = [] ∨
            permit.coding = .identity ∧ HeaderName.contentEncoding ∉ nominated response.headers .ordinary)) := by
  obtain ⟨H, hbody, -, -⟩ := shape_of_rewritable hrules hpermit
  have hends : (r.shape W host response).2.EndsEmpty trailers ↔ Decoder.AcceptsEmpty W.libraries permit.coding := by
    rw [hbody]
    exact endsEmpty_iff trailers
  constructor
  · intro h
    refine ⟨hends.mp h.body, fun hhead => ?_⟩
    obtain ⟨hlen, henc⟩ := h.fields hhead
    constructor
    · exact (shape_contentLength_iff hrules hpermit).mp hlen
    · exact (shape_contentEncoding_iff hrules hpermit).mp henc
  · rintro ⟨hacc, hfld⟩
    constructor
    · exact hends.mpr hacc
    · intro hhead
      obtain ⟨hlen, henc⟩ := hfld hhead
      constructor
      · exact (shape_contentLength_iff hrules hpermit).mpr hlen
      · exact (shape_contentEncoding_iff hrules hpermit).mpr henc

/-! ### Answers to `HEAD` -/

def hideAds : Rewriting patterns :=
  .on (.fromLists ["host##.ad".toList]) ⟨2 * 1024 * 1024, 16 * 1024, by decide, by decide⟩

def unchanging : Rewriter patterns := ⟨noLibraries, ⟨Unit, (), fun _ => some ()⟩, fun _ _ _ _ => waiting⟩

def chunkedHtml : Response := ⟨200, HeaderMap.empty.append .contentType (ascii "text/html")⟩

theorem survives_chunked : Survives (ascii "HEAD") chunkedHtml (none : Option Unit)
      (hideAds.shape unchanging (ascii "host") chunkedHtml) := by
  have hperm : rewritable unchanging.encodings chunkedHtml.status (received chunkedHtml).headers =
      .ok ⟨(), .identity⟩ := rfl
  refine (survives_iff unchanging hideAds (ascii "host") (ascii "HEAD") chunkedHtml none rfl hperm).mpr ?_
  exact ⟨trivial, fun _ => ⟨rfl, .inl rfl⟩⟩

def zstdHtml : Response :=
  ⟨200, ((HeaderMap.empty.append .contentType (ascii "text/html")).append .contentEncoding (ascii "zstd")).append
    .contentLength (ascii "1234")⟩

/-- An answer to `HEAD` in zstd: its body is an error, and its length is lost. -/
theorem head_of_zstd_fails :
    rewritable unchanging.encodings zstdHtml.status (received zstdHtml).headers = .ok ⟨(), .zstd⟩ ∧
      ¬ (hideAds.shape unchanging (ascii "host") zstdHtml).2.EndsEmpty (none : Option Unit) ∧
      zstdHtml.headers.getAll .contentLength = [ascii "1234"] ∧
      (hideAds.shape unchanging (ascii "host") zstdHtml).1.headers.getAll .contentLength = [] ∧
      ¬ Survives (ascii "HEAD") zstdHtml (none : Option Unit)
        (hideAds.shape unchanging (ascii "host") zstdHtml) := by
  have hperm : rewritable unchanging.encodings zstdHtml.status (received zstdHtml).headers =
      .ok ⟨(), .zstd⟩ := rfl
  have hrules : (hideAds.rules (ascii "host")).isSome := rfl
  obtain ⟨H, hbody, hlen, -⟩ := shape_of_rewritable hrules hperm
  have hends : ¬ (hideAds.shape unchanging (ascii "host") zstdHtml).2.EndsEmpty (none : Option Unit) := by
    rw [hbody, endsEmpty_iff]
    exact id
  exact ⟨hperm, hends, rfl, hlen, fun h => hends h.body⟩

end Boreas.Rewrite
