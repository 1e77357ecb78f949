import Boreas.Http

/-! # Steering of `Alt-Svc`

The model of `steer_alt_svc` and `steer_response` (intercept/exchange.rs): alternatives that name HTTP/3 are taken out
of a response.  An alternative ends at a comma outside a quoted string; its protocol id is compared after its percent
escapes are decoded. -/

namespace Boreas.Intercept

open Http

def headerValue (value : Bytes) : Option Bytes :=
  if value.all (fun b => (32 ≤ b && b != 127) || b == 9) then some value else none

def trimMatches (b : UInt8) (value : Bytes) : Bytes := Words.trim (· == b) value

def splitUnquoted : Bool → Bool → Bytes → List Bytes
  | _, _, [] => [[]]
  | quoted, true, b :: rest => (splitUnquoted quoted false rest).modifyHead (b :: ·)
  | quoted, false, b :: rest =>
    if b = 92 ∧ quoted then (splitUnquoted quoted true rest).modifyHead (b :: ·)
    else if b = 34 then (splitUnquoted (!quoted) false rest).modifyHead (b :: ·)
    else if b = 44 ∧ ¬ quoted then [] :: splitUnquoted quoted false rest
    else (splitUnquoted quoted false rest).modifyHead (b :: ·)

def altValues (value : Bytes) : List Bytes := ((splitUnquoted false false value).map trim).filter (· ≠ [])

def hexDigit (b : UInt8) : Option UInt8 :=
  if 48 ≤ b ∧ b ≤ 57 then some (b - 48)
  else if 97 ≤ b ∧ b ≤ 102 then some (b - 87)
  else if 65 ≤ b ∧ b ≤ 70 then some (b - 55)
  else none

/-- `u8::from_str_radix` on two characters, of which the first may be a plus sign. -/
def hexByte (first second : UInt8) : Option UInt8 :=
  match hexDigit first, hexDigit second with
  | some high, some low => some (16 * high + low)
  | none, some low => if first = 43 then some low else none
  | _, none => none

/-- Malformed escapes are kept as they are. -/
def percentDecode : Bytes → Bytes
  | [] => []
  | [a] => [a]
  | [a, b] => [a, b]
  | a :: b :: c :: rest =>
    match if a = 37 then hexByte b c else none with
    | some byte => byte :: percentDecode rest
    | none => a :: percentDecode (b :: c :: rest)

def advertisesH3 (alternative : Bytes) : Bool :=
  let id := trimMatches 34 (trim (alternative.takeWhile (· != 61)))
  let decoded := percentDecode id
  eqIgnoreAsciiCase decoded (ascii "h3") || (ascii "h3-").isPrefixOf (decoded.map lower)

inductive AltSvc
  | untouched
  | narrowed (kept : Bytes)
  | cleared
deriving DecidableEq, Repr

def alternatives (values : List Bytes) : List Bytes :=
  values.flatMap fun value => if eqIgnoreAsciiCase (trim value) (ascii "clear") then [] else altValues value

def steerAltSvc (values : List Bytes) : AltSvc :=
  let removed := (alternatives values).any advertisesH3
  let kept := (alternatives values).filter (!advertisesH3 ·)
  if !removed then .untouched
  else if kept = [] then .cleared
  else .narrowed (List.intercalate (ascii ", ") kept)

def steerResponse (headers : HeaderMap) : HeaderMap :=
  match steerAltSvc ((headers.getAll .altSvc).filterMap toStr) with
  | .untouched => headers
  | .cleared => (headers.remove .altSvc).append .altSvc (ascii "clear")
  | .narrowed kept => (headers.remove .altSvc).append .altSvc ((headerValue kept).getD (ascii "clear"))

theorem getAll_steerResponse_of_ne (headers : HeaderMap) (h : name ≠ .altSvc) :
    (steerResponse headers).getAll name = headers.getAll name := by
  unfold steerResponse
  split
  · rfl
  · rw [HeaderMap.getAll_append_of_ne _ _ h, HeaderMap.getAll_remove_of_ne _ h]
  · rw [HeaderMap.getAll_append_of_ne _ _ h, HeaderMap.getAll_remove_of_ne _ h]

end Boreas.Intercept
