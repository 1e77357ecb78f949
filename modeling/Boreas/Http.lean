import Boreas.Wire
import Boreas.Words

/-! # HTTP requests

The part of the `http` crate's types that the interceptor reads: field names, field maps with repeated fields, and
request targets.  Strings are their bytes; `toStr` is the check for visible ASCII that `HeaderValue::to_str` makes.

`HeaderMap.drain` yields a name only with the first value of a field; appending what is drained, field by field,
gives the fields back (`foldl_append_values`). -/

namespace Boreas.Http

open List Prod Slices

def ascii (s : String) : Bytes := s.toList.map (fun c => UInt8.ofNat c.toNat)

def eqIgnoreAsciiCase (a b : Bytes) : Bool := a.map lower == b.map lower

def isBlank (b : UInt8) : Bool := b == 9 || b == 32

def trim (value : Bytes) : Bytes := Words.trim isBlank value

def isVisibleAscii (b : UInt8) : Bool := (32 ≤ b && b < 127) || b == 9

def toStr (value : Bytes) : Option Bytes := if value.all isVisibleAscii then some value else none

theorem toStr_eq_some (h : toStr value = some text) : text = value := by
  unfold toStr at h
  split_ifs at h
  exact (Option.some.inj h).symm

/-! ### Field names -/

def isToken (b : UInt8) : Bool :=
  (48 ≤ b && b ≤ 57) || (97 ≤ b && b ≤ 122) || (ascii "!#$%&'*+-.^_`|~").contains b

structure HeaderName where
  bytes : Bytes
  ne_nil : bytes ≠ []
  token : bytes.all isToken = true
deriving DecidableEq

namespace HeaderName

def maxLen : ℕ := 65535

def fromBytes (bytes : Bytes) : Option HeaderName :=
  if h : bytes ≠ [] ∧ bytes.length ≤ maxLen ∧ (bytes.map lower).all isToken = true then
    some ⟨bytes.map lower, by simpa using h.1, h.2.2⟩
  else none

def accept : HeaderName := ⟨ascii "accept", by decide, by decide⟩
def altSvc : HeaderName := ⟨ascii "alt-svc", by decide, by decide⟩
def connection : HeaderName := ⟨ascii "connection", by decide, by decide⟩
def contentEncoding : HeaderName := ⟨ascii "content-encoding", by decide, by decide⟩
def contentLength : HeaderName := ⟨ascii "content-length", by decide, by decide⟩
def contentSecurityPolicy : HeaderName := ⟨ascii "content-security-policy", by decide, by decide⟩
def contentType : HeaderName := ⟨ascii "content-type", by decide, by decide⟩
def host : HeaderName := ⟨ascii "host", by decide, by decide⟩
def referer : HeaderName := ⟨ascii "referer", by decide, by decide⟩
def secFetchDest : HeaderName := ⟨ascii "sec-fetch-dest", by decide, by decide⟩
def upgrade : HeaderName := ⟨ascii "upgrade", by decide, by decide⟩

end HeaderName

/-! ### Field maps -/

structure HeaderMap where
  fields : List (HeaderName × List Bytes)
  nodup : (fields.map fst).Nodup
  ne_nil : ∀ field ∈ fields, field.2 ≠ []

namespace HeaderMap

def empty : HeaderMap := ⟨[], nodup_nil, nofun⟩

variable (m : HeaderMap)

def keys : List HeaderName := m.fields.map fst

def getAll (name : HeaderName) : List Bytes :=
  ((m.fields.find? (fun field => field.1 = name)).map snd).getD []

def get (name : HeaderName) : Option Bytes := (m.getAll name).head?

def containsKey (name : HeaderName) : Bool := m.keys.contains name

def appendFields (name : HeaderName) (value : Bytes) : List (HeaderName × List Bytes) → List (HeaderName × List Bytes)
  | [] => [(name, [value])]
  | field :: rest =>
    if field.1 = name then (field.1, field.2 ++ [value]) :: rest else field :: appendFields name value rest

theorem appendFields_of_mem : ∀ {fields : List (HeaderName × List Bytes)}, name ∈ fields.map fst →
      (appendFields name value fields).map fst = fields.map fst
  | [], h => by cases h
  | field :: rest, h => by
    unfold appendFields
    by_cases heq : field.1 = name
    · rw [if_pos heq]
      rfl
    · rw [if_neg heq, map_cons, map_cons]
      rw [map_cons, mem_cons] at h
      rw [appendFields_of_mem (h.resolve_left (fun hname => heq hname.symm))]

theorem appendFields_of_notMem : ∀ {fields : List (HeaderName × List Bytes)}, name ∉ fields.map fst →
      appendFields name value fields = fields ++ [(name, [value])]
  | [], _ => rfl
  | field :: rest, h => by
    rw [map_cons, mem_cons, not_or] at h
    unfold appendFields
    rw [if_neg (fun heq => h.1 heq.symm), appendFields_of_notMem h.2, cons_append]

theorem appendFields_ne_nil : ∀ {fields : List (HeaderName × List Bytes)}, (∀ field ∈ fields, field.2 ≠ []) →
      ∀ field ∈ appendFields name value fields, field.2 ≠ []
  | [], _, field, hmem => by
    rw [appendFields, mem_singleton] at hmem
    simp [hmem]
  | first :: rest, h, field, hmem => by
    unfold appendFields at hmem
    split_ifs at hmem
    · rcases mem_cons.mp hmem with rfl | hmem
      · simp
      · exact h field (mem_cons_of_mem _ hmem)
    · rcases mem_cons.mp hmem with rfl | hmem
      · exact h _ mem_cons_self
      · exact appendFields_ne_nil (fun f hf => h f (mem_cons_of_mem _ hf)) field hmem

def append (m : HeaderMap) (name : HeaderName) (value : Bytes) : HeaderMap where
  fields := appendFields name value m.fields
  nodup := by
    by_cases h : name ∈ m.fields.map fst
    · rw [appendFields_of_mem h]
      exact m.nodup
    · rw [appendFields_of_notMem h, map_append]
      exact m.nodup.append (nodup_singleton name) (disjoint_singleton.mpr h)
  ne_nil := appendFields_ne_nil m.ne_nil

theorem eraseP_eq_filter (name : HeaderName) : ∀ {fields : List (HeaderName × List Bytes)}, (fields.map fst).Nodup →
    fields.eraseP (fun field => field.1 = name) = fields.filter fun field => field.1 ≠ name
  | [], _ => rfl
  | field :: rest, h => by
    rw [map_cons, nodup_cons] at h
    by_cases heq : field.1 = name
    · rw [eraseP_cons_of_pos (by simpa using heq), filter_cons_of_neg (by simpa using heq)]
      refine (filter_eq_self.mpr fun other hother => decide_eq_true ?_).symm
      rintro rfl
      exact h.1 (heq ▸ mem_map_of_mem hother)
    · rw [eraseP_cons_of_neg (by simpa using heq), filter_cons_of_pos (by simpa using heq), eraseP_eq_filter name h.2]

theorem perm_filter (name : HeaderName) :
    (swapRemove (fun field => field.1 = name) m.fields).Perm (m.fields.filter fun field => field.1 ≠ name) := by
  rw [← eraseP_eq_filter name m.nodup]
  exact swapRemove_perm _ m.fields

def remove (name : HeaderName) : HeaderMap where
  fields := swapRemove (fun field => field.1 = name) m.fields
  nodup := ((m.perm_filter name).map fst).nodup_iff.mpr
    (m.nodup.sublist (filter_sublist.map fst))
  ne_nil := fun field hfield =>
    m.ne_nil field (mem_of_mem_filter ((m.perm_filter name).mem_iff.mp hfield))

/-! What is read of a map depends on which fields are in it, not on their order. -/

variable {name : HeaderName}

theorem mem_fields_iff {m : HeaderMap} : (name, values) ∈ m.fields ↔ values ≠ [] ∧ m.getAll name = values := by
  unfold getAll
  constructor
  · intro hmem
    refine ⟨m.ne_nil _ hmem, ?_⟩
    cases hfind : m.fields.find? (fun field => field.1 = name) with
    | none =>
      have hnot := find?_eq_none.mp hfind _ hmem
      simp at hnot
    | some field =>
      have hname : field.1 = name := by simpa using find?_some hfind
      have hfield := inj_on_of_nodup_map m.nodup (mem_of_find?_eq_some hfind) hmem hname
      rw [hfield]
      rfl
  · rintro ⟨hne, hget⟩
    cases hfind : m.fields.find? (fun field => field.1 = name) with
    | none =>
      rw [hfind] at hget
      exact absurd hget.symm hne
    | some field =>
      rw [hfind] at hget
      have hname : field.1 = name := by simpa using find?_some hfind
      rw [← hname, ← hget]
      exact mem_of_find?_eq_some hfind

theorem getAll_eq_nil {m : HeaderMap} (h : ∀ vs, (name, vs) ∉ m.fields) : m.getAll name = [] := by
  by_contra hne
  exact h _ (mem_fields_iff.mpr ⟨hne, rfl⟩)

theorem getAll_congr {a b : HeaderMap}
    (h : ∀ vs, (name, vs) ∈ a.fields ↔ (name, vs) ∈ b.fields) : a.getAll name = b.getAll name := by
  by_cases ha : a.getAll name = []
  · rw [ha]
    refine (getAll_eq_nil fun vs hmem => ?_).symm
    obtain ⟨hne, hget⟩ := mem_fields_iff.mp ((h vs).mpr hmem)
    exact hne (hget.symm.trans ha)
  · exact (mem_fields_iff.mp ((h _).mp (mem_fields_iff.mpr ⟨ha, rfl⟩))).2.symm

theorem getAll_of_filter {m kept : HeaderMap} (keep : HeaderName → Bool)
    (hkept : kept.fields = m.fields.filter (fun field => keep field.1)) :
    kept.getAll name = if keep name then m.getAll name else [] := by
  cases hkeep : keep name with
  | true =>
    exact getAll_congr fun vs => by simp [hkept, hkeep]
  | false =>
    exact getAll_eq_nil fun vs => by simp [hkept, hkeep]

theorem mem_fields_remove {m : HeaderMap} : field ∈ (m.remove name).fields ↔ field ∈ m.fields ∧ field.1 ≠ name := by
  unfold remove
  rw [(m.perm_filter name).mem_iff, mem_filter, decide_eq_true_iff]

variable (m : HeaderMap)

theorem getAll_remove (name : HeaderName) : (m.remove name).getAll name = [] :=
  getAll_eq_nil fun _ hmem => (mem_fields_remove.mp hmem).2 rfl

theorem getAll_remove_of_ne (h : other ≠ name) : (m.remove name).getAll other = m.getAll other :=
  getAll_congr fun vs => by simp [mem_fields_remove, h]

theorem mem_appendFields_of_ne (h : field.1 ≠ name) : ∀ {fields : List (HeaderName × List Bytes)},
      field ∈ appendFields name value fields ↔ field ∈ fields
  | [] => by
    refine iff_of_false ?_ not_mem_nil
    rw [appendFields, mem_singleton]
    rintro rfl
    exact h rfl
  | first :: rest => by
    unfold appendFields
    by_cases hname : first.1 = name
    · have hfirst : field ≠ first := fun heq => h (heq ▸ hname)
      have hlon : field ≠ (first.1, first.2 ++ [value]) := fun heq => h (heq ▸ hname)
      rw [if_pos hname, mem_cons, mem_cons, or_iff_right hlon, or_iff_right hfirst]
    · rw [if_neg hname, mem_cons, mem_cons, mem_appendFields_of_ne h]

theorem getAll_append_of_ne (value : Bytes) (h : other ≠ name) :
    (m.append name value).getAll other = m.getAll other :=
  getAll_congr fun _ => mem_appendFields_of_ne h

theorem find?_appendFields (name : HeaderName) (value : Bytes) : ∀ fields : List (HeaderName × List Bytes),
    (((appendFields name value fields).find? (fun field => field.1 = name)).map snd).getD [] =
      ((fields.find? (fun field => field.1 = name)).map snd).getD [] ++ [value]
  | [] => by simp [appendFields]
  | field :: rest => by
    unfold appendFields
    by_cases h : field.1 = name
    · simp [h]
    · simp [h, find?_appendFields name value rest]

theorem getAll_append (name : HeaderName) (value : Bytes) :
    (m.append name value).getAll name = m.getAll name ++ [value] := find?_appendFields name value m.fields

def drainField : HeaderName × List Bytes → List (Option HeaderName × Bytes)
  | (_, []) => []
  | (name, value :: values) => (some name, value) :: values.map (fun value => (none, value))

def drain (m : HeaderMap) : List (Option HeaderName × Bytes) := m.fields.flatMap drainField

theorem foldl_append_values (name : HeaderName) : ∀ (vs : List Bytes) (m : HeaderMap)
    {fields : List (HeaderName × List Bytes)} {first : List Bytes}, m.fields = fields ++ [(name, first)] →
      (vs.foldl (fun m value => m.append name value) m).fields = fields ++ [(name, first ++ vs)]
  | [], m, fields, first, h => by simpa using h
  | value :: vs, m, fields, first, h => by
    rw [foldl_cons]
    have hnot : name ∉ fields.map fst := by
      have hnodup := m.nodup
      rw [h, map_append, nodup_append] at hnodup
      exact fun hmem => hnodup.2.2 name hmem name (by simp) rfl
    have hone : ∀ {fs : List (HeaderName × List Bytes)}, name ∉ fs.map fst →
        appendFields name value (fs ++ [(name, first)]) = fs ++ [(name, first ++ [value])] := by
      intro fs
      induction fs with
      | nil => intro _; simp [appendFields]
      | cons f fs ih =>
        intro hfs
        rw [map_cons, mem_cons, not_or] at hfs
        rw [cons_append, appendFields, if_neg (fun heq => hfs.1 heq.symm), ih hfs.2, cons_append]
    have hstep : (m.append name value).fields = fields ++ [(name, first ++ [value])] := by
      unfold append
      dsimp only
      rw [h, hone hnot]
    rw [foldl_append_values name vs _ hstep, append_assoc, singleton_append]

end HeaderMap

/-! ### Targets and requests -/

structure Uri where
  scheme : Option Bytes
  authority : Option Bytes
  target : Bytes
deriving DecidableEq, Repr

namespace Uri

def colon : UInt8 := 58
def openBracket : UInt8 := 91
def closeBracket : UInt8 := 93

def afterLast (b : UInt8) (value : Bytes) : Bytes := value.rtakeWhile (· != b)

def authorityHost (authority : Bytes) : Bytes :=
  let hostPort := afterLast 64 authority
  if hostPort.head? = some openBracket then hostPort.takeWhile (· != closeBracket) ++ [closeBracket]
  else hostPort.takeWhile (· != colon)

def host (u : Uri) : Option Bytes := u.authority.map authorityHost

def pathAndQuery (u : Uri) : Option Bytes :=
  if u.scheme.isSome || u.authority.isNone then some (if u.target = [] then ascii "/" else u.target) else none

def toText (u : Uri) : Bytes :=
  let path := if u.target = [] || u.target.head? = some 63 then ascii "/" ++ u.target else u.target
  (u.scheme.map (· ++ ascii "://")).getD [] ++ u.authority.getD [] ++ path

end Uri

structure Request where
  method : Bytes
  uri : Uri
  headers : HeaderMap

end Boreas.Http
