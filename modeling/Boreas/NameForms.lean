import Boreas.DnsWritten
import Boreas.HostPolicy

/-! # Names in messages

* `read_bounded`: the decoder of names ends on every message, and what it gives is a normal name with its length in
  place.
* `names_round_trip`: a name that is written is read back, and a name takes as many bytes as its wire form exactly
  when no pointer is followed, which is what `Message.parse` asks of a question. -/

namespace Boreas.Dns

open Slices List

variable {message : Bytes} {at_ stop n : ℕ} {name out : Name} {consumed : Option ℕ}

theorem Reads.stop_le (h : Reads message name at_ consumed out stop) (hcons : ∀ c ∈ consumed, c ≤ message.length) :
    stop ≤ message.length := by
  induction h with
  | @stop name pos consumed h =>
    have := (List.getElem?_eq_some_iff.mp h).1
    cases consumed with
    | none => exact this
    | some c => exact hcons c rfl
  | label h h0 h64 hfits hdot hlen next ih => exact ih hcons
  | @pointer name out pos stop consumed high low h h192 hlow hback next ih =>
    have := (List.getElem?_eq_some_iff.mp hlow).1
    refine ih fun c hc => ?_
    cases hc
    cases consumed with
    | none => exact this
    | some c => exact hcons c rfl

/-- What stands at a name's own place: labels, and then the root or a pointer. -/
def Occupies (message : Bytes) (at_ n : ℕ) : Prop :=
  ∃ labels : List Bytes, (∀ l ∈ labels, LabelOk l) ∧ Stands message at_ (wireLabels labels) ∧
    (message[at_ + (wireLabels labels).length]? = some 0 ∧ n = (wireLabels labels).length + 1 ∨
      ∃ high, message[at_ + (wireLabels labels).length]? = some high ∧ 192 ≤ high.toNat ∧
        n = (wireLabels labels).length + 2)

theorem occupies_of_read (h : Name.read message at_ = .ok (name, n)) : Occupies message at_ n := by
  obtain ⟨stop, hreads, rfl⟩ := reads_of_read_eq h
  obtain ⟨ls, mid, hok, hst, -, hends⟩ := hreads.inline
  refine ⟨ls, hok, hst, ?_⟩
  rcases hends with ⟨hzero, -, hstop⟩ | ⟨high, low, hhigh, h192, -, -, hnext⟩
  · simp only [Option.getD_none] at hstop
    exact .inl ⟨hzero, by omega⟩
  · have hstop := hnext.stop_eq _ rfl
    simp only [Option.getD_none] at hstop
    exact .inr ⟨high, hhigh, h192, by omega⟩

/-- **The decoder of names ends on every message**, after a number of rounds that only the message bounds, and what it
reads is a normal name, with the length that it has in its place. -/
theorem read_bounded (message : Bytes) (at_ : ℕ) : (readLoop message (readFuel message) Name.root at_ none).isSome ∧
      ∀ name n, Name.read message at_ = .ok (name, n) →
        (∀ l ∈ name.labels, 1 ≤ l.length ∧ l.length ≤ 63 ∧ dot ∉ l) ∧ name.bytes = joinLabels name.labels ∧
          name.bytes.length ≤ 253 ∧ name.bytes.map lower = name.bytes ∧ Occupies message at_ n ∧
          at_ + n ≤ message.length := by
  refine ⟨readLoop_readFuel message at_, fun name n h => ?_⟩
  obtain ⟨hok, hlower, hjoin⟩ := name.labels_spec
  obtain ⟨stop, hreads, hn⟩ := reads_of_read_eq h
  have hoccupies := occupies_of_read h
  have hstop := hreads.stop_le nofun
  have hlt := hreads.cursor_lt
  refine ⟨fun l hl => ?_, hjoin, name.short, ?_, hoccupies, by omega⟩
  · exact ⟨length_pos_iff.mpr (hok l hl).ne_nil, (hok l hl).short, (hok l hl).no_dot⟩
  · rw [hjoin, map_lower_joinLabels, hlower]

/-! ### Round trips -/

theorem writeAll_room {b : Bounded} {vs : List Bytes} (hfits : b.at_ + vs.flatten.length ≤ b.out.length)
    (hfine : b.overflowed = false) : ∃ out, (b.writeAll vs).finish = some (out, b.at_ + vs.flatten.length) := by
  induction vs generalizing b with
  | nil => exact ⟨b.out, by simp [Bounded.writeAll, Bounded.finish, hfine]⟩
  | cons v vs ih =>
    rw [flatten_cons, length_append] at hfits
    have hbytes : b.bytes v = { b with out := overwrite b.out b.at_ v, at_ := b.at_ + v.length } := by
      rw [Bounded.bytes, if_pos ⟨by omega, hfine⟩]
    obtain ⟨out, hout⟩ := @ih (b.bytes v) (by rw [hbytes]; dsimp only; rw [length_overwrite (by omega)]; omega)
      (by rw [hbytes]; exact hfine)
    refine ⟨out, hout.trans ?_⟩
    rw [hbytes, flatten_cons, length_append, Nat.add_assoc]

theorem Name.length_wire (name : Name) : name.wire.length = name.wireLen := by
  have h := wireLenOf_foldl_pushed name.labels [] name.labels_spec.1
  rw [← name.foldl_labels] at h
  simp only [Name.wire, length_append, length_singleton]
  exact (Nat.add_comm _ _).trans h.symm

theorem Name.read_write (name : Name) (h : at_ + name.wireLen ≤ buf.length) :
    ∃ written, name.write buf at_ = .ok (written, at_ + name.wireLen) ∧
      Name.read written at_ = .ok (name, name.wireLen) := by
  obtain ⟨vs, hflat, hwrite⟩ := name.write_values
  have hlen := name.length_wire
  obtain ⟨written, hfin⟩ := @writeAll_room ⟨buf, at_, false⟩ vs (by rw [hflat]; dsimp only; omega) rfl
  rw [hflat, hlen] at hfin
  have hwr : name.write buf at_ = .ok (written, at_ + name.wireLen) := by
    simp only [Name.write, writeAt, Bounded.start, hwrite]
    rw [if_pos (by omega)]
    simp only [okOr, bind, Except.bind, hfin]
  have hstop := Name.write_writes hwr
  refine ⟨written, hwr, ?_⟩
  rw [← hlen]
  refine read_wire fun j hj => ?_
  have htake := hstop.take_eq
  have hat : (buf.take at_).length = at_ := length_take_of_le (by omega)
  have hget := congrArg (fun bytes => bytes[at_ + j]?) htake
  simp only [getElem?_append_right (show (buf.take at_).length ≤ at_ + j by omega), hat] at hget
  rw [getElem?_take_of_lt (by omega)] at hget
  simpa using hget

/-- The name at a place is given by labels up to the root: no pointer is followed. -/
def Uncompressed (message : Bytes) (at_ : ℕ) : Prop :=
  ∃ labels : List Bytes, (∀ l ∈ labels, LabelOk l) ∧ Stands message at_ (wireLabels labels ++ [0])

/-- Where labels stand that lead to the root, no other labels lead to a pointer. -/
theorem lt_of_stands (hok : ∀ l ∈ labels, LabelOk l) (hok' : ∀ l ∈ labels', LabelOk l)
    (h : Stands message at_ (wireLabels labels ++ [0])) (h' : Stands message at_ (wireLabels labels'))
    (hb : message[at_ + (wireLabels labels').length]? = some b) : b.toNat < 64 := by
  induction labels' generalizing labels at_ with
  | nil =>
    rcases labels with _ | ⟨l, ls⟩
    · have hzero := ((stands_cons).mp h).1
      rw [wireLabels_nil, length_nil, Nat.add_zero, hzero] at hb
      cases hb
      decide
    have hbyte := (stands_wireLabels_cons_append.mp h).1
    rw [wireLabels_nil, length_nil, Nat.add_zero, hbyte] at hb
    cases hb
    exact (lengthByte_spec (hok l mem_cons_self)).2.1
  | cons l' ls' ih =>
    obtain ⟨hbyte', -, hrest'⟩ := stands_wireLabels_cons.mp h'
    have hl' := hok' l' mem_cons_self
    rcases labels with _ | ⟨l, ls⟩
    · rw [((stands_cons).mp h).1] at hbyte'
      exact absurd (Option.some.inj hbyte').symm (lengthByte_spec hl').1
    obtain ⟨hbyte, -, hrest⟩ := stands_wireLabels_cons_append.mp h
    -- the length bytes agree, so both go on at the same place
    have hlen : l.length = l'.length := by
      rw [hbyte] at hbyte'
      rw [← (lengthByte_spec (hok l mem_cons_self)).2.2, ← (lengthByte_spec hl').2.2, Option.some.inj hbyte']
    rw [hlen] at hrest
    refine ih (fun m hm => hok m (mem_cons_of_mem l hm)) (fun m hm => hok' m (mem_cons_of_mem l' hm))
      hrest hrest' ?_
    rwa [length_wireLabels_cons, ← Nat.add_assoc, ← Nat.add_assoc] at hb

theorem wireLen_iff (h : Name.read message at_ = .ok (name, n)) : n = name.wireLen ↔ Uncompressed message at_ := by
  constructor
  · rintro rfl
    obtain ⟨ls, hok, -, hst, -⟩ := stands_of_read_wireLen h
    exact ⟨ls, hok, hst⟩
  · rintro ⟨ls, hok, hst⟩
    obtain ⟨stop, hreads, rfl⟩ := reads_of_read_eq h
    obtain ⟨ls', mid, hok', hst', hmid, ⟨-, rfl, hstop⟩ | ⟨high, low, hhigh, h192, -⟩⟩ := hreads.inline
    · have hlen := wireLenOf_foldl_pushed ls' [] hok'
      rw [show [] = Name.root.bytes from rfl, ← hmid] at hlen
      have hwire : Name.wireLen _ = 1 + (wireLabels ls').length := hlen
      simp only [Option.getD_none] at hstop
      omega
    · have := lt_of_stands hok hok' hst hst' hhigh
      omega

theorem parse_uncompressed (h : Message.parse bytes = .ok m) : Uncompressed bytes headerBytes := by
  unfold Message.parse at h
  simp only [bind_eq_ok, ensure_eq_ok] at h
  obtain ⟨-, -, -, -, -, -, -, -, -, -, -, -, -, -, -, -, -, -, ⟨name, n⟩, hread, -, hlen, -⟩ := h
  exact (wireLen_iff hread).mp hlen

theorem parse_ne_compressed (hread : Name.read bytes headerBytes = .ok (name, n))
    (h : Uncompressed bytes headerBytes) : Message.parse bytes ≠ .error .compressedQuestion := by
  have hbind : ∀ {α β : Type} {x : Except DnsError α} {f : α → Except DnsError β} {e : DnsError},
      (x >>= f) = .error e ↔ x = .error e ∨ ∃ a, x = .ok a ∧ f a = .error e := by
    intro α β x f e
    cases x <;> simp [bind, Except.bind]
  have hokOr : ∀ {α : Type} {o : Option α} {e e' : DnsError}, okOr o e = .error e' ↔ o = none ∧ e = e' := by
    intro α o e e'
    cases o <;> simp [okOr]
  have hensure : ∀ {p : Prop} [Decidable p] {e e' : DnsError}, ensure p e = .error e' ↔ ¬ p ∧ e = e' := by
    intro p _ e e'
    by_cases hp : p <;> simp [ensure, hp]
  unfold Message.parse
  simp [hbind, hokOr, hensure, hread, (wireLen_iff hread).mpr h, pure, Except.pure]

/-- **Names round-trip, and compression is detected.** -/
theorem names_round_trip : (∀ (name : Name) (buf : Bytes) (at_ : ℕ), at_ + name.wireLen ≤ buf.length →
      ∃ written, name.write buf at_ = .ok (written, at_ + name.wireLen) ∧
        Name.read written at_ = .ok (name, name.wireLen)) ∧
    (∀ (message : Bytes) (at_ : ℕ) (name : Name) (n : ℕ), Name.read message at_ = .ok (name, n) →
      (n = name.wireLen ↔ Uncompressed message at_)) ∧
    (∀ (bytes : Bytes) (m : Message), Message.parse bytes = .ok m → Uncompressed bytes headerBytes) ∧
    ∀ (bytes : Bytes) (name : Name) (n : ℕ), Name.read bytes headerBytes = .ok (name, n) →
      Uncompressed bytes headerBytes → Message.parse bytes ≠ .error .compressedQuestion :=
  ⟨fun name _ _ h => name.read_write h, fun _ _ _ _ h => wireLen_iff h, fun _ _ h => parse_uncompressed h,
    fun _ _ _ hread h => parse_ne_compressed hread h⟩

end Boreas.Dns
