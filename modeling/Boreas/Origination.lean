import Boreas.Relay

/-! # Origination

egress/origin.rs: the port leases of re-originated connections after any takes and drops, and the order in which the
addresses of a host are tried (`leases_and_order`). -/

namespace Boreas.Origination

open L3 List Runs

/-! ### Ports -/

/-- The free list, top first, and the ports on leases. -/
structure Ports where
  free : List ℕ
  leased : List ℕ

def Ports.new (start stop : ℕ) : Ports := ⟨range' start (stop - start), []⟩

def Ports.take (p : Ports) : Ports × Option ℕ :=
  match p.free with
  | [] => (p, none)
  | port :: free => (⟨free, port :: p.leased⟩, some port)

inductive Op
  | take
  | drop (port : ℕ)

/-- Only a lease can be dropped, and each once. -/
def Ports.step (p : Ports) : Op → Ports
  | .take => p.take.1
  | .drop port => if port ∈ p.leased then ⟨port :: p.free, p.leased.erase port⟩ else p

theorem perm_step {p : Ports} (h : p.leased ++ p.free ~ ports) (op : Op) :
    (p.step op).leased ++ (p.step op).free ~ ports := by
  cases op with
  | take =>
    unfold Ports.step Ports.take
    rcases hfree : p.free with _ | ⟨port, free⟩
    · rwa [hfree] at h ⊢
    rw [hfree] at h
    exact perm_middle.symm.trans h
  | drop port =>
    dsimp only [Ports.step]
    split_ifs with hleased
    · exact perm_middle.trans (((perm_cons_erase hleased).append_right p.free).symm.trans h)
    · exact h

/-! ### Addresses -/

/-- What the rounds over both families give; when one is used up they go on with the other. -/
def alternate {α : Type*} : List α → List α → List α
  | [], v4 => v4
  | v6, [] => v6
  | six :: v6, four :: v4 => six :: four :: alternate v6 v4

def isIpv6 (address : SocketAddr) : Bool :=
  match address.ip with
  | .v6 _ => true
  | .v4 _ => false

def interleaved (addresses : List SocketAddr) : List SocketAddr :=
  alternate (addresses.filter isIpv6) (addresses.filter fun address => !isIpv6 address)

variable {p : α → Bool} {xs ys : List α}

theorem filter_alternate (hxs : ∀ x ∈ xs, p x = true) (hys : ∀ y ∈ ys, p y = false) :
    (alternate xs ys).filter p = xs ∧ (alternate xs ys).filter (fun a => !p a) = ys := by
  induction xs, ys using alternate.induct with
  | case1 ys => simpa [alternate] using hys
  | case2 xs hne => simpa [alternate] using hxs
  | case3 x xs y ys ih =>
    rw [forall_mem_cons] at hxs hys
    simpa [alternate, hxs.1, hys.1] using ih hxs.2 hys.2

theorem alternate_turns (hxs : ∀ x ∈ xs, p x = true) (hys : ∀ y ∈ ys, p y = false) :
    ∀ i < 2 * min xs.length ys.length, (alternate xs ys)[i]?.map p = some (i % 2 == 0) := by
  induction xs, ys using alternate.induct with
  | case1 ys => simp
  | case2 xs hne => simp
  | case3 x xs y ys ih =>
    rw [forall_mem_cons] at hxs hys
    intro i hi
    match i with
    | 0 => simp [alternate, hxs.1]
    | 1 => simp [alternate, hys.1]
    | i + 2 =>
      rw [length_cons, length_cons] at hi
      have := ih hxs.2 hys.2 i (by omega)
      rw [alternate, getElem?_cons_succ, getElem?_cons_succ, this, Nat.add_mod_right]

/-- The order in which the addresses are tried. -/
structure Alternates (addresses out : List SocketAddr) : Prop where
  perm : out ~ addresses
  first : (∃ a ∈ addresses, isIpv6 a = true) → out.head?.map isIpv6 = some true
  turns : ∀ i < 2 * min (addresses.countP isIpv6) (addresses.countP fun a => !isIpv6 a),
    out[i]?.map isIpv6 = some (i % 2 == 0)
  ipv6 : out.filter isIpv6 = addresses.filter isIpv6
  ipv4 : out.filter (fun a => !isIpv6 a) = addresses.filter fun a => !isIpv6 a

/-- **Ports are leased exclusively**: a port that is handed out was free and on no lease, and is on one afterwards; none
is handed out only when all are leased. **Addresses alternate**, each family in its order, from an IPv6 address on. -/
theorem leases_and_order (start stop : ℕ) (ops : List Op) (addresses : List SocketAddr) :
    (let p := run Ports.step (.new start stop) ops
     p.leased ++ p.free ~ range' start (stop - start) ∧ (p.leased ++ p.free).Nodup ∧
      (∀ port ∈ p.leased, start ≤ port ∧ port < stop) ∧
      (p.take.2 = none → p.leased ~ range' start (stop - start)) ∧
      ∀ port, p.take.2 = some port → (port ∈ p.free ∧ port ∉ p.leased) ∧ port ∈ p.take.1.leased ∧
        port ∉ p.take.1.free) ∧
      Alternates addresses (interleaved addresses) := by
  constructor
  · have hperm := run_kept (I := fun p : Ports => p.leased ++ p.free ~ range' start (stop - start))
      (fun _ op h => perm_step h op) ops (.new start stop) (Perm.refl _)
    generalize run Ports.step (.new start stop) ops = p at hperm ⊢
    have hnodup := hperm.nodup_iff.mpr nodup_range'
    refine ⟨hperm, hnodup, fun port hport => ?_, fun hnone => ?_, fun port htake => ?_⟩
    · have := mem_range'_1.mp (hperm.subset (mem_append_left _ hport))
      omega
    · unfold Ports.take at hnone
      cases hfree : p.free with
      | nil => rwa [hfree, append_nil] at hperm
      | cons port free => simp [hfree] at hnone
    · unfold Ports.take at htake ⊢
      cases hfree : p.free with
      | nil => simp [hfree] at htake
      | cons first free =>
        obtain rfl : first = port := by simpa [hfree] using htake
        have hmem : first ∈ p.free := hfree ▸ mem_cons_self
        obtain ⟨-, hfirst, happart⟩ := nodup_append'.mp hnodup
        rw [hfree, nodup_cons] at hfirst
        exact ⟨⟨mem_cons_self, fun hleased => happart hleased hmem⟩, mem_cons_self, hfirst.1⟩
  · have hsix : ∀ a ∈ addresses.filter isIpv6, isIpv6 a = true := fun a ha => (mem_filter.mp ha).2
    have hfour : ∀ a ∈ addresses.filter (fun a => !isIpv6 a), isIpv6 a = false := by simp
    obtain ⟨hv6, hv4⟩ := filter_alternate hsix hfour
    have hperm : interleaved addresses ~ addresses := by
      have := filter_append_perm isIpv6 (interleaved addresses)
      rw [interleaved, hv6, hv4] at this
      exact this.symm.trans (filter_append_perm isIpv6 addresses)
    refine ⟨hperm, fun ⟨a, ha, hipv6⟩ => ?_, ?_, hv6, hv4⟩
    · obtain ⟨first, v6, hcons⟩ := exists_cons_of_ne_nil (ne_nil_of_mem (mem_filter.mpr ⟨ha, hipv6⟩))
      have hfirst := hsix first (by simp [hcons])
      rw [interleaved, hcons]
      cases addresses.filter fun a => !isIpv6 a <;> simp [alternate, hfirst]
    · rw [countP_eq_length_filter, countP_eq_length_filter]
      exact alternate_turns hsix hfour

end Boreas.Origination
