import NetworkLabs.Dns.Iteration
import NetworkLabs.Dns.Push

/-! The address that the proxy takes from the answer of the resolver. -/
namespace NetworkLabs.Proxy

open Dns BigEndian

variable {P : Packet} {rr : Record}

/-- `parseDNS`. It does not look at what `dns_rr_grep` and `dns_a_parse` return: without an A
record, or with one whose data is no address, the result is what its memory held before. -/
def parseDNS (P : Packet) (stale : List UInt8) : List UInt8 :=
  match Iter.addresses.grep 0 P 1 none with
  | some (rr :: _, _) =>
    match Any.parse 0 0 P.data rr with
    | some (.ok (.a addr)) => encode 4 addr.toNat
    | _ => stale
  | _ => stale

/-- The data of the A records of an answer. -/
def aRecords (P : Packet) : List (List UInt8) :=
  (Iter.addresses.wanted 0 P).map fun rr => (P.data.drop rr.rd).take rr.rdLen

theorem grep_addresses (hsound : P.Sound) (hshort : P.data.length < 65536) :
    ∃ rp, Iter.addresses.grep 0 P 1 none = some ((Iter.addresses.wanted 0 P).take 1, rp) := by
  have hreadable : Iter.addresses.Readable 0 P := ⟨hshort, .inl rfl⟩
  obtain ⟨rs, hcalls, hflatten⟩ := Iter.calls_in_order hsound hreadable rfl [1]
  rw [Iter.calls] at hcalls
  obtain ⟨⟨found, rp⟩, hgrep, hcalls⟩ := Option.bind_eq_some_iff.mp hcalls
  cases hcalls
  refine ⟨rp, ?_⟩
  rw [hgrep]
  simpa using hflatten

theorem type_of_wanted (h : rr ∈ Iter.addresses.wanted 0 P) : rr.type = typeA := by
  obtain ⟨-, -, -, hwants⟩ := Iter.found_cases (Iter.mem_wanted h).2
  by_contra htype
  unfold Iter.wants at hwants
  split at hwants
  · cases hwants
  · rw [if_pos ⟨by decide, htype, by decide⟩] at hwants
    cases hwants

/-- A record that has data has it within the packet. -/
theorem rd_le_of_parse {p : Nat} {r : Record} (h : Record.parse P.data p = .ok r)
    (hlen : 0 < r.rdLen) : r.rd + r.rdLen ≤ P.data.length := by
  unfold Record.parse at h
  dsimp only at h
  split at h
  · cases h
  split at h
  · cases h
    cases hlen
  split at h
  · cases h
  split at h
  · cases h
  · cases h
    dsimp only
    omega

theorem parse_address (h : rr ∈ Iter.addresses.wanted 0 P) (hlen : rr.rdLen = 4) :
    ∃ addr, Any.parse 0 0 P.data rr = some (.ok (.a addr)) ∧
      encode 4 addr.toNat = (P.data.drop rr.rd).take rr.rdLen := by
  obtain ⟨-, -, r, hr, hrr⟩ := Iter.found_spec (Iter.mem_wanted h).2
  have hle : rr.rd + rr.rdLen ≤ P.data.length := by
    have hrd : r.rd = rr.rd ∧ r.rdLen = rr.rdLen := by
      rw [hrr]
      exact ⟨rfl, rfl⟩
    rw [← hrd.1, ← hrd.2]
    exact rd_le_of_parse hr (by omega)
  have htake : ((P.data.drop rr.rd).take 4).length = 4 := by
    rw [List.length_take, List.length_drop]
    omega
  have hlt : number P.data 4 rr.rd < 2 ^ 32 := by
    have hdecode := decode_lt ((P.data.drop rr.rd).take 4)
    rw [htake] at hdecode
    exact hdecode
  refine ⟨.ofNat (number P.data 4 rr.rd), ?_, ?_⟩
  · rw [Any.parse, if_pos (type_of_wanted h), if_neg (not_not_intro hlen)]
  · have hencode := encode_decode ((P.data.drop rr.rd).take 4)
    rw [htake] at hencode
    rw [UInt32.toNat_ofNat_of_lt' hlt, hlen]
    exact hencode

/-- If the answer has A records, and all of them are addresses, one of these is returned. -/
theorem parseDNS_mem (hsound : P.Sound) (hshort : P.data.length < 65536)
    (hfour : ∀ rr ∈ Iter.addresses.wanted 0 P, rr.rdLen = 4) (hrecords : aRecords P ≠ [])
    (stale : List UInt8) : parseDNS P stale ∈ aRecords P := by
  obtain ⟨rp, hgrep⟩ := grep_addresses hsound hshort
  unfold aRecords at hrecords ⊢
  cases hwanted : Iter.addresses.wanted 0 P with
  | nil =>
    rw [hwanted] at hrecords
    exact absurd rfl hrecords
  | cons rr rrs =>
    have hmem : rr ∈ Iter.addresses.wanted 0 P := hwanted ▸ List.mem_cons_self
    obtain ⟨addr, hparse, hencode⟩ := parse_address hmem (hfour rr hmem)
    rw [hwanted, List.take_succ_cons] at hgrep
    unfold parseDNS
    rw [hgrep]
    dsimp only
    rw [hparse]
    dsimp only
    rw [hencode]
    exact List.mem_cons_self

end NetworkLabs.Proxy
