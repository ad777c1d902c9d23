import Mathlib.Data.Finset.Prod
import NetworkLabs.Dns.Exchange
import NetworkLabs.Orbit

/-! The one thing that can keep `dns_so_check` from returning: a name without an end. -/
namespace NetworkLabs.Dns

open BigEndian Orbit

variable {data text : List UInt8} {b hi lo : UInt8} {p nptrs fuel n : Nat}

namespace Domain

/-- How `dns_d_expand` goes on, which does not depend on what it has stored. -/
def expandNext (data : List UInt8) : Nat × Nat → Option (Nat × Nat)
  | (nptrs, src) =>
    match data[src]? with
    | none => none
    | some b =>
      if b.toNat < 64 then
        if b.toNat = 0 then none
        else if data.length - (src + 1) < b.toNat then none
        else some (0, src + 1 + b.toNat)
      else if b.toNat < 192 then none
      else if maxPtrs < nptrs + 1 then none
      else (data[src + 1]?).map fun lo => (nptrs + 1, pointer b lo)

theorem expandLoop_stops :
    (expandLoop data fuel nptrs p text).isSome = stops (expandNext data) fuel (nptrs, p) := by
  induction fuel generalizing nptrs p text with
  | zero => rfl
  | succ fuel ih =>
    rw [expandLoop, stops, expandNext]
    cases data[p]? with
    | none => rfl
    | some b =>
      dsimp only
      by_cases hlabel : b.toNat < 64
      · rw [if_pos hlabel, if_pos hlabel]
        by_cases hroot : b.toNat = 0
        · rw [if_pos hroot, if_pos hroot]
          rfl
        rw [if_neg hroot, if_neg hroot]
        by_cases hlong : data.length - (p + 1) < b.toNat
        · rw [if_pos hlong, if_pos hlong]
          rfl
        · rw [if_neg hlong, if_neg hlong]
          exact ih
      rw [if_neg hlabel, if_neg hlabel]
      by_cases hreserved : b.toNat < 192
      · rw [if_pos hreserved, if_pos hreserved]
        rfl
      rw [if_neg hreserved, if_neg hreserved]
      by_cases hptrs : maxPtrs < nptrs + 1
      · rw [if_pos hptrs, if_pos hptrs]
        rfl
      rw [if_neg hptrs, if_neg hptrs]
      cases data[p + 1]? with
      | none => rfl
      | some lo => exact ih

theorem expandNext_ptrs {x y : Nat × Nat} (hx : x.1 ≤ maxPtrs) (h : expandNext data x = some y) :
    y.1 ≤ maxPtrs := by
  obtain ⟨nptrs, src⟩ := x
  rw [expandNext] at h
  split at h
  · cases h
  split at h
  · split at h
    · cases h
    split at h
    · cases h
    · cases h
      exact Nat.zero_le _
  split at h
  · cases h
  split at h
  · cases h
  · rename_i hptrs
    obtain ⟨lo, -, rfl⟩ := Option.map_eq_some_iff.mp h
    exact Nat.le_of_not_lt hptrs

theorem exists_rectangle (k n : Nat) :
    ∃ s : Finset (Nat × Nat), (∀ x, x ∈ s ↔ x.1 < k ∧ x.2 < n) ∧ s.card = k * n := by
  refine ⟨Finset.range k ×ˢ Finset.range n, fun x => ?_, ?_⟩
  · rw [Finset.mem_product, Finset.mem_range, Finset.mem_range]
  · rw [Finset.card_product, Finset.card_range, Finset.card_range]

/-- A name is read within so many passes, or it has no end. -/
theorem expand_decided (data : List UInt8) (p : Nat) : (∃ fuel, (expand fuel data p).isSome) ↔
    (expand ((maxPtrs + 1) * data.length + 1) data p).isSome := by
  refine ⟨fun ⟨fuel, h⟩ => ?_, fun h => ⟨_, h⟩⟩
  rw [expand, expandLoop_stops] at h ⊢
  obtain ⟨s, hs, hcard⟩ := exists_rectangle (maxPtrs + 1) data.length
  have hplace (x : Nat × Nat) (hx : x.1 ≤ maxPtrs) (hsome : (expandNext data x).isSome) :
      x ∈ s := by
    refine (hs x).mpr ⟨Nat.lt_succ_of_le hx, Nat.lt_of_not_le fun hge => ?_⟩
    rw [expandNext, List.getElem?_eq_none hge] at hsome
    cases hsome
  have hclosed (x y : Nat × Nat) (hx : x.1 ≤ maxPtrs) (hy : expandNext data x = some y) :
      y.1 ≤ maxPtrs := expandNext_ptrs hx hy
  rw [← hcard]
  exact stops_card s hclosed hplace (Nat.zero_le _) h

/-- `dns_d_expand` does not return. -/
def Endless (data : List UInt8) (p : Nat) : Prop := ∀ fuel, expand fuel data p = none

theorem endless_iff (hfuel : (maxPtrs + 1) * data.length < fuel) :
    Endless data p ↔ expand fuel data p = none := by
  refine ⟨fun h => h fuel, fun h n => ?_⟩
  by_contra hne
  have hsome := (expand_decided data p).mp ⟨n, Option.isSome_iff_ne_none.mpr hne⟩
  rw [expand, expandLoop_stops] at hsome
  have hstops : (expand fuel data p).isSome := by
    rw [expand, expandLoop_stops]
    exact stops_mono hfuel hsome
  rw [h] at hstops
  cases hstops

/-- A label and a pointer back to it are such a name: the pointers are counted from the last label
on only. -/
theorem endless_circle (hb : data[p]? = some b) (hpos : b.toNat ≠ 0) (hlabel : b.toNat < 64)
    (hhi : data[p + 1 + b.toNat]? = some hi) (hpointer : 192 ≤ hi.toNat)
    (hlo : data[p + 1 + b.toNat + 1]? = some lo) (hback : pointer hi lo = p) :
    Endless data p := by
  have hlen : ¬ data.length - (p + 1) < b.toNat := by
    obtain ⟨hlt, -⟩ := List.getElem?_eq_some_iff.mp hhi
    omega
  have hat (m : Nat) : expandNext data (m, p) = some (0, p + 1 + b.toNat) := by
    simp only [expandNext, hb, if_pos hlabel, if_neg hpos, if_neg hlen]
  have hback' : expandNext data (0, p + 1 + b.toNat) = some (1, p) := by
    have hptrs : ¬ maxPtrs < 0 + 1 := by simp [maxPtrs]
    simp only [expandNext, hhi, hlo, if_neg (show ¬ hi.toNat < 64 by omega),
      if_neg (show ¬ hi.toNat < 192 by omega), if_neg hptrs, Option.map_some, hback]
  have hgoes (x : Nat × Nat) (hx : x.2 = p ∨ x = (0, p + 1 + b.toNat)) :
      ∃ y, expandNext data x = some y ∧ (y.2 = p ∨ y = (0, p + 1 + b.toNat)) := by
    obtain ⟨m, q⟩ := x
    rcases hx with rfl | hx
    · exact ⟨_, hat m, .inr rfl⟩
    · rw [hx]
      exact ⟨_, hback', .inl rfl⟩
  intro fuel
  have hnot := not_stops (n := fuel) hgoes (a := (0, p)) (.inl rfl)
  rw [← expandLoop_stops, ← expand, Bool.not_eq_true, Option.isSome_eq_false_iff] at hnot
  exact Option.isNone_iff_eq_none.mp hnot

end Domain

namespace Socket

variable {so so₀ : Socket} {k : Kernel} {r : Reply} {rs : List Reply} {total : List UInt8}
  {heard : Set (List UInt8)}

/-- The answer has what `dns_so_verify` looks at before the name, and the name has no end. -/
structure Hangs (so : Socket) (data : List UInt8) : Prop where
  id : header data = so.qid
  counted : count data qd ≠ 0
  question : ∃ rr, Record.parse data 12 = .ok rr ∧ rr.type = so.qtype ∧ rr.cls = so.qclass ∧
    Domain.Endless data rr.dn

theorem Hangs.stuck (h : so.Hangs data) : so.verify fuel data = none := by
  obtain ⟨hid, hcount, rr, hparse, htype, hcls, hendless⟩ := h
  rw [verify, if_neg (not_not_intro hid.symm), if_neg hcount, hparse]
  dsimp only
  rw [if_neg (by simp [htype, hcls]), hendless fuel, Option.map_none]

theorem Hangs.length (h : so.Hangs data) : 12 < data.length := by
  obtain ⟨rr, hparse, -⟩ := h.question
  exact (Record.parse_dn hparse).2

/-- Nothing else keeps `dns_so_verify` from its end. -/
theorem verify_stuck (hfuel : (maxPtrs + 1) * data.length < fuel)
    (h : so.verify fuel data = none) : so.Hangs data := by
  rcases verify_cases so fuel data with hv | ⟨hid, hcount, rr, hparse, htype, hcls, hname⟩
  · rw [h] at hv
    cases hv
  · rcases hname with ⟨hname, -⟩ | hv | ⟨t, -, -, -, -, hv⟩
    · exact ⟨hid, hcount, rr, hparse, htype, hcls, (Domain.endless_iff hfuel).mpr hname⟩
    · rw [h] at hv
      cases hv
    · rw [h] at hv
      cases hv

theorem Hangs.congr (h : so₀.Hangs data) (hquestion : so.question = so₀.question) :
    so.Hangs data := by
  obtain ⟨-, hqid, -, -, hqtype, hqclass, -⟩ := by
    simpa only [Socket.question, Prod.mk.injEq] using hquestion
  obtain ⟨hid, hcount, rr, hparse, htype, hcls, hendless⟩ := h
  exact ⟨hid.trans hqid.symm, hcount, rr, hparse, htype.trans hqtype.symm,
    hcls.trans hqclass.symm, hendless⟩

/-- A datagram of this kind is the last thing `dns_so_check` gets. -/
theorem Hangs.blocks (hstate : so.state = .udpRecv) (hreplies : k.replies = r :: rs)
    (herror : r.error = none) (h : so.Hangs (r.bytes.take so.room)) :
    check fuel n so k = none := by
  have hlong := h.length
  have hcall : k.call = (r, { k with replies := rs }) := by rw [Kernel.call, hreplies]
  have hverify : verify fuel { so with answer := r.bytes.take so.room } (r.bytes.take so.room) =
      none := h.stuck
  cases n with
  | zero => rfl
  | succ n =>
    rw [check, turn, hstate]
    simp only [udpRecv, hcall, herror, if_neg (show ¬ (r.bytes.take so.room).length < 12 by omega),
      hverify, Option.bind_none]

/-- A call of `dns_so_check` returns, or among what may come is an answer whose name has no end; and
if the next datagram is one, the call does not return. -/
theorem Calls.hangs_or_returns {Q : Packet} {old : Socket}
    (hsubmit : submit fuel old Q = some (none, so₀))
    (hcalls : Calls fuel so₀ total heard so k.inbound) (hfuel : (maxPtrs + 1) * 65536 ≤ fuel)
    (hsize : ∀ r ∈ k.replies, r.bytes.length < 65536) (hn : k.replies.length + so.state.left < n) :
    ((check fuel n so k).isSome ∨ ∃ data, so₀.Hangs data ∧ Comes total so k data) ∧
      ∀ r rs, so.state = .udpRecv → k.replies = r :: rs → r.error = none →
        so₀.Hangs (r.bytes.take so.room) → ∀ fuel n, check fuel n so k = none := by
  obtain ⟨hinit, -⟩ := submit_spec hsubmit
  have hinv := hcalls.inv hinit
  refine ⟨?_, fun r rs hstate hreplies herror hhangs fuel n => ?_⟩
  · rcases check_within hinv hn with hsome | ⟨data, hcomes, hverify⟩
    · exact .inl hsome
    · have hlength : data.length < 65536 := by
        rcases hcomes with ⟨-, r, hr, -, rfl⟩ | ⟨hlt, -⟩
        · have hlt := hsize r hr
          rw [List.length_take]
          omega
        · exact hlt
      have hpasses : (maxPtrs + 1) * data.length < fuel := by
        rw [maxPtrs] at hfuel ⊢
        omega
      exact .inr ⟨data, verify_stuck hpasses hverify, hcomes⟩
  · exact (hhangs.congr hinv.question).blocks hstate hreplies herror

/-- The first call has sent the query. -/
def waitingSeven : Socket := { askedSeven with state := .udpRecv }

/-- The id and the question's type and class, and the name a.a.a. without an end. -/
def forgedSeven : List UInt8 := [7, 0, 0, 0, 0, 1, 0, 0, 0, 0, 0, 0, 1, 97, 192, 12, 0, 1, 0, 1]

theorem hangs_forgedSeven : askedSeven.Hangs forgedSeven := by
  have hskip : Domain.skip forgedSeven 12 = 16 := rfl
  have hqend : Dns.qend forgedSeven = 20 := rfl
  have hparse : Record.parse forgedSeven 12 = .ok ⟨qd, 12, 4, 1, 1, 0, 0, 0⟩ := by
    rw [Record.parse, hskip, hqend]
    rfl
  have hb : forgedSeven[12]? = some 1 := rfl
  have hhi : forgedSeven[14]? = some 192 := rfl
  have hlo : forgedSeven[15]? = some 12 := rfl
  have hcount : count forgedSeven qd ≠ 0 := by decide
  refine ⟨rfl, hcount, _, hparse, rfl, rfl, ?_⟩
  exact Domain.endless_circle hb (by decide) (by decide) hhi (by decide) hlo rfl

theorem Calls.hangs_or_returns_forgedSeven :
    (∃ data, askedSeven.Hangs data ∧
      Comes [] waitingSeven ⟨[⟨none, 20, forgedSeven⟩], [], []⟩ data) ∧
    check 8388608 100 waitingSeven ⟨[⟨none, 20, forgedSeven⟩], [], []⟩ = none := by
  have hsubmit (m : Nat) : submit (m + 20) askedSeven querySeven = some (none, askedSeven) := rfl
  have hfirst (m : Nat) : check (m + 20) 20 askedSeven ⟨[okay, okay], [], []⟩ =
      some (some .again, waitingSeven, ⟨[], [], []⟩) := rfl
  have hcalls : Calls (8388608 + 20) askedSeven [] _ waitingSeven [] :=
    Calls.submitted.call (hfirst 8388608)
  have hsize : ∀ r ∈ [(⟨none, 20, forgedSeven⟩ : Reply)], r.bytes.length < 65536 := by
    intro r hr
    obtain rfl := List.mem_singleton.mp hr
    decide
  have hreturns := Calls.hangs_or_returns (k := ⟨[⟨none, 20, forgedSeven⟩], [], []⟩) (n := 100)
    (hsubmit 8388608) hcalls (by decide) hsize (by decide)
  have hblocks := hreturns.2 _ _ rfl rfl rfl hangs_forgedSeven
  refine ⟨hreturns.1.resolve_left ?_, hblocks _ _⟩
  rw [hblocks]
  exact Bool.false_ne_true

end Socket

end NetworkLabs.Dns
