import NetworkLabs.Dns.Packet

/-! The records of a packet, and the iterator that looks for some of them in a given order. -/
namespace NetworkLabs.Dns

/-- `dns_section`: one bit for each, and `DNS_S_ALL`. -/
def qd : Nat := 1
def an : Nat := 2
def ns : Nat := 4
def ar : Nat := 8
def allSections : Nat := 15

/-- `DNS_T_A`, `DNS_T_OPT`, `DNS_T_ALL` and `DNS_C_ANY`. -/
def typeA : Nat := 1
def typeOpt : Nat := 41
def typeAll : Nat := 255
def classAny : Nat := 255

/-- `DNS_D_MAXNAME`. -/
def maxName : Nat := 255

/-- A number of `k` bytes at `p`. -/
def number (data : List UInt8) (k p : Nat) : Nat := BigEndian.decode ((data.drop p).take k)

/-- `dns_rr`. -/
structure Record where
  sec : Nat
  dn : Nat
  dnLen : Nat
  type : Nat
  cls : Nat
  ttl : Nat
  rd : Nat
  rdLen : Nat
deriving DecidableEq

/-- Where `dns_header` has the number of records of a section. -/
def countAt (data : List UInt8) (sec : Nat) : Nat :=
  if sec = qd then number data 2 4
  else if sec = an then number data 2 6
  else if sec = ns then number data 2 8
  else if sec = ar then number data 2 10
  else 0

/-- `dns_p_count`. -/
def count (data : List UInt8) (mask : Nat) : Nat :=
  countAt data (mask &&& qd) + countAt data (mask &&& an) + countAt data (mask &&& ns) +
    countAt data (mask &&& ar)

/-- The loop of `dns_p_qend`. -/
def qendLoop (data : List UInt8) : Nat → Nat → Nat
  | 0, q => min q data.length
  | n + 1, q =>
    if q < data.length then
      let p := Domain.skip data q
      if p = data.length ∨ data.length - p < 4 then data.length
      else qendLoop data n (p + 4)
    else min q data.length

/-- `dns_p_qend`. -/
def qend (data : List UInt8) : Nat := qendLoop data (count data qd) 12

namespace Record

/-- `dns_rr_parse`; a record that is no question keeps the section it had. -/
def parse (data : List UInt8) (src : Nat) : Except Error Record :=
  let p := Domain.skip data src
  if data.length ≤ src ∨ data.length - p < 4 then .error .illegal
  else if src < qend data then
    .ok ⟨qd, src, p - src, number data 2 p, number data 2 (p + 2), 0, 0, 0⟩
  else if data.length - (p + 4) < 4 ∨ data.length - (p + 8) < 2 then .error .illegal
  else
    let type := number data 2 p
    let ttl := number data 4 (p + 4)
    let rdLen := number data 2 (p + 8)
    if data.length - (p + 10) < rdLen then .error .illegal
    else
      .ok ⟨0, src, p - src, type, number data 2 (p + 2),
        if type = typeOpt then ttl else min ttl 0x7fffffff, p + 10, rdLen⟩

/-- `dns_rr_len`. -/
def len (data : List UInt8) (src : Nat) : Nat :=
  let p := Domain.skip data src
  if data.length - p < 4 then data.length - src
  else if p + 4 ≤ qend data then p + 4 - src
  else if data.length - (p + 4) < 6 then data.length - src
  else
    let rdLen := number data 2 (p + 8)
    if data.length - (p + 10) < rdLen then data.length - src else p + 10 + rdLen - src

/-- `dns_rr_skip`, in a packet of less than 65536 bytes. -/
def skip (data : List UInt8) (src : Nat) : Nat := src + len data src

end Record

namespace Packet

/-- The loop of `dns_rr_section` that counts the records in front of `src`. -/
def indexLoop (data : List UInt8) (src : Nat) : Nat → Nat → Nat → Nat
  | 0, _, index => index
  | fuel + 1, rp, index =>
    if rp < src ∧ rp < data.length then indexLoop data src fuel (Record.skip data rp) (index + 1)
    else index

/-- The loop that looks for the section of a record with this number; `n` sections are left. -/
def sectionLoop (data : List UInt8) (index : Nat) : Nat → Nat → Nat → Nat
  | 0, sec, _ => allSections &&& sec
  | n + 1, sec, total =>
    if total ≤ index then sectionLoop data index n (2 * sec) (total + count data (2 * sec))
    else allSections &&& sec

def Extent.has (e : Extent) (src : Nat) : Prop := e.base ≤ src ∧ src < e.stop

instance (e : Extent) (src : Nat) : Decidable (Extent.has e src) :=
  inferInstanceAs (Decidable (_ ∧ _))

/-- `dns_rr_section` without the memo. -/
def counted (data : List UInt8) (src : Nat) : Nat :=
  sectionLoop data (indexLoop data src data.length 12 0) 4 qd (count data qd)

/-- `dns_rr_section`. -/
def sectionAt (P : Packet) (src : Nat) : Nat :=
  if Extent.has P.memo.qd src then qd
  else if Extent.has P.memo.an src then an
  else if Extent.has P.memo.ns src then ns
  else if Extent.has P.memo.ar src then ar
  else counted P.data src

/-- The loop of `dns_s_study`. -/
def studyLoop (data : List UInt8) : Nat → Nat → Nat
  | 0, rp => rp
  | n + 1, rp => if rp < data.length then studyLoop data n (Record.skip data rp) else rp

/-- `dns_s_study`. -/
def extent (data : List UInt8) (sec base : Nat) : Extent :=
  ⟨base, studyLoop data (count data sec) base⟩

end Packet

/-- The `dns_rr_i` of a search: section, name, type and class of the wanted records, if any, and how
to sort them; `none` is `dns_rr_i_packet`. -/
structure Iter where
  sec : Nat
  name : Option (List UInt8)
  type : Nat
  cls : Nat
  sort : Option (Record → Record → Int)

/-- `dns_rr_i_packet`. -/
def packetOrder (a b : Record) : Int := a.dn - b.dn

namespace Iter

/-- `dns_rr_i_match`; `none` if the name of the record has no end. -/
def wants (fuel : Nat) (data : List UInt8) (i : Iter) (rr : Record) : Option Bool :=
  if i.sec ≠ 0 ∧ rr.sec &&& i.sec = 0 then some false
  else if i.type ≠ 0 ∧ rr.type ≠ i.type ∧ i.type ≠ typeAll then some false
  else if i.cls ≠ 0 ∧ rr.cls ≠ i.cls ∧ i.cls ≠ classAny then some false
  else
    match i.name with
    | none => some true
    | some name =>
      (Domain.expand fuel data rr.dn).map fun
        | .error _ => false
        | .ok text => text.length ≤ maxName && sameText text name

/-- The record at `rp`, if it can be read and is wanted. -/
def look (fuel : Nat) (P : Packet) (i : Iter) (rp : Nat) : Option (Option Record) :=
  match Record.parse P.data rp with
  | .error _ => some none
  | .ok rr =>
    let rr := { rr with sec := P.sectionAt rp }
    (i.wants fuel P.data rr).map fun wanted => if wanted then some rr else none

/-- The loops that look for a record from `rp` on. -/
def seek (data : List UInt8) (look : Nat → Option (Option Record)) : Nat → Nat →
    Option (Option Record)
  | 0, _ => some none
  | n + 1, rp =>
    if rp < data.length then
      (look rp).bind fun
        | some rr => some (some rr)
        | none => seek data look n (Record.skip data rp)
    else some none

/-- The loops that go on from `rp` and keep the least record in `r`. -/
def least (data : List UInt8) (look : Nat → Option (Option Record))
    (sort : Record → Record → Int) : Nat → Nat → Record → Option Record
  | 0, _, r => some r
  | n + 1, rp, r =>
    if rp < data.length then
      (look rp).bind fun
        | some rr => least data look sort n (Record.skip data rp) (if sort rr r < 0 then rr else r)
        | none => least data look sort n (Record.skip data rp) r
    else some r

/-- From the first record at or behind `rp` that `look` finds to the one that comes first; the end
of the packet if there is none. -/
def choose (data : List UInt8) (i : Iter) (look : Nat → Option (Option Record)) (rp : Nat) :
    Option Nat :=
  (seek data look data.length rp).bind fun
    | none => some data.length
    | some r =>
      match i.sort with
      | none => some r.dn
      | some sort => (least data look sort data.length (Record.skip data r.dn) r).map Record.dn

/-- Where `dns_rr_i_start` begins. -/
def base (P : Packet) (i : Iter) : Nat :=
  if i.sec &&& qd ≠ 0 ∧ P.memo.qd.base ≠ 0 then P.memo.qd.base
  else if i.sec &&& an ≠ 0 ∧ P.memo.an.base ≠ 0 then P.memo.an.base
  else if i.sec &&& ns ≠ 0 ∧ P.memo.ns.base ≠ 0 then P.memo.ns.base
  else if i.sec &&& ar ≠ 0 ∧ P.memo.ar.base ≠ 0 then P.memo.ar.base
  else 12

/-- `dns_rr_i_start`. -/
def start (fuel : Nat) (P : Packet) (i : Iter) : Option Nat :=
  i.choose P.data (i.look fuel P) (i.base P)

/-- `dns_rr_i_skip`. -/
def next (fuel : Nat) (P : Packet) (i : Iter) (rp : Nat) : Option Nat :=
  match Record.parse P.data rp with
  | .error _ => some P.data.length
  | .ok r =>
    let r := { r with sec := P.sectionAt rp }
    let behind (rr : Record) : Bool := 0 < i.sort.getD packetOrder rr r
    i.choose P.data (fun p => (i.look fuel P p).map (·.filter behind))
      (if i.sort.isNone then Record.skip P.data rp else 12)

/-- The loop of `dns_rr_grep`: `lim` records at most from `rp` on, and where the next one is. -/
def grepLoop (fuel : Nat) (P : Packet) (i : Iter) : Nat → Nat → Option (List Record × Nat)
  | 0, rp => some ([], rp)
  | lim + 1, rp =>
    if rp < P.data.length then
      match Record.parse P.data rp with
      | .error _ => some ([], rp)
      | .ok rr =>
        (i.next fuel P rp).bind fun rp' =>
          (i.grepLoop fuel P lim rp').map fun r =>
            ({ rr with sec := P.sectionAt rp } :: r.1, r.2)
    else some ([], rp)

/-- `dns_rr_grep`; `state` is where an earlier call stopped. -/
def grep (fuel : Nat) (P : Packet) (i : Iter) (lim : Nat) (state : Option Nat) :
    Option (List Record × Nat) :=
  (match state with
    | none => i.start fuel P
    | some rp => some rp).bind (i.grepLoop fuel P lim)

end Iter

namespace Packet

/-- `dns_m_study`; the `dns_rr_foreach` in it takes the first record that it finds. -/
def study (P : Packet) : Packet :=
  let qdM := extent P.data qd 12
  let anM := extent P.data an qdM.stop
  let nsM := extent P.data ns anM.stop
  let arM := extent P.data ar nsM.stop
  let P' := { P with memo := ⟨qdM, anM, nsM, arM, ⟨0, 0, 0⟩⟩ }
  let opts := (Iter.mk ar none typeOpt 0 none).grep 0 P' 1 none
  match opts with
  | some (rr :: _, _) => { P' with memo := { P'.memo with opt := ⟨rr.dn, rr.cls, rr.ttl⟩ } }
  | _ => P'

end Packet

end NetworkLabs.Dns
