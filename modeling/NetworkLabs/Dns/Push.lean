import NetworkLabs.Dns.Records

/-! How records are stored in a packet, and how their data is read back. -/
namespace NetworkLabs.Dns

/-- `DNS_T_NS`, `DNS_T_CNAME`, `DNS_T_PTR`, `DNS_T_MX`, `DNS_T_TXT`, `DNS_T_AAAA` and
`DNS_T_SPF`. -/
def typeNs : Nat := 2
def typeCname : Nat := 5
def typePtr : Nat := 12
def typeMx : Nat := 15
def typeTxt : Nat := 16
def typeAaaa : Nat := 28
def typeSpf : Nat := 99

/-- The types of `dns_rrtypes` whose data is left out here: SOA, SRV, OPT and SSHFP. -/
def leftOut (type : Nat) : Prop := type = 6 ∨ type = 33 ∨ type = 41 ∨ type = 44

instance (type : Nat) : Decidable (leftOut type) :=
  inferInstanceAs (Decidable (type = 6 ∨ type = 33 ∨ type = 41 ∨ type = 44))

/-- The members of `dns_any`; `dns_ns`, `dns_cname` and `dns_ptr` are all a host, and `rdata` is the
data of a record of no known type. -/
inductive Any
  | a (addr : UInt32)
  | aaaa (addr : {bs : List UInt8 // bs.length = 16})
  | mx (preference : UInt16) (host : List UInt8)
  | host (host : List UInt8)
  | txt (data : List UInt8)
  | rdata (data : List UInt8)
deriving DecidableEq

namespace Packet

/-- `end` goes back to `n`. -/
def truncate (P : Packet) (n : Nat) : Packet where
  data := P.data.take (max 12 n)
  spare := P.data.drop (max 12 n) ++ P.spare
  dict := P.dict
  memo := P.memo
  header := by have := P.header; simp; omega

/-- A 16-bit number is stored at `p`. -/
def patch (P : Packet) (p v : Nat) : Packet where
  data := (P.data.set p (UInt8.ofNat (v / 256))).set (p + 1) (UInt8.ofNat v)
  spare := P.spare
  dict := P.dict
  memo := P.memo
  header := by have := P.header; simpa

end Packet

/-- What a function that pushes something returns. -/
abbrev Outcome := Option Error × Packet

namespace Any

/-- `dns_ns_push`, `dns_cname_push`, `dns_ptr_push` and `dns_mx_push`: `room` bytes must be free,
and `front` stands before the host. -/
def pushHost (fuel : Nat) (P : Packet) (room : Nat) (front name : List UInt8) : Option Outcome :=
  if P.spare.length < room then some (some .nobufs, P)
  else
    (Domain.push fuel (P.put (P.spare.take 2 ++ front)) name).map fun
      | (some e, P') => (some e, P'.truncate P.data.length)
      | (none, P') => (none, P'.patch P.data.length (P'.data.length - P.data.length - 2))

/-- The loop of `dns_txt_push`. -/
def pushTexts : Nat → Packet → List UInt8 → Outcome
  | 0, P, _ => (none, P)
  | fuel + 1, P, data =>
    if data = [] then (none, P)
    else
      let n := min 255 data.length
      if P.spare = [] then (some .nobufs, P)
      else if (P.put [UInt8.ofNat n]).spare.length < n then
        (some .nobufs, P.put [UInt8.ofNat n])
      else pushTexts fuel ((P.put [UInt8.ofNat n]).put (data.take n)) (data.drop n)

/-- `dns_txt_push`. -/
def pushTxt (P : Packet) (data : List UInt8) : Outcome :=
  if P.spare.length < 2 then (some .nobufs, P)
  else
    let n := data.length + (data.length + 254) / 255
    match pushTexts data.length (P.put (BigEndian.encode 2 n)) data with
    | (some e, P') => (some e, P'.truncate P.data.length)
    | (none, P') => (none, P')

/-- A length and bytes, if there is room for them. -/
def pushBytes (P : Packet) (bs : List UInt8) : Outcome :=
  if P.spare.length < 2 + bs.length then (some .nobufs, P)
  else (none, P.put (BigEndian.encode 2 bs.length ++ bs))

/-- `dns_any_push`. -/
def push (fuel : Nat) (P : Packet) : Any → Option Outcome
  | .a addr => some (pushBytes P (BigEndian.encode 4 addr.toNat))
  | .aaaa addr => some (pushBytes P addr.1)
  | .mx preference name => pushHost fuel P 5 (BigEndian.encode 2 preference.toNat) name
  | .host name => pushHost fuel P 3 [] name
  | .txt data => some (pushTxt P data)
  | .rdata data => some (pushBytes P data)

/-- The loop of `dns_txt_parse`, over what is left of the data of a record and of the room for
it. -/
def parseTexts : Nat → List UInt8 → Nat → Except Error (List UInt8)
  | 0, _, _ => .ok []
  | fuel + 1, src, room =>
    match src with
    | [] => .ok []
    | n :: src =>
      if src.length < n.toNat ∨ room < n.toNat then .error .illegal
      else
        (parseTexts fuel (src.drop n.toNat) (room - n.toNat)).map (src.take n.toNat ++ ·)

/-- `dns_ns_parse`, and what `dns_mx_parse` does behind the preference. -/
def parseHost (fuel : Nat) (data : List UInt8) (rd : Nat) : Option (Except Error (List UInt8)) :=
  (Domain.expand fuel data rd).map fun
    | .error e => .error e
    | .ok name => if maxName < name.length then .error .illegal else .ok name

/-- `dns_any_parse` into a `dns_any` with `size` bytes for data. It gives `none` if a name has no
end, and for the types that are left out. -/
def parse (fuel size : Nat) (data : List UInt8) (rr : Record) : Option (Except Error Any) :=
  let rdata := (data.drop rr.rd).take rr.rdLen
  if rr.type = typeA then
    some (if rr.rdLen ≠ 4 then .error .illegal else .ok (.a (.ofNat (number data 4 rr.rd))))
  else if rr.type = typeAaaa then
    some (if h : rdata.length = 16 ∧ rr.rdLen = 16 then .ok (.aaaa ⟨rdata, h.1⟩)
      else .error .illegal)
  else if rr.type = typeMx then
    if rr.rdLen < 3 then some (.error .illegal)
    else
      (parseHost fuel data (rr.rd + 2)).map
        (·.map (.mx (.ofNat (number data 2 rr.rd))))
  else if rr.type = typeNs ∨ rr.type = typeCname ∨ rr.type = typePtr then
    (parseHost fuel data rr.rd).map (·.map .host)
  else if rr.type = typeTxt ∨ rr.type = typeSpf then
    some ((parseTexts rr.rdLen rdata size).map .txt)
  else if leftOut rr.type then none
  else some (if size < rr.rdLen then .error .illegal else .ok (.rdata rdata))

end Any

namespace Packet

/-- The extents once a record of the section was stored at the end `e`. -/
def moved (m : Memo) (sec e : Nat) : Memo :=
  if sec = qd then { m with qd := ⟨m.qd.base, e⟩, an := ⟨e, e⟩, ns := ⟨e, e⟩, ar := ⟨e, e⟩ }
  else if sec = an then { m with an := ⟨m.an.base, e⟩, ns := ⟨e, e⟩, ar := ⟨e, e⟩ }
  else if sec = ns then { m with ns := ⟨m.ns.base, e⟩, ar := ⟨e, e⟩ }
  else { m with ar := ⟨m.ar.base, e⟩ }

def baseOf (m : Memo) (sec : Nat) : Nat :=
  if sec = qd then m.qd.base
  else if sec = an then m.an.base
  else if sec = ns then m.ns.base
  else m.ar.base

/-- One more record in the section; the field with the number has 16 bits. -/
def increment (P : Packet) (sec : Nat) : Packet :=
  if sec = qd then P.patch 4 (countAt P.data qd + 1)
  else if sec = an then P.patch 6 (countAt P.data an + 1)
  else if sec = ns then P.patch 8 (countAt P.data ns + 1)
  else P.patch 10 (countAt P.data ar + 1)

/-- The sections that must be empty when a record of this one is pushed. -/
def behind (sec : Nat) : Nat :=
  if sec = qd then an + ns + ar else if sec = an then ns + ar else if sec = ns then ar else 0

/-- The switch at the end of `dns_p_push`, for a record that was stored at `dn`. -/
def enter (P : Packet) (sec dn type cls ttl : Nat) : Outcome :=
  if sec ≠ qd ∧ sec ≠ an ∧ sec ≠ ns ∧ sec ≠ ar then (some .section, P)
  else if count P.data (behind sec) ≠ 0 then (some .order, P)
  else
    let P := if baseOf P.memo sec = 0 then P.study else P
    let P := P.increment sec
    let P := { P with memo := moved P.memo sec P.data.length }
    if sec = ar ∧ type = typeOpt ∧ P.memo.opt.p = 0 then
      (none, { P with memo := { P.memo with opt := ⟨dn, cls, ttl⟩ } })
    else (none, P)

/-- Up to its end the packet is as it was before the failure. -/
def undo (P : Packet) : Outcome → Outcome
  | (some e, P') => (some e, P'.truncate P.data.length)
  | (none, P') => (none, P')

/-- `dns_p_push`; `any` is the member of the union for `type`. -/
def push (fuel : Nat) (P : Packet) (sec : Nat) (dn : List UInt8) (type cls ttl : Nat) (any : Any) :
    Option Outcome :=
  (Domain.push fuel P dn).bind fun
    | (some e, P') => some (P.undo (some e, P'))
    | (none, P') =>
      if P'.spare.length < 4 then some (P.undo (some .nobufs, P'))
      else
        let P' := P'.put (BigEndian.encode 2 type ++ BigEndian.encode 2 cls)
        if sec = qd then some (P.undo (P'.enter sec P.data.length type cls ttl))
        else if P'.spare.length < 6 then some (P.undo (some .nobufs, P'))
        else
          let ttl := if type = typeOpt then ttl else min ttl 0x7fffffff
          (any.push fuel (P'.put (BigEndian.encode 4 ttl))).map fun
            | (some e, P') => P.undo (some e, P')
            | (none, P') => P.undo (P'.enter sec P.data.length type cls ttl)

end Packet

end NetworkLabs.Dns
