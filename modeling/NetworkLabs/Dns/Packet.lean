import NetworkLabs.BigEndian

/-! The packets of the resolver, and the names in them: a name is written as its labels, and what an
earlier name ends with too is not written again but pointed to. A place in a packet is an
`unsigned short` of the source and a number here; `places_short` says that no place wraps in a
packet of less than 65536 bytes, and of such packets the results are. -/
namespace NetworkLabs.Dns

inductive Error
  | illegal
  | nobufs
  | order
  | section
deriving DecidableEq

/-- `DNS_D_MAXPTRS`. -/
def maxPtrs : Nat := 127

/-- `DNS_P_DICTSIZE`. -/
def dictSize : Nat := 16

def dot : UInt8 := 46

def tolower (b : UInt8) : UInt8 := if 65 ≤ b ∧ b ≤ 90 then b + 32 else b

/-- The text in a buffer ends before the first NUL. -/
def cstring (s : List UInt8) : List UInt8 := s.takeWhile (· ≠ 0)

/-- `strcasecmp` finds no difference. -/
def sameText (s t : List UInt8) : Bool := (cstring s).map tolower == (cstring t).map tolower

/-- `dns_s_memo`. -/
structure Extent where
  base : Nat
  stop : Nat
deriving DecidableEq

/-- The `opt` of `dns_p_memo`. -/
structure OptMemo where
  p : Nat
  maxudp : Nat
  ttl : Nat
deriving DecidableEq

/-- `dns_p_memo`. -/
structure Memo where
  qd : Extent
  an : Extent
  ns : Extent
  ar : Extent
  opt : OptMemo
deriving DecidableEq

def Memo.zero : Memo := ⟨⟨0, 0⟩, ⟨0, 0⟩, ⟨0, 0⟩, ⟨0, 0⟩, ⟨0, 0, 0⟩⟩

/-- `dns_packet`: `data` is what its buffer holds below `end`, `spare` what it holds from there on,
and `dict` the slots before the first free one. -/
structure Packet where
  data : List UInt8
  spare : List UInt8
  dict : List Nat
  memo : Memo
  header : 12 ≤ data.length

namespace Packet

def size (P : Packet) : Nat := P.data.length + P.spare.length

/-- `dns_p_init`; the buffer behind the header holds what it held before. -/
def init (spare : List UInt8) : Packet := ⟨List.replicate 12 0, spare, [], .zero, by simp⟩

/-- Bytes are stored at `end`. -/
def put (P : Packet) (bs : List UInt8) : Packet where
  data := P.data ++ bs
  spare := P.spare.drop bs.length
  dict := P.dict
  memo := P.memo
  header := by have := P.header; simp; omega

end Packet

/-- The place that a pointer leads to. -/
def pointer (hi lo : UInt8) : Nat := hi.toNat % 64 * 256 + lo.toNat

namespace Label

/-- `dns_l_expand` with `ptrs` pointers left to follow: the label, which is empty where there is
none, and the place behind it. -/
def expand (data : List UInt8) : Nat → Nat → List UInt8 × Nat
  | ptrs, src =>
    match data[src]? with
    | none => ([], data.length)
    | some b =>
      if b.toNat < 64 then
        if data.length - (src + 1) < b.toNat then ([], data.length)
        else ((data.drop (src + 1)).take b.toNat, src + 1 + b.toNat)
      else if b.toNat < 192 then ([], data.length)
      else
        match ptrs, data[src + 1]? with
        | ptrs + 1, some lo => expand data ptrs (pointer b lo)
        | _, _ => ([], data.length)

/-- `dns_l_skip`, in a packet of less than 65536 bytes. -/
def skip (data : List UInt8) (src : Nat) : Nat :=
  match data[src]? with
  | none => data.length
  | some b =>
    if b.toNat < 64 then
      if data.length - (src + 1) < b.toNat then data.length
      else if b.toNat = 0 then data.length else src + 1 + b.toNat
    else data.length

end Label

namespace Packet

/-- The loop of `dns_p_dictadd`: the slots once the name at `dn` has taken the place of the one that
it ends with. In a packet of less than 65536 bytes it ends at `end` at the latest. -/
def dictLoop (data : List UInt8) (dict : List Nat) (dn : Nat) : Nat → Nat → Option (List Nat)
  | 0, _ => none
  | fuel + 1, lp =>
    match data[lp]? with
    | none => none
    | some b =>
      let found :=
        if 192 ≤ b.toNat ∧ lp ≠ dn then
          data[lp + 1]?.bind fun lo => dict.idxOf? (pointer b lo)
        else none
      match found with
      | some i => some (dict.set i dn)
      | none => dictLoop data dict dn fuel (Label.skip data lp)

/-- The slots once the name at `dn` is recorded. -/
def recorded (data : List UInt8) (dict : List Nat) (dn : Nat) : List Nat :=
  (dictLoop data dict dn (data.length + 1) dn).getD
    (if dict.length < dictSize then dict ++ [dn] else dict)

/-- `dns_p_dictadd`. -/
def dictadd (P : Packet) (dn : Nat) : Packet := { P with dict := recorded P.data P.dict dn }

end Packet

namespace Domain

/-- `dst` of `dns_d_comp`: the length of a label goes to `p`, its next byte to `x`, and `n` bytes of
it are there. -/
structure Cursor where
  dst : List UInt8
  p : Nat
  x : Nat
  n : Nat

namespace Cursor

/-- The length of the label is stored. -/
def close (c : Cursor) : List UInt8 := c.dst.set c.p (UInt8.ofNat (c.n % 64))

/-- One pass of the first loop of `dns_d_comp`. -/
def put (c : Cursor) (ch : UInt8) : Cursor :=
  if ch = dot then ⟨c.close, c.x, c.x + 1, 0⟩
  else ⟨c.dst.set c.x ch, c.p, c.x + 1, c.n + 1⟩

/-- After the loop, the last label if no dot ends it. -/
def last (c : Cursor) : List UInt8 × Nat := if 0 < c.n then (c.close, c.x) else (c.dst, c.p)

/-- And the root, unless it is there; the place behind all of it. -/
def finish (c : Cursor) : List UInt8 × Nat :=
  if 1 < c.last.2 then (c.last.1.set c.last.2 0, c.last.2 + 1) else c.last

end Cursor

/-- The name is written out. -/
def write (dst src : List UInt8) : List UInt8 × Nat :=
  (src.foldl Cursor.put ⟨dst, 0, 1, 0⟩).finish

/-- The loop that compares label by label, from the labels `a` and `b` on, and where it stops. The
labels behind them are at `ay` of the new name and at `b_y` of the packet. -/
def compare (dst data : List UInt8) : Nat → List UInt8 × Nat → List UInt8 × Nat →
    Option (List UInt8 × List UInt8)
  | 0, _, _ => none
  | fuel + 1, a, b =>
    if a.1 ≠ [] ∧ b.1 ≠ [] ∧ sameText a.1 b.1 then
      compare dst data fuel (Label.expand dst maxPtrs a.2) (Label.expand data maxPtrs b.2)
    else some (a.1, b.1)

/-- The loop over the labels of a name in the packet, from `bp` on: the place where the new name's
rest is found, or else the label in `a` afterwards, which is not looked up again. -/
def walk (dst data : List UInt8) (ax : Nat) : Nat → List UInt8 → Nat → Option (List UInt8 ⊕ Nat)
  | 0, _, _ => none
  | fuel + 1, a, bp =>
    let b := Label.expand data maxPtrs bp
    if b.1 = [] then some (.inl a)
    else
      (compare dst data fuel (a, ax) b).bind fun r =>
        if r.1 = [] ∧ r.2 = [] ∧ bp ≤ 0x3fff then some (.inr bp)
        else walk dst data ax fuel r.1 b.2

/-- The loop over the slots. -/
def walks (fuel : Nat) (dst data : List UInt8) (ax : Nat) : List UInt8 → List Nat →
    Option (List UInt8 ⊕ Nat)
  | a, [] => some (.inl a)
  | a, b :: bs =>
    (walk dst data ax fuel a b).bind fun
      | .inl a => walks fuel dst data ax a bs
      | .inr bp => some (.inr bp)

/-- The loop over the labels of the new name, from `ap` on: where it can go on with a pointer, and
the place that this leads to. -/
def search (walkFuel : Nat) (dst data : List UInt8) (dict : List Nat) : Nat → Nat →
    Option (Option (Nat × Nat))
  | 0, _ => none
  | fuel + 1, ap =>
    let a := Label.expand dst maxPtrs ap
    if a.1 = [] then some none
    else
      (walks walkFuel dst data a.2 a.1 dict).bind fun
        | .inl _ => search walkFuel dst data dict fuel a.2
        | .inr bp => some (some (ap, bp))

/-- `dns_d_comp`: what the buffer holds afterwards, and how many bytes of it the name needs. The
loops may not end, so each of them runs `fuel` times at most. -/
def comp (fuel : Nat) (dst src data : List UInt8) (dict : List Nat) : Option (List UInt8 × Nat) :=
  let out := write dst src
  if out.2 < dst.length then
    (search fuel out.1 data dict fuel 0).map fun
      | none => out
      | some (ap, bp) =>
        ((out.1.set ap (UInt8.ofNat (192 + bp / 256 % 64))).set (ap + 1) (UInt8.ofNat bp), ap + 2)
  else some out

/-- `dns_d_push`. -/
def push (fuel : Nat) (P : Packet) (dn : List UInt8) : Option (Option Error × Packet) :=
  (comp fuel P.spare dn P.data P.dict).map fun (dst, len) =>
    if len = 0 then (some .illegal, { P with spare := dst })
    else if dst.length < len then (some .nobufs, { P with spare := dst })
    else (none, ({ P with spare := dst }.put (dst.take len)).dictadd P.data.length)

/-- The loop of `dns_d_skip`. -/
def skipLoop (data : List UInt8) : Nat → Nat → Nat
  | 0, _ => data.length
  | fuel + 1, src =>
    match data[src]? with
    | none => data.length
    | some b =>
      if b.toNat < 64 then
        if b.toNat = 0 then src + 1
        else if b.toNat < data.length - (src + 1) then skipLoop data fuel (src + 1 + b.toNat)
        else data.length
      else if b.toNat < 192 then data.length
      else if data.length - src < 2 then data.length
      else src + 2

/-- `dns_d_skip`. -/
def skip (data : List UInt8) (src : Nat) : Nat := skipLoop data data.length src

/-- The loop of `dns_d_expand`; `nptrs` pointers were followed since the last label. -/
def expandLoop (data : List UInt8) : Nat → Nat → Nat → List UInt8 →
    Option (Except Error (List UInt8))
  | 0, _, _, _ => none
  | fuel + 1, nptrs, src, text =>
    match data[src]? with
    | none => some (.error .illegal)
    | some b =>
      if b.toNat < 64 then
        if b.toNat = 0 then some (.ok (if text = [] then [dot] else text))
        else if data.length - (src + 1) < b.toNat then some (.error .illegal)
        else
          expandLoop data fuel 0 (src + 1 + b.toNat)
            (text ++ (data.drop (src + 1)).take b.toNat ++ [dot])
      else if b.toNat < 192 then some (.error .illegal)
      else if maxPtrs < nptrs + 1 then some (.error .illegal)
      else
        match data[src + 1]? with
        | none => some (.error .illegal)
        | some lo => expandLoop data fuel (nptrs + 1) (pointer b lo) text

/-- `dns_d_expand`: the text of the name at `src`, if `fuel` passes are enough; the caller's buffer
gets as much of it as fits. -/
def expand (fuel : Nat) (data : List UInt8) (src : Nat) : Option (Except Error (List UInt8)) :=
  expandLoop data fuel 0 src []

end Domain

end NetworkLabs.Dns
