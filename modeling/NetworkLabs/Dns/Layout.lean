import NetworkLabs.Dns.Iteration
import NetworkLabs.Dns.Push
import NetworkLabs.Dns.Reading

/-! Records as they stand in a packet one behind the other, and what is read of them. -/
namespace NetworkLabs.Dns

open Chain BigEndian

/-- What the data of a record means. -/
inductive Content
  | a (addr : UInt32)
  | aaaa (addr : {bs : List UInt8 // bs.length = 16})
  | mx (preference : UInt16) (name : Name)
  | host (name : Name)
  | txt (data : List UInt8)
  | rdata (data : List UInt8)

/-- The member of the union that has this content, where `rel` says how it writes a name. -/
inductive Content.Rel (rel : Name → List UInt8 → Prop) : Content → Any → Prop
  | a (addr : UInt32) : Rel rel (.a addr) (.a addr)
  | aaaa (addr : {bs : List UInt8 // bs.length = 16}) : Rel rel (.aaaa addr) (.aaaa addr)
  | mx (preference : UInt16) {nm : Name} {t : List UInt8} (h : rel nm t) :
      Rel rel (.mx preference nm) (.mx preference t)
  | host {nm : Name} {t : List UInt8} (h : rel nm t) : Rel rel (.host nm) (.host t)
  | txt (data : List UInt8) : Rel rel (.txt data) (.txt data)
  | rdata (data : List UInt8) : Rel rel (.rdata data) (.rdata data)

/-- The text is the name, but for the case of letters. -/
def Name.Reads (nm : Name) (t : List UInt8) : Prop := lower t = lower nm.text

/-- Whether a `dns_any` with `size` bytes for data can have this content under the type. -/
def Content.Fits (size type : Nat) : Content → Prop
  | .a _ => type = typeA
  | .aaaa _ => type = typeAaaa
  | .mx _ nm => type = typeMx ∧ nm.text.length ≤ maxName
  | .host nm => (type = typeNs ∨ type = typeCname ∨ type = typePtr) ∧ nm.text.length ≤ maxName
  | .txt data => (type = typeTxt ∨ type = typeSpf) ∧ data.length ≤ size
  | .rdata data => type ∉ [typeA, typeAaaa, typeMx, typeNs, typeCname, typePtr, typeTxt, typeSpf] ∧
      ¬ leftOut type ∧ data.length ≤ size

/-- A record to be stored; a question has no content. -/
structure Entry where
  sec : Nat
  name : Name
  type : Nat
  cls : Nat
  ttl : Nat
  content : Content

namespace Entry

structure Valid (size : Nat) (e : Entry) : Prop where
  type_lt : e.type < 65536
  cls_lt : e.cls < 65536
  ttl_lt : e.ttl < 2 ^ 32
  name_le : e.name.text.length ≤ maxName
  fits : e.sec ≠ qd → e.content.Fits size e.type

/-- The time to live as it is stored. -/
def storedTtl (e : Entry) : Nat := if e.type = typeOpt then e.ttl else min e.ttl 0x7fffffff

end Entry

variable {data data' bs body : List UInt8} {p q n size fuel : Nat} {nm : Name} {e : Entry}
  {es es' : List Entry}

/-- A name is at `p`. -/
structure NameAt (data : List UInt8) (p : Nat) (nm : Name) (bs : List UInt8) : Prop where
  encoding : ∃ c slots, Encoding c slots nm.labels bs
  placed : Placed data p bs
  spells : Spells (cell data) (fun k _ => k ≤ 2) p (nm.labels.map lower)

/-- The bytes of a text in pieces of at most 255 with their lengths. -/
def texts : Nat → List UInt8 → List UInt8
  | 0, _ => []
  | n + 1, data =>
    if data = [] then []
    else UInt8.ofNat (min 255 data.length) :: (data.take 255 ++ texts n (data.drop 255))

/-- The content is in the bytes `body` at `rd`. -/
def Holds (data : List UInt8) (rd : Nat) (body : List UInt8) : Content → Prop
  | .a addr => body = encode 4 addr.toNat
  | .aaaa addr => body = addr.1
  | .mx preference nm => ∃ bs, body = encode 2 preference.toNat ++ bs ∧ NameAt data (rd + 2) nm bs
  | .host nm => NameAt data rd nm body
  | .txt text => body = texts text.length text
  | .rdata bs => body = bs

/-- The record takes the bytes from `p` to `q`. -/
def Stands (data : List UInt8) (p : Nat) (e : Entry) (q : Nat) : Prop :=
  ∃ bs, NameAt data p e.name bs ∧ Placed data (p + bs.length) (encode 2 e.type ++ encode 2 e.cls) ∧
    if e.sec = qd then q = p + bs.length + 4
    else ∃ body, q = p + bs.length + 10 + body.length ∧ body.length < 65536 ∧
      Placed data (p + bs.length + 4) (encode 4 e.storedTtl ++ (encode 2 body.length ++ body)) ∧
      Holds data (p + bs.length + 10) body e.content

/-- The records take the bytes from `p` to `q`. -/
def Lays (data : List UInt8) : Nat → List Entry → Nat → Prop
  | p, [], q => p = q
  | p, e :: es, q => ∃ m, Stands data p e m ∧ Lays data m es q

theorem NameAt.keep (h : NameAt data p nm bs) (hp : 12 ≤ p) (hkeeps : Keeps data data') :
    NameAt data' p nm bs :=
  ⟨h.encoding, hkeeps.placed hp h.placed, h.spells.extend hkeeps.extends⟩

theorem NameAt.length_pos (h : NameAt data p nm bs) : 0 < bs.length := by
  obtain ⟨c, slots, henc⟩ := h.encoding
  exact length_encoding henc

theorem Holds.keep {c : Content} (h : Holds data p body c) (hp : 12 ≤ p)
    (hkeeps : Keeps data data') : Holds data' p body c := by
  cases c with
  | mx preference nm =>
    obtain ⟨bs, hbody, hname⟩ := h
    exact ⟨bs, hbody, hname.keep (by omega) hkeeps⟩
  | host nm => exact NameAt.keep h hp hkeeps
  | a addr => exact h
  | aaaa addr => exact h
  | txt text => exact h
  | rdata bs => exact h

theorem Stands.keep (h : Stands data p e q) (hp : 12 ≤ p) (hkeeps : Keeps data data') :
    Stands data' p e q := by
  obtain ⟨bs, hname, hfields, hrest⟩ := h
  refine ⟨bs, hname.keep hp hkeeps, hkeeps.placed (by omega) hfields, ?_⟩
  split at hrest
  · rename_i hsec
    rw [if_pos hsec]
    exact hrest
  · rename_i hsec
    obtain ⟨body, hq, hlt, hplaced, hholds⟩ := hrest
    rw [if_neg hsec]
    exact ⟨body, hq, hlt, hkeeps.placed (by omega) hplaced, hholds.keep (by omega) hkeeps⟩

theorem Stands.lt (h : Stands data p e q) : p + 5 ≤ q := by
  obtain ⟨bs, hname, -, hrest⟩ := h
  have hpos := hname.length_pos
  split at hrest
  · omega
  · obtain ⟨body, hq, -⟩ := hrest
    omega

theorem Lays.le (h : Lays data p es q) : p + 5 * es.length ≤ q := by
  induction es generalizing p with
  | nil => exact Nat.le_of_eq h
  | cons e es ih =>
    obtain ⟨m, hstands, hlays⟩ := h
    have hlt := hstands.lt
    have hle := ih hlays
    rw [List.length_cons]
    omega

theorem Lays.keep (h : Lays data p es q) (hp : 12 ≤ p) (hkeeps : Keeps data data') :
    Lays data' p es q := by
  induction es generalizing p with
  | nil => exact h
  | cons e es ih =>
    obtain ⟨m, hstands, hlays⟩ := h
    have hlt := hstands.lt
    exact ⟨m, hstands.keep hp hkeeps, ih hlays (by omega)⟩

theorem lays_append : Lays data p (es ++ es') q ↔ ∃ m, Lays data p es m ∧ Lays data m es' q := by
  induction es generalizing p with
  | nil =>
    refine ⟨fun h => ⟨p, rfl, h⟩, fun ⟨m, hm, h⟩ => ?_⟩
    rw [← show p = m from hm] at h
    exact h
  | cons e es ih =>
    constructor
    · rintro ⟨m, hstands, hlays⟩
      obtain ⟨m', hes, hes'⟩ := ih.mp hlays
      exact ⟨m', ⟨m, hstands, hes⟩, hes'⟩
    · rintro ⟨m', ⟨m, hstands, hes⟩, hes'⟩
      exact ⟨m, hstands, ih.mpr ⟨m', hes, hes'⟩⟩

theorem number_placed (k v : Nat) (h : Placed data p (encode k v)) (hv : v < 256 ^ k) :
    number data k p = v := by
  have htake := h.take
  rw [length_encode] at htake
  rw [number, htake, decode_encode_of_lt hv]

end NetworkLabs.Dns
