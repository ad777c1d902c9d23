import NetworkLabs.BigEndian

/-! What the upload client writes to its socket. -/
namespace NetworkLabs.Upload

/-- `bufferSize` and `nameLength`. -/
def bufferSize : Nat := 4096

/-- `DataOutputStream.writeLong`. -/
def writeLong (v : Int) : List UInt8 := BigEndian.encode 8 (v % 2 ^ 64).toNat

/-- `DataInputStream.readLong`. -/
def readLong (bs : List UInt8) : Int := Int.bmod (BigEndian.decode bs) (2 ^ 64)

/-- `bytes` put at the start of `buffer`. -/
def overwrite (buffer bytes : List UInt8) : List UInt8 := bytes ++ buffer.drop bytes.length

namespace Client

/-- The loop over the file. `reads` are the results of `file.read`; the whole buffer is written
whatever the result was. -/
def body (buffer file : List UInt8) : List Nat → List UInt8
  | [] => []
  | readed :: reads =>
    let buffer' := overwrite buffer (file.take readed)
    buffer' ++ body buffer' (file.drop readed) reads

/-- The buffer with the file name in it. -/
def nameBlock (string : List UInt8) : List UInt8 := overwrite (List.replicate bufferSize 0) string

/-- `Client.main`; a name that does not fit the buffer throws. -/
def main (string file : List UInt8) (reads : List Nat) : Option (List UInt8) :=
  if string.length ≤ bufferSize then
    some (nameBlock string ++ writeLong file.length ++ body (nameBlock string) file reads)
  else none

end Client

/-- Results of `file.read` that end with the file of `n` bytes: positive, at most the buffer. -/
structure FileReads (n : Nat) (reads : List Nat) : Prop where
  range : ∀ r ∈ reads, 0 < r ∧ r ≤ bufferSize
  sum : reads.sum = n

/-- Every read but the last one fills the buffer. -/
def FullReads (reads : List Nat) : Prop := ∀ r ∈ reads.dropLast, r = bufferSize

theorem length_writeLong (v : Int) : (writeLong v).length = 8 := by
  rw [writeLong, BigEndian.length_encode]

theorem decode_writeLong (v : Int) : (BigEndian.decode (writeLong v) : Int) = v % 2 ^ 64 := by
  have hlt : (v % 2 ^ 64).toNat < 256 ^ 8 := by omega
  have hpos : 0 ≤ v % 2 ^ 64 := by omega
  rw [writeLong, BigEndian.decode_encode_of_lt hlt, Int.toNat_of_nonneg hpos]

theorem readLong_writeLong {v : Int} (h : -2 ^ 63 ≤ v) (h' : v < 2 ^ 63) :
    readLong (writeLong v) = v := by
  unfold readLong
  rw [decode_writeLong, Int.bmod_def]
  omega

theorem writeLong_readLong {bs : List UInt8} (h : bs.length = 8) :
    writeLong (readLong bs) = bs := by
  have hlt := BigEndian.decode_lt bs
  rw [h] at hlt
  have hmod : (readLong bs % 2 ^ 64).toNat = BigEndian.decode bs := by
    unfold readLong
    rw [Int.bmod_def]
    omega
  have hbytes := BigEndian.encode_decode bs
  rw [h] at hbytes
  rw [writeLong, hmod, hbytes]

theorem readLong_lt (bs : List UInt8) : readLong bs < 2 ^ 63 := by
  unfold readLong
  rw [Int.bmod_def]
  omega

theorem length_overwrite {buffer bytes : List UInt8} (h : bytes.length ≤ buffer.length) :
    (overwrite buffer bytes).length = buffer.length := by
  simp [overwrite]
  omega

namespace Client

variable {buffer file : List UInt8} {reads : List Nat} {n : Nat}

theorem length_nameBlock {string : List UInt8} (h : string.length ≤ bufferSize) :
    (nameBlock string).length = bufferSize := by
  rw [nameBlock, length_overwrite (by simpa using h), List.length_replicate]

theorem length_body (hb : buffer.length = bufferSize) (hr : ∀ r ∈ reads, r ≤ bufferSize) :
    (body buffer file reads).length = bufferSize * reads.length := by
  induction reads generalizing buffer file with
  | nil => rfl
  | cons r reads ih =>
    have hlen : (overwrite buffer (file.take r)).length = bufferSize := by
      rw [length_overwrite, hb]
      have := hr r List.mem_cons_self
      simp
      omega
    have htail := @ih (overwrite buffer (file.take r)) (file.drop r) hlen fun r' h =>
      hr r' (List.mem_cons_of_mem _ h)
    simp [body, hlen, htail, Nat.mul_succ, Nat.add_comm]

theorem body_full (hb : buffer.length = bufferSize) (hf : bufferSize ≤ file.length) :
    body buffer file (bufferSize :: reads) =
      file.take bufferSize ++ body (file.take bufferSize) (file.drop bufferSize) reads := by
  have hlen : (file.take bufferSize).length = buffer.length := by
    rw [List.length_take, hb]
    omega
  simp only [body, overwrite, hlen, List.drop_length, List.append_nil]

/-- With full reads the file is what was written first. -/
theorem take_body (hb : buffer.length = bufferSize) (hr : FileReads file.length reads)
    (hfull : FullReads reads) : (body buffer file reads).take file.length = file := by
  induction reads generalizing buffer file with
  | nil =>
    have h0 : file.length = 0 := by simpa using hr.sum.symm
    simp [body, List.eq_nil_of_length_eq_zero h0]
  | cons r reads ih =>
    have hsum := hr.sum
    rw [List.sum_cons] at hsum
    cases reads with
    | nil =>
      have hlen : r = file.length := by simpa using hsum
      simp [body, overwrite, hlen]
    | cons r' reads =>
      obtain rfl : r = bufferSize := hfull r (by simp)
      have hle : bufferSize ≤ file.length := by omega
      have htake : (file.take bufferSize).length = bufferSize := by
        rw [List.length_take]
        omega
      have htail : FileReads (file.drop bufferSize).length (r' :: reads) := by
        refine ⟨fun q hq => hr.range q (List.mem_cons_of_mem _ hq), ?_⟩
        rw [List.length_drop]
        omega
      have hrest := @ih (file.take bufferSize) _ htake htail fun q hq => hfull q (by simp [hq])
      rw [List.length_drop] at hrest
      rw [body_full hb hle, List.take_append, htake, hrest, List.take_of_length_le (by omega),
        List.take_append_drop]

/-- A short read leaves an old byte behind what it read. -/
theorem body_short {r : Nat} (file : List UInt8) (reads : List Nat)
    (hb : buffer.length = bufferSize) (hr : r < bufferSize) (hf : r ≤ file.length) :
    (body buffer file (r :: reads))[r]? = buffer[r]? := by
  have htake : (file.take r).length = r := by
    rw [List.length_take]
    omega
  have hlen : r < (overwrite buffer (file.take r)).length := by
    rw [length_overwrite (by omega)]
    omega
  rw [body, List.getElem?_append_left hlen, overwrite, htake, List.getElem?_append_right (by omega),
    htake, Nat.sub_self, List.getElem?_drop, Nat.add_zero]

/-- If all files of one length come first in what is written for them, the reads were full:
the byte left behind a short read is the same for all of them. -/
theorem fullReads_of_take_body (hb : buffer.length = bufferSize) (hr : FileReads n reads)
    (h : ∀ file : List UInt8, file.length = n → (body buffer file reads).take n = file) :
    FullReads reads := by
  induction reads generalizing buffer n with
  | nil => simp [FullReads]
  | cons r reads ih =>
    have hrange := hr.range r List.mem_cons_self
    have hsum := hr.sum
    rw [List.sum_cons] at hsum
    cases reads with
    | nil => simp [FullReads]
    | cons r' reads =>
      have hpos := (hr.range r' (by simp)).1
      have hlt : r < n := by
        rw [List.sum_cons] at hsum
        omega
      obtain rfl : r = bufferSize := by
        by_contra hshort
        have hbyte : ∀ b : UInt8, some b = buffer[r]? := by
          intro b
          have hlen : (List.replicate n b).length = n := List.length_replicate
          have hfile := h (List.replicate n b) hlen
          have hold := body_short (List.replicate n b) (r' :: reads) hb (by omega) (hlen ▸ hlt.le)
          rw [← hold, ← List.getElem?_take_of_lt hlt, hfile]
          simp [hlt]
        exact absurd ((hbyte 0).trans (hbyte 1).symm) (by decide)
      have htail : FileReads (n - bufferSize) (r' :: reads) :=
        ⟨fun q hq => hr.range q (List.mem_cons_of_mem _ hq), by omega⟩
      have hrest := @ih (List.replicate bufferSize 0) _ List.length_replicate htail ?_
      · intro q hq
        rw [List.dropLast_cons_cons, List.mem_cons] at hq
        rcases hq with rfl | hq
        · rfl
        · exact hrest q hq
      · intro file hfile
        have hlen : (List.replicate bufferSize 0 : List UInt8).length = bufferSize :=
          List.length_replicate
        have hwhole := h (List.replicate bufferSize 0 ++ file) (by
          rw [List.length_append, hlen]
          omega)
        have hfull : bufferSize ≤ (List.replicate bufferSize 0 ++ file).length := by
          rw [List.length_append, hlen]
          omega
        rw [body_full hb hfull, List.take_left' hlen, List.drop_left' hlen, List.take_append, hlen,
          List.take_of_length_le (by omega)] at hwhole
        exact List.append_cancel_left hwhole

end Client

end NetworkLabs.Upload
