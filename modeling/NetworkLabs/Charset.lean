import Mathlib.Data.List.Basic
import Mathlib.Tactic.Common

/-! Character sets in which ASCII is what it is, NUL and the zero byte go together, and a text can
be read back. -/

/-- `decode` takes any bytes; on what `encode` does not make it may do anything but give a NUL for
bytes without a zero. -/
structure Charset where
  encode : List Char → List UInt8
  decode : List UInt8 → List Char
  encode_append : ∀ s t, encode (s ++ t) = encode s ++ encode t
  encode_ascii : ∀ c : Char, c.toNat < 128 → encode [c] = [UInt8.ofNat c.toNat]
  nul_mem : ∀ s, 0 ∈ encode s → '\x00' ∈ s
  decode_encode : ∀ s, decode (encode s) = s
  zero_mem : ∀ bs, '\x00' ∈ decode bs → 0 ∈ bs

namespace Charset

variable {cs : Charset} {s : List Char} {c : Char}

theorem encode_nil : cs.encode [] = [] := by
  have h := cs.encode_append [] []
  simpa using h

/-- One byte for each ASCII character. -/
theorem length_encode_ascii (h : ∀ c ∈ s, c.toNat < 128) : (cs.encode s).length = s.length := by
  induction s with
  | nil => rw [encode_nil, List.length_nil, List.length_nil]
  | cons c s ih =>
    have hs := ih fun c' hc' => h c' (List.mem_cons_of_mem c hc')
    rw [← List.singleton_append, encode_append, encode_ascii _ c (h c List.mem_cons_self),
      List.length_append, hs, List.length_append]
    rfl

theorem encode_replicate_nul (n : Nat) :
    cs.encode (List.replicate n '\x00') = List.replicate n 0 := by
  induction n with
  | zero => exact encode_nil
  | succ n ih =>
    rw [List.replicate_succ, List.replicate_succ, ← List.singleton_append, encode_append, ih,
      encode_ascii _ _ (by decide)]
    rfl

/-- Zero bytes behind a text are read as NULs behind it. -/
theorem decode_encode_append_zeros (s : List Char) (n : Nat) :
    cs.decode (cs.encode s ++ List.replicate n 0) = s ++ List.replicate n '\x00' := by
  rw [← encode_replicate_nul, ← encode_append, decode_encode]

section Utf8

/-- Bytes that are no character are replaced. -/
def utf8Decode : Nat → List UInt8 → List Char
  | 0, _ => []
  | _ + 1, [] => []
  | fuel + 1, b :: bs =>
    match ((b :: bs).toByteArray).utf8DecodeChar? 0 with
    | some c => c :: utf8Decode fuel ((b :: bs).drop c.utf8Size)
    | none => Char.ofNat 0xFFFD :: utf8Decode fuel bs

theorem utf8EncodeChar_ascii (h : c.toNat < 128) :
    String.utf8EncodeChar c = [UInt8.ofNat c.toNat] := by
  have hle : c.val.toNat ≤ 0x7f := by
    change c.toNat ≤ 127
    omega
  simp only [String.utf8EncodeChar, if_pos hle]
  rfl

/-- The bytes of other characters are at least `0x80`. -/
theorem nul_of_zero_mem_utf8EncodeChar (h : 0 ∈ String.utf8EncodeChar c) : c = '\x00' := by
  have hzero : ∀ n : Nat, (0 : UInt8) = UInt8.ofNat n → n % 256 = 0 := by
    intro n hn
    have hval := congrArg UInt8.toNat hn
    simpa using hval.symm
  have hv : c.val.toNat < 0x110000 := by
    have hvalid := c.valid
    simp only [UInt32.isValidChar, Nat.isValidChar] at hvalid
    omega
  simp only [String.utf8EncodeChar] at h
  split at h
  · obtain h := hzero _ (List.mem_singleton.mp h)
    apply Char.ext
    apply UInt32.toNat_inj.mp
    change c.val.toNat = 0
    omega
  split at h
  · simp only [List.mem_cons, List.not_mem_nil, or_false] at h
    rcases h with h | h <;> have hbyte := hzero _ h <;> omega
  split at h
  · simp only [List.mem_cons, List.not_mem_nil, or_false] at h
    rcases h with h | h | h <;> have hbyte := hzero _ h <;> omega
  · simp only [List.mem_cons, List.not_mem_nil, or_false] at h
    rcases h with h | h | h | h <;> have hbyte := hzero _ h <;> omega

theorem utf8Decode_append (fuel : Nat) (c : Char) (bs : List UInt8) :
    utf8Decode (fuel + 1) (String.utf8EncodeChar c ++ bs) = c :: utf8Decode fuel bs := by
  have hlength := String.length_utf8EncodeChar c
  have hpos := c.utf8Size_pos
  have hdrop : (String.utf8EncodeChar c ++ bs).drop c.utf8Size = bs :=
    List.drop_left' hlength
  have hchar : ((String.utf8EncodeChar c ++ bs).toByteArray).utf8DecodeChar? 0 = some c := by
    rw [List.toByteArray_append]
    exact ByteArray.utf8DecodeChar?_utf8EncodeChar_append
  cases hbs : String.utf8EncodeChar c ++ bs with
  | nil =>
    have hempty := congrArg List.length hbs
    rw [List.length_append, List.length_nil] at hempty
    omega
  | cons b rest =>
    rw [hbs] at hchar hdrop
    simp only [utf8Decode, hchar, hdrop]

theorem utf8Decode_encode (s : List Char) (fuel : Nat) (h : s.length ≤ fuel) :
    utf8Decode fuel (s.flatMap String.utf8EncodeChar) = s := by
  induction s generalizing fuel with
  | nil => cases fuel <;> rfl
  | cons c s ih =>
    cases fuel with
    | zero => simp at h
    | succ fuel =>
      rw [List.flatMap_cons, utf8Decode_append, ih fuel (by simpa using h)]

theorem zero_mem_of_utf8Decode (fuel : Nat) (bs : List UInt8)
    (h : '\x00' ∈ utf8Decode fuel bs) : 0 ∈ bs := by
  induction fuel generalizing bs with
  | zero => cases h
  | succ fuel ih =>
    cases bs with
    | nil => cases h
    | cons b bs =>
      rw [utf8Decode] at h
      split at h
      · rename_i c hc
        rcases List.mem_cons.mp h with rfl | h
        · obtain ⟨rest, hrest⟩ := ByteArray.exists_of_utf8DecodeChar?_eq_some hc
          have hbytes := congrArg (fun b : ByteArray => b.data.toList) hrest
          rw [List.toList_data_toByteArray] at hbytes
          rw [hbytes]
          simp [String.utf8EncodeChar]
        · exact List.mem_of_mem_drop (ih _ h)
      · rcases List.mem_cons.mp h with h | h
        · exact absurd h (by decide)
        · exact List.mem_cons_of_mem b (ih _ h)

theorem length_le_length_utf8 (s : List Char) :
    s.length ≤ (s.flatMap String.utf8EncodeChar).length := by
  induction s with
  | nil => exact Nat.le_refl 0
  | cons c s ih =>
    have hpos := c.utf8Size_pos
    rw [List.flatMap_cons, List.length_append, String.length_utf8EncodeChar, List.length_cons]
    omega

theorem zero_mem_utf8 {s : List Char} (h : 0 ∈ s.flatMap String.utf8EncodeChar) : '\x00' ∈ s := by
  obtain ⟨c, hc, hzero⟩ := List.mem_flatMap.mp h
  exact nul_of_zero_mem_utf8EncodeChar hzero ▸ hc

def utf8 : Charset where
  encode s := s.flatMap String.utf8EncodeChar
  decode bs := utf8Decode bs.length bs
  encode_append _ _ := List.flatMap_append
  encode_ascii c h := by
    rw [List.flatMap_singleton, utf8EncodeChar_ascii h]
  nul_mem _ h := zero_mem_utf8 h
  decode_encode s := utf8Decode_encode s _ (length_le_length_utf8 s)
  zero_mem bs h := zero_mem_of_utf8Decode _ bs h

end Utf8

end Charset
