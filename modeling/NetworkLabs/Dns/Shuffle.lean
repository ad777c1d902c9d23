import NetworkLabs.Dns.Iteration
import Mathlib.Data.Prod.Lex

/-! Records in a random order within each section. -/
namespace NetworkLabs.Dns

open Selection

/-- The `sbox` of `dns_k_shuffle16`. -/
def sboxTable : List Nat :=
  [
    0x63, 0x7c, 0x77, 0x7b, 0xf2, 0x6b, 0x6f, 0xc5, 0x30, 0x01, 0x67, 0x2b, 0xfe, 0xd7, 0xab, 0x76,
    0xca, 0x82, 0xc9, 0x7d, 0xfa, 0x59, 0x47, 0xf0, 0xad, 0xd4, 0xa2, 0xaf, 0x9c, 0xa4, 0x72, 0xc0,
    0xb7, 0xfd, 0x93, 0x26, 0x36, 0x3f, 0xf7, 0xcc, 0x34, 0xa5, 0xe5, 0xf1, 0x71, 0xd8, 0x31, 0x15,
    0x04, 0xc7, 0x23, 0xc3, 0x18, 0x96, 0x05, 0x9a, 0x07, 0x12, 0x80, 0xe2, 0xeb, 0x27, 0xb2, 0x75,
    0x09, 0x83, 0x2c, 0x1a, 0x1b, 0x6e, 0x5a, 0xa0, 0x52, 0x3b, 0xd6, 0xb3, 0x29, 0xe3, 0x2f, 0x84,
    0x53, 0xd1, 0x00, 0xed, 0x20, 0xfc, 0xb1, 0x5b, 0x6a, 0xcb, 0xbe, 0x39, 0x4a, 0x4c, 0x58, 0xcf,
    0xd0, 0xef, 0xaa, 0xfb, 0x43, 0x4d, 0x33, 0x85, 0x45, 0xf9, 0x02, 0x7f, 0x50, 0x3c, 0x9f, 0xa8,
    0x51, 0xa3, 0x40, 0x8f, 0x92, 0x9d, 0x38, 0xf5, 0xbc, 0xb6, 0xda, 0x21, 0x10, 0xff, 0xf3, 0xd2,
    0xcd, 0x0c, 0x13, 0xec, 0x5f, 0x97, 0x44, 0x17, 0xc4, 0xa7, 0x7e, 0x3d, 0x64, 0x5d, 0x19, 0x73,
    0x60, 0x81, 0x4f, 0xdc, 0x22, 0x2a, 0x90, 0x88, 0x46, 0xee, 0xb8, 0x14, 0xde, 0x5e, 0x0b, 0xdb,
    0xe0, 0x32, 0x3a, 0x0a, 0x49, 0x06, 0x24, 0x5c, 0xc2, 0xd3, 0xac, 0x62, 0x91, 0x95, 0xe4, 0x79,
    0xe7, 0xc8, 0x37, 0x6d, 0x8d, 0xd5, 0x4e, 0xa9, 0x6c, 0x56, 0xf4, 0xea, 0x65, 0x7a, 0xae, 0x08,
    0xba, 0x78, 0x25, 0x2e, 0x1c, 0xa6, 0xb4, 0xc6, 0xe8, 0xdd, 0x74, 0x1f, 0x4b, 0xbd, 0x8b, 0x8a,
    0x70, 0x3e, 0xb5, 0x66, 0x48, 0x03, 0xf6, 0x0e, 0x61, 0x35, 0x57, 0xb9, 0x86, 0xc1, 0x1d, 0x9e,
    0xe1, 0xf8, 0x98, 0x11, 0x69, 0xd9, 0x8e, 0x94, 0x9b, 0x1e, 0x87, 0xe9, 0xce, 0x55, 0x28, 0xdf,
    0x8c, 0xa1, 0x89, 0x0d, 0xbf, 0xe6, 0x42, 0x68, 0x41, 0x99, 0x2d, 0x0f, 0xb0, 0x54, 0xbb, 0x16]

def sbox (x : UInt8) : UInt8 := .ofNat (sboxTable.getD x.toNat 0)

/-- One pass of the loop, with the lowest byte of the seed. -/
def shuffleRound (s : UInt8) (b : UInt8 × UInt8) : UInt8 × UInt8 :=
  let a := sbox (b.1 ^^^ s) ^^^ b.2
  (a, sbox b.2 ^^^ a)

/-- The loop of `dns_k_shuffle16`. -/
def shuffleLoop : Nat → UInt32 → UInt8 × UInt8 → UInt8 × UInt8
  | 0, _, b => b
  | n + 1, s, b => shuffleLoop n (s >>> 8) (shuffleRound s.toUInt8 b)

/-- `dns_k_shuffle16`. -/
def shuffle16 (n : UInt16) (s : UInt32) : Nat :=
  let b := shuffleLoop 4 s (n.toUInt8, (n >>> 8).toUInt8)
  b.1.toNat * 256 + b.2.toNat

/-- `dns_rr_i_shuffle` with the number that it draws. -/
def shuffleOrder (s : UInt32) (a b : Record) : Int :=
  if a.sec = b.sec then shuffle16 (.ofNat a.dn) s - shuffle16 (.ofNat b.dn) s else a.sec - b.sec

theorem sboxTable_nodup : sboxTable.Nodup := by decide +kernel

theorem sboxTable_lt : ∀ v ∈ sboxTable, v < 256 := by decide +kernel

theorem length_sboxTable : sboxTable.length = 256 := by decide +kernel

theorem sbox_injective {x y : UInt8} (h : sbox x = sbox y) : x = y := by
  have hget (z : UInt8) : ∃ hz : z.toNat < sboxTable.length,
      (sbox z).toNat = sboxTable[z.toNat] := by
    have hz : z.toNat < sboxTable.length := by
      rw [length_sboxTable]
      exact z.toNat_lt
    refine ⟨hz, ?_⟩
    rw [sbox, List.getD_eq_getElem?_getD, List.getElem?_eq_getElem hz, Option.getD_some,
      UInt8.toNat_ofNat',
      Nat.mod_eq_of_lt (sboxTable_lt _ (List.getElem_mem hz))]
  obtain ⟨hx, hsx⟩ := hget x
  obtain ⟨hy, hsy⟩ := hget y
  rw [h, hsy] at hsx
  exact UInt8.toNat_inj.mp ((List.Nodup.getElem_inj_iff sboxTable_nodup).mp hsx.symm)

theorem xor_cancel {x y z : UInt8} (h : x ^^^ z = y ^^^ z) : x = y := by
  have hxor := congrArg (· ^^^ z) h
  simpa [UInt8.xor_assoc] using hxor

theorem shuffleRound_injective {s : UInt8} {b c : UInt8 × UInt8}
    (h : shuffleRound s b = shuffleRound s c) : b = c := by
  obtain ⟨h1, h2⟩ := Prod.mk.inj h
  rw [h1] at h2
  have hsnd : b.2 = c.2 := sbox_injective (xor_cancel h2)
  rw [hsnd] at h1
  have hfst : b.1 = c.1 := xor_cancel (sbox_injective (xor_cancel h1))
  exact Prod.ext hfst hsnd

theorem shuffleLoop_injective (n : Nat) {s : UInt32} {b c : UInt8 × UInt8}
    (h : shuffleLoop n s b = shuffleLoop n s c) : b = c := by
  induction n generalizing s b c with
  | zero => exact h
  | succ n ih => exact shuffleRound_injective (ih h)

/-- Two places are not confused. -/
theorem shuffle16_injective {n k : UInt16} {s : UInt32} (h : shuffle16 n s = shuffle16 k s) :
    n = k := by
  unfold shuffle16 at h
  dsimp only at h
  have hn := (shuffleLoop 4 s (n.toUInt8, (n >>> 8).toUInt8)).2.toNat_lt
  have hk := (shuffleLoop 4 s (k.toUInt8, (k >>> 8).toUInt8)).2.toNat_lt
  have hhalves : (n.toUInt8, (n >>> 8).toUInt8) = (k.toUInt8, (k >>> 8).toUInt8) := by
    apply shuffleLoop_injective 4 (s := s)
    apply Prod.ext
    · apply UInt8.toNat_inj.mp
      omega
    · apply UInt8.toNat_inj.mp
      omega
  obtain ⟨hlow, hhigh⟩ := Prod.mk.inj hhalves
  have hlow := congrArg UInt8.toNat hlow
  have hhigh := congrArg UInt8.toNat hhigh
  have hnlt := n.toNat_lt
  have hklt := k.toNat_lt
  simp [Nat.shiftRight_eq_div_pow] at hlow hhigh
  apply UInt16.toNat_inj.mp
  omega

/-- By section, and by the shuffled place within one. -/
def shuffleKey (s : UInt32) (r : Record) : ℕ ×ₗ ℕ := toLex (r.sec, shuffle16 (.ofNat r.dn) s)

variable {P : Packet} {i : Iter} {s : UInt32} {fuel : Nat}

namespace Iter

theorem sorts_shuffle (h : i.sort = some (shuffleOrder s)) : i.Sorts (shuffleKey s) := by
  have hlt (a b : Record) : shuffleOrder s a b < 0 ↔ shuffleKey s a < shuffleKey s b := by
    rw [shuffleOrder, shuffleKey, shuffleKey, Prod.Lex.toLex_lt_toLex]
    split
    · rename_i hsec
      omega
    · rename_i hsec
      omega
  have hflip (a b : Record) : 0 < shuffleOrder s a b ↔ shuffleOrder s b a < 0 := by
    unfold shuffleOrder
    split
    · rename_i hsec
      rw [if_pos hsec.symm]
      omega
    · rename_i hsec
      rw [if_neg (Ne.symm hsec)]
      omega
  constructor
  · intro a b
    rw [order, h]
    exact hlt a b
  · intro a b
    rw [order, h]
    exact (hflip a b).trans (hlt b a)

/-- With `dns_rr_i_shuffle`, every wanted record comes up once, section by section, whatever number
was drawn and however the calls are cut. -/
theorem calls_shuffle (hsound : P.Sound) (h : i.Readable fuel P)
    (hsort : i.sort = some (shuffleOrder s)) :
    ∃ rs' : List Record, rs'.Perm (i.wanted fuel P) ∧
      rs'.Pairwise (fun a b => a.sec ≤ b.sec) ∧
      ∀ lims, ∃ rs, i.calls fuel P none lims = some rs ∧ rs.flatten = rs'.take lims.sum := by
  have hsorts := sorts_shuffle hsort
  have hpairwise : (i.wanted fuel P).Pairwise fun a b => a.dn < b.dn :=
    filterMap_pairwise (fun p r hr => (found_spec hr).1) _ _
  have hnodup : (i.wanted fuel P).Nodup := by
    apply hpairwise.imp
    intro a b hlt heq
    exact absurd (congrArg Record.dn heq) (Nat.ne_of_lt hlt)
  refine ⟨listing i.before (i.wanted fuel P).length (i.wanted fuel P), ?_, ?_, fun lims => ?_⟩
  · apply listing_perm hsorts.orders (Nat.le_refl _) hnodup
    intro a ha b hb hkey
    have hshuffle := shuffle16_injective (Prod.mk.inj (toLex.injective hkey)).2
    have hdn := congrArg UInt16.toNat hshuffle
    obtain ⟨hamem, hafound⟩ := mem_wanted ha
    obtain ⟨hbmem, hbfound⟩ := mem_wanted hb
    have hsize := h.short
    have halt := (mem_places hamem).2
    have hblt := (mem_places hbmem).2
    rw [UInt16.toNat_ofNat', UInt16.toNat_ofNat', Nat.mod_eq_of_lt (by omega),
      Nat.mod_eq_of_lt (by omega)] at hdn
    rw [hdn] at hafound
    exact Option.some.inj (hafound.symm.trans hbfound)
  · apply (listing_pairwise hsorts.orders _ _).imp
    intro a b hlt
    rcases Prod.Lex.toLex_lt_toLex.mp hlt with hsec | ⟨hsec, -⟩
    · exact Nat.le_of_lt hsec
    · exact Nat.le_of_eq hsec
  · refine ⟨_, calls_eq hsound h hsorts lims, ?_⟩
    rw [flatten_pieces, listing_eq_take hsorts.orders _ (Nat.le_refl _)]

theorem calls_shuffle_addresses :
    ∃ rs' : List Record,
      rs'.Perm (({ addressesOf [65, 46] with sort := some (shuffleOrder 7) } : Iter).wanted 40
        twoAddresses) ∧
      rs'.Pairwise (fun a b => a.sec ≤ b.sec) ∧
      ∀ lims, ∃ rs,
        ({ addressesOf [65, 46] with sort := some (shuffleOrder 7) } : Iter).calls 40 twoAddresses
          none lims = some rs ∧ rs.flatten = rs'.take lims.sum :=
  calls_shuffle (Packet.sound_of_blank rfl) ⟨by decide, .inr (by decide)⟩ rfl

end Iter

end NetworkLabs.Dns
