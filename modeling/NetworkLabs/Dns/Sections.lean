import NetworkLabs.Dns.Places

/-! The sections of a packet: what `dns_p_study` notes down about them is what counting the records
gives. -/
namespace NetworkLabs.Dns

open Function

variable {data : List UInt8} {P : Packet} {p q n j k fuel index : Nat}

/-- One record further, but not behind the end. -/
def advance (data : List UInt8) (p : Nat) : Nat :=
  if p < data.length then Record.skip data p else p

/-- Where the record with number `j` begins. -/
def place (data : List UInt8) (j : Nat) : Nat := (advance data)^[j] 12

theorem place_succ (data : List UInt8) (j : Nat) :
    place data (j + 1) = advance data (place data j) := iterate_succ_apply' _ _ _

theorem le_advance (data : List UInt8) (p : Nat) : p ≤ advance data p := by
  unfold advance
  split
  · rename_i hp
    exact Nat.le_of_lt (Record.skip_bounds hp).1
  · exact Nat.le_refl p

theorem lt_advance (hp : p < data.length) : p < advance data p := by
  rw [advance, if_pos hp]
  exact (Record.skip_bounds hp).1

theorem place_le (hle : j ≤ k) : place data j ≤ place data k := by
  induction hle with
  | refl => exact Nat.le_refl _
  | step _ ih =>
    rw [place_succ]
    exact ih.trans (le_advance _ _)

theorem place_lt (hlt : j < k) (hj : place data j < data.length) : place data j < place data k := by
  have hsucc : place data j < place data (j + 1) := by
    rw [place_succ]
    exact lt_advance hj
  exact Nat.lt_of_lt_of_le hsucc (place_le hlt)

theorem place_lt_iff (hj : place data j < data.length) : place data j < place data k ↔ j < k :=
  ⟨fun h => Nat.lt_of_not_ge fun hle => absurd (place_le hle) (Nat.not_le_of_gt h),
    fun h => place_lt h hj⟩

theorem le_place (hj : place data j < data.length) : 12 + j ≤ place data j := by
  induction j with
  | zero => exact Nat.le_refl _
  | succ j ih =>
    have hlt : place data j < data.length :=
      Nat.lt_of_le_of_lt (place_le (Nat.le_add_right j 1)) hj
    have hstep := place_lt (Nat.lt_add_one j) hlt
    have hrest := ih hlt
    omega

theorem placesFrom_place (hj : place data j < data.length) :
    placesFrom data (place data j) = place data j :: placesFrom data (place data (j + 1)) := by
  rw [placesFrom_of_lt hj, place_succ, advance, if_pos hj]

theorem exists_place (h : p ∈ placesFrom data (place data j)) : ∃ k, j ≤ k ∧ p = place data k := by
  induction hn : data.length - place data j using Nat.strong_induction_on generalizing j with
  | _ n ih =>
    rcases Nat.lt_or_ge (place data j) data.length with hlt | hge
    · rw [placesFrom_place hlt] at h
      rcases List.mem_cons.mp h with rfl | h
      · exact ⟨j, Nat.le_refl j, rfl⟩
      · have hstep := place_lt (Nat.lt_add_one j) hlt
        obtain ⟨k, hk, rfl⟩ := ih _ (by omega) h rfl
        exact ⟨k, by omega, rfl⟩
    · rw [placesFrom_of_le hge] at h
      cases h

namespace Packet

theorem studyLoop_place (n j : Nat) : studyLoop data n (place data j) = place data (j + n) := by
  induction n generalizing j with
  | zero => rfl
  | succ n ih =>
    unfold studyLoop
    split
    · rename_i hlt
      have hstep : Record.skip data (place data j) = place data (j + 1) := by
        rw [place_succ, advance, if_pos hlt]
      rw [hstep, ih, Nat.add_assoc, Nat.add_comm 1]
    · rename_i hge
      have hstay (m : Nat) : place data (j + m) = place data j := by
        induction m with
        | zero => rfl
        | succ m ihm => rw [← Nat.add_assoc, place_succ, ihm, advance, if_neg hge]
      rw [hstay]

theorem indexLoop_place (hk : place data k < data.length) (hle : j ≤ k) (hn : k - j ≤ n) :
    indexLoop data (place data k) n (place data j) index = index + (k - j) := by
  induction n generalizing j index with
  | zero =>
    obtain rfl : j = k := by omega
    rw [indexLoop, Nat.sub_self, Nat.add_zero]
  | succ n ih =>
    unfold indexLoop
    rcases Nat.lt_or_ge j k with hlt | hge
    · have hj : place data j < data.length := Nat.lt_of_le_of_lt (place_le hle) hk
      have hstep : Record.skip data (place data j) = place data (j + 1) := by
        rw [place_succ, advance, if_pos hj]
      rw [if_pos ⟨place_lt hlt hj, hj⟩, hstep, ih hlt (by omega)]
      omega
    · obtain rfl : j = k := by omega
      rw [if_neg (fun h => Nat.lt_irrefl _ h.1), Nat.sub_self, Nat.add_zero]

/-- The number of the first record behind a section. -/
def qdEnd (data : List UInt8) : Nat := count data qd
def anEnd (data : List UInt8) : Nat := qdEnd data + count data an
def nsEnd (data : List UInt8) : Nat := anEnd data + count data ns
def arEnd (data : List UInt8) : Nat := nsEnd data + count data ar

/-- The section of the record with number `j`. -/
def sectionOf (data : List UInt8) (j : Nat) : Nat :=
  if j < qdEnd data then qd
  else if j < anEnd data then an
  else if j < nsEnd data then ns
  else if j < arEnd data then ar
  else 0

theorem sectionLoop_eq (data : List UInt8) (j : Nat) :
    sectionLoop data j 4 qd (count data qd) = sectionOf data j := by
  have han : 2 * qd = an := rfl
  have hns : 2 * an = ns := rfl
  have har : 2 * ns = ar := rfl
  unfold sectionOf arEnd nsEnd anEnd qdEnd
  simp only [sectionLoop, han, hns, har]
  by_cases h1 : count data qd ≤ j
  · rw [if_pos h1, if_neg (Nat.not_lt_of_ge h1)]
    by_cases h2 : count data qd + count data an ≤ j
    · rw [if_pos h2, if_neg (Nat.not_lt_of_ge h2)]
      by_cases h3 : count data qd + count data an + count data ns ≤ j
      · rw [if_pos h3, if_neg (Nat.not_lt_of_ge h3)]
        by_cases h4 : count data qd + count data an + count data ns + count data ar ≤ j
        · rw [if_pos h4, if_neg (Nat.not_lt_of_ge h4)]
          rfl
        · rw [if_neg h4, if_pos (Nat.lt_of_not_ge h4)]
          rfl
      · rw [if_neg h3, if_pos (Nat.lt_of_not_ge h3)]
        rfl
    · rw [if_neg h2, if_pos (Nat.lt_of_not_ge h2)]
      rfl
  · rw [if_neg h1, if_pos (Nat.lt_of_not_ge h1)]
    rfl

theorem counted_place (hj : place data j < data.length) :
    counted data (place data j) = sectionOf data j := by
  have hle := le_place hj
  have hindex : indexLoop data (place data j) data.length (place data 0) 0 = 0 + (j - 0) :=
    indexLoop_place hj (Nat.zero_le j) (by omega)
  rw [Nat.sub_zero, Nat.zero_add] at hindex
  rw [counted, show indexLoop data (place data j) data.length 12 0 = j from hindex, sectionLoop_eq]

/-- What the memo says about the sections. -/
def extents (P : Packet) : Extent × Extent × Extent × Extent :=
  (P.memo.qd, P.memo.an, P.memo.ns, P.memo.ar)

/-- What is there to be said. -/
def studied (data : List UInt8) : Extent × Extent × Extent × Extent :=
  (⟨12, place data (qdEnd data)⟩, ⟨place data (qdEnd data), place data (anEnd data)⟩,
    ⟨place data (anEnd data), place data (nsEnd data)⟩,
    ⟨place data (nsEnd data), place data (arEnd data)⟩)

/-- The memo says nothing, or it is right. -/
def Sound (P : Packet) : Prop :=
  P.extents = (⟨0, 0⟩, ⟨0, 0⟩, ⟨0, 0⟩, ⟨0, 0⟩) ∨ P.extents = studied P.data

theorem has_place (hj : place data j < data.length) (b e : Nat) :
    Extent.has ⟨place data b, place data e⟩ (place data j) ↔ b ≤ j ∧ j < e := by
  have hstop : place data j < place data e ↔ j < e := place_lt_iff hj
  have hbase : place data b ≤ place data j ↔ b ≤ j := by
    refine ⟨fun h => Nat.le_of_not_lt fun hlt => ?_, place_le⟩
    exact absurd (place_lt hlt hj) (Nat.not_lt_of_ge h)
  exact and_congr hbase hstop

/-- With a sound memo, the section of a record is the one that counting gives. -/
theorem Sound.sectionAt (h : P.Sound) (hj : place P.data j < P.data.length) :
    P.sectionAt (place P.data j) = sectionOf P.data j := by
  unfold Packet.sectionAt
  rcases h with hzero | hstudied
  · obtain ⟨hqd, han, hns, har⟩ : P.memo.qd = ⟨0, 0⟩ ∧ P.memo.an = ⟨0, 0⟩ ∧ P.memo.ns = ⟨0, 0⟩ ∧
        P.memo.ar = ⟨0, 0⟩ := by
      simpa [extents] using hzero
    have hnot (p : Nat) : ¬ Extent.has ⟨0, 0⟩ p := fun h => absurd h.2 (Nat.not_lt_zero p)
    rw [hqd, han, hns, har, if_neg (hnot _), if_neg (hnot _), if_neg (hnot _), if_neg (hnot _),
      counted_place hj]
  · obtain ⟨hqd, han, hns, har⟩ : P.memo.qd = ⟨place P.data 0, place P.data (qdEnd P.data)⟩ ∧
        P.memo.an = ⟨place P.data (qdEnd P.data), place P.data (anEnd P.data)⟩ ∧
        P.memo.ns = ⟨place P.data (anEnd P.data), place P.data (nsEnd P.data)⟩ ∧
        P.memo.ar = ⟨place P.data (nsEnd P.data), place P.data (arEnd P.data)⟩ := by
      simpa [extents, studied, place] using hstudied
    rw [hqd, han, hns, har, counted_place hj]
    simp only [has_place hj]
    unfold sectionOf
    by_cases h1 : j < qdEnd P.data
    · rw [if_pos ⟨Nat.zero_le j, h1⟩, if_pos h1]
    rw [if_neg (fun h => h1 h.2), if_neg h1]
    by_cases h2 : j < anEnd P.data
    · rw [if_pos ⟨Nat.le_of_not_lt h1, h2⟩, if_pos h2]
    rw [if_neg (fun h => h2 h.2), if_neg h2]
    by_cases h3 : j < nsEnd P.data
    · rw [if_pos ⟨Nat.le_of_not_lt h2, h3⟩, if_pos h3]
    rw [if_neg (fun h => h3 h.2), if_neg h3]
    by_cases h4 : j < arEnd P.data
    · rw [if_pos ⟨Nat.le_of_not_lt h3, h4⟩, if_pos h4]
    · rw [if_neg (fun h => h4 h.2), if_neg h4]

theorem sound_of_blank (h : P.memo = .zero) : P.Sound := by
  left
  rw [extents, h]
  rfl

/-- What `dns_p_study` notes down is right. -/
theorem study_extents (P : Packet) : P.study.extents = studied P.data ∧ P.study.data = P.data := by
  have hextent (sec j : Nat) : extent P.data sec (place P.data j) =
      ⟨place P.data j, place P.data (j + count P.data sec)⟩ := by
    rw [extent, studyLoop_place]
  have hqd : extent P.data qd 12 = ⟨12, place P.data (qdEnd P.data)⟩ := by
    have h := hextent qd 0
    rw [Nat.zero_add] at h
    exact h
  unfold study
  simp only [hqd, hextent]
  split
  · exact ⟨rfl, rfl⟩
  · exact ⟨rfl, rfl⟩

theorem study_sound (P : Packet) : P.study.Sound ∧ P.study.data = P.data := by
  obtain ⟨hextents, hdata⟩ := P.study_extents
  exact ⟨.inr (by rw [hextents, hdata]), hdata⟩

end Packet

end NetworkLabs.Dns
