import NetworkLabs.Chain
import NetworkLabs.Dns.Packet

/-! What is written into a packet as a name is read back as that name, up to the case of its
letters. -/
namespace NetworkLabs.Dns

open Chain

def lower (l : List UInt8) : List UInt8 := l.map tolower

/-- A label that can be told from the end, from its neighbours and from a pointer. -/
structure Plain (l : List UInt8) : Prop where
  nonempty : l ≠ []
  short : l.length < 64
  noNul : 0 ∉ l
  noDot : dot ∉ l

/-- A domain name; no label comes twice. -/
structure Name where
  labels : List (List UInt8)
  plain : ∀ l ∈ labels, Plain l
  distinct : (labels.map lower).Nodup

/-- The labels as text. -/
def dotted (ls : List (List UInt8)) : List UInt8 := ls.flatMap (· ++ [dot])

namespace Name

def text (nm : Name) : List UInt8 := if nm.labels = [] then [dot] else dotted nm.labels

/-- A name is given with its last dot or without it. -/
def Given (nm : Name) (dn : List UInt8) : Prop :=
  dn = nm.text ∨ nm.labels ≠ [] ∧ dn ++ [dot] = nm.text

end Name

/-- A label in a packet. -/
def wire (l : List UInt8) : List UInt8 := UInt8.ofNat l.length :: l

/-- The labels and the root. -/
def wireName (ls : List (List UInt8)) : List UInt8 := ls.flatMap wire ++ [0]

@[simp] theorem length_wire (l : List UInt8) : (wire l).length = l.length + 1 := rfl

theorem wireName_cons (l : List UInt8) (ls : List (List UInt8)) :
    wireName (l :: ls) = wire l ++ wireName ls := by
  simp [wireName]

theorem wireName_append (pre ls : List (List UInt8)) :
    wireName (pre ++ ls) = pre.flatMap wire ++ wireName ls := by
  simp [wireName]

namespace Domain

variable {dst src l l₀ w rest : List UInt8} {h : UInt8} {ls : List (List UInt8)} {c c' : Cursor}

namespace Cursor

/-- The two are at the same place, whatever their buffers hold. -/
def Even (c c' : Cursor) : Prop := c.p = c'.p ∧ c.x = c'.x ∧ c.n = c'.n

theorem even_foldl (h : Even c c') (src : List UInt8) :
    Even (src.foldl put c) (src.foldl put c') := by
  induction src generalizing c c' with
  | nil => exact h
  | cons ch src ih =>
    apply ih
    obtain ⟨hp, hx, hn⟩ := h
    unfold put
    split
    · exact ⟨hx, congrArg (· + 1) hx, rfl⟩
    · exact ⟨hp, congrArg (· + 1) hx, congrArg (· + 1) hn⟩

@[simp] theorem length_put (c : Cursor) (ch : UInt8) : (c.put ch).dst.length = c.dst.length := by
  unfold put
  split <;> simp [close]

@[simp] theorem length_foldl (c : Cursor) (src : List UInt8) :
    (src.foldl put c).dst.length = c.dst.length := by
  induction src generalizing c with
  | nil => rfl
  | cons ch src ih => rw [List.foldl_cons, ih, length_put]

@[simp] theorem length_finish (c : Cursor) : c.finish.1.length = c.dst.length := by
  unfold finish last close
  split <;> split <;> simp

theorem even_finish (h : Even c c') : c.finish.2 = c'.finish.2 := by
  obtain ⟨hp, hx, hn⟩ := h
  have hlast : c.last.2 = c'.last.2 := by
    unfold last
    rw [hn]
    split
    · exact hx
    · exact hp
  unfold finish
  rw [hlast]
  split
  · rfl
  · exact hlast

end Cursor

open Cursor

@[simp] theorem length_write (dst src : List UInt8) : (write dst src).1.length = dst.length := by
  simp [write]

/-- How many bytes a name needs does not depend on the buffer. -/
theorem write_count (dst dst' src : List UInt8) : (write dst src).2 = (write dst' src).2 := by
  apply even_finish
  apply even_foldl
  exact ⟨rfl, rfl, rfl⟩

theorem set_append (w : List UInt8) (h b : UInt8) (rest : List UInt8) :
    (w ++ h :: rest).set w.length b = w ++ b :: rest := by
  simp

/-- The cursor in a label whose bytes `l₀` are there, with `rest` behind them. -/
def inside (w l₀ : List UInt8) (h : UInt8) (rest : List UInt8) : Cursor :=
  ⟨w ++ h :: (l₀ ++ rest), w.length, w.length + 1 + l₀.length, l₀.length⟩

theorem put_inside {ch b : UInt8} (hch : ch ≠ dot) :
    (inside w l₀ h (b :: rest)).put ch = inside w (l₀ ++ [ch]) h rest := by
  have hset := set_append (w ++ h :: l₀) b ch rest
  simp only [List.length_append, List.length_cons, List.append_assoc, List.cons_append] at hset
  simp only [inside, Cursor.put, if_neg hch, List.length_append, List.length_cons, List.length_nil,
    List.append_assoc, List.cons_append, List.nil_append, Cursor.mk.injEq]
  refine ⟨?_, trivial, by omega, trivial⟩
  rw [← hset, Nat.add_right_comm, Nat.add_assoc]

theorem foldl_inside (hl : dot ∉ l) (hroom : l.length ≤ rest.length) :
    l.foldl Cursor.put (inside w l₀ h rest) = inside w (l₀ ++ l) h (rest.drop l.length) := by
  induction l generalizing l₀ rest with
  | nil => simp
  | cons ch l ih =>
    cases rest with
    | nil => simp at hroom
    | cons b rest =>
      rw [List.mem_cons, not_or] at hl
      rw [List.foldl_cons, put_inside (Ne.symm hl.1), ih hl.2 (by simpa using hroom)]
      simp

/-- The length of a label is stored in front of it. -/
theorem close_inside (hl : l.length < 64) : (inside w l h rest).close = w ++ wire l ++ rest := by
  simp only [inside, Cursor.close, Nat.mod_eq_of_lt hl, set_append]
  simp [wire]

theorem put_dot (hl : l.length < 64) {b : UInt8} :
    (inside w l h (b :: rest)).put dot = inside (w ++ wire l) [] b rest := by
  rw [Cursor.put, if_pos rfl, close_inside hl]
  simp [inside, Nat.add_assoc, Nat.add_comm 1]

/-- The labels are stored one behind the other. -/
theorem foldl_dotted (hls : ∀ l ∈ ls, Plain l) (hroom : (ls.flatMap wire).length ≤ rest.length) :
    ∃ h' rest', h' :: rest' = (h :: rest).drop (ls.flatMap wire).length ∧
      (dotted ls).foldl Cursor.put (inside w [] h rest) =
        inside (w ++ ls.flatMap wire) [] h' rest' := by
  induction ls generalizing w h rest with
  | nil => exact ⟨h, rest, rfl, by simp [dotted]⟩
  | cons l ls ih =>
    obtain ⟨hl, hls⟩ := List.forall_mem_cons.mp hls
    rw [List.flatMap_cons, List.length_append, length_wire] at hroom
    obtain ⟨b, rest', hrest⟩ : ∃ b rest', rest.drop l.length = b :: rest' := by
      apply List.exists_cons_of_length_pos
      rw [List.length_drop]
      omega
    have hlength := congrArg List.length hrest
    rw [List.length_drop, List.length_cons] at hlength
    have hroom' : (ls.flatMap wire).length ≤ rest'.length := by omega
    obtain ⟨h'', rest'', hdrop, hfold⟩ := ih (w := w ++ wire l) (h := b) hls hroom'
    refine ⟨h'', rest'', ?_, ?_⟩
    · rw [hdrop, ← hrest, List.drop_drop, List.flatMap_cons, List.length_append, length_wire]
      rw [show l.length + 1 + (ls.flatMap wire).length = l.length + (ls.flatMap wire).length + 1 by
        omega, List.drop_succ_cons]
    · rw [dotted, List.flatMap_cons, List.foldl_append, List.foldl_append,
        foldl_inside hl.noDot (by omega), List.nil_append, hrest, List.foldl_cons, List.foldl_nil,
        put_dot hl.short, ← dotted, hfold, List.flatMap_cons, List.append_assoc]

theorem finish_inside_nil (hw : 1 < w.length) :
    (inside w [] h rest).finish = (w ++ 0 :: rest, w.length + 1) := by
  simp [inside, Cursor.finish, Cursor.last, hw]

theorem finish_inside (hl : Plain l) {b : UInt8} :
    (inside w l h (b :: rest)).finish = (w ++ wire l ++ 0 :: rest, (w ++ wire l).length + 1) := by
  have hpos : 0 < l.length := List.length_pos_iff.mpr hl.nonempty
  have hlast : (inside w l h (b :: rest)).last =
      (w ++ wire l ++ b :: rest, (w ++ wire l).length) := by
    rw [Cursor.last, if_pos (show 0 < (inside w l h _).n from hpos), close_inside hl.short]
    simp [inside, Nat.add_assoc, Nat.add_comm 1]
  rw [Cursor.finish, hlast, if_pos (by simp; omega), set_append]

theorem write_inside (dst src : List UInt8) (hdst : 0 < dst.length) : ∃ h rest,
    dst = h :: rest ∧ write dst src = (src.foldl Cursor.put (inside [] [] h rest)).finish := by
  cases dst with
  | nil => cases hdst
  | cons h rest => exact ⟨h, rest, rfl, rfl⟩

variable {nm : Name} {dn : List UInt8}

theorem length_flatMap_wire (hls : ∀ l ∈ ls, Plain l) (hne : ls ≠ []) :
    1 < (ls.flatMap wire).length := by
  cases ls with
  | nil => exact absurd rfl hne
  | cons l ls =>
    have hpos : 0 < l.length :=
      List.length_pos_iff.mpr (hls l List.mem_cons_self).nonempty
    rw [List.flatMap_cons, List.length_append, length_wire]
    omega

theorem length_wireName (ls : List (List UInt8)) :
    (wireName ls).length = (ls.flatMap wire).length + 1 := by
  simp [wireName]

theorem write_dotted (hls : ∀ l ∈ ls, Plain l) (hne : ls ≠ [])
    (hroom : (wireName ls).length ≤ dst.length) : write dst (dotted ls) =
      (wireName ls ++ dst.drop (wireName ls).length, (wireName ls).length) := by
  rw [length_wireName] at hroom ⊢
  obtain ⟨h, rest, rfl, hwrite⟩ := write_inside dst (dotted ls) (by omega)
  rw [List.length_cons] at hroom
  obtain ⟨h', rest', hdrop, hfold⟩ :=
    foldl_dotted (w := []) (h := h) hls (Nat.le_of_succ_le_succ hroom)
  rw [hwrite, hfold, List.nil_append, finish_inside_nil (length_flatMap_wire hls hne), wireName,
    ← List.drop_drop, ← hdrop]
  simp

/-- The last label need not have a dot behind it. -/
theorem write_open (hls : ∀ l ∈ ls, Plain l) (hl : Plain l)
    (hroom : (wireName (ls ++ [l])).length ≤ dst.length) : write dst (dotted ls ++ l) =
      (wireName (ls ++ [l]) ++ dst.drop (wireName (ls ++ [l])).length,
        (wireName (ls ++ [l])).length) := by
  have hlength : (wireName (ls ++ [l])).length = (ls.flatMap wire).length + (l.length + 1) + 1 := by
    simp [length_wireName]
  rw [hlength] at hroom ⊢
  obtain ⟨h, rest, rfl, hwrite⟩ := write_inside dst (dotted ls ++ l) (by omega)
  rw [List.length_cons] at hroom
  obtain ⟨h', rest', hdrop, hfold⟩ := foldl_dotted (w := []) (h := h) hls
    (show _ ≤ rest.length by omega)
  have hrest := congrArg List.length hdrop
  rw [List.length_cons, List.length_drop, List.length_cons] at hrest
  obtain ⟨b, rest'', hlast⟩ : ∃ b rest'', rest'.drop l.length = b :: rest'' := by
    apply List.exists_cons_of_length_pos
    rw [List.length_drop]
    omega
  rw [hwrite, List.foldl_append, hfold, List.nil_append, foldl_inside hl.noDot (by omega),
    List.nil_append, hlast, finish_inside hl]
  have hbehind : (h :: rest).drop ((ls.flatMap wire).length + (l.length + 1)) = b :: rest'' := by
    rw [← List.drop_drop, ← hdrop, List.drop_succ_cons, hlast]
  rw [← List.drop_drop, hbehind]
  simp [wireName, wire]

/-- A name that fits is written out in front of what the buffer holds. -/
theorem write_name (hdn : nm.Given dn) (hroom : (wireName nm.labels).length ≤ dst.length) :
    write dst dn = (wireName nm.labels ++ dst.drop (wireName nm.labels).length,
      (wireName nm.labels).length) := by
  by_cases hls : nm.labels = []
  · rcases hdn with rfl | ⟨hne, -⟩
    · rw [hls] at hroom ⊢
      obtain ⟨h, rest, rfl, hwrite⟩ := write_inside dst nm.text hroom
      rw [hwrite]
      simp [Name.text, hls, wireName, Cursor.put, inside, Cursor.close, Cursor.finish, Cursor.last]
    · exact absurd hls hne
  · have htext : nm.text = dotted nm.labels := if_neg hls
    rcases hdn with rfl | ⟨-, hdn⟩
    · rw [htext]
      exact write_dotted nm.plain hls hroom
    · obtain ⟨ls, l, hpre⟩ : ∃ ls l, nm.labels = ls ++ [l] :=
        ⟨_, _, (List.dropLast_append_getLast hls).symm⟩
      have hplain : (∀ x ∈ ls, Plain x) ∧ Plain l := by
        have := nm.plain
        rw [hpre] at this
        simpa [or_imp, forall_and] using this
      obtain rfl : dn = dotted ls ++ l := by
        rw [htext, hpre, dotted, List.flatMap_append] at hdn
        have hlast : dn ++ [dot] = (dotted ls ++ l) ++ [dot] := by simpa [dotted] using hdn
        exact List.append_cancel_right hlast
      rw [hpre] at hroom ⊢
      exact write_open hplain.1 hplain.2 hroom

/-- A name that does not fit needs more than there is. -/
theorem write_long (dst : List UInt8) (hdn : nm.Given dn) :
    (write dst dn).2 = (wireName nm.labels).length := by
  rw [write_count dst (List.replicate (wireName nm.labels).length 0), write_name hdn (by simp)]

end Domain
end NetworkLabs.Dns
