import Mathlib.Algebra.Group.Nat.Defs
import Mathlib.Algebra.Ring.Int.Defs
import Mathlib.Data.List.AList
import Mathlib.Data.List.Sort

/-! The messages of the HTTP chat servers. -/
namespace NetworkLabs.Chat

/-- The value of a 32-bit `int`. -/
def int32 (x : Int) : Int := Int.bmod x (2 ^ 32)

/-- `Integer.MAX_VALUE`. -/
def maxInt : Int := 2 ^ 31 - 1

theorem int32_of_nonneg {x : Int} (h : 0 ≤ x) (h' : x ≤ maxInt) : int32 x = x := by
  unfold maxInt at h'
  rw [int32, Int.bmod_def]
  omega

structure Message where
  id : Int
  message : String
  authorID : Nat
deriving DecidableEq

structure MessageStorage where
  messageMap : AList fun _ : Int => Message
  currID : Int

/-- `List.subList`, which throws where the range leaves the list. -/
def subList (xs : List Message) (start stop : Int) : Option (List Message) :=
  if 0 ≤ start ∧ start ≤ stop ∧ stop ≤ xs.length then
    some ((xs.drop start.toNat).take (stop - start).toNat)
  else none

namespace MessageStorage

def empty : MessageStorage := ⟨∅, 0⟩

/-- The first half of `create`. -/
def put (s : MessageStorage) (text : String) (authorID : Nat) : MessageStorage :=
  { s with messageMap := s.messageMap.insert s.currID ⟨s.currID, text, authorID⟩ }

/-- The second half of `create`. -/
def increment (s : MessageStorage) : MessageStorage := { s with currID := int32 (s.currID + 1) }

/-- `create`, with nothing in between. -/
def create (s : MessageStorage) (text : String) (authorID : Nat) : MessageStorage :=
  (s.put text authorID).increment

/-- `ConcurrentHashMap.size` stops at the greatest `int`. -/
def size (s : MessageStorage) : Int := min s.messageMap.entries.length maxInt

/-- All messages in the order of their ids. -/
def sorted (s : MessageStorage) : List Message :=
  (s.messageMap.entries.map Sigma.snd).insertionSort fun a b => a.id ≤ b.id

def getAll (s : MessageStorage) (offset count : Int) : Option (List Message) :=
  if count = -1 then some s.sorted
  else
    let start := max (min offset s.currID) 0
    let stop := max (min (int32 (offset + count)) s.currID) 0
    subList s.sorted start stop

/-- The store holds the messages `all`, numbered from zero. -/
structure Numbered (s : MessageStorage) (all : List Message) : Prop where
  entries : s.messageMap.entries.Perm (all.map fun m => ⟨m.id, m⟩)
  ids : ∀ (k : Nat) (m : Message), all[k]? = some m → m.id = k

variable {s : MessageStorage} {all : List Message}

theorem numbered_empty : empty.Numbered [] := ⟨.refl _, by simp⟩

theorem Numbered.length (h : s.Numbered all) : s.messageMap.entries.length = all.length := by
  rw [h.entries.length_eq, List.length_map]

theorem Numbered.lookup (h : s.Numbered all) {m : Message} (hm : m ∈ all) :
    s.messageMap.lookup m.id = some m :=
  AList.mem_lookup_iff.mpr (h.entries.mem_iff.mpr (List.mem_map_of_mem hm))

theorem Numbered.pairwise (h : s.Numbered all) : all.Pairwise fun a b => a.id < b.id := by
  rw [List.pairwise_iff_getElem]
  intro i j hi hj hij
  rw [h.ids i _ (List.getElem?_eq_getElem hi), h.ids j _ (List.getElem?_eq_getElem hj)]
  omega

theorem Numbered.map_id_take (h : s.Numbered all) {k : Nat} (hk : k ≤ all.length) :
    (all.take k).map Message.id = (List.range k).map Int.ofNat := by
  apply List.ext_getElem (by simp [hk])
  intro i hi hi'
  have hlt : i < all.length := by
    simp at hi
    omega
  simp [h.ids i _ (List.getElem?_eq_getElem hlt)]

theorem Numbered.eq_of_id (h : s.Numbered all) {a b : Message} (ha : a ∈ all) (hb : b ∈ all)
    (hab : a.id = b.id) : a = b := by
  obtain ⟨i, hi⟩ := List.mem_iff_getElem?.mp ha
  obtain ⟨j, hj⟩ := List.mem_iff_getElem?.mp hb
  have hia := h.ids i a hi
  have hjb := h.ids j b hj
  have hij : i = j := by omega
  subst hij
  exact Option.some.inj (hi.symm.trans hj)

/-- The order of the map does not matter. -/
theorem Numbered.sorted (h : s.Numbered all) : s.sorted = all := by
  have hperm : (s.messageMap.entries.map Sigma.snd).Perm all := by
    simpa [Function.comp_def] using h.entries.map Sigma.snd
  have hsorted : s.sorted.Pairwise fun a b => a.id ≤ b.id :=
    List.pairwise_insertionSort (fun a b : Message => a.id ≤ b.id) _
  have hall : all.Pairwise fun a b => a.id ≤ b.id := h.pairwise.imp fun hlt => Int.le_of_lt hlt
  have hsame : s.sorted.Perm all := (List.perm_insertionSort _ _).trans hperm
  refine List.Perm.eq_of_pairwise ?_ hsorted hall hsame
  intro a b ha hb hab hba
  exact h.eq_of_id (hsame.mem_iff.mp ha) hb (Int.le_antisymm hab hba)

/-- A new message comes last. -/
theorem Numbered.put (h : s.Numbered all) (hc : s.currID = all.length) (text : String)
    (authorID : Nat) :
    (s.put text authorID).Numbered (all ++ [⟨s.currID, text, authorID⟩]) := by
  have hnew : s.currID ∉ s.messageMap := by
    intro hmem
    obtain ⟨m, hm⟩ := Option.isSome_iff_exists.mp (AList.lookup_isSome.mpr hmem)
    have hentry := h.entries.mem_iff.mp (AList.mem_lookup_iff.mp hm)
    obtain ⟨m', hm', heq⟩ := List.mem_map.mp hentry
    obtain ⟨k, hk⟩ := List.mem_iff_getElem?.mp hm'
    have hid := h.ids k m' hk
    have hlt := (List.getElem?_eq_some_iff.mp hk).1
    have hcurr : m'.id = s.currID := congrArg Sigma.fst heq
    omega
  refine ⟨?_, ?_⟩
  · rw [MessageStorage.put, AList.entries_insert_of_notMem hnew, List.map_append]
    exact (h.entries.cons _).trans (List.perm_append_singleton _ _).symm
  · intro k m hm
    rw [List.getElem?_append] at hm
    split at hm
    · exact h.ids k m hm
    · rename_i hk
      have hi := List.getElem?_eq_some_iff.mp hm
      simp only [List.length_singleton] at hi
      obtain ⟨hlt, heq⟩ := hi
      have hk' : k = all.length := by omega
      subst hk'
      simp at heq
      rw [← heq, hc]

/-- A range that is counted in `currID` already. -/
theorem Numbered.getAll (h : s.Numbered all) {start stop : Int} (h0 : 0 ≤ start)
    (hlt : start < stop)
    (hc : stop ≤ s.currID) (hlen : stop ≤ all.length) (hmax : s.currID ≤ maxInt) :
    s.getAll start (stop - start) = some ((all.drop start.toNat).take (stop - start).toNat) := by
  have hcount : stop - start ≠ -1 := by omega
  have hstart : max (min start s.currID) 0 = start := by omega
  have hsum : start + (stop - start) = stop := by omega
  have hstop : max (min stop s.currID) 0 = stop := by omega
  have hrange : 0 ≤ start ∧ start ≤ stop ∧ stop ≤ all.length := by omega
  simp only [MessageStorage.getAll, if_neg hcount, hsum,
    int32_of_nonneg (by omega) (by omega : stop ≤ maxInt), hstart, hstop, h.sorted, subList,
    if_pos hrange]

end MessageStorage

end NetworkLabs.Chat
