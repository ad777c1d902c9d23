import NetworkLabs.Chat.Client

/-! Pages of messages, for every offset and count that a request may have. -/
namespace NetworkLabs.Chat.MessageStorage

/-- The store after some calls of `create`. -/
def created (posts : List (String × Nat)) : MessageStorage :=
  posts.foldl (fun s post => s.create post.1 post.2) empty

/-- The messages that these calls returned. -/
def posted (posts : List (String × Nat)) : List Message :=
  posts.mapIdx fun k post => ⟨k, post.1, post.2⟩

/-- The messages that were asked for. -/
structure Page (all : List Message) (offset count : Int) (page : List Message) : Prop where
  mem : ∀ m, m ∈ page ↔ m ∈ all ∧ offset ≤ m.id ∧ m.id < offset + count
  ascending : page.Pairwise fun a b => a.id < b.id

/-- A request is answered, and with its page if there can be one. -/
structure Pages (all : List Message) (offset count : Int) (got : Option (List Message)) : Prop where
  page : 0 ≤ offset → 0 ≤ count → ∃ page, got = some page ∧ Page all offset count page
  answered : offset < 0 ∨ count < 0 → got ≠ none

/-- The range neither overflows nor ends before it begins. -/
def InRange (size : Nat) (offset count : Int) : Prop :=
  offset ≤ 0 ∨ size = 0 ∨ (0 ≤ count ∧ offset + count ≤ maxInt) ∨
    (count < 0 ∧ size ≤ offset + count)

variable {s : MessageStorage} {all : List Message} {offset count : Int}

theorem stored_created (posts : List (String × Nat)) (h : (posts.length : Int) ≤ maxInt) :
    (created posts).Stored (posted posts) := by
  induction posts using List.reverseRecOn with
  | nil => exact stored_empty
  | append_singleton posts post ih =>
    rw [List.length_append, List.length_singleton] at h
    have hprev := ih (by omega)
    have hcurr : (created posts).currID = posts.length := by
      rw [hprev.currID, posted, List.length_mapIdx]
    have hnext := hprev.create (by omega) post.1 post.2
    rw [hcurr] at hnext
    simpa [created, posted, List.mapIdx_concat] using hnext

/-- Positions in the list are ids. -/
theorem Numbered.mem_range (h : s.Numbered all) (start stop : Nat) (m : Message) :
    m ∈ (all.drop start).take (stop - start) ↔ m ∈ all ∧ (start : Int) ≤ m.id ∧ m.id < stop := by
  constructor
  · intro hm
    obtain ⟨k, hk⟩ := List.mem_iff_getElem?.mp hm
    have hlt : k < stop - start := by
      have := (List.getElem?_eq_some_iff.mp hk).1
      rw [List.length_take] at this
      omega
    rw [List.getElem?_take_of_lt hlt, List.getElem?_drop] at hk
    have hid := h.ids _ m hk
    exact ⟨List.mem_iff_getElem?.mpr ⟨_, hk⟩, by omega, by omega⟩
  · rintro ⟨hm, hstart, hstop⟩
    obtain ⟨k, hk⟩ := List.mem_iff_getElem?.mp hm
    have hid := h.ids k m hk
    refine List.mem_iff_getElem?.mpr ⟨k - start, ?_⟩
    rw [List.getElem?_take_of_lt (by omega), List.getElem?_drop, Nat.add_sub_cancel' (by omega)]
    exact hk

theorem Numbered.ascending (h : s.Numbered all) (start n : Nat) :
    ((all.drop start).take n).Pairwise fun a b => a.id < b.id :=
  h.pairwise.sublist ((List.take_sublist _ _).trans (List.drop_sublist _ _))

theorem int32_bounds {x : Int} (h : int32 x = x) : -maxInt - 1 ≤ x ∧ x ≤ maxInt := by
  rw [int32, Int.bmod_def] at h
  unfold maxInt
  omega

section Range

variable (ho : int32 offset = offset) (hc : int32 count = count)
include ho hc

theorem range_iff {n : Nat} (hn : (n : Int) ≤ maxInt) :
    (0 ≤ max (min offset n) 0 ∧
      max (min offset n) 0 ≤ max (min (int32 (offset + count)) n) 0 ∧
        max (min (int32 (offset + count)) n) 0 ≤ n) ↔ InRange n offset count := by
  have hoffset := int32_bounds ho
  have hcount := int32_bounds hc
  rw [InRange, int32, Int.bmod_def]
  unfold maxInt at *
  omega

/-- The request throws exactly if its range leaves the list. -/
theorem Stored.getPage_ne_none_iff (h : s.Stored all) :
    s.getPage offset count ≠ none ↔ InRange all.length offset count := by
  have hbound := h.bound
  rw [← range_iff ho hc (n := all.length) (by rwa [← h.currID])]
  simp only [MessageStorage.getPage, subList, h.numbered.sorted, h.currID]
  split <;> simp_all

/-- A range that does not overflow is cut off at the end of the list. -/
theorem Stored.getPage_inRange (h : s.Stored all) (h0 : 0 ≤ offset) (h0' : 0 ≤ count)
    (hrange : InRange all.length offset count) : ∃ start stop : Nat,
      s.getPage offset count = some ((all.drop start).take (stop - start)) ∧
        ∀ k < all.length, start ≤ k ∧ k < stop ↔ offset ≤ k ∧ k < offset + count := by
  have hbound := h.bound
  rw [h.currID] at hbound
  have hok := (range_iff ho hc hbound).mpr hrange
  refine ⟨(max (min offset all.length) 0).toNat,
    (max (min (int32 (offset + count)) all.length) 0).toNat, ?_, ?_⟩
  · simp only [MessageStorage.getPage, subList, h.numbered.sorted, h.currID, if_pos hok]
    congr 2
    omega
  · have hoffset := int32_bounds ho
    have hcount := int32_bounds hc
    intro k hk
    rw [InRange] at hrange
    rw [int32, Int.bmod_def]
    unfold maxInt at *
    omega

theorem Stored.pages_getPage_iff (h : s.Stored all) :
    Pages all offset count (s.getPage offset count) ↔ InRange all.length offset count := by
  have hiff := h.getPage_ne_none_iff ho hc
  constructor
  · rintro ⟨hpage, hanswered⟩
    by_cases hneg : offset < 0 ∨ count < 0
    · exact hiff.mp (hanswered hneg)
    · obtain ⟨page, hget, -⟩ := hpage (by omega) (by omega)
      exact hiff.mp (by simp [hget])
  · intro hrange
    refine ⟨fun h0 h0' => ?_, fun _ => hiff.mpr hrange⟩
    obtain ⟨start, stop, hget, hbetween⟩ := h.getPage_inRange ho hc h0 h0' hrange
    refine ⟨_, hget, fun m => ?_, h.numbered.ascending _ _⟩
    rw [h.numbered.mem_range]
    apply and_congr_right
    intro hm
    obtain ⟨k, hk⟩ := List.mem_iff_getElem?.mp hm
    have hlt := (List.getElem?_eq_some_iff.mp hk).1
    have hid := h.numbered.ids k m hk
    have hbetween := hbetween k hlt
    omega

theorem Stored.pages_getAll_iff (h : s.Stored all) :
    Pages all offset count (s.getAll offset count) ↔
      count = -1 ∨ InRange all.length offset count := by
  by_cases hall : count = -1
  · rw [MessageStorage.getAll, if_pos hall]
    refine iff_of_true ⟨fun _ h0 => ?_, fun _ => by simp⟩ (.inl hall)
    omega
  · rw [MessageStorage.getAll, if_neg hall, or_iff_right hall]
    exact h.pages_getPage_iff ho hc

end Range

/-- After any posts, in both servers, a request has its page and does not throw exactly if its
range is in order; only the fifth server knows the count -1. -/
theorem paging_iff (posts : List (String × Nat)) (hposts : (posts.length : Int) < 2 ^ 31)
    (ho : int32 offset = offset) (hc : int32 count = count) :
    (Pages (posted posts) offset count ((created posts).getPage offset count) ↔
      InRange posts.length offset count) ∧
    (Pages (posted posts) offset count ((created posts).getAll offset count) ↔
      count = -1 ∨ InRange posts.length offset count) := by
  have hstored := stored_created posts (by unfold maxInt; omega)
  have hlen : (posted posts).length = posts.length := List.length_mapIdx
  rw [← hlen]
  exact ⟨hstored.pages_getPage_iff ho hc, hstored.pages_getAll_iff ho hc⟩

theorem paging_two : Pages (posted [("a", 1), ("b", 1)]) 1 10
    ((created [("a", 1), ("b", 1)]).getAll 1 10) :=
  (paging_iff [("a", 1), ("b", 1)] (by decide) (by decide) (by decide)).2.mpr
    (.inr (.inr (.inr (.inl (by decide)))))

/-- The greatest count behind the first message. -/
theorem not_paging : ¬ ∀ posts offset count, (posts.length : Int) < 2 ^ 31 →
    int32 offset = offset → int32 count = count →
      Pages (posted posts) offset count ((created posts).getPage offset count) ∧
        Pages (posted posts) offset count ((created posts).getAll offset count) := by
  intro hall
  have hpages := (hall [("a", 1)] 1 maxInt (by decide) (by decide) (by decide)).2
  obtain ⟨page, hget, -⟩ := hpages.page (by decide) (by decide)
  cases hget

end NetworkLabs.Chat.MessageStorage
