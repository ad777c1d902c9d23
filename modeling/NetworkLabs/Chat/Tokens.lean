import NetworkLabs.Chat.Sessions

/-! What the token map says about the accounts, after any operations. -/
namespace NetworkLabs.Chat

open Transition UserStorage

variable {gen : String → String} {s t : UserStorage} {token token' : String} {id : Nat}

namespace UserStorage

/-- A user has one token at most. So a bound token is checked successfully, and removing the
first token found for a user removes all that the user has, and no others. -/
structure Revocable (s : UserStorage) : Prop where
  unique : ∀ token token' id, s.tokenMap.lookup token = some id →
    s.tokenMap.lookup token' = some id → token = token'
  checked : ∀ token id, s.tokenMap.lookup token = some id → s.checkToken token = some id
  any : ∀ token id, s.tokenMap.lookup token = some id →
    ∀ token', (s.tokenMap.erase token).lookup token' ≠ some id
  first : ∀ (user : User) (token : String) (id : Nat),
    (s.removeToken user).tokenMap.lookup token = some id ↔
      s.tokenMap.lookup token = some id ∧ id ≠ user.id

/-- The accounts stay where they are, and new ones come after them. -/
def Extends (s t : UserStorage) : Prop :=
  (s.userList.map fun u => (u.id, u.username)) <+: t.userList.map fun u => (u.id, u.username)

theorem Represented.token_unique (hs : s.Represented gen) (h : s.tokenMap.lookup token = some id)
    (h' : s.tokenMap.lookup token' = some id) : token = token' := by
  obtain ⟨u, hu, htoken⟩ := hs.tokens token id h
  obtain ⟨v, hv, htoken'⟩ := hs.tokens token' id h'
  rw [← htoken, ← htoken', Option.some.inj (hu.symm.trans hv)]

theorem Represented.checkToken_of_lookup (hs : s.Represented gen)
    (h : s.tokenMap.lookup token = some id) : s.checkToken token = some id := by
  obtain ⟨u, hu, -⟩ := hs.tokens token id h
  obtain ⟨hlt, hget⟩ := List.getElem?_eq_some_iff.mp hu
  apply Option.bind_eq_some_iff.mpr
  refine ⟨id, h, List.findIdx?_eq_some_iff_getElem.mpr ⟨hlt, ?_, ?_⟩⟩
  · rw [hget]
    exact decide_eq_true (hs.ids id u hu)
  · intro j hj
    have hjlt : j < s.userList.length := Nat.lt_trans hj hlt
    have hid := hs.ids j _ (List.getElem?_eq_getElem hjlt)
    simp only [hid, decide_eq_true_eq]
    omega

theorem Represented.lookup_erase (hs : s.Represented gen) (h : s.tokenMap.lookup token = some id)
    (token' : String) : (s.tokenMap.erase token).lookup token' ≠ some id := by
  intro h'
  by_cases hne : token' = token
  · subst hne
    rw [AList.lookup_erase] at h'
    cases h'
  · rw [AList.lookup_erase_ne hne] at h'
    exact hne (hs.token_unique h' h)

theorem Represented.lookup_removeToken_ne (hs : s.Represented gen) (user : User) (token : String) :
    (s.removeToken user).tokenMap.lookup token ≠ some user.id := by
  unfold removeToken
  cases hfind : s.tokenMap.entries.find? fun entry => user.id = entry.2 with
  | some entry =>
    have hid : user.id = entry.2 := by simpa using List.find?_some hfind
    have hentry := lookup_of_find? hfind
    rw [← hid] at hentry
    exact hs.lookup_erase hentry token
  | none =>
    intro h
    have hmem : ⟨token, user.id⟩ ∈ s.tokenMap.entries := AList.mem_lookup_iff.mp h
    have hne := List.find?_eq_none.mp hfind _ hmem
    simp at hne

theorem Represented.revocable (hs : s.Represented gen) : s.Revocable := by
  refine ⟨fun _ _ _ => hs.token_unique, fun _ _ => hs.checkToken_of_lookup,
    fun _ _ => hs.lookup_erase, ?_⟩
  intro user token id
  constructor
  · intro h
    refine ⟨lookup_of_removeToken h, ?_⟩
    rintro rfl
    exact hs.lookup_removeToken_ne user token h
  · rintro ⟨h, hid⟩
    exact lookup_removeToken hid h

theorem Represented.extends_step (hs : s.Represented gen) (op : Operation) :
    s.Extends (s.step gen op).1 := by
  rcases step_cases hs op with ⟨username, now, t, -, -, ht, hstep⟩ | ⟨-, t, ht, hstep⟩
  · rw [hstep, Extends, ht.userList, List.map_append]
    exact List.prefix_append _ _
  · have hmap : t.userList.map (fun u => (u.id, u.username)) =
        s.userList.map fun u => (u.id, u.username) :=
      History.map_renewed (fun u v huv => by rw [huv.id, huv.username]) ht.users
    rw [hstep, Extends, hmap]

end UserStorage

namespace History

theorem after_append_singleton (gen : String → String) (ops : List Operation) (op : Operation) :
    after gen (ops ++ [op]) = (after gen ops).step gen op := List.foldl_append

theorem represented_after (gen : String → String) (ops : List Operation) :
    (after gen ops).users.Represented gen := by
  induction ops using List.reverseRecOn with
  | nil => exact represented_empty
  | append_singleton ops op ih =>
    rw [after_append_singleton]
    exact represented_step ih op

theorem extends_after (gen : String → String) (ops ops' : List Operation) :
    (after gen ops).users.Extends (after gen (ops ++ ops')).users := by
  induction ops' using List.reverseRecOn with
  | nil =>
    rw [List.append_nil]
    exact List.prefix_refl _
  | append_singleton ops' op ih =>
    rw [← List.append_assoc, after_append_singleton]
    exact ih.trans ((represented_after gen (ops ++ ops')).extends_step op)

/-- After any operations the list, the tokens and the counter agree, and more operations
only add accounts. -/
theorem tokens_represent (gen : String → String) (ops ops' : List Operation) :
    (after gen ops).users.Represented gen ∧ (after gen ops).users.Revocable ∧
      (after gen ops).users.Extends (after gen (ops ++ ops')).users :=
  ⟨represented_after gen ops, (represented_after gen ops).revocable, extends_after gen ops ops'⟩

end History

end NetworkLabs.Chat
